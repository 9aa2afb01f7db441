import Zagg.Lib.Dict
import Zagg.Stage.MergeSpec
import Zagg.Sweep.FoldDigests

/-!
# The streaming digest loop

The digest class of a merge holds the open output cells in a dictionary and their words in
one dictionary a channel. A child's payloads are appended to the cells they fall into; when it
is done, the cells wholly covered by the children so far are popped, channel by channel, and
folded. The fold is a parameter of the loop, and `calls` records what it was called with.
-/
namespace Zagg.Stage

open Zagg.Lib Zagg.Stats

variable {χ V N : Type}

section Dicts
variable {κ ν : Type} [DecidableEq κ]

/-- `d.setdefault(k, []).append(x)`. -/
def push (k : κ) (x : ν) (d : List (κ × List ν)) : List (κ × List ν) :=
  put k ((d.lookup k).getD [] ++ [x]) d

/-- `d.pop(k)`. -/
def pop (k : κ) (d : List (κ × ν)) : Except String (ν × List (κ × ν)) :=
  match d.lookup k with
  | some v => .ok (v, d.filter fun e => e.1 ≠ k)
  | none => .error "KeyError"

theorem lookup_push (k j : κ) (x : ν) (d : List (κ × List ν)) :
    (push k x d).lookup j =
      if j = k then some ((d.lookup k).getD [] ++ [x]) else d.lookup j := lookup_put ..

theorem lookup_pop {k : κ} {v : ν} {d d' : List (κ × ν)} (h : pop k d = .ok (v, d')) (j : κ) :
    d.lookup k = some v ∧ d'.lookup j = if j = k then none else d.lookup j := by
  unfold pop at h
  split at h
  · cases h
    refine ⟨‹_›, ?_⟩
    by_cases hj : j = k
    · rw [if_pos hj, lookup_eq_none, hj, List.mem_map]
      intro ⟨e, he, hk⟩
      exact of_decide_eq_true (List.mem_filter.mp he).2 hk
    · rw [if_neg hj, lookup_filter_ne hj]
  · cases h

theorem nodup_pop {k : κ} {v : ν} {d d' : List (κ × ν)} (h : pop k d = .ok (v, d'))
    (hnd : (d.map Prod.fst).Nodup) : (d'.map Prod.fst).Nodup := by
  unfold pop at h
  split at h
  · cases h
    exact hnd.sublist ((List.filter_sublist ..).map _)
  · cases h

theorem pop_of_lookup {k : κ} {v : ν} {d : List (κ × ν)} (h : d.lookup k = some v) :
    ∃ d', pop k d = .ok (v, d') := by
  rw [pop, h]
  exact ⟨_, rfl⟩

end Dicts

/-- One call of `fold_digests`: the cell it is for and its arguments. -/
structure FoldCall where
  cell : Nat
  digests : List Digest
  channels : List (Channel × List Words)
deriving DecidableEq

/-- `fold_digests` at a field's budget and dtype. -/
abbrev CellFold := List Digest → List (Channel × List Words) → Except String (Digest × List Words)

/-- The loop's own call of `fold_digests`: by keyword, or without channels. -/
def cellFold (num : Numerics) (m : WordFolds) (delta : Nat) (asUint64 : ℚ → Nat)
    (text : Sweep.FoldError → String) : CellFold := fun digests channels =>
  (Sweep.foldDigests num m delta asUint64 digests
    (if channels = [] then none else some (channels.map fun c => (toString c.1, c.2)))).mapError text

structure DigestLoop where
  pending : List (Nat × List Digest)
  words : Channel → List (Nat × List Words)
  out : List Digest
  siblings : Channel → List Words
  calls : List FoldCall

namespace DigestLoop

/-- No cell is open, and every payload is empty. -/
def start (nOut : Nat) : DigestLoop :=
  ⟨[], fun _ => [], List.replicate nOut [], fun _ => List.replicate nOut [], []⟩

/-- One nonempty payload, and the words beside it in every declared channel. -/
def append (st : DigestLoop) (key : Nat) (digest : Digest) (words : List (Channel × Words)) :
    DigestLoop :=
  { st with
    pending := push key digest st.pending
    words := words.foldl (fun d c => Function.update d c.1 (push key c.2 (d c.1))) st.words }

/-- The payloads of one contributor. -/
def add (st : DigestLoop) (base factor srcPerChild : Nat) (slab : Nat → Digest)
    (siblings : List (Channel × (Nat → Words))) : DigestLoop :=
  (List.range srcPerChild).foldl (fun st pos =>
    if slab pos = [] then st
    else st.append ((base + pos) / factor) (slab pos) (siblings.map fun c => (c.1, c.2 pos))) st

/-- `{kwarg: words[kwarg].pop(j) for kwarg, _ in declared}`. -/
def popWords (j : Nat) (declared : List Channel) (words : Channel → List (Nat × List Words)) :
    Except String (List (Channel × List Words) × (Channel → List (Nat × List Words))) :=
  declared.foldlM (fun st c => do
    let (vectors, rest) ← pop j (st.2 c)
    return (st.1 ++ [(c, vectors)], Function.update st.2 c rest)) ([], words)

/-- `zip(declared, encoded, strict=True)`, where channels are declared. -/
def strictZip (declared : List Channel) (value : Digest × List Words) :
    Except String (Digest × List Words) :=
  if declared ≠ [] ∧ value.2.length ≠ declared.length then
    .error "zip() arguments have different lengths"
  else .ok value

/-- `out[j] = payload` and the siblings' slots, one for every declared channel. -/
def store (st : DigestLoop) (j : Nat) (declared : List Channel) (value : Digest × List Words) :
    Except String DigestLoop :=
  if st.out.length ≤ j then .error "index is out of bounds"
  else do
    let value ← strictZip declared value
    return { st with
      out := st.out.set j value.1
      siblings := (declared.zip value.2).foldl
        (fun s c => Function.update s c.1 ((s c.1).set j c.2)) st.siblings }

/-- `_close`: pop one cell with its channels and fold them in one call. -/
def close (fold : CellFold) (declared : List Channel) (st : DigestLoop) (j : Nat) :
    Except String DigestLoop := do
  let (cell, pending) ← pop j st.pending
  let (channels, words) ← popWords j declared st.words
  let value ← fold cell channels
  store ⟨pending, words, st.out, st.siblings, st.calls ++ [⟨j, cell, channels⟩]⟩ j declared value

/-- `_close` the open cells below `done`. -/
def closeBelow (fold : CellFold) (declared : List Channel) (done : Nat) (st : DigestLoop) :
    Except String DigestLoop :=
  ((st.pending.map Prod.fst).filter (· < done)).foldlM (close fold declared) st

def closeAll (fold : CellFold) (declared : List Channel) (st : DigestLoop) :
    Except String DigestLoop :=
  (st.pending.map Prod.fst).foldlM (close fold declared) st

end DigestLoop

section Loop
variable (fold : CellFold) (declared : List Channel) (res srcPerChild factor : Nat) (name : N)

/-- One contributor of a child. -/
def loopSlot (i : Nat) (st : DigestLoop × Broken) (slot : Slot χ × Nat) :
    Fold χ V N (DigestLoop × Broken) :=
  match slot.1.reader? with
  | some r => do
    match ← companionGroup r res name declared with
    | none => return (st.1, st.2 ++ [(i, slot.2)])
    | some (none, _) => return st
    | some (some slab, siblings) =>
      return (st.1.add (i * srcPerChild) factor srcPerChild slab
        (declared.zip (siblings.map fun s => s.getD fun _ => [])), st.2)
  | none => return st

/-- One child; the cells it completes are closed. -/
def loopRow (st : DigestLoop × Broken) (row : Option (Row χ) × Nat) :
    Fold χ V N (DigestLoop × Broken) := do
  let st ← (row.1.getD []).zipIdx.foldlM (loopSlot declared res srcPerChild factor name row.2) st
  let done := (row.2 + 1) * srcPerChild / factor
  let loop ← ReadProg.ofExcept (st.1.closeBelow fold declared done)
  return (loop, st.2)

/-- The digest class of `_merge_slabs` for one field. -/
def digestLoop (rows : Rows χ) (nOut : Nat) (broken : Broken) :
    Fold χ V N (DigestLoop × Broken) := do
  let st ← rows.zipIdx.foldlM (loopRow fold declared res srcPerChild factor name)
    (DigestLoop.start nOut, broken)
  let loop ← ReadProg.ofExcept (st.1.closeAll fold declared)
  return (loop, st.2)

end Loop

section Cells
variable (fold : CellFold) (declared : List Channel)

/-- One channel's vectors of a cell's contributions. -/
def channelOf (parts : List Part) (c : Channel) : List Words :=
  parts.map fun p => p.words.getD (declared.idxOf c) []

/-- The one call a cell's contributions are due. -/
def callOf (j : Nat) (parts : List Part) : FoldCall :=
  ⟨j, parts.map Part.digest, declared.map fun c => (c, channelOf declared parts c)⟩

/-- The flat fold of a cell: all of its contributions in one call, if there are any. -/
def flatFold (parts : List Part) : Except String (Digest × List Words) :=
  if parts = [] then .ok ([], declared.map fun _ => [])
  else fold (parts.map Part.digest) (declared.map fun c => (c, channelOf declared parts c)) >>=
    DigestLoop.strictZip declared

/-- Cell `j` of the outputs holds a fold's payload and, channel by channel, its words. -/
def Holds (st : DigestLoop) (j : Nat) (value : Digest × List Words) : Prop :=
  st.out[j]? = some value.1 ∧
    ∀ c ∈ declared, (st.siblings c)[j]? = some (value.2.getD (declared.idxOf c) [])

/-- The loop with the contributions `parts` read and the cells `closed` folded: the other
cells are open in every dictionary, and each closed one was folded in one call. -/
structure LoopInv (nOut : Nat) (parts : Nat → List Part) (closed : Nat → Bool)
    (st : DigestLoop) : Prop where
  keys : (st.pending.map Prod.fst).Nodup
  pending : ∀ j, st.pending.lookup j =
    if closed j = false ∧ parts j ≠ [] then some ((parts j).map Part.digest) else none
  words : ∀ c ∈ declared, ∀ j, (st.words c).lookup j =
    if closed j = false ∧ parts j ≠ [] then some (channelOf declared (parts j) c) else none
  calls : ∀ j, st.calls.filter (fun call => call.cell = j) =
    if closed j = true ∧ parts j ≠ [] then [callOf declared j (parts j)] else []
  bound : ∀ j, parts j ≠ [] → j < nOut
  sizes : st.out.length = nOut ∧ ∀ c ∈ declared, (st.siblings c).length = nOut
  value : ∀ j < nOut, ∃ value,
    flatFold fold declared (if closed j = true then parts j else []) = .ok value ∧
      Holds declared st j value

variable {fold declared} {nOut : Nat} {parts : Nat → List Part} {closed : Nat → Bool}
  {st : DigestLoop}

theorem loopInv_start : LoopInv fold declared nOut (fun _ => []) (fun _ => false)
    (DigestLoop.start nOut) := by
  refine ⟨List.nodup_nil, fun j => ?_, fun c _ j => ?_, fun j => ?_, fun j h => absurd rfl h,
    ⟨List.length_replicate .., fun c _ => List.length_replicate ..⟩, fun j hj => ?_⟩
  · rw [if_neg fun h => h.2 rfl]
    rfl
  · rw [if_neg fun h => h.2 rfl]
    rfl
  · rw [if_neg fun h => h.2 rfl]
    rfl
  · refine ⟨([], declared.map fun _ => []), rfl, ?_, fun c hc => ?_⟩
    · exact List.getElem?_replicate_of_lt hj
    · have hidx := List.idxOf_lt_length_of_mem hc
      show (List.replicate nOut _)[j]? = _
      rw [List.getElem?_replicate_of_lt hj, List.getD_eq_getElem?_getD, List.getElem?_map,
        List.getElem?_eq_getElem hidx]
      rfl

/-- Which cells count as closed matters only where something was contributed. -/
theorem LoopInv.congr_closed (h : LoopInv fold declared nOut parts closed st)
    {closed' : Nat → Bool} (hc : ∀ j, parts j ≠ [] → closed j = closed' j) :
    LoopInv fold declared nOut parts closed' st := by
  have hiff (j : Nat) (b : Bool) : closed j = b ∧ parts j ≠ [] ↔ closed' j = b ∧ parts j ≠ [] := by
    constructor
    · intro ⟨hb, hne⟩
      exact ⟨hc j hne ▸ hb, hne⟩
    · intro ⟨hb, hne⟩
      exact ⟨hc j hne ▸ hb, hne⟩
  refine ⟨h.keys, fun j => ?_, fun c hmem j => ?_, fun j => ?_, h.bound, h.sizes, fun j hj => ?_⟩
  · rw [h.pending j]
    simp only [hiff]
  · rw [h.words c hmem j]
    simp only [hiff]
  · rw [h.calls j]
    simp only [hiff]
  · obtain ⟨value, hvalue, hholds⟩ := h.value j hj
    refine ⟨value, ?_, hholds⟩
    by_cases hne : parts j = []
    · rw [hne, ite_self] at hvalue ⊢
      exact hvalue
    · rw [← hc j hne]
      exact hvalue

theorem mem_zip_idxOf {vs : List Words} (hlen : vs.length = declared.length) {c : Channel}
    (hc : c ∈ declared) : (c, vs.getD (declared.idxOf c) []) ∈ declared.zip vs := by
  have hidx := List.idxOf_lt_length_of_mem hc
  rw [List.mem_iff_getElem]
  refine ⟨declared.idxOf c, by rw [List.length_zip]; omega, ?_⟩
  rw [List.getElem_zip, List.getElem_idxOf hidx, List.getD_eq_getElem _ _ (by omega)]

theorem map_fst_zip_words {vs : List Words} (hlen : vs.length = declared.length) :
    (declared.zip vs).map Prod.fst = declared := List.map_fst_zip hlen.ge

/-- A dictionary that is right before a contribution is right after it. -/
theorem lookup_push_open {ν : Type} {entry : Part → ν} {d : List (Nat × List ν)}
    (hd : ∀ j, d.lookup j =
      if closed j = false ∧ parts j ≠ [] then some ((parts j).map entry) else none)
    {key : Nat} (hopen : closed key = false) (p : Part) (j : Nat) :
    (push key (entry p) d).lookup j =
      if closed j = false ∧ Function.update parts key (parts key ++ [p]) j ≠ [] then
        some ((Function.update parts key (parts key ++ [p]) j).map entry) else none := by
  rw [lookup_push]
  by_cases hj : j = key
  · have hold : (d.lookup key).getD [] = (parts key).map entry := by
      rw [hd key]
      by_cases hnil : parts key = []
      · rw [if_neg fun h => h.2 hnil, hnil]
        rfl
      · rw [if_pos ⟨hopen, hnil⟩]
        rfl
    have hne : parts key ++ [p] ≠ [] :=
      List.append_ne_nil_of_right_ne_nil _ (List.cons_ne_nil _ _)
    rw [hj, if_pos rfl, hold, Function.update_self, if_pos ⟨hopen, hne⟩, List.map_append]
    rfl
  · rw [if_neg hj, Function.update_of_ne hj]
    exact hd j

/-- A dictionary that is right before a cell is popped is right with the cell closed. -/
theorem lookup_popped {ν : Type} {entries : List Part → ν} {d d' : List (Nat × ν)} {key : Nat}
    (hd : ∀ j, d.lookup j =
      if closed j = false ∧ parts j ≠ [] then some (entries (parts j)) else none)
    (hpop : ∀ j, d'.lookup j = if j = key then none else d.lookup j) (j : Nat) :
    d'.lookup j = if (closed j || j == key) = false ∧ parts j ≠ [] then
      some (entries (parts j)) else none := by
  rw [hpop j]
  by_cases hj : j = key
  · rw [if_pos hj, beq_iff_eq.mpr hj, Bool.or_true, if_neg fun h => nomatch h.1]
  · rw [if_neg hj, beq_eq_false_iff_ne.mpr hj, Bool.or_false]
    exact hd j

/-- One contribution is appended to an open cell. -/
theorem LoopInv.append (h : LoopInv fold declared nOut parts closed st) (hnd : declared.Nodup)
    {key : Nat} (hopen : closed key = false) (hkey : key < nOut) {p : Part}
    (hp : p.words.length = declared.length) :
    LoopInv fold declared nOut (Function.update parts key (parts key ++ [p])) closed
      (st.append key p.digest (declared.zip p.words)) := by
  have hother {j : Nat} (hj : j ≠ key) : Function.update parts key (parts key ++ [p]) j = parts j :=
    Function.update_of_ne hj ..
  refine ⟨nodup_put _ _ h.keys, fun j => ?_, fun c hc j => ?_, fun j => ?_, fun j hj => ?_, h.sizes,
    fun j hj => ?_⟩
  · exact lookup_push_open h.pending hopen p j
  · have hwords : (st.append key p.digest (declared.zip p.words)).words c =
        push key (p.words.getD (declared.idxOf c) []) (st.words c) :=
      foldl_update_of_mem Prod.fst (fun e d => push key e.2 d)
        (by rw [map_fst_zip_words hp]; exact hnd) st.words (mem_zip_idxOf hp hc)
    rw [hwords]
    exact lookup_push_open (h.words c hc) hopen p j
  · show st.calls.filter _ = _
    rw [h.calls j]
    by_cases hj : j = key
    · rw [hj, hopen]
      simp only [Bool.false_eq_true, false_and, if_false]
    · rw [hother hj]
  · by_cases hjk : j = key
    · exact hjk ▸ hkey
    · rw [hother hjk] at hj
      exact h.bound j hj
  · obtain ⟨value, hvalue, hholds⟩ := h.value j hj
    refine ⟨value, ?_, hholds⟩
    by_cases hjk : j = key
    · rw [hjk, hopen] at hvalue ⊢
      exact hvalue
    · rw [hother hjk]
      exact hvalue

/-- The payloads of one contributor, none of which falls into a closed cell. -/
theorem LoopInv.add (h : LoopInv fold declared nOut parts closed st) (hnd : declared.Nodup)
    {base factor n : Nat} (slab : Nat → Digest) (siblings : List (Nat → Words))
    (hlen : siblings.length = declared.length)
    (hopen : ∀ pos < n, closed ((base + pos) / factor) = false ∧ (base + pos) / factor < nOut) :
    LoopInv fold declared nOut
      (fun j => parts j ++ ((List.range n).filter fun pos => (base + pos) / factor = j).filterMap
        (groupPart slab siblings)) closed
      (st.add base factor n slab (declared.zip siblings)) := by
  induction n with
  | zero =>
    have hparts : (fun j => parts j ++ ((List.range 0).filter fun pos =>
        (base + pos) / factor = j).filterMap (groupPart slab siblings)) = parts := by
      funext j
      exact List.append_nil _
    rw [hparts]
    exact h
  | succ n ih =>
    have hprev := ih fun pos hpos => hopen pos (Nat.lt_succ_of_lt hpos)
    have hadd : st.add base factor (n + 1) slab (declared.zip siblings) =
        if slab n = [] then st.add base factor n slab (declared.zip siblings)
        else (st.add base factor n slab (declared.zip siblings)).append ((base + n) / factor) (slab n)
          ((declared.zip siblings).map fun c => (c.1, c.2 n)) := by
      rw [DigestLoop.add, List.range_succ, List.foldl_append]
      rfl
    by_cases hs : slab n = []
    · have hparts : (fun j => parts j ++ ((List.range (n + 1)).filter fun pos =>
          (base + pos) / factor = j).filterMap (groupPart slab siblings)) =
          fun j => parts j ++ ((List.range n).filter fun pos =>
            (base + pos) / factor = j).filterMap (groupPart slab siblings) := by
        funext j
        rw [List.range_succ, List.filter_append, List.filterMap_append]
        by_cases hj : (base + n) / factor = j <;> simp [hj, groupPart, hs]
      rw [hadd, if_pos hs, hparts]
      exact hprev
    · obtain ⟨hclosed, hkey⟩ := hopen n (Nat.lt_succ_self n)
      have hwords : (declared.zip siblings).map (fun c => (c.1, c.2 n)) =
          declared.zip (siblings.map fun s => s n) := by
        rw [List.zip_map_right]
        rfl
      have happ := hprev.append hnd hclosed hkey (p := ⟨slab n, siblings.map fun s => s n⟩)
        (by rw [List.length_map, hlen])
      rw [hadd, if_neg hs, hwords]
      convert happ using 1
      funext j
      rw [List.range_succ, List.filter_append, List.filterMap_append, ← List.append_assoc]
      by_cases hj : j = (base + n) / factor
      · rw [hj, Function.update_self]
        simp [groupPart, hs]
      · rw [Function.update_of_ne hj]
        simp [Ne.symm hj]

/-- Every declared channel is popped at the same cell, and at no other. -/
theorem popWords_eq {j : Nat} (vectors : Channel → List Words) {cs : List Channel}
    (hnd : cs.Nodup) {words : Channel → List (Nat × List Words)}
    (hv : ∀ c ∈ cs, (words c).lookup j = some (vectors c)) (acc : List (Channel × List Words)) :
    ∃ words', cs.foldlM (fun st c => do
        let (vectors, rest) ← pop j (st.2 c)
        return (st.1 ++ [(c, vectors)], Function.update st.2 c rest)) (acc, words) =
          Except.ok (ε := String) (acc ++ cs.map fun c => (c, vectors c), words') ∧
      (∀ c ∈ cs, ∀ i, (words' c).lookup i = if i = j then none else (words c).lookup i) ∧
      ∀ c ∉ cs, words' c = words c := by
  induction cs generalizing words acc with
  | nil => exact ⟨words, by rw [List.map_nil, List.append_nil]; rfl, nofun, fun _ _ => rfl⟩
  | cons c cs ih =>
    obtain ⟨hc, hnd⟩ := List.nodup_cons.mp hnd
    have hhead := hv c (.head _)
    obtain ⟨rest, hpop⟩ := pop_of_lookup hhead
    have hrest : ∀ c' ∈ cs, (Function.update words c rest c').lookup j = some (vectors c') := by
      intro c' hc'
      have hne : c' ≠ c := fun he => hc (he ▸ hc')
      rw [Function.update_of_ne hne]
      exact hv c' (.tail _ hc')
    obtain ⟨words', hrun, hin, hout⟩ := ih hnd hrest (acc ++ [(c, vectors c)])
    refine ⟨words', ?_, fun c' hc' i => ?_, fun c' hc' => ?_⟩
    · rw [List.foldlM_cons, hpop]
      rw [List.append_assoc] at hrun
      exact hrun
    · cases List.mem_cons.mp hc' with
      | inl he =>
        rw [he, hout c hc, Function.update_self]
        exact (lookup_pop hpop i).2
      | inr hc' =>
        have hne : c' ≠ c := fun he => hc (he ▸ hc')
        rw [hin c' hc' i, Function.update_of_ne hne]
    · rw [List.mem_cons, not_or] at hc'
      rw [hout c' hc'.2, Function.update_of_ne hc'.1]

theorem length_of_strictZip {value value' : Digest × List Words}
    (h : DigestLoop.strictZip declared value = .ok value') (hne : declared ≠ []) :
    value.2.length = declared.length := by
  by_contra hlen
  rw [DigestLoop.strictZip, if_pos ⟨hne, hlen⟩] at h
  cases h

theorem eq_of_strictZip {value value' : Digest × List Words}
    (h : DigestLoop.strictZip declared value = .ok value') : value' = value := by
  unfold DigestLoop.strictZip at h
  split at h
  · cases h
  · cases h
    rfl

variable (st) in
/-- What a fold stored stands in its cell and nowhere else. -/
theorem store_ok (hnd : declared.Nodup) {j : Nat} {value : Digest × List Words}
    (hj : j < st.out.length) (hsib : ∀ c ∈ declared, (st.siblings c).length = st.out.length)
    (hzip : DigestLoop.strictZip declared value = .ok value) :
    ∃ st', st.store j declared value = .ok st' ∧ st'.pending = st.pending ∧ st'.words = st.words ∧
      st'.calls = st.calls ∧ st'.out.length = st.out.length ∧
      (∀ c ∈ declared, (st'.siblings c).length = (st.siblings c).length) ∧
      Holds declared st' j value ∧
      ∀ i ≠ j, ∀ value', Holds declared st i value' → Holds declared st' i value' := by
  rw [DigestLoop.store, if_neg (Nat.not_le.mpr hj), hzip]
  have hsiblings : ∀ c ∈ declared, (declared.zip value.2).foldl
      (fun s c => Function.update s c.1 ((s c.1).set j c.2)) st.siblings c =
        (st.siblings c).set j (value.2.getD (declared.idxOf c) []) := by
    intro c hc
    have hvalue := length_of_strictZip hzip (List.ne_nil_of_mem hc)
    exact foldl_update_of_mem Prod.fst (fun e s => s.set j e.2)
      (by rw [map_fst_zip_words hvalue]; exact hnd) st.siblings (mem_zip_idxOf hvalue hc)
  refine ⟨_, rfl, rfl, rfl, rfl, List.length_set, fun c hc => ?_, ⟨?_, fun c hc => ?_⟩,
    fun i hi value' hold => ⟨?_, fun c hc => ?_⟩⟩
  · exact (congrArg List.length (hsiblings c hc)).trans List.length_set
  · exact List.getElem?_set_self hj
  · rw [← hsib c hc] at hj
    exact (congrArg (·[j]?) (hsiblings c hc)).trans (List.getElem?_set_self hj)
  · exact (List.getElem?_set_ne hi.symm).trans hold.1
  · exact (congrArg (·[i]?) (hsiblings c hc)).trans ((List.getElem?_set_ne hi.symm).trans
      (hold.2 c hc))

/-- Closing an open cell folds all of its contributions in one call. -/
theorem LoopInv.close (h : LoopInv fold declared nOut parts closed st) (hnd : declared.Nodup)
    {j : Nat} (hopen : closed j = false) (hne : parts j ≠ []) :
    (∀ msg, flatFold fold declared (parts j) = .error msg →
      st.close fold declared j = .error msg) ∧
    ∀ value, flatFold fold declared (parts j) = .ok value →
      ∃ st', st.close fold declared j = .ok st' ∧
        LoopInv fold declared nOut parts (fun i => closed i || i == j) st' := by
  have hpending := h.pending j
  rw [if_pos ⟨hopen, hne⟩] at hpending
  obtain ⟨pending, hpop⟩ := pop_of_lookup hpending
  have hwords : ∀ c ∈ declared, (st.words c).lookup j =
      some (channelOf declared (parts j) c) := by
    intro c hc
    rw [h.words c hc j, if_pos ⟨hopen, hne⟩]
  obtain ⟨words, hpopw, hin, -⟩ := popWords_eq _ hnd hwords []
  have hj : j < st.out.length := h.sizes.1 ▸ h.bound j hne
  have hclose : st.close fold declared j =
      (fold ((parts j).map Part.digest)
        (declared.map fun c => (c, channelOf declared (parts j) c)) >>= fun value =>
          DigestLoop.store ⟨pending, words, st.out, st.siblings,
            st.calls ++ [callOf declared j (parts j)]⟩ j declared value) := by
    rw [DigestLoop.close, hpop]
    show (DigestLoop.popWords j declared st.words >>= _) = _
    rw [DigestLoop.popWords, hpopw]
    rfl
  rw [hclose, flatFold, if_neg hne]
  cases hfold : fold ((parts j).map Part.digest)
      (declared.map fun c => (c, channelOf declared (parts j) c)) with
  | error msg => exact ⟨fun _ h => by cases h; rfl, fun _ h => nomatch h⟩
  | ok value =>
    constructor
    · intro msg hmsg
      have hmsg : DigestLoop.strictZip declared value = .error msg := hmsg
      show DigestLoop.store _ j declared value = _
      rw [DigestLoop.store, if_neg (Nat.not_le.mpr hj), hmsg]
      rfl
    · intro value' hvalue
      have hzip : DigestLoop.strictZip declared value = .ok value' := hvalue
      cases eq_of_strictZip hzip
      obtain ⟨st', hstore, hpend, hwords', hcalls, hout, hsib, hholds, hothers⟩ :=
        store_ok ⟨pending, words, st.out, st.siblings,
          st.calls ++ [callOf declared j (parts j)]⟩ hnd hj
          (fun c hc => (h.sizes.2 c hc).trans h.sizes.1.symm) hzip
      have hself : (closed j || j == j) = true := by rw [beq_self_eq_true, Bool.or_true]
      have hother {i : Nat} (hi : i ≠ j) : (closed i || i == j) = closed i := by
        rw [beq_eq_false_iff_ne.mpr hi, Bool.or_false]
      refine ⟨st', hstore, ⟨?_, fun i => ?_, fun c hc i => ?_, fun i => ?_, h.bound, ⟨?_, ?_⟩,
        fun i hi => ?_⟩⟩
      · rw [hpend]
        exact nodup_pop hpop h.keys
      · rw [hpend]
        exact lookup_popped h.pending (fun k => (lookup_pop hpop k).2) i
      · rw [hwords']
        exact lookup_popped (h.words c hc) (hin c hc) i
      · rw [hcalls, List.filter_append, h.calls i]
        by_cases hi : i = j
        · have hold : ¬(closed j = true ∧ parts j ≠ []) := fun h => nomatch hopen.symm.trans h.1
          rw [hi, hself, if_neg hold, if_pos ⟨rfl, hne⟩]
          simp [callOf]
        · rw [hother hi]
          simp [callOf, Ne.symm hi]
      · exact hout.trans h.sizes.1
      · intro c hc
        exact (hsib c hc).trans (h.sizes.2 c hc)
      · by_cases hij : i = j
        · rw [hij, hself, if_pos rfl, flatFold, if_neg hne, hfold]
          exact ⟨value, hzip, hholds⟩
        · obtain ⟨old, hold, hholds'⟩ := h.value i hi
          rw [hother hij]
          exact ⟨old, hold, hothers i hij old hholds'⟩

/-- Closing open cells one after another: one fold each, or the error of one of them. -/
theorem LoopInv.closeMany {cells : List Nat} (hcells : cells.Nodup) (hnd : declared.Nodup) :
    ∀ {closed : Nat → Bool} {st : DigestLoop},
    LoopInv fold declared nOut parts closed st →
    (∀ j ∈ cells, closed j = false ∧ parts j ≠ []) →
    (∃ j ∈ cells, ∃ msg, flatFold fold declared (parts j) = .error msg ∧
      cells.foldlM (DigestLoop.close fold declared) st = .error msg) ∨
    ∃ st', cells.foldlM (DigestLoop.close fold declared) st = .ok st' ∧
      LoopInv fold declared nOut parts (fun i => closed i || decide (i ∈ cells)) st' := by
  induction cells with
  | nil =>
    intro closed st h _
    refine .inr ⟨st, rfl, h.congr_closed fun j _ => ?_⟩
    simp
  | cons k cells ih =>
    intro closed st h hopen
    obtain ⟨hk, hcells⟩ := List.nodup_cons.mp hcells
    obtain ⟨hclosed, hne⟩ := hopen k (.head _)
    obtain ⟨herror, hok⟩ := h.close hnd hclosed hne
    rw [List.foldlM_cons]
    cases hfold : flatFold fold declared (parts k) with
    | error msg =>
      rw [herror msg hfold]
      exact .inl ⟨k, .head _, msg, hfold, rfl⟩
    | ok value =>
      obtain ⟨st₁, hclose, hinv⟩ := hok value hfold
      rw [hclose]
      have hrest : ∀ j ∈ cells, (closed j || j == k) = false ∧ parts j ≠ [] := by
        intro j hj
        have hjk : j ≠ k := fun he => hk (he ▸ hj)
        rw [beq_eq_false_iff_ne.mpr hjk, Bool.or_false]
        exact hopen j (.tail _ hj)
      cases ih hcells hinv hrest with
      | inl hbad =>
        obtain ⟨j, hj, msg, hmsg, hrun⟩ := hbad
        exact .inl ⟨j, .tail _ hj, msg, hmsg, hrun⟩
      | inr hgood =>
        obtain ⟨st', hrun, hinv'⟩ := hgood
        refine .inr ⟨st', hrun, hinv'.congr_closed fun j _ => ?_⟩
        rw [Bool.or_assoc]
        refine congrArg (closed j || ·) ?_
        rw [Bool.eq_iff_iff, Bool.or_eq_true, beq_iff_eq, decide_eq_true_eq, decide_eq_true_eq,
          List.mem_cons]

theorem LoopInv.mem_keys (h : LoopInv fold declared nOut parts closed st) {j : Nat} :
    j ∈ st.pending.map Prod.fst ↔ closed j = false ∧ parts j ≠ [] := by
  rw [← not_iff_not, ← lookup_eq_none, h.pending j]
  split
  · exact ⟨nofun, fun hn => absurd ‹_› hn⟩
  · exact ⟨fun _ => ‹_›, fun _ => rfl⟩

/-- The pass that follows a child moves the closing bound from `done` to `done'`. -/
theorem LoopInv.closeBelow {done done' : Nat} (hle : done ≤ done') (hnd : declared.Nodup)
    (h : LoopInv fold declared nOut parts (fun j => decide (j < done)) st) :
    (∃ j < done', parts j ≠ [] ∧ ∃ msg, flatFold fold declared (parts j) = .error msg ∧
      st.closeBelow fold declared done' = .error msg) ∨
    ∃ st', st.closeBelow fold declared done' = .ok st' ∧
      LoopInv fold declared nOut parts (fun j => decide (j < done')) st' := by
  have hmem {j : Nat} : j ∈ (st.pending.map Prod.fst).filter (· < done') ↔
      (decide (j < done) = false ∧ parts j ≠ []) ∧ j < done' := by
    rw [List.mem_filter, h.mem_keys, decide_eq_true_eq]
  have hclose := h.closeMany (h.keys.filter (· < done')) hnd fun j hj => (hmem.mp hj).1
  cases hclose with
  | inl hbad =>
    obtain ⟨j, hj, msg, hmsg, hrun⟩ := hbad
    obtain ⟨⟨-, hne⟩, hlt⟩ := hmem.mp hj
    exact .inl ⟨j, hlt, hne, msg, hmsg, hrun⟩
  | inr hgood =>
    obtain ⟨st', hrun, hinv⟩ := hgood
    refine .inr ⟨st', hrun, hinv.congr_closed fun j hne => ?_⟩
    rw [Bool.eq_iff_iff, Bool.or_eq_true, decide_eq_true_eq, decide_eq_true_eq, decide_eq_true_eq,
      hmem]
    constructor
    · intro hj
      cases hj with
      | inl hj => exact hj.trans_le hle
      | inr hj => exact hj.2
    · intro hj
      by_cases hd : j < done
      · exact .inl hd
      · exact .inr ⟨⟨decide_eq_false hd, hne⟩, hj⟩

/-- The last pass closes what is still open. -/
theorem LoopInv.closeAll (hnd : declared.Nodup)
    (h : LoopInv fold declared nOut parts closed st) :
    (∃ j, parts j ≠ [] ∧ ∃ msg, flatFold fold declared (parts j) = .error msg ∧
      st.closeAll fold declared = .error msg) ∨
    ∃ st', st.closeAll fold declared = .ok st' ∧
      LoopInv fold declared nOut parts (fun _ => true) st' := by
  have hclose := h.closeMany h.keys hnd fun j hj => h.mem_keys.mp hj
  cases hclose with
  | inl hbad =>
    obtain ⟨j, hj, msg, hmsg, hrun⟩ := hbad
    exact .inl ⟨j, (h.mem_keys.mp hj).2, msg, hmsg, hrun⟩
  | inr hgood =>
    obtain ⟨st', hrun, hinv⟩ := hgood
    refine .inr ⟨st', hrun, hinv.congr_closed fun j hne => ?_⟩
    cases hc : closed j with
    | true => rfl
    | false =>
      rw [Bool.false_or, decide_eq_true_eq]
      exact h.mem_keys.mpr ⟨hc, hne⟩

end Cells

section Run
variable (f : (q : Query χ N) → Answer V q)
variable {fold : CellFold} {declared : List Channel} {nOut : Nat} {parts : Nat → List Part}
  {closed : Nat → Bool} {loop : DigestLoop}

/-- A contributor is refused when its group is not whole. -/
def slotBroken (res : Nat) (name : N) (declared : List Channel) (i : Nat)
    (slot : Slot χ × Nat) : Broken :=
  match slot.1.reader? with
  | some r => if whole f r res name declared then [] else [(i, slot.2)]
  | none => []

theorem digestBroken_append (rows : Rows χ) (row : Option (Row χ)) (res : Nat) (name : N)
    (declared : List Channel) :
    digestBroken f (rows ++ [row]) res name declared = digestBroken f rows res name declared ++
      (row.getD []).zipIdx.flatMap (slotBroken f res name declared rows.length) := by
  rw [digestBroken, List.zipIdx_append, List.flatMap_append, Nat.zero_add]
  exact congrArg _ (List.flatMap_singleton ..)

/-- One contributor appends its payloads to open cells. -/
theorem run_loopSlot (h : LoopInv fold declared nOut parts closed loop) (hnd : declared.Nodup)
    {srcPerChild factor i : Nat} (hopen : ∀ pos < srcPerChild,
      closed ((i * srcPerChild + pos) / factor) = false ∧ (i * srcPerChild + pos) / factor < nOut)
    (res : Nat) (name : N) (broken : Broken) (slot : Slot χ × Nat) :
    ∃ loop', ReadProg.run f (loopSlot declared res srcPerChild factor name i (loop, broken) slot) =
        .ok (loop', broken ++ slotBroken f res name declared i slot) ∧
      LoopInv fold declared nOut (fun j => parts j ++
        (slotSources srcPerChild factor j i slot).filterMap (digestOf f res name declared))
        closed loop' := by
  have hkeep : LoopInv fold declared nOut (fun j => parts j ++ []) closed loop := by
    have hparts : (fun j => parts j ++ []) = parts := funext fun j => List.append_nil _
    rw [hparts]
    exact h
  simp only [loopSlot, slotSources, slotBroken]
  cases slot.1.reader? with
  | none => exact ⟨loop, by rw [List.append_nil]; rfl, hkeep⟩
  | some r =>
    simp only [ReadProg.run_bind, run_companionGroup, ReadProg.ok_bind]
    by_cases hw : whole f r res name declared = true
    · have hdig : ∀ pos, digestOf f res name declared ⟨r, i, slot.2, pos⟩ =
          (digestAt f r res name).bind fun slab => groupPart slab
            (declared.map fun c => (siblingAt f r res name c).getD fun _ => []) pos :=
        fun pos => by rw [digestOf, if_pos hw]
      simp only [hw, if_true, List.append_nil]
      cases hslab : digestAt f r res name with
      | none =>
        rw [hslab] at hdig
        rw [digestAt] at hslab
        simp only [hslab]
        refine ⟨loop, rfl, ?_⟩
        simpa [List.filterMap_map, Function.comp_def, hdig] using h
      | some slab =>
        rw [hslab] at hdig
        rw [digestAt] at hslab
        simp only [hslab, List.map_map]
        refine ⟨_, rfl, ?_⟩
        have hadd := h.add hnd slab (declared.map fun c =>
          (siblingAt f r res name c).getD fun _ => []) (List.length_map _) hopen
        simp only [List.filterMap_map, Function.comp_def, hdig]
        exact hadd
    · have hdig : ∀ pos, digestOf f res name declared ⟨r, i, slot.2, pos⟩ = none :=
        fun pos => by rw [digestOf, if_neg hw]
      simp only [hw, if_false, Bool.false_eq_true]
      refine ⟨loop, rfl, ?_⟩
      simpa [List.filterMap_map, Function.comp_def, hdig] using h

/-- The slots of one child append their payloads in window order. -/
theorem run_loopSlots (hnd : declared.Nodup) {srcPerChild factor i : Nat}
    (hopen : ∀ pos < srcPerChild,
      closed ((i * srcPerChild + pos) / factor) = false ∧ (i * srcPerChild + pos) / factor < nOut)
    (res : Nat) (name : N) (slots : List (Slot χ × Nat)) :
    ∀ {parts : Nat → List Part} {loop : DigestLoop} (broken : Broken),
    LoopInv fold declared nOut parts closed loop →
    ∃ loop', slots.foldlM (fun st slot =>
        ReadProg.run f (loopSlot declared res srcPerChild factor name i st slot)) (loop, broken) =
        .ok (loop', broken ++ slots.flatMap (slotBroken f res name declared i)) ∧
      LoopInv fold declared nOut (fun j => parts j ++
        (slots.flatMap (slotSources srcPerChild factor j i)).filterMap
          (digestOf f res name declared)) closed loop' := by
  induction slots with
  | nil =>
    intro parts loop broken h
    refine ⟨loop, by rw [List.flatMap_nil, List.append_nil]; rfl, ?_⟩
    simpa using h
  | cons slot slots ih =>
    intro parts loop broken h
    obtain ⟨loop₁, hslot, hinv⟩ := run_loopSlot f h hnd hopen res name broken slot
    obtain ⟨loop', hslots, hinv'⟩ := ih _ hinv
    refine ⟨loop', ?_, ?_⟩
    · rw [List.foldlM_cons, hslot, ReadProg.ok_bind, hslots, List.flatMap_cons, List.append_assoc]
    · simpa only [List.flatMap_cons, List.filterMap_append, List.append_assoc] using hinv'

theorem digestParts_append (rows : Rows χ) (row : Option (Row χ)) (res srcPerChild factor : Nat)
    (name : N) (declared : List Channel) (j : Nat) :
    digestParts f (rows ++ [row]) res srcPerChild factor name declared j =
      digestParts f rows res srcPerChild factor name declared j ++
        (rowSources srcPerChild factor j (row, rows.length)).filterMap
          (digestOf f res name declared) := by
  rw [digestParts, sources_append, List.filterMap_append]
  rfl

/-- A child ahead of the closing bound adds nothing below it. -/
theorem digestParts_below {rows : Rows χ} (row : Option (Row χ)) {res srcPerChild factor : Nat}
    {name : N} {declared : List Channel} {j : Nat}
    (hj : j < rows.length * srcPerChild / factor) :
    digestParts f (rows ++ [row]) res srcPerChild factor name declared j =
      digestParts f rows res srcPerChild factor name declared j := by
  rw [digestParts_append, rowSources_of_lt (row, rows.length) hj, List.filterMap_nil,
    List.append_nil]

variable (fold) in
/-- The children read so far: the cells below the bound are folded, or one fold raised. -/
theorem run_loopRows (hnd : declared.Nodup) {srcPerChild factor : Nat} (hfactor : 0 < factor)
    (res : Nat) (name : N) (broken : Broken) (rows : Rows χ)
    (htotal : rows.length * srcPerChild ≤ nOut * factor) :
    (∃ j < rows.length * srcPerChild / factor,
      digestParts f rows res srcPerChild factor name declared j ≠ [] ∧
      ∃ msg, flatFold fold declared (digestParts f rows res srcPerChild factor name declared j) =
          .error msg ∧
        rows.zipIdx.foldlM (fun st row =>
          ReadProg.run f (loopRow fold declared res srcPerChild factor name st row))
          (DigestLoop.start nOut, broken) = .error msg) ∨
    ∃ loop, rows.zipIdx.foldlM (fun st row =>
        ReadProg.run f (loopRow fold declared res srcPerChild factor name st row))
        (DigestLoop.start nOut, broken) = .ok (loop, broken ++ digestBroken f rows res name declared) ∧
      LoopInv fold declared nOut (digestParts f rows res srcPerChild factor name declared)
        (fun j => decide (j < rows.length * srcPerChild / factor)) loop := by
  induction rows using List.reverseRecOn with
  | nil =>
    refine .inr ⟨_, by rw [digestBroken, List.zipIdx_nil, List.flatMap_nil, List.append_nil]; rfl,
      loopInv_start.congr_closed fun j h => absurd rfl h⟩
  | append_singleton rows row ih =>
    have happend : (rows ++ [row]).zipIdx = rows.zipIdx ++ [(row, rows.length)] := by
      rw [List.zipIdx_append, Nat.zero_add]
      rfl
    have hlen : (rows ++ [row]).length = rows.length + 1 := by simp
    have hle : rows.length * srcPerChild / factor ≤ (rows.length + 1) * srcPerChild / factor :=
      Nat.div_le_div_right (Nat.mul_le_mul_right _ (Nat.le_succ _))
    rw [hlen] at htotal
    have hsucc : rows.length * srcPerChild + srcPerChild = (rows.length + 1) * srcPerChild :=
      (Nat.succ_mul ..).symm
    rw [happend, List.foldlM_append, hlen]
    cases ih (by omega) with
    | inl hbad =>
      obtain ⟨j, hj, hne, msg, hmsg, hrun⟩ := hbad
      rw [hrun]
      refine .inl ⟨j, hj.trans_le hle, ?_, msg, ?_, rfl⟩
      · rw [digestParts_below f row hj]
        exact hne
      · rw [digestParts_below f row hj]
        exact hmsg
    | inr hgood =>
      obtain ⟨loop, hrun, hinv⟩ := hgood
      -- every cell the child reaches is at or above the bound
      have hopen : ∀ pos < srcPerChild,
          decide ((rows.length * srcPerChild + pos) / factor < rows.length * srcPerChild / factor) =
            false ∧ (rows.length * srcPerChild + pos) / factor < nOut := by
        intro pos hpos
        have hge : rows.length * srcPerChild / factor ≤
            (rows.length * srcPerChild + pos) / factor :=
          Nat.div_le_div_right (Nat.le_add_right _ _)
        refine ⟨decide_eq_false (Nat.not_lt.mpr hge), ?_⟩
        rw [Nat.div_lt_iff_lt_mul hfactor]
        omega
      obtain ⟨loop₁, hslots, hinv₁⟩ := run_loopSlots f hnd hopen res name (row.getD []).zipIdx
        (broken ++ digestBroken f rows res name declared) hinv
      have hparts : (fun j => digestParts f rows res srcPerChild factor name declared j ++
          ((row.getD []).zipIdx.flatMap (slotSources srcPerChild factor j rows.length)).filterMap
            (digestOf f res name declared)) =
          digestParts f (rows ++ [row]) res srcPerChild factor name declared :=
        funext fun j => (digestParts_append f rows row res srcPerChild factor name declared j).symm
      rw [hparts] at hinv₁
      have hrow : ReadProg.run f (loopRow fold declared res srcPerChild factor name
          (loop, broken ++ digestBroken f rows res name declared) (row, rows.length)) =
          (loop₁.closeBelow fold declared ((rows.length + 1) * srcPerChild / factor) >>= fun l =>
            .ok (l, broken ++ digestBroken f (rows ++ [row]) res name declared)) := by
        simp only [loopRow, ReadProg.run_bind, ReadProg.run_foldlM, ReadProg.run_ofExcept,
          ReadProg.run_pure]
        rw [hslots, ReadProg.ok_bind, digestBroken_append, List.append_assoc]
      rw [hrun, ReadProg.ok_bind, List.foldlM_cons, hrow]
      cases hinv₁.closeBelow hle hnd with
      | inl hbad =>
        obtain ⟨j, hj, hne, msg, hmsg, hclose⟩ := hbad
        rw [hclose]
        exact .inl ⟨j, hj, hne, msg, hmsg, rfl⟩
      | inr hgood =>
        obtain ⟨loop', hclose, hinv'⟩ := hgood
        rw [hclose]
        exact .inr ⟨loop', rfl, hinv'⟩

end Run

section Sources

/-- Every source cell that is read: the cells of each reader, at every position. -/
def allSources (rows : Rows χ) (srcPerChild : Nat) : List (Source χ) :=
  rows.zipIdx.flatMap fun row => (row.1.getD []).zipIdx.flatMap fun slot =>
    match slot.1.reader? with
    | some r => (List.range srcPerChild).map fun pos => ⟨r, row.2, slot.2, pos⟩
    | none => []

/-- The output cell below which a source cell stands. -/
def Source.cell (srcPerChild factor : Nat) (s : Source χ) : Nat :=
  (s.child * srcPerChild + s.pos) / factor

/-- A source cell goes to its output cell alone. -/
theorem sources_eq (rows : Rows χ) (srcPerChild factor j : Nat) :
    sources rows srcPerChild factor j =
      (allSources rows srcPerChild).filter fun s => s.cell srcPerChild factor = j := by
  rw [sources, allSources, List.filter_flatMap]
  refine List.flatMap_congr fun row _ => ?_
  rw [rowSources, List.filter_flatMap]
  refine List.flatMap_congr fun slot _ => ?_
  rw [slotSources]
  cases slot.1.reader? with
  | none => rfl
  | some r =>
    show List.map _ _ = List.filter _ (List.map _ _)
    rw [List.filter_map]
    rfl

theorem cell_lt {rows : Rows χ} {srcPerChild factor nOut : Nat} (hfactor : 0 < factor)
    (htotal : nOut * factor = rows.length * srcPerChild) {s : Source χ}
    (hs : s ∈ allSources rows srcPerChild) : s.cell srcPerChild factor < nOut := by
  obtain ⟨row, hrow, hs⟩ := List.mem_flatMap.mp hs
  obtain ⟨slot, -, hs⟩ := List.mem_flatMap.mp hs
  have hchild : row.2 < rows.length := List.snd_lt_of_mem_zipIdx hrow
  have hpos : s.child = row.2 ∧ s.pos < srcPerChild := by
    split at hs
    · obtain ⟨pos, hpos, rfl⟩ := List.mem_map.mp hs
      exact ⟨rfl, List.mem_range.mp hpos⟩
    · exact nomatch hs
  have hle : (row.2 + 1) * srcPerChild ≤ rows.length * srcPerChild :=
    Nat.mul_le_mul_right _ hchild
  rw [Source.cell, hpos.1, Nat.div_lt_iff_lt_mul hfactor, htotal]
  have hsucc : row.2 * srcPerChild + srcPerChild = (row.2 + 1) * srcPerChild :=
    (Nat.succ_mul ..).symm
  omega

/-- What the loop leaves: nothing open, one call for every cell something was contributed to,
and in every cell the flat fold of its contributions. -/
structure CellsFolded (fold : CellFold) (declared : List Channel) (nOut : Nat)
    (parts : Nat → List Part) (loop : DigestLoop) : Prop where
  drained : loop.pending = [] ∧ ∀ c ∈ declared, loop.words c = []
  calls : ∀ j, loop.calls.filter (fun call => call.cell = j) =
    if parts j = [] then [] else [callOf declared j (parts j)]
  cells : ∀ call ∈ loop.calls, call.cell < nOut
  value : ∀ j < nOut, ∃ value, flatFold fold declared (parts j) = .ok value ∧
    Holds declared loop j value

theorem eq_nil_of_lookup {ν : Type} {d : List (Nat × ν)} (h : ∀ j, d.lookup j = none) : d = [] := by
  cases d with
  | nil => rfl
  | cons e d =>
    have he := h e.1
    rw [List.lookup_cons_self] at he
    exact nomatch he

/-- Once every cell is closed, the loop is done. -/
theorem LoopInv.folded {fold : CellFold} {declared : List Channel} {nOut : Nat}
    {parts : Nat → List Part} {loop : DigestLoop}
    (h : LoopInv fold declared nOut parts (fun _ => true) loop) :
    CellsFolded fold declared nOut parts loop := by
  refine ⟨⟨eq_nil_of_lookup fun j => ?_, fun c hc => eq_nil_of_lookup fun j => ?_⟩, fun j => ?_,
    fun call hcall => ?_, fun j hj => ?_⟩
  · rw [h.pending j, if_neg fun h => nomatch h.1]
  · rw [h.words c hc j, if_neg fun h => nomatch h.1]
  · rw [h.calls j]
    by_cases hne : parts j = []
    · rw [if_pos hne, if_neg fun h => h.2 hne]
    · rw [if_neg hne, if_pos ⟨rfl, hne⟩]
  · apply h.bound
    intro hnil
    have hmem : call ∈ loop.calls.filter fun c => c.cell = call.cell :=
      List.mem_filter.mpr ⟨hcall, decide_eq_true rfl⟩
    rw [h.calls, if_neg fun h => h.2 hnil] at hmem
    exact nomatch hmem
  · obtain ⟨value, hvalue, hholds⟩ := h.value j hj
    rw [if_pos rfl] at hvalue
    exact ⟨value, hvalue, hholds⟩

/-- A run that ends has folded every cell; one that raises, raises what a cell's fold raised. -/
theorem run_digestLoop (f : (q : Query χ N) → Answer V q) (fold : CellFold)
    {declared : List Channel} (hnd : declared.Nodup) {rows : Rows χ}
    {nOut srcPerChild factor : Nat} (hfactor : 0 < factor)
    (htotal : nOut * factor = rows.length * srcPerChild) (res : Nat) (name : N) (broken : Broken) :
    (∀ out, ReadProg.run f
        (digestLoop fold declared res srcPerChild factor name rows nOut broken) = .ok out →
      out.2 = broken ++ digestBroken f rows res name declared ∧
      CellsFolded fold declared nOut (digestParts f rows res srcPerChild factor name declared) out.1) ∧
    ∀ msg, ReadProg.run f
        (digestLoop fold declared res srcPerChild factor name rows nOut broken) = .error msg →
      ∃ j < nOut, digestParts f rows res srcPerChild factor name declared j ≠ [] ∧
        flatFold fold declared (digestParts f rows res srcPerChild factor name declared j) =
          .error msg := by
  have hlast : rows.length * srcPerChild / factor = nOut := by
    rw [← htotal, Nat.mul_div_cancel _ hfactor]
  simp only [digestLoop, ReadProg.run_bind, ReadProg.run_foldlM, ReadProg.run_ofExcept,
    ReadProg.run_pure]
  cases run_loopRows f fold hnd hfactor res name broken rows htotal.ge with
  | inl hbad =>
    obtain ⟨j, hj, hne, msg, hmsg, hrun⟩ := hbad
    rw [hrun]
    refine ⟨fun out h => (nomatch h), fun msg' h => ?_⟩
    cases h
    exact ⟨j, hlast ▸ hj, hne, hmsg⟩
  | inr hgood =>
    obtain ⟨loop, hrun, hinv⟩ := hgood
    rw [hrun, ReadProg.ok_bind]
    cases hinv.closeAll hnd with
    | inl hbad =>
      obtain ⟨j, hne, msg, hmsg, hclose⟩ := hbad
      rw [hclose]
      refine ⟨fun out h => (nomatch h), fun msg' h => ?_⟩
      cases h
      exact ⟨j, hinv.bound j hne, hne, hmsg⟩
    | inr hgood =>
      obtain ⟨loop', hclose, hinv'⟩ := hgood
      rw [hclose]
      refine ⟨fun out h => ?_, fun msg h => (nomatch h)⟩
      cases h
      exact ⟨rfl, hinv'.folded⟩

/-- The streaming merge is one flat fold a cell: every source cell stands below one output
cell, and a cell with contributions is folded in one call from all of them. A run raises only
what the flat fold of some cell raises. -/
theorem digestLoop_flat (f : (q : Query χ N) → Answer V q) (fold : CellFold) (m : FieldMeta V N)
    (rows : Rows χ) (res : Nat) {nOut srcPerChild factor : Nat} (hfactor : 0 < factor)
    (htotal : nOut * factor = rows.length * srcPerChild) (name : N) (broken : Broken) :
    ((∀ s ∈ allSources rows srcPerChild, s.cell srcPerChild factor < nOut) ∧
      ∀ j, sources rows srcPerChild factor j =
        (allSources rows srcPerChild).filter fun s => s.cell srcPerChild factor = j) ∧
    (∀ out, ReadProg.run f
        (digestLoop fold m.companions res srcPerChild factor name rows nOut broken) = .ok out →
      out.2 = broken ++ digestBroken f rows res name m.companions ∧
      CellsFolded fold m.companions nOut
        (digestParts f rows res srcPerChild factor name m.companions) out.1) ∧
    ∀ msg, ReadProg.run f
        (digestLoop fold m.companions res srcPerChild factor name rows nOut broken) = .error msg →
      ∃ j < nOut, digestParts f rows res srcPerChild factor name m.companions j ≠ [] ∧
        flatFold fold m.companions
          (digestParts f rows res srcPerChild factor name m.companions j) = .error msg :=
  ⟨⟨fun _ hs => cell_lt hfactor htotal hs, sources_eq rows srcPerChild factor⟩,
    run_digestLoop f fold (companions_nodup m) hfactor htotal res name broken⟩

/-- Two located payloads a column; reader 2 has lost its words. -/
def boundaryColumns : (q : Query Nat Nat) → Answer Unit q
  | ⟨_, _, .exact _⟩ => none
  | ⟨r, _, .digest _⟩ => some fun pos => if pos = 1 then [] else ([⟨10 * r + pos, 1⟩] : Digest)
  | ⟨2, _, .sibling _ _⟩ => none
  | ⟨r, _, .sibling _ _⟩ => some fun pos => if pos = 1 then [] else ([10 * r + pos] : Words)
  | ⟨_, _, .packed _⟩ => none

/-- Cell 1 spans the first two children, of three source cells each. -/
def boundaryRows : Rows Nat := [some [.reader 0, .missing], some [.reader 2, .reader 1], none, none]

theorem digestLoop_flat_boundary :
    ∃ out, ReadProg.run boundaryColumns (digestLoop
        (cellFold smallNumerics smallNumerics.folds 8 (fun _ => 0) fun _ => "ValueError")
        (FieldMeta.approximate (V := Unit) (N := Nat) 8 true false).companions 4 3 2 0 boundaryRows
        6 []) = .ok out ∧
      CellsFolded (cellFold smallNumerics smallNumerics.folds 8 (fun _ => 0) fun _ => "ValueError")
        [.locations] 6 (digestParts boundaryColumns boundaryRows 4 3 2 0 [.locations]) out.1 := by
  have hflat := (digestLoop_flat boundaryColumns
    (cellFold smallNumerics smallNumerics.folds 8 (fun _ => 0) fun _ => "ValueError")
    (.approximate 8 true false) boundaryRows 4 (by decide : 0 < 2)
    (by decide : 6 * 2 = boundaryRows.length * 3) 0 []).2.1
  have hok : (ReadProg.run boundaryColumns (digestLoop
      (cellFold smallNumerics smallNumerics.folds 8 (fun _ => 0) fun _ => "ValueError")
      (FieldMeta.approximate (V := Unit) (N := Nat) 8 true false).companions 4 3 2 0 boundaryRows
      6 [])).map (fun out => out.2) = .ok [(1, 0)] := by
    decide +kernel
  cases hrun : ReadProg.run boundaryColumns (digestLoop
      (cellFold smallNumerics smallNumerics.folds 8 (fun _ => 0) fun _ => "ValueError")
      (FieldMeta.approximate (V := Unit) (N := Nat) 8 true false).companions 4 3 2 0 boundaryRows
      6 []) with
  | ok out => exact ⟨out, rfl, (hflat out hrun).2⟩
  | error msg =>
    rw [hrun] at hok
    exact nomatch hok

end Sources

end Zagg.Stage
