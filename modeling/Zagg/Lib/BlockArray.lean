import Mathlib.Logic.Function.Basic
import Zagg.Lib.Dict
import Zagg.Lib.Pointwise
import Zagg.Lib.RowMajor

/-!
# Named arrays, written block by block

A store gives the positions of its named arrays a value. A write is a list of assignments, one
after the other, and a block of values is assigned position by position. Slabs are arrays kept
in a dictionary: they start out as fill, so a name that is absent reads as fill too. A loop that
may fail and whose steps only assign is the list of its assignments.
-/
namespace Zagg.Lib

open BoxIndex (Inside size ravel unravel)

section Assign
variable {κ κ' β : Type} [DecidableEq κ] [DecidableEq κ'] {ws : List (κ × β)} {a : κ → β} {k : κ}

/-- `a[k] = v` for every pair, one after the other. -/
def assignAll (ws : List (κ × β)) (a : κ → β) : κ → β :=
  ws.foldl (fun a w => Function.update a w.1 w.2) a

theorem assignAll_cons (w : κ × β) : assignAll (w :: ws) a = assignAll ws (Function.update a w.1 w.2) := rfl

theorem assignAll_append (ws ws' : List (κ × β)) (a : κ → β) :
    assignAll (ws ++ ws') a = assignAll ws' (assignAll ws a) := List.foldl_append

theorem assignAll_flatten (wss : List (List (κ × β))) (a : κ → β) :
    wss.foldl (fun a ws => assignAll ws a) a = assignAll wss.flatten a := by
  induction wss generalizing a with
  | nil => rfl
  | cons ws wss ih => rw [List.foldl_cons, ih, List.flatten_cons, assignAll_append]

theorem assignAll_of_notMem (h : k ∉ ws.map Prod.fst) : assignAll ws a k = a k := by
  induction ws generalizing a with
  | nil => rfl
  | cons w ws ih =>
    rw [List.map_cons, List.mem_cons, not_or] at h
    rw [assignAll_cons, ih h.2, Function.update_of_ne h.1]

theorem assignAll_of_mem {v : β} (hnodup : (ws.map Prod.fst).Nodup) (h : (k, v) ∈ ws) :
    assignAll ws a k = v := by
  induction ws generalizing a with
  | nil => cases h
  | cons w ws ih =>
    rw [List.map_cons, List.nodup_cons] at hnodup
    rw [assignAll_cons]
    cases List.mem_cons.mp h with
    | inl hw =>
      rw [← hw] at hnodup ⊢
      rw [assignAll_of_notMem hnodup.1, Function.update_self]
    | inr hw => exact ih hnodup.2 hw

/-- A key that is assigned one value only, or was left with it. -/
theorem assignAll_eq {v : β} (hsame : ∀ w ∈ ws, w.1 = k → w.2 = v) (h : (∃ w ∈ ws, w.1 = k) ∨ a k = v) :
    assignAll ws a k = v := by
  induction ws generalizing a with
  | nil =>
    cases h with
    | inl hmem =>
      obtain ⟨w, hw, -⟩ := hmem
      cases hw
    | inr ha => exact ha
  | cons w ws ih =>
    rw [assignAll_cons]
    apply ih fun w' hw' => hsame w' (.tail _ hw')
    by_cases hlater : ∃ w' ∈ ws, w'.1 = k
    · exact .inl hlater
    · right
      by_cases hk : w.1 = k
      · rw [← hk, Function.update_self]
        exact hsame w (.head _) hk
      · rw [Function.update_of_ne (Ne.symm hk)]
        cases h with
        | inl hmem =>
          obtain ⟨w', hw', hk'⟩ := hmem
          cases List.mem_cons.mp hw' with
          | inl heq => exact absurd (heq ▸ hk') hk
          | inr hrest => exact absurd ⟨w', hrest, hk'⟩ hlater
        | inr ha => exact ha

/-- Assignments at moved keys, read at a moved key that no other key meets. -/
theorem assignAll_map (f : κ → κ') (k : κ) {a' : κ' → β} (hf : ∀ w ∈ ws, f w.1 = f k → w.1 = k)
    (h : a' (f k) = a k) : assignAll (ws.map fun w => (f w.1, w.2)) a' (f k) = assignAll ws a k := by
  induction ws generalizing a a' with
  | nil => exact h
  | cons w ws ih =>
    rw [List.map_cons, assignAll_cons, assignAll_cons]
    apply ih fun w' hw' => hf w' (.tail _ hw')
    by_cases hk : w.1 = k
    · rw [hk, Function.update_self, Function.update_self]
    · have hne : f k ≠ f w.1 := fun heq => hk (hf w (.head _) heq.symm)
      rw [Function.update_of_ne hne, Function.update_of_ne (Ne.symm hk)]
      exact h

end Assign

section Loops
variable {σ τ ω ε α : Type}

/-- Two computations that show the same fail alike or succeed alike. -/
theorem eq_of_map_eq {β : Type} {x : Except ε σ} {y : Except ε ω} {f : σ → β} {g : ω → β}
    (h : x.map f = y.map g) :
    (∃ e, x = .error e ∧ y = .error e) ∨ ∃ a b, x = .ok a ∧ y = .ok b ∧ f a = g b := by
  cases x with
  | error e =>
    cases y with
    | error e' => exact .inl ⟨e, rfl, (congrArg Except.error (Except.error.inj h)).symm⟩
    | ok b => cases h
  | ok a =>
    cases y with
    | error e' => cases h
    | ok b => exact .inr ⟨a, b, rfl, rfl, Except.ok.inj h⟩

theorem ok_of_map_eq {β : Type} {x : Except ε σ} {y : Except ε ω} {f : σ → β} {g : ω → β} {b : ω}
    (h : x.map f = y.map g) (hy : y = .ok b) : ∃ a, x = .ok a ∧ f a = g b := by
  rw [hy] at h
  cases x with
  | error e => cases h
  | ok a => exact ⟨a, rfl, Except.ok.inj h⟩

/-- A loop whose steps may fail, as far as `view` shows its state: the steps find what to apply. -/
theorem foldlM_view {step : σ → α → Except ε σ} {view : σ → τ} {found : α → Except ε ω}
    {apply : ω → τ → τ} {l : List α}
    (h : ∀ x ∈ l, ∀ s, (step s x).map view = (found x).map fun w => apply w (view s)) (s : σ) :
    (l.foldlM step s).map view =
      (l.mapM found).map fun ws => ws.foldl (fun t w => apply w t) (view s) := by
  induction l generalizing s with
  | nil => rfl
  | cons x l ih =>
    rw [List.foldlM_cons, List.mapM_cons]
    rcases eq_of_map_eq (h x (.head _) s) with ⟨e, hs, hf⟩ | ⟨s', w, hs, hf, hview⟩
    · rw [hs, hf]
      rfl
    · rw [hs, hf]
      have hrest := ih (fun y hy => h y (.tail _ hy)) s'
      rw [hview] at hrest
      show (l.foldlM step s').map view = _
      rw [hrest]
      cases l.mapM found <;> rfl

/-- A loop whose steps only assign, as far as `view` shows its state. -/
theorem foldlM_assigns {κ β : Type} [DecidableEq κ] {step : σ → α → Except ε σ} {view : σ → κ → β}
    {found : α → Except ε (List ω)} {place : ω → κ × β} {l : List α}
    (h : ∀ x ∈ l, ∀ s, (step s x).map view = (found x).map fun ws => assignAll (ws.map place) (view s))
    (s : σ) : (l.foldlM step s).map view =
      ((l.mapM found).map List.flatten).map fun ws => assignAll (ws.map place) (view s) := by
  rw [foldlM_view h]
  cases l.mapM found with
  | error e => rfl
  | ok wss =>
    apply congrArg Except.ok
    show _ = assignAll (wss.flatten.map place) _
    rw [List.map_flatten, ← assignAll_flatten, List.foldl_map]

/-- A loop whose steps succeed from one state of the invariant to the next. -/
theorem foldlM_run {step : σ → α → Except ε σ} (I : List α → σ → Prop) {l : List α}
    (h : ∀ done x rest, done ++ x :: rest = l → ∀ s, I done s →
      ∃ s', step s x = .ok s' ∧ I (done ++ [x]) s') {s : σ} (h₀ : I [] s) :
    ∃ s', l.foldlM step s = .ok s' ∧ I l s' := by
  have hrest : ∀ rest done, done ++ rest = l → ∀ s, I done s →
      ∃ s', rest.foldlM step s = .ok s' ∧ I l s' := by
    intro rest
    induction rest with
    | nil =>
      intro done hl s hs
      rw [List.append_nil] at hl
      exact ⟨s, rfl, hl ▸ hs⟩
    | cons x rest ih =>
      intro done hl s hs
      obtain ⟨s', hstep, hs'⟩ := h done x rest hl s hs
      obtain ⟨s'', hrun, hs''⟩ := ih (done ++ [x]) (by rw [List.append_assoc]; exact hl) s' hs'
      refine ⟨s'', ?_, hs''⟩
      rw [List.foldlM_cons, hstep]
      exact hrun
  exact hrest l [] rfl s h₀

/-- A loop over the entries that matter to it. -/
theorem foldlM_filter {step : σ → α → Except ε σ} {p : α → Bool} {l : List α}
    (h : ∀ x ∈ l, p x = false → ∀ s, step s x = .ok s) (s : σ) :
    (l.filter p).foldlM step s = l.foldlM step s := by
  induction l generalizing s with
  | nil => rfl
  | cons x l ih =>
    have hrest := ih fun y hy => h y (.tail _ hy)
    cases hx : p x with
    | true =>
      rw [List.filter_cons_of_pos hx, List.foldlM_cons, List.foldlM_cons]
      exact congrArg (Except.bind (step s x)) (funext hrest)
    | false =>
      rw [List.filter_cons_of_neg (ne_true_of_eq_false hx), List.foldlM_cons, h x (.head _) hx]
      exact hrest s

/-- What the entries of a list are mapped to, put together. -/
theorem mem_flatten_of_mapM {f : α → Except ε (List ω)} {l : List α} {wss : List (List ω)}
    (h : l.mapM f = .ok wss) {x : ω} : x ∈ wss.flatten ↔ ∃ a ∈ l, ∃ ws, f a = .ok ws ∧ x ∈ ws := by
  rw [List.mem_flatten]
  constructor
  · intro hx
    obtain ⟨ws, hws, hmem⟩ := hx
    obtain ⟨a, ha, hok⟩ := forall₂_exists_of_mem_right (forall₂_mapM h) hws
    exact ⟨a, ha, ws, hok, hmem⟩
  · intro hx
    obtain ⟨a, ha, ws, hok, hmem⟩ := hx
    obtain ⟨ws', hws', hok'⟩ := ok_of_mapM h ha
    cases hok.symm.trans hok'
    exact ⟨ws, hws', hmem⟩

theorem steps_of_foldlM {step : σ → α → Except ε σ} {l : List α} {s s' : σ}
    (h : l.foldlM step s = .ok s') : ∀ x ∈ l, ∃ s₁ s₂, step s₁ x = .ok s₂ := by
  induction l generalizing s with
  | nil =>
    intro y hy
    cases hy
  | cons x l ih =>
    rw [List.foldlM_cons] at h
    obtain ⟨s₁, hstep, hrun⟩ := bind_ok h
    intro y hy
    cases List.mem_cons.mp hy with
    | inl heq => exact ⟨s, s₁, heq ▸ hstep⟩
    | inr hy => exact ih hrun y hy

end Loops

section Blocks
variable {P ν β : Type} [BoxIndex P]

/-- The assignments of `a[start:start + shape] = block`. -/
def blockWrites (shape start : P) (block : P → β) : List (P × β) :=
  (List.range (size shape)).map fun k => (start + unravel shape k, block (unravel shape k))

/-- `values.reshape(shape)`; rows past the end do not occur. -/
def reshape (shape : P) (rows : List β) (fill : β) : P → β := fun o => rows.getD (ravel shape o) fill

/-- The assignments of a chunk, in an array where the chunk starts at `start`. -/
def shifted (start : P) (ws : List ((ν × P) × β)) : List ((ν × P) × β) :=
  ws.map fun w => ((w.1.1, start + w.1.2), w.2)

/-- The assignments stay in the chunk. -/
def Within (shape : P) (ws : List ((ν × P) × β)) : Prop := ∀ w ∈ ws, Inside w.1.2 shape

/-- Each of the chunks holds its content in its own block, and everything else is fill. -/
def Filled {γ : Type} (shape : P) (at_ : γ → P) (content : γ → ν × P → β) (fill : ν → β) (l : List γ)
    (a : ν × P → β) : Prop :=
  (∀ r ∈ l, ∀ name o, Inside o shape → a (name, at_ r * shape + o) = content r (name, o)) ∧
    ∀ name p, (∀ r ∈ l, p ∉ tile shape (at_ r)) → a (name, p) = fill name

variable {shape b o p : P} {block : P → β} {a : P → β}

theorem fst_blockWrites : (blockWrites shape (b * shape) block).map Prod.fst = tile shape b := by
  rw [blockWrites, tile, List.map_map]
  rfl

theorem mem_blockWrites (start : P) (ho : Inside o shape) :
    (start + o, block o) ∈ blockWrites shape start block := by
  apply List.mem_map.mpr
  refine ⟨ravel shape o, List.mem_range.mpr (BoxIndex.ravel_lt ho), ?_⟩
  rw [BoxIndex.unravel_ravel ho]

/-- One more chunk, in a block of its own. -/
theorem Filled.concat {γ : Type} {at_ : γ → P} {content : γ → ν × P → β} {fill : ν → β} {l : List γ}
    {a a' : ν × P → β} {r : γ} (h : Filled shape at_ content fill l a) (hr : at_ r ∉ l.map at_)
    (hin : (∀ name o, Inside o shape → a (name, at_ r * shape + o) = fill name) →
      ∀ name o, Inside o shape → a' (name, at_ r * shape + o) = content r (name, o))
    (hout : ∀ name p, p ∉ tile shape (at_ r) → a' (name, p) = a (name, p)) :
    Filled shape at_ content fill (l ++ [r]) a' := by
  have hother : ∀ r' ∈ l, ∀ p ∈ tile shape (at_ r'), p ∉ tile shape (at_ r) := by
    intro r' hr' p hp hp'
    exact hr (List.mem_map.mpr ⟨r', hr', eq_of_mem_tile hp hp'⟩)
  constructor
  · intro r' hr' name o ho
    cases List.mem_append.mp hr' with
    | inl hmem =>
      rw [hout name _ (hother r' hmem _ (mem_tile.mpr ⟨o, ho, rfl⟩))]
      exact h.1 r' hmem name o ho
    | inr hmem =>
      rw [List.mem_singleton.mp hmem]
      apply hin _ name o ho
      intro name o ho
      apply h.2
      intro r' hr' hp
      exact hother r' hr' _ hp (mem_tile.mpr ⟨o, ho, rfl⟩)
  · intro name p hp
    rw [hout name p (hp r (List.mem_append_right _ (.head _)))]
    exact h.2 name p fun r' hr' => hp r' (List.mem_append_left _ hr')

variable [DecidableEq P] [DecidableEq ν]

theorem assign_blockWrites (ho : Inside o shape) :
    assignAll (blockWrites shape (b * shape) block) a (b * shape + o) = block o := by
  have hnodup : ((blockWrites shape (b * shape) block).map Prod.fst).Nodup := by
    rw [fst_blockWrites]
    exact nodup_tile
  exact assignAll_of_mem hnodup (mem_blockWrites _ ho)

theorem assign_blockWrites_outside (h : p ∉ tile shape b) :
    assignAll (blockWrites shape (b * shape) block) a p = a p := by
  apply assignAll_of_notMem
  rw [fst_blockWrites]
  exact h

/-- In its own block a chunk leaves what it would leave in an array of its own. -/
theorem assign_shifted {ws : List ((ν × P) × β)} (hws : Within shape ws) {a a' : ν × P → β} {name : ν}
    (ho : Inside o shape) (h : a' (name, b * shape + o) = a (name, o)) :
    assignAll (shifted (b * shape) ws) a' (name, b * shape + o) = assignAll ws a (name, o) := by
  have hkey : ∀ w ∈ ws, (w.1.1, b * shape + w.1.2) = (name, b * shape + o) → w.1 = (name, o) := by
    intro w hw heq
    obtain ⟨hname, hplace⟩ := Prod.mk.inj heq
    exact Prod.ext hname (BoxIndex.join_inj (hws w hw) ho hplace).2
  exact assignAll_map (fun k : ν × P => (k.1, b * shape + k.2)) (name, o) hkey h

theorem assign_shifted_outside {ws : List ((ν × P) × β)} (hws : Within shape ws) {a : ν × P → β}
    {name : ν} (h : p ∉ tile shape b) : assignAll (shifted (b * shape) ws) a (name, p) = a (name, p) := by
  apply assignAll_of_notMem
  intro hmem
  obtain ⟨w', hw', heq⟩ := List.mem_map.mp hmem
  obtain ⟨w, hw, rfl⟩ := List.mem_map.mp hw'
  exact h (mem_tile.mpr ⟨w.1.2, hws w hw, (congrArg Prod.snd heq).symm⟩)

theorem Filled.assign {γ : Type} {at_ : γ → P} {content : γ → ν × P → β} {fill : ν → β} {l : List γ}
    {a : ν × P → β} {r : γ} {ws : List ((ν × P) × β)} (h : Filled shape at_ content fill l a)
    (hr : at_ r ∉ l.map at_) (hws : Within shape ws)
    (hcontent : content r = assignAll ws fun k => fill k.1) :
    Filled shape at_ content fill (l ++ [r]) (assignAll (shifted (at_ r * shape) ws) a) := by
  apply h.concat hr
  · intro hfill name o ho
    rw [hcontent]
    exact assign_shifted hws ho (hfill name o ho)
  · intro name p hp
    exact assign_shifted_outside hws hp

end Blocks

section ChunkGrid
variable {P ν β γ : Type}

/-- The assignments of a chunk on the chunk grid. -/
def atBlock (b : P) (ws : List (ν × β)) : List ((ν × P) × β) := ws.map fun w => ((w.1, b), w.2)

/-- Each of the chunks holds its values at its own place of the chunk grid. -/
def FilledAt (at_ : γ → P) (content : γ → ν → β) (fill : ν → β) (l : List γ) (a : ν × P → β) : Prop :=
  (∀ r ∈ l, ∀ name, a (name, at_ r) = content r name) ∧
    ∀ name p, (∀ r ∈ l, p ≠ at_ r) → a (name, p) = fill name

theorem FilledAt.assign [DecidableEq P] [DecidableEq ν] {at_ : γ → P} {content : γ → ν → β} {fill : ν → β}
    {l : List γ} {a : ν × P → β} {r : γ} {ws : List (ν × β)} (h : FilledAt at_ content fill l a)
    (hr : at_ r ∉ l.map at_) (hcontent : content r = assignAll ws fill) :
    FilledAt at_ content fill (l ++ [r]) (assignAll (atBlock (at_ r) ws) a) := by
  have hout : ∀ name p, p ≠ at_ r → assignAll (atBlock (at_ r) ws) a (name, p) = a (name, p) := by
    intro name p hp
    apply assignAll_of_notMem
    intro hmem
    obtain ⟨w', hw', heq⟩ := List.mem_map.mp hmem
    obtain ⟨w, -, rfl⟩ := List.mem_map.mp hw'
    exact hp (congrArg Prod.snd heq).symm
  constructor
  · intro r' hr' name
    cases List.mem_append.mp hr' with
    | inl hmem =>
      rw [hout name _ fun heq => hr (List.mem_map.mpr ⟨r', hmem, heq⟩)]
      exact h.1 r' hmem name
    | inr hmem =>
      rw [List.mem_singleton.mp hmem, hcontent]
      apply assignAll_map (fun name => (name, at_ r)) name fun w _ heq => congrArg Prod.fst heq
      exact h.2 name _ fun r' hr' heq => hr (List.mem_map.mpr ⟨r', hr', heq.symm⟩)
  · intro name p hp
    rw [hout name p (hp r (List.mem_append_right _ (.head _)))]
    exact h.2 name p fun r' hr' => hp r' (List.mem_append_left _ hr')

end ChunkGrid

section Items
variable {ν τ : Type} [DecidableEq ν]

/-- `d.get(name)`. -/
def itemOf (d : List (ν × τ)) (name : ν) : Option τ := d.lookup name

theorem itemOf_put_self (name : ν) (v : τ) (d : List (ν × τ)) : itemOf (put name v d) name = some v :=
  lookup_put_self ..

theorem itemOf_put_of_ne {name name' : ν} (h : name' ≠ name) (v : τ) (d : List (ν × τ)) :
    itemOf (put name v d) name' = itemOf d name' := lookup_put_of_ne h ..

end Items

section Slabs
variable {P ν β : Type} [DecidableEq P] [DecidableEq ν]

/-- The assignments to one array of a store. -/
def named (name : ν) (ws : List (P × β)) : List ((ν × P) × β) := ws.map fun w => ((name, w.1), w.2)

theorem assign_named {ws : List (P × β)} {a : ν × P → β} {name : ν} {p : P} :
    assignAll (named name ws) a (name, p) = assignAll ws (fun p => a (name, p)) p :=
  assignAll_map (fun p => (name, p)) p (fun _ _ heq => congrArg Prod.snd heq) rfl

theorem assign_named_of_ne {ws : List (P × β)} {a : ν × P → β} {name name' : ν} {p : P} (h : name' ≠ name) :
    assignAll (named name ws) a (name', p) = a (name', p) := by
  apply assignAll_of_notMem
  intro hmem
  obtain ⟨w', hw', heq⟩ := List.mem_map.mp hmem
  obtain ⟨w, -, rfl⟩ := List.mem_map.mp hw'
  exact h (congrArg Prod.fst heq).symm

/-- Arrays by name, each at fill when it is first met. -/
abbrev Slabs (ν P β : Type) := List (ν × (P → β))

variable (fill : ν → β)

omit [DecidableEq P] in
def slab (slabs : Slabs ν P β) (name : ν) : P → β := (itemOf slabs name).getD fun _ => fill name

/-- Assign in the slab of a name, which is made at fill when it is not there. -/
def editSlab (name : ν) (ws : List (P × β)) (slabs : Slabs ν P β) : Slabs ν P β :=
  put name (assignAll ws (slab fill slabs name)) slabs

def slabsAt (slabs : Slabs ν P β) : ν × P → β := fun k => slab fill slabs k.1 k.2

theorem slabsAt_edit (name : ν) (ws : List (P × β)) (slabs : Slabs ν P β) :
    slabsAt fill (editSlab fill name ws slabs) = assignAll (named name ws) (slabsAt fill slabs) := by
  funext k
  obtain ⟨name', p⟩ := k
  by_cases hname : name' = name
  · rw [hname, assign_named]
    show slab fill (put name _ slabs) name p = _
    rw [slab, itemOf_put_self]
    rfl
  · rw [assign_named_of_ne hname]
    show slab fill (put name _ slabs) name' p = _
    rw [slab, itemOf_put_of_ne hname]
    rfl

variable [BoxIndex P]

/-- Write the slabs at a block of their arrays. -/
def writeSlabs (shape b : P) (slabs : Slabs ν P β) (a : ν × P → β) : ν × P → β :=
  (slabs.map Prod.fst).foldl (fun a name =>
    assignAll (named name (blockWrites shape (b * shape) (slab fill slabs name))) a) a

variable {fill} {shape b o p : P} {slabs : Slabs ν P β} {a : ν × P → β} {name : ν}

theorem foldl_writes_outside {names : List ν} {block : ν → P → β} (h : p ∉ tile shape b) :
    names.foldl (fun a name => assignAll (named name (blockWrites shape (b * shape) (block name))) a) a
      (name, p) = a (name, p) := by
  induction names generalizing a with
  | nil => rfl
  | cons x names ih =>
    rw [List.foldl_cons, ih]
    by_cases hx : name = x
    · rw [hx, assign_named, assign_blockWrites_outside h]
    · exact assign_named_of_ne hx

theorem writeSlabs_outside (h : p ∉ tile shape b) :
    writeSlabs fill shape b slabs a (name, p) = a (name, p) := foldl_writes_outside h

theorem foldl_writes {names : List ν} {block : ν → P → β} (ho : Inside o shape) :
    names.foldl (fun a name => assignAll (named name (blockWrites shape (b * shape) (block name))) a) a
      (name, b * shape + o) = if name ∈ names then block name o else a (name, b * shape + o) := by
  induction names generalizing a with
  | nil => rfl
  | cons x names ih =>
    rw [List.foldl_cons, ih]
    by_cases hx : name = x
    · have hblock : assignAll (named x (blockWrites shape (b * shape) (block x))) a (x, b * shape + o) =
          block x o := by
        rw [assign_named, assign_blockWrites ho]
      rw [hx, hblock, ite_self, if_pos List.mem_cons_self]
    · rw [assign_named_of_ne hx]
      have hiff : name ∈ x :: names ↔ name ∈ names := by
        rw [List.mem_cons, or_iff_right hx]
      simp only [hiff]

/-- Where the store held fill, it holds what the slabs hold. -/
theorem writeSlabs_inside (ho : Inside o shape) (h : a (name, b * shape + o) = fill name) :
    writeSlabs fill shape b slabs a (name, b * shape + o) = slabsAt fill slabs (name, o) := by
  rw [writeSlabs, foldl_writes ho]
  split_ifs with hmem
  · rfl
  · have hnone : itemOf slabs name = none := lookup_eq_none.mpr hmem
    show _ = slab fill slabs name o
    rw [h, slab, hnone]
    rfl

/-- A chunk of its own slabs. -/
theorem Filled.withSlabs {γ : Type} {at_ : γ → P} {content : γ → ν × P → β} {l : List γ} {r : γ}
    (h : Filled shape at_ content fill l a) (hr : at_ r ∉ l.map at_)
    (hcontent : content r = slabsAt fill slabs) :
    Filled shape at_ content fill (l ++ [r]) (writeSlabs fill shape (at_ r) slabs a) := by
  apply h.concat hr
  · intro hfill name o ho
    rw [hcontent]
    exact writeSlabs_inside ho (hfill name o ho)
  · intro name p hp
    exact writeSlabs_outside hp

/-- The slabs of all chunks, written at once. -/
theorem Filled.ofSlabs {γ : Type} {local_ at_ : γ → P} {content : γ → ν × P → β} {l : List γ}
    {counts shard : P} (h : Filled shape local_ content fill l (slabsAt fill slabs))
    (hlocal : ∀ r ∈ l, Inside (local_ r) counts) (hat : ∀ r ∈ l, at_ r = shard * counts + local_ r) :
    Filled shape at_ content fill l
      (writeSlabs fill (counts * shape) shard slabs fun k => fill k.1) := by
  have hplace : ∀ r ∈ l, ∀ o, at_ r * shape + o = shard * (counts * shape) + (local_ r * shape + o) := by
    intro r hr o
    rw [hat r hr]
    ring
  constructor
  · intro r hr name o ho
    rw [hplace r hr, writeSlabs_inside (BoxIndex.inside_join (hlocal r hr) ho) rfl]
    exact h.1 r hr name o ho
  · intro name p hp
    by_cases hin : p ∈ tile (counts * shape) shard
    · obtain ⟨o, ho, rfl⟩ := mem_tile.mp hin
      rw [writeSlabs_inside ho rfl]
      apply h.2
      intro r hr hmem
      obtain ⟨o', ho', rfl⟩ := mem_tile.mp hmem
      exact hp r hr (mem_tile.mpr ⟨o', ho', (hplace r hr o').symm⟩)
    · exact writeSlabs_outside hin

end Slabs
end Zagg.Lib
