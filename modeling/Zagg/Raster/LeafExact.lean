import Mathlib.Data.List.Perm.Basic
import Mathlib.Tactic.Common
import Zagg.Raster.LeafStream

/-!
# What a streamed leaf holds

`Inv` keeps every row a call has written, and every digest fed with exactly the rows its
calls have fed, as long as the template replaces the leaf before the first row and
an accumulator is armed before the first feed (`Settled`). A buffer of one or two
leaves at most one call in flight, so there every step is settled; with three, two
first calls can both find the box empty, and the second template wipes the first row.
-/
namespace Zagg.Raster

open Zagg.Lib StreamingArrayHash

variable {β γ η : Type}

/-- The call has written its row of the band. -/
def Pc.wrote (b : β) : Pc β → Prop
  | .row left | .feed _ left => b ∉ left
  | _ => False

/-- The call has fed its row of the band. -/
def Pc.fed (b : β) : Pc β → Prop
  | .row left => b ∉ left
  | .feed b' left => b ≠ b' ∧ b ∉ left
  | _ => False

/-- The call is past the template. -/
def Pc.opened : Pc β → Prop
  | .test | .template => False
  | _ => True

variable (spec : LeafSpec β γ) (bytes : γ → List UInt8) (sha256 : List UInt8 → η)
variable (maxPending n writeBuffer : Nat)

/-- Nothing is written that the call about to move would undo. -/
def Spares (s : State β γ) : Option (Pc β) → Prop
  | some .template => ∀ c ∈ s.calls, ∀ b ∈ spec.bands, ¬ c.pc.wrote b
  | some (.arm (b :: _)) => b ∈ spec.bands → ∀ c ∈ s.calls, ¬ c.pc.fed b
  | _ => True

/-- The template replaces the leaf before the first row is written, and an accumulator
is armed before the first row is fed. -/
def Settled (s : State β γ) : Action → Prop
  | .step i => Spares spec s ((s.calls[i]?).map Call.pc)
  | _ => True

instance [DecidableEq β] (b : β) : DecidablePred (Pc.wrote b)
  | .row left | .feed _ left => inferInstanceAs (Decidable (b ∉ left))
  | .test | .template | .arm _ => .isFalse id

instance [DecidableEq β] (b : β) : DecidablePred (Pc.fed b)
  | .row left => inferInstanceAs (Decidable (b ∉ left))
  | .feed b' left => inferInstanceAs (Decidable (b ≠ b' ∧ b ∉ left))
  | .test | .template | .arm _ => .isFalse id

instance [DecidableEq β] (s : State β γ) : DecidablePred (Spares spec s)
  | some .template =>
    inferInstanceAs (Decidable (∀ c ∈ s.calls, ∀ b ∈ spec.bands, ¬ c.pc.wrote b))
  | some (.arm (b :: _)) =>
    inferInstanceAs (Decidable (b ∈ spec.bands → ∀ c ∈ s.calls, ¬ c.pc.fed b))
  | none | some .test | some (.arm []) | some (.row _) | some (.feed _ _) => .isTrue trivial

instance [DecidableEq β] (s : State β γ) : DecidablePred (Settled spec s)
  | .step i => inferInstanceAs (Decidable (Spares spec s ((s.calls[i]?).map Call.pc)))
  | .emit _ | .armFail _ => .isTrue trivial

/-- The bands still to do come in order. -/
def PcOk : Pc β → Prop
  | .row left => left <:+ spec.bands
  | .feed b left => (b :: left) <:+ spec.bands
  | _ => True

/-- The array holds the rows written, and fill everywhere else. -/
structure Holds (calls : List (Call β γ)) (b : β) (arr : List (List γ)) : Prop where
  length : arr.length = n
  written : ∀ c ∈ calls, c.pc.wrote b → arr[c.t]? = some (spec.castRow c.slab b)
  blank : ∀ t < n, (∀ c ∈ calls, c.pc.wrote b → c.t ≠ t) → arr[t]? = some (spec.fillRow b)

/-- A digest still valid has been fed the rows of the calls that fed one. -/
structure Digests (calls : List (Call β γ)) (b : β) (st : StreamingArrayHash γ) : Prop where
  rows : st.rows = n
  rowShape : st.rowShape = spec.cells
  fillValue : st.fillValue = some (spec.fill b)
  tracks : st.invalidReason = none → ∃ fed, Tracks bytes st fed ∧
    ∀ t v, fed t = some v ↔ ∃ c ∈ calls, c.t = t ∧ c.pc.fed b ∧ spec.castRow c.slab b = v

structure Inv (groups : List (Nat × (β → List γ))) (s : State β γ) : Prop where
  pcs : ∀ c ∈ s.calls, PcOk spec c.pc
  rowsNodup : (s.calls.map Call.t ++ s.waiting.map Prod.fst).Nodup
  all : ∀ g ∈ groups, g ∈ s.waiting ∨ ∃ c ∈ s.calls, c.t = g.1 ∧ c.slab = g.2
  staged : ∀ p ∈ s.staged, p ∈ spec.coords
  box : s.box = true → ∃ c ∈ s.calls, c.pc.opened
  leaf : (∃ c ∈ s.calls, c.pc.opened) → ∀ b ∈ spec.bands,
    ∃ arr, s.leaf b = some arr ∧ Holds spec n s.calls b arr
  streams : ∀ b ∈ spec.bands, ∀ st, s.streams b = some st → Digests spec bytes n s.calls b st

variable {spec bytes sha256 maxPending n writeBuffer}
variable {groups : List (Nat × (β → List γ))} {s s' : State β γ} {c : Call β γ} {i : Nat} {pc : Pc β}

theorem inv_init {debris : β → Option (List (List γ))} (h : (groups.map Prod.fst).Nodup) :
    Inv spec bytes n groups (init debris groups) where
  pcs _ hc := nomatch hc
  rowsNodup := h
  all _ hg := .inl hg
  staged _ hp := nomatch hp
  box h := nomatch h
  leaf h := nomatch h
  streams _ _ _ h := nomatch h

/-- Moving one call leaves the others, which write other rows. -/
theorem mem_set_iff {calls : List (Call β γ)} (hn : (calls.map Call.t).Nodup)
    (hi : calls[i]? = some c) {x : Call β γ} :
    x ∈ calls.set i { c with pc } ↔ x = { c with pc } ∨ x ∈ calls ∧ x.t ≠ c.t := by
  have hinj : ∀ {j k : Nat} {x y : Call β γ}, calls[j]? = some x → calls[k]? = some y →
      x.t = y.t → j = k := by
    intro j k x y hj hk he
    have hj' : (calls.map Call.t)[j]? = some x.t := by rw [List.getElem?_map, hj]; rfl
    have hk' : (calls.map Call.t)[k]? = some y.t := by rw [List.getElem?_map, hk]; rfl
    exact (List.getElem?_inj (List.getElem?_eq_some_iff.mp hj').1 hn).mp (hj'.trans (he ▸ hk'.symm))
  have hlt : i < calls.length := (List.getElem?_eq_some_iff.mp hi).1
  constructor
  · intro hx
    obtain ⟨j, hj⟩ := List.mem_iff_getElem?.mp hx
    rw [List.getElem?_set] at hj
    split_ifs at hj with hij
    · exact .inl (Option.some.inj hj).symm
    · exact .inr ⟨List.mem_iff_getElem?.mpr ⟨j, hj⟩, fun he => hij (hinj hi hj he.symm)⟩
  · rintro (rfl | ⟨hx, hne⟩)
    · exact List.mem_iff_getElem?.mpr ⟨i, by rw [List.getElem?_set, if_pos rfl, if_pos hlt]⟩
    · obtain ⟨j, hj⟩ := List.mem_iff_getElem?.mp hx
      refine List.mem_iff_getElem?.mpr ⟨j, ?_⟩
      rw [List.getElem?_set, if_neg, hj]
      rintro rfl
      rw [hi] at hj
      exact hne (congrArg Call.t (Option.some.inj hj)).symm

theorem map_t_set {calls : List (Call β γ)} (hi : calls[i]? = some c) :
    (calls.set i { c with pc }).map Call.t = calls.map Call.t := by
  rw [List.map_set]
  refine List.ext_getElem? fun j => ?_
  rw [List.getElem?_set]
  split_ifs with hij hlt
  · rw [← hij, List.getElem?_map, hi]
    rfl
  · rw [← hij, List.getElem?_eq_none (not_lt.mp hlt)]
  · rfl

section Move
variable {calls : List (Call β γ)} {b : β} {arr : List (List γ)} {st : StreamingArrayHash γ}

/-- A move that writes nothing of the band. -/
theorem Holds.move (h : Holds spec n calls b arr) (hn : (calls.map Call.t).Nodup)
    (hi : calls[i]? = some c) (hw : pc.wrote b ↔ c.pc.wrote b) :
    Holds spec n (calls.set i { c with pc }) b arr where
  length := h.length
  written x hx hxw := by
    rcases (mem_set_iff hn hi).mp hx with rfl | ⟨hx, -⟩
    · exact h.written c (List.mem_of_getElem? hi) (hw.mp hxw)
    · exact h.written x hx hxw
  blank t ht hb := by
    refine h.blank t ht fun x hx hxw he => ?_
    by_cases hxt : x.t = c.t
    · have hxc : x = c := List.inj_on_of_nodup_map hn hx (List.mem_of_getElem? hi) hxt
      rw [hxc] at hxw he
      exact hb { c with pc } ((mem_set_iff hn hi).mpr (.inl rfl)) (hw.mpr hxw) he
    · exact hb x ((mem_set_iff hn hi).mpr (.inr ⟨hx, hxt⟩)) hxw he

/-- The move that writes the call's row of the band. -/
theorem Holds.write (h : Holds spec n calls b arr) (hn : (calls.map Call.t).Nodup)
    (hi : calls[i]? = some c) (hlt : c.t < arr.length) (hw : pc.wrote b) :
    Holds spec n (calls.set i { c with pc }) b (arr.set c.t (spec.castRow c.slab b)) where
  length := by rw [List.length_set, h.length]
  written x hx hxw := by
    rcases (mem_set_iff hn hi).mp hx with rfl | ⟨hx, hne⟩
    · rw [List.getElem?_set_self hlt]
    · rw [List.getElem?_set_ne hne.symm]
      exact h.written x hx hxw
  blank t ht hb := by
    have hne : c.t ≠ t := hb { c with pc } ((mem_set_iff hn hi).mpr (.inl rfl)) hw
    rw [List.getElem?_set_ne hne]
    refine h.blank t ht fun x hx hxw he => ?_
    exact hb x ((mem_set_iff hn hi).mpr (.inr ⟨hx, fun hxt => hne (hxt ▸ he)⟩)) hxw he

theorem Digests.move (h : Digests spec bytes n calls b st) (hn : (calls.map Call.t).Nodup)
    (hi : calls[i]? = some c) (hf : pc.fed b ↔ c.pc.fed b) :
    Digests spec bytes n (calls.set i { c with pc }) b st where
  rows := h.rows
  rowShape := h.rowShape
  fillValue := h.fillValue
  tracks hv := by
    obtain ⟨fed, ht, hfed⟩ := h.tracks hv
    refine ⟨fed, ht, fun t v => (hfed t v).trans ?_⟩
    constructor
    · rintro ⟨x, hx, hxt, hxf, hxv⟩
      by_cases hne : x.t = c.t
      · obtain rfl : x = c := List.inj_on_of_nodup_map hn hx (List.mem_of_getElem? hi) hne
        exact ⟨_, (mem_set_iff hn hi).mpr (.inl rfl), hxt, hf.mpr hxf, hxv⟩
      · exact ⟨x, (mem_set_iff hn hi).mpr (.inr ⟨hx, hne⟩), hxt, hxf, hxv⟩
    · rintro ⟨x, hx, hxt, hxf, hxv⟩
      rcases (mem_set_iff hn hi).mp hx with rfl | ⟨hx, -⟩
      · exact ⟨c, List.mem_of_getElem? hi, hxt, hf.mp hxf, hxv⟩
      · exact ⟨x, hx, hxt, hxf, hxv⟩

/-- The move that feeds the call's row of the band. -/
theorem Digests.feed (h : Digests spec bytes n calls b st) (hn : (calls.map Call.t).Nodup)
    (hi : calls[i]? = some c) (hf : pc.fed b) :
    Digests spec bytes n (calls.set i { c with pc }) b
      (st.update bytes maxPending c.t (spec.castRow c.slab b)) where
  rows := (update_frame _ _).1.trans h.rows
  rowShape := (update_frame _ _).2.1.trans h.rowShape
  fillValue := (update_frame _ _).2.2.trans h.fillValue
  tracks hv := by
    have hst : st.invalidReason = none := by
      rw [← Option.not_isSome_iff_eq_none]
      intro hs
      rw [update_of_invalid hs] at hv
      rw [hv] at hs
      cases hs
    obtain ⟨fed, ht, hfed⟩ := h.tracks hst
    refine ⟨_, ht.update hv, fun t v => ?_⟩
    by_cases htc : t = c.t
    · rw [htc, Function.update_self]
      constructor
      · intro he
        exact ⟨_, (mem_set_iff hn hi).mpr (.inl rfl), rfl, hf, Option.some.inj he⟩
      · rintro ⟨x, hx, hxt, hxf, hxv⟩
        rcases (mem_set_iff hn hi).mp hx with rfl | ⟨-, hne⟩
        · exact congrArg some hxv
        · exact absurd hxt hne
    · rw [Function.update_of_ne htc, hfed]
      constructor
      · rintro ⟨x, hx, hxt, hxf, hxv⟩
        exact ⟨x, (mem_set_iff hn hi).mpr (.inr ⟨hx, fun he => htc (hxt ▸ he)⟩), hxt, hxf, hxv⟩
      · rintro ⟨x, hx, hxt, hxf, hxv⟩
        rcases (mem_set_iff hn hi).mp hx with rfl | ⟨hx, -⟩
        · exact absurd hxt.symm htc
        · exact ⟨x, hx, hxt, hxf, hxv⟩

end Move

theorem Inv.nodup (h : Inv spec bytes n groups s) : (s.calls.map Call.t).Nodup :=
  (List.nodup_append.mp h.rowsNodup).1

/-- What a move has to show of the leaf and the accumulators it leaves behind. -/
theorem Inv.moved (pc : Pc β) (h : Inv spec bytes n groups s) (hi : s.calls[i]? = some c)
    (hcalls : s'.calls = s.calls.set i { c with pc }) (hwait : s'.waiting = s.waiting)
    (hpc : PcOk spec pc) (hop : c.pc.opened → pc.opened)
    (hstaged : ∀ p ∈ s'.staged, p ∈ spec.coords) (hbox : s'.box = true → s.box = true ∨ pc.opened)
    (hleaf : (∃ x ∈ s.calls, x.pc.opened) ∨ pc.opened → ∀ b ∈ spec.bands,
      ∃ arr, s'.leaf b = some arr ∧ Holds spec n (s.calls.set i { c with pc }) b arr)
    (hstreams : ∀ b ∈ spec.bands, ∀ st, s'.streams b = some st →
      Digests spec bytes n (s.calls.set i { c with pc }) b st) :
    Inv spec bytes n groups s' := by
  have hset : ∀ {x}, x ∈ s.calls.set i { c with pc } ↔
      x = { c with pc } ∨ x ∈ s.calls ∧ x.t ≠ c.t := mem_set_iff h.nodup hi
  have hopen : (∃ x ∈ s.calls, x.pc.opened) ∨ pc.opened →
      ∃ x ∈ s'.calls, x.pc.opened := by
    rw [hcalls]
    rintro (⟨x, hx, hxo⟩ | ho)
    · by_cases hxt : x.t = c.t
      · obtain rfl : x = c :=
          List.inj_on_of_nodup_map h.nodup hx (List.mem_of_getElem? hi) hxt
        exact ⟨_, hset.mpr (.inl rfl), hop hxo⟩
      · exact ⟨x, hset.mpr (.inr ⟨hx, hxt⟩), hxo⟩
    · exact ⟨_, hset.mpr (.inl rfl), ho⟩
  refine ⟨?_, ?_, ?_, hstaged, ?_, ?_, ?_⟩
  · intro x hx
    rw [hcalls] at hx
    rcases hset.mp hx with rfl | ⟨hx, -⟩
    · exact hpc
    · exact h.pcs x hx
  · rw [hcalls, hwait, map_t_set hi]
    exact h.rowsNodup
  · intro g hg
    rw [hcalls, hwait]
    rcases h.all g hg with hw | ⟨x, hx, hxt, hxs⟩
    · exact .inl hw
    · right
      by_cases hne : x.t = c.t
      · obtain rfl : x = c :=
          List.inj_on_of_nodup_map h.nodup hx (List.mem_of_getElem? hi) hne
        exact ⟨_, hset.mpr (.inl rfl), hxt, hxs⟩
      · exact ⟨x, hset.mpr (.inr ⟨hx, hne⟩), hxt, hxs⟩
  · intro hb
    exact hopen ((hbox hb).imp_left h.box)
  · intro ho b hb
    rw [hcalls] at ho ⊢
    obtain ⟨x, hx, hxo⟩ := ho
    refine hleaf ?_ b hb
    rcases hset.mp hx with rfl | ⟨hx, -⟩
    · exact .inr hxo
    · exact .inl ⟨x, hx, hxo⟩
  · intro b hb st hst
    rw [hcalls]
    exact hstreams b hb st hst

/-- The leaf part of a move that writes no row. -/
theorem Inv.leaf_move (pc : Pc β) (h : Inv spec bytes n groups s) (hi : s.calls[i]? = some c)
    (hw : ∀ b ∈ spec.bands, (pc.wrote b ↔ c.pc.wrote b)) (ho : ∃ x ∈ s.calls, x.pc.opened) :
    ∀ b ∈ spec.bands,
      ∃ arr, s.leaf b = some arr ∧ Holds spec n (s.calls.set i { c with pc }) b arr := by
  intro b hb
  obtain ⟨arr, ha, hh⟩ := h.leaf ho b hb
  exact ⟨arr, ha, hh.move h.nodup hi (hw b hb)⟩

/-- The accumulators of a move that feeds no row. -/
theorem Inv.streams_move (pc : Pc β) (h : Inv spec bytes n groups s) (hi : s.calls[i]? = some c)
    (hf : ∀ b ∈ spec.bands, (pc.fed b ↔ c.pc.fed b)) :
    ∀ b ∈ spec.bands, ∀ st, s.streams b = some st →
      Digests spec bytes n (s.calls.set i { c with pc }) b st :=
  fun b hb st hst => (h.streams b hb st hst).move h.nodup hi (hf b hb)

section Steps
variable [DecidableEq β]

/-- A call is handed over with nothing written. -/
theorem Inv.emit (h : Inv spec bytes n groups s) (hs : emit writeBuffer s i = some s') :
    Inv spec bytes n groups s' := by
  unfold Raster.emit at hs
  cases hg : s.waiting[i]? with
  | none => rw [hg] at hs; cases hs
  | some g =>
    rw [hg] at hs
    dsimp only at hs
    split_ifs at hs
    obtain rfl := Option.some.inj hs
    have hmem : ∀ {x : Call β γ}, x ∈ s.calls ++ [⟨g.1, g.2, .test⟩] ↔
        x ∈ s.calls ∨ x = ⟨g.1, g.2, .test⟩ := by
      intro x
      rw [List.mem_append, List.mem_singleton]
    have hperm : (g :: s.waiting.eraseIdx i).Perm s.waiting := by
      obtain ⟨hlt, rfl⟩ := List.getElem?_eq_some_iff.mp hg
      exact List.getElem_cons_eraseIdx_perm hlt
    have hquiet : ∀ b, ¬ (Pc.test : Pc β).wrote b ∧ ¬ (Pc.test : Pc β).fed b :=
      fun b => ⟨id, id⟩
    refine ⟨?_, ?_, ?_, h.staged, ?_, ?_, ?_⟩
    · intro x hx
      rcases hmem.mp hx with hx | rfl
      · exact h.pcs x hx
      · trivial
    · refine (List.Perm.nodup_iff ?_).mp h.rowsNodup
      rw [List.map_append, List.append_assoc]
      refine List.Perm.append_left _ ?_
      exact (hperm.map Prod.fst).symm
    · intro g' hg'
      rcases h.all g' hg' with hw | ⟨x, hx, hxt, hxs⟩
      · rcases List.mem_cons.mp (hperm.mem_iff.mpr hw) with rfl | hw
        · exact .inr ⟨_, hmem.mpr (.inr rfl), rfl, rfl⟩
        · exact .inl hw
      · exact .inr ⟨x, hmem.mpr (.inl hx), hxt, hxs⟩
    · intro hb
      obtain ⟨x, hx, hxo⟩ := h.box hb
      exact ⟨x, hmem.mpr (.inl hx), hxo⟩
    · rintro ⟨x, hx, hxo⟩ b hb
      have hx' : x ∈ s.calls := by
        rcases hmem.mp hx with hx | rfl
        · exact hx
        · cases hxo
      obtain ⟨arr, ha, hh⟩ := h.leaf ⟨x, hx', hxo⟩ b hb
      refine ⟨arr, ha, hh.length, ?_, fun t ht hw => hh.blank t ht fun y hy => ?_⟩
      · intro y hy hyw
        rcases hmem.mp hy with hy | rfl
        · exact hh.written y hy hyw
        · exact absurd hyw (hquiet b).1
      · exact hw y (hmem.mpr (.inl hy))
    · intro b hb st hst
      obtain ⟨hr, hsh, hf, ht⟩ := h.streams b hb st hst
      refine ⟨hr, hsh, hf, fun hv => ?_⟩
      obtain ⟨fed, htr, hfed⟩ := ht hv
      refine ⟨fed, htr, fun t v => (hfed t v).trans ⟨?_, ?_⟩⟩
      · rintro ⟨x, hx, hrest⟩
        exact ⟨x, hmem.mpr (.inl hx), hrest⟩
      · rintro ⟨x, hx, hxt, hxf, hxv⟩
        rcases hmem.mp hx with hx | rfl
        · exact ⟨x, hx, hxt, hxf, hxv⟩
        · exact absurd hxf (hquiet b).2

omit [DecidableEq β] in
theorem not_fed_of_suffix {b : β} {left : List β} (h : (b :: left) <:+ spec.bands) :
    b ∉ left := by
  have hn := (List.nodup_append.mp spec.nodup).1
  exact (List.nodup_cons.mp (h.sublist.nodup hn)).1

theorem template_holds {b : β} (hb : b ∈ spec.bands) {calls : List (Call β γ)}
    (hw : ∀ x ∈ calls, ¬ x.pc.wrote b) :
    ∃ arr, spec.template n b = some arr ∧ Holds spec n calls b arr := by
  refine ⟨List.replicate n (spec.fillRow b), if_pos hb, List.length_replicate, ?_, ?_⟩
  · exact fun x hx hxw => absurd hxw (hw x hx)
  · exact fun t ht _ => by rw [List.getElem?_replicate, if_pos ht]

theorem accumulator_digests {b : β} (hb : b ∈ spec.bands) {calls : List (Call β γ)}
    (hf : ∀ x ∈ calls, ¬ x.pc.fed b) : Digests spec bytes n calls b (spec.accumulator n b) where
  rows := by
    rw [LeafSpec.accumulator, LeafSpec.template, if_pos hb]
    exact List.length_replicate
  rowShape := if_pos hb
  fillValue := rfl
  tracks _ := by
    refine ⟨_, tracks_fresh _ _ _, fun t v => ⟨fun h => (nomatch h), ?_⟩⟩
    rintro ⟨x, hx, -, hxf, -⟩
    exact absurd hxf (hf x hx)

omit [DecidableEq β] in
/-- `_box`'s double-checked test. -/
theorem Inv.call_test (h : Inv spec bytes n groups s) (hi : s.calls[i]? = some c)
    (hpc : c.pc = .test) :
    Inv spec bytes n groups (s.setPc i c (if s.box then .row spec.bands else .template)) := by
  have hwrote : ∀ b, ¬ c.pc.wrote b := fun b => by rw [hpc]; exact id
  have hfed : ∀ b, ¬ c.pc.fed b := fun b => by rw [hpc]; exact id
  cases hb : s.box with
  | true =>
    refine h.moved (.row spec.bands) hi rfl rfl List.suffix_rfl (fun _ => trivial)
      h.staged (fun _ => .inl hb) (fun _ => ?_) (h.streams_move _ hi fun b hb => ?_)
    · exact h.leaf_move _ hi (fun b hb => iff_of_false (fun hn => hn hb) (hwrote b)) (h.box hb)
    · exact iff_of_false (fun hn => hn hb) (hfed b)
  | false =>
    refine h.moved .template hi rfl rfl trivial (fun ho => ?_) h.staged .inl (fun ho => ?_)
      (h.streams_move _ hi fun b _ => iff_of_false id (hfed b))
    · rw [hpc] at ho
      cases ho
    · exact h.leaf_move _ hi (fun b _ => iff_of_false id (hwrote b)) (ho.resolve_right id)

/-- `emit_template` replaces the whole leaf, so no row may have landed before it. -/
theorem Inv.call_template (h : Inv spec bytes n groups s) (hi : s.calls[i]? = some c)
    (hpc : c.pc = .template) (hC : ∀ x ∈ s.calls, ∀ b ∈ spec.bands, ¬ x.pc.wrote b) :
    Inv spec bytes n groups
      ({ s with leaf := spec.template n, staged := spec.coords }.setPc i c
        (.arm spec.members)) := by
  refine h.moved (.arm spec.members) hi rfl rfl trivial (fun _ => trivial)
    (fun _ hp => hp) .inl (fun _ b hb => ?_) (h.streams_move _ hi fun b _ => by rw [hpc]; rfl)
  refine template_holds hb fun x hx => ?_
  rcases (mem_set_iff h.nodup hi).mp hx with rfl | ⟨hx, -⟩
  · exact id
  · exact hC x hx b hb

/-- Arming one member replaces its accumulator, so none of its rows may have been fed. -/
theorem Inv.call_arm {p : β} {left : List β} (h : Inv spec bytes n groups s)
    (hi : s.calls[i]? = some c) (hpc : c.pc = .arm (p :: left))
    (hC : p ∈ spec.bands → ∀ x ∈ s.calls, ¬ x.pc.fed p) :
    Inv spec bytes n groups
      ({ s with streams := if p ∈ s.staged.map Prod.fst then s.streams
          else Function.update s.streams p (some (spec.accumulator n p)) }.setPc i c
        (.arm left)) := by
  have hopen : ∃ x ∈ s.calls, x.pc.opened := ⟨c, List.mem_of_getElem? hi, by rw [hpc]; trivial⟩
  have hmove := h.streams_move (.arm left) hi fun b _ => by rw [hpc]; rfl
  refine h.moved (.arm left) hi rfl rfl trivial (fun _ => trivial) h.staged .inl
    (fun _ => h.leaf_move _ hi (fun b _ => by rw [hpc]; rfl) hopen)
    fun b hb st hst => ?_
  have hst' : (if p ∈ s.staged.map Prod.fst then s.streams
    else Function.update s.streams p (some (spec.accumulator n p))) b = some st := hst
  split_ifs at hst'
  · exact hmove b hb st hst'
  · by_cases hbp : b = p
    · subst hbp
      rw [Function.update_self] at hst'
      obtain rfl := Option.some.inj hst'
      refine accumulator_digests hb fun x hx => ?_
      rcases (mem_set_iff h.nodup hi).mp hx with rfl | ⟨hx, -⟩
      · exact id
      · exact hC hb x hx
    · rw [Function.update_of_ne hbp] at hst'
      exact hmove b hb st hst'

omit [DecidableEq β] in
/-- The last member armed, the box is set and the rows begin. -/
theorem Inv.call_armed (h : Inv spec bytes n groups s) (hi : s.calls[i]? = some c)
    (hpc : c.pc = .arm []) :
    Inv spec bytes n groups ({ s with box := true }.setPc i c (.row spec.bands)) := by
  have hopen : ∃ x ∈ s.calls, x.pc.opened := ⟨c, List.mem_of_getElem? hi, by rw [hpc]; trivial⟩
  refine h.moved (.row spec.bands) hi rfl rfl List.suffix_rfl (fun _ => trivial)
    h.staged (fun _ => .inr trivial) (fun _ => ?_) (h.streams_move _ hi fun b hb => ?_)
  · refine h.leaf_move _ hi (fun b hb => ?_) hopen
    rw [hpc]
    exact iff_of_false (fun hn => hn hb) id
  · rw [hpc]
    exact iff_of_false (fun hn => hn hb) id

/-- One band's row: the others' rows stand as they were. -/
theorem Inv.call_row {b : β} {left : List β} {arr : List (List γ)}
    (h : Inv spec bytes n groups s) (hi : s.calls[i]? = some c) (hpc : c.pc = .row (b :: left))
    (ha : s.leaf b = some arr) (hfit : c.t < arr.length) :
    Inv spec bytes n groups
      (State.setPc
        { s with leaf := Function.update s.leaf b (some (arr.set c.t (spec.castRow c.slab b))) }
        i c (.feed b left)) := by
  have hopen : ∃ x ∈ s.calls, x.pc.opened := ⟨c, List.mem_of_getElem? hi, by rw [hpc]; trivial⟩
  have hok : b :: left <:+ spec.bands := by
    have := h.pcs c (List.mem_of_getElem? hi)
    rwa [hpc] at this
  have hnot : b ∉ left := not_fed_of_suffix hok
  refine h.moved (.feed b left) hi rfl rfl hok (fun _ => trivial) h.staged .inl
    (fun _ b' hb' => ?_) (h.streams_move _ hi fun b' _ => ?_)
  · obtain ⟨arr', ha', hh⟩ := h.leaf hopen b' hb'
    by_cases hbb : b' = b
    · subst hbb
      obtain rfl : arr = arr' := Option.some.inj (ha.symm.trans ha')
      exact ⟨_, Function.update_self .., hh.write h.nodup hi hfit hnot⟩
    · refine ⟨arr', (Function.update_of_ne hbb _ _).trans ha', hh.move h.nodup hi ?_⟩
      rw [hpc]
      simp only [Pc.wrote, List.mem_cons, hbb, false_or]
  · rw [hpc]
    simp only [Pc.fed, List.mem_cons, not_or]

/-- The row just written goes to its band's accumulator. -/
theorem Inv.call_feed {b : β} {left : List β} (h : Inv spec bytes n groups s)
    (hi : s.calls[i]? = some c) (hpc : c.pc = .feed b left) :
    Inv spec bytes n groups
      (State.setPc { s with
        streams := Function.update s.streams b ((s.streams b).map fun st =>
          st.update bytes maxPending c.t (spec.castRow c.slab b)) } i c (.row left)) := by
  have hopen : ∃ x ∈ s.calls, x.pc.opened := ⟨c, List.mem_of_getElem? hi, by rw [hpc]; trivial⟩
  have hok : b :: left <:+ spec.bands := by
    have := h.pcs c (List.mem_of_getElem? hi)
    rwa [hpc] at this
  have hnot : b ∉ left := not_fed_of_suffix hok
  refine h.moved (.row left) hi rfl rfl ((List.suffix_cons b left).trans hok)
    (fun _ => trivial) h.staged .inl
    (fun _ => h.leaf_move _ hi (fun b' _ => by rw [hpc]; rfl) hopen)
    fun b' hb' st hst => ?_
  have hst' : Function.update s.streams b ((s.streams b).map fun st =>
    st.update bytes maxPending c.t (spec.castRow c.slab b)) b' = some st := hst
  by_cases hbb : b' = b
  · subst hbb
    rw [Function.update_self] at hst'
    obtain ⟨old, hold, rfl⟩ := Option.map_eq_some_iff.mp hst'
    exact (h.streams b' hb' old hold).feed h.nodup hi hnot
  · rw [Function.update_of_ne hbb] at hst'
    refine (h.streams b' hb' st hst').move h.nodup hi ?_
    rw [hpc]
    simp only [Pc.fed, ne_eq, hbb, not_false_eq_true, true_and]

/-- `_leaf` and `write_raster_leaf_slab`, step by step. -/
theorem Inv.call (h : Inv spec bytes n groups s) (hi : s.calls[i]? = some c)
    (hC : Settled spec s (.step i)) (hs : callStep spec bytes maxPending n s i c = some s') :
    Inv spec bytes n groups s' := by
  simp only [Settled, hi, Option.map_some] at hC
  unfold callStep at hs
  cases hpc : c.pc with
  | test =>
    rw [hpc] at hs
    obtain rfl := Option.some.inj hs
    exact h.call_test hi hpc
  | template =>
    rw [hpc] at hs hC
    obtain rfl := Option.some.inj hs
    exact h.call_template hi hpc hC
  | arm left =>
    rw [hpc] at hs hC
    cases left with
    | nil =>
      obtain rfl := Option.some.inj hs
      exact h.call_armed hi hpc
    | cons p left =>
      obtain rfl := Option.some.inj hs
      exact h.call_arm hi hpc hC
  | row left =>
    rw [hpc] at hs
    cases left with
    | nil => cases hs
    | cons b left =>
      dsimp only at hs
      cases ha : s.leaf b with
      | none => rw [ha] at hs; cases hs
      | some arr =>
        rw [ha] at hs
        dsimp only at hs
        split_ifs at hs with hfit
        obtain rfl := Option.some.inj hs
        exact h.call_row hi hpc ha hfit.1
  | feed b left =>
    rw [hpc] at hs
    obtain rfl := Option.some.inj hs
    exact h.call_feed hi hpc

omit [DecidableEq β] in
theorem Inv.armFail (h : Inv spec bytes n groups s) (hi : s.calls[i]? = some c)
    (hs : armFail s i c = some s') : Inv spec bytes n groups s' := by
  unfold Raster.armFail at hs
  cases hpc : c.pc with
  | arm left =>
    rw [hpc] at hs
    obtain rfl := Option.some.inj hs
    refine h.moved (.arm []) hi rfl rfl trivial (fun _ => trivial) (fun _ hp => nomatch hp)
      .inl (fun _ => ?_) (fun _ _ _ hst => nomatch hst)
    exact h.leaf_move _ hi (fun b _ => by rw [hpc]; rfl)
      ⟨c, List.mem_of_getElem? hi, by rw [hpc]; trivial⟩
  | test | template | row | feed => rw [hpc] at hs; cases hs

theorem Inv.step {a : Action} (h : Inv spec bytes n groups s) (hC : Settled spec s a)
    (hs : step spec bytes maxPending n writeBuffer s a = some s') :
    Inv spec bytes n groups s' := by
  cases a with
  | emit i => exact h.emit hs
  | step i =>
    obtain ⟨c, hi, hc⟩ := Option.bind_eq_some_iff.mp hs
    exact h.call hi hC hc
  | armFail i =>
    obtain ⟨c, hi, hc⟩ := Option.bind_eq_some_iff.mp hs
    exact h.armFail hi hc

omit [DecidableEq β] in
/-- A recorded hash of a band comes from the band's own accumulator. -/
theorem streamed_of_recorded {b : β} {d : η} {hs : List (β × η)}
    (hstaged : ∀ p ∈ s.staged, p ∈ spec.coords) (hb : b ∈ spec.bands)
    (h : finalizeLeafHashes spec bytes sha256 s = some hs) (hd : (b, d) ∈ hs) :
    ∃ st, s.streams b = some st ∧ st.finalize bytes sha256 = some d := by
  unfold finalizeLeafHashes at h
  split_ifs at h
  obtain ⟨ds, hds, rfl⟩ := Option.map_eq_some_iff.mp h
  rcases List.mem_append.mp hd with hd | hd
  · obtain ⟨ps, hps, he⟩ := List.mem_map.mp hd
    have hc : b ∈ spec.coords.map Prod.fst :=
      List.mem_map.mpr ⟨ps, hstaged ps hps, congrArg Prod.fst he⟩
    exact absurd rfl ((List.nodup_append.mp spec.nodup).2.2 b hb b hc)
  · obtain ⟨⟨p, st⟩, hps, he⟩ := forall₂_exists_of_mem_right (forall₂_of_mapM_some hds) hd
    obtain ⟨d', hd', he⟩ := Option.map_eq_some_iff.mp he
    obtain ⟨p', -, hp'⟩ := List.mem_filterMap.mp hps
    obtain ⟨st', hst', he'⟩ := Option.map_eq_some_iff.mp hp'
    obtain ⟨rfl, rfl⟩ := Prod.mk.inj he
    obtain ⟨rfl, rfl⟩ := Prod.mk.inj he'
    exact ⟨_, hst', hd'⟩

omit [DecidableEq β] in
theorem exact_of_inv (h : Inv spec bytes n groups s) (hf : Finished s) :
    Exact spec bytes sha256 n groups s := by
  obtain ⟨hw, hdone⟩ := hf
  have hwrote : ∀ c ∈ s.calls, ∀ b, c.pc.wrote b ∧ c.pc.fed b ∧ c.pc.opened := by
    intro c hc b
    rw [hdone c hc]
    exact ⟨List.not_mem_nil, List.not_mem_nil, trivial⟩
  constructor
  · intro g hg b hb
    rcases h.all g hg with hin | ⟨c, hc, ht, hslab⟩
    · rw [hw] at hin
      cases hin
    · obtain ⟨arr, ha, hh⟩ := h.leaf ⟨c, hc, (hwrote c hc b).2.2⟩ b hb
      refine ⟨arr, ha, hh.length, ?_⟩
      rw [← ht, ← hslab]
      exact hh.written c hc (hwrote c hc b).1
  · intro hbox hs hhs b hb d hd
    obtain ⟨arr, ha, hh⟩ := h.leaf (h.box hbox) b hb
    obtain ⟨st, hst, hfin⟩ := streamed_of_recorded h.staged hb hhs hd
    obtain ⟨hrows, hshape, hfill, htr⟩ := h.streams b hb st hst
    have hv : st.invalidReason = none := by
      unfold StreamingArrayHash.finalize at hfin
      split_ifs at hfin with hv
      exact Option.not_isSome_iff_eq_none.mp hv
    obtain ⟨fed, ht, hfed⟩ := htr hv
    refine ⟨arr, ha, finalize_eq_hashArray ht hfill (hh.length.trans hrows.symm) ?_ hfin⟩
    intro t htn
    rw [hrows] at htn
    cases hft : fed t with
    | some v =>
      obtain ⟨c, hc, rfl, -, rfl⟩ := (hfed t v).mp hft
      exact hh.written c hc (hwrote c hc b).1
    | none =>
      rw [hh.blank t htn, hshape]
      · rfl
      · intro c hc _ hct
        have := (hfed t _).mpr ⟨c, hc, hct, (hwrote c hc b).2.1, rfl⟩
        rw [hft] at this
        cases this

end Steps

section TimeIndex

theorem lookup_eq_none {l : List (String × Int)} {k : String} (h : l.lookup k = none) :
    k ∉ l.map Prod.fst := by
  intro hk
  obtain ⟨e, he, rfl⟩ := List.mem_map.mp hk
  exact absurd (List.lookup_eq_none_iff.mp h e he) (by simp)

theorem nodup_noteEarliest {d : List (String × Int)} (h : (d.map Prod.fst).Nodup)
    (a : String × Int) : ((noteEarliest d a).map Prod.fst).Nodup := by
  unfold noteEarliest
  split
  · next hn =>
    rw [List.map_append]
    refine List.nodup_append.mpr ⟨h, List.nodup_singleton _, fun x hx y hy => ?_⟩
    obtain rfl := List.mem_singleton.mp hy
    exact fun he => lookup_eq_none hn (he ▸ hx)
  · next us _ =>
    have hkeys : (d.map fun x => if x.1 = a.1 then (x.1, min us a.2) else x).map Prod.fst =
        d.map Prod.fst := by
      rw [List.map_map]
      refine List.map_congr_left fun x _ => ?_
      dsimp only [Function.comp]
      split_ifs <;> rfl
    rw [hkeys]
    exact h

/-- Distinct groups take distinct rows. -/
theorem nodup_rasterTimeIndex {isoUs : String → Int} {granules : List RasterEntry}
    {index : List (String × Nat)} (h : rasterTimeIndex isoUs granules = .ok index) :
    (index.map Prod.snd).Nodup := by
  unfold rasterTimeIndex at h
  cases ha : (granules.filter fun e => !e.assets.isEmpty).mapM (acquisition isoUs) with
  | error e => rw [ha] at h; cases h
  | ok acquired =>
    rw [ha] at h
    obtain rfl := Except.ok.inj h
    have hfold : ∀ (l d : List (String × Int)), (d.map Prod.fst).Nodup →
        ((l.foldl noteEarliest d).map Prod.fst).Nodup := by
      intro l
      induction l with
      | nil => exact fun _ hd => hd
      | cons a l ih => exact fun d hd => ih _ (nodup_noteEarliest hd a)
    have hk := hfold acquired [] List.nodup_nil
    rw [List.map_map]
    refine List.Nodup.map_on (fun x hx y _ he => ?_) hk
    have hperm := (List.perm_insertionSort rowLe (acquired.foldl noteEarliest [])).map Prod.fst
    exact (List.idxOf_inj (hperm.mem_iff.mpr hx)).mp he

end TimeIndex

section Runs
variable [DecidableEq β]

theorem inv_reach {C : State β γ → Action → Prop} {debris : β → Option (List (List γ))}
    (hn : (groups.map Prod.fst).Nodup)
    (hC : ∀ {s}, Reach (step spec bytes maxPending n writeBuffer) C (init debris groups) s →
      ∀ a, C s a → (step spec bytes maxPending n writeBuffer s a).isSome → Settled spec s a)
    (h : Reach (step spec bytes maxPending n writeBuffer) C (init debris groups) s) :
    Inv spec bytes n groups s := by
  induction h with
  | start => exact inv_init hn
  | next hr hc he ih => exact ih.step (hC hr _ hc (Option.isSome_iff_exists.mpr ⟨_, he⟩)) he

/-- The groups of one dispatched subset, each with the slab its sampling gave. -/
def groupSlabs (slabOf : String → β → List γ) (index : List (String × Nat)) :
    List (Nat × (β → List γ)) := index.map fun e => (e.2, slabOf e.1)

omit [DecidableEq β] in
theorem nodup_groupSlabs {isoUs : String → Int} {granules : List RasterEntry}
    {index : List (String × Nat)} (h : rasterTimeIndex isoUs granules = .ok index)
    (slabOf : String → β → List γ) : ((groupSlabs slabOf index).map Prod.fst).Nodup := by
  rw [groupSlabs, List.map_map]
  exact nodup_rasterTimeIndex h

/-- A run that templates the leaf before its first row and arms each band before its
first feed ends with every slab in place and no wrong hash. -/
theorem leaf_exact_of_settled (spec : LeafSpec β γ) (bytes : γ → List UInt8)
    (sha256 : List UInt8 → η) (maxPending writeBuffer : Nat) (isoUs : String → Int)
    (granules : List RasterEntry) (slabOf : String → β → List γ)
    (debris : β → Option (List (List γ))) (index : List (String × Nat))
    (hindex : rasterTimeIndex isoUs granules = .ok index) (s : State β γ)
    (hr : Reach (step spec bytes maxPending index.length writeBuffer) (Settled spec)
      (init debris (groupSlabs slabOf index)) s) (hf : Finished s) :
    Exact spec bytes sha256 index.length (groupSlabs slabOf index) s :=
  exact_of_inv (inv_reach (nodup_groupSlabs hindex slabOf) (fun _ _ hc _ => hc) hr) hf

end Runs

section Sequential

/-- The call is opening the leaf. -/
def Pc.opening : Pc β → Prop
  | .template | .arm _ => True
  | _ => False

/-- The call was handed the open leaf. -/
def Pc.writing : Pc β → Prop
  | .row _ | .feed _ _ => True
  | _ => False

/-- Only the last call is still running; it opens the leaf only if it is the first. -/
structure OneInFlight (s : State β γ) (cs : List (Call β γ)) (c : Call β γ) : Prop where
  calls : s.calls = cs ++ [c]
  pending : s.pending = [cs.length]
  returned : ∀ x ∈ cs, x.pc = .row []
  box : cs ≠ [] ∨ c.pc.writing → s.box = true
  first : c.pc.opening → cs = []

def Sequential (s : State β γ) : Prop :=
  s.calls = [] ∧ s.pending = [] ∨ ∃ cs c, OneInFlight s cs c

theorem OneInFlight.running {cs : List (Call β γ)} {last : Call β γ} (h : OneInFlight s cs last)
    (hi : s.calls[i]? = some c) (hrun : c.pc ≠ .row []) : i = cs.length ∧ c = last := by
  rw [h.calls] at hi
  rcases Nat.lt_trichotomy i cs.length with hlt | rfl | hgt
  · rw [List.getElem?_append_left hlt] at hi
    exact absurd (h.returned c (List.mem_of_getElem? hi)) hrun
  · rw [List.getElem?_concat_length] at hi
    exact ⟨rfl, (Option.some.inj hi).symm⟩
  · rw [List.getElem?_eq_none (by rw [List.length_append, List.length_singleton]; omega)] at hi
    cases hi

variable [DecidableEq β]

/-- What one move of a call does besides its writes. -/
theorem callStep_moves (hs : callStep spec bytes maxPending n s i c = some s') :
    ∃ pc, s'.calls = s.calls.set i { c with pc } ∧
      s'.pending = s.pending ∧ (s.box = true → s'.box = true) ∧ c.pc ≠ .row [] ∧
      (pc.opening → c.pc.opening ∨ s.box = false) ∧
      (pc.writing → s'.box = true ∨ c.pc.writing) := by
  unfold callStep at hs
  cases hpc : c.pc with
  | test =>
    rw [hpc] at hs
    obtain rfl := Option.some.inj hs
    cases hb : s.box with
    | true => exact ⟨.row spec.bands, rfl, rfl, fun _ => hb, nofun, nofun, fun _ => .inl hb⟩
    | false => exact ⟨.template, rfl, rfl, fun h => (nomatch h), nofun, fun _ => .inr rfl, nofun⟩
  | template =>
    rw [hpc] at hs
    obtain rfl := Option.some.inj hs
    exact ⟨.arm spec.members, rfl, rfl, id, nofun, fun _ => .inl trivial, nofun⟩
  | arm left =>
    rw [hpc] at hs
    cases left with
    | nil =>
      obtain rfl := Option.some.inj hs
      exact ⟨.row spec.bands, rfl, rfl, fun _ => rfl, nofun, nofun, fun _ => .inl rfl⟩
    | cons p left =>
      obtain rfl := Option.some.inj hs
      exact ⟨.arm left, rfl, rfl, id, nofun, fun _ => .inl trivial, nofun⟩
  | row left =>
    rw [hpc] at hs
    cases left with
    | nil => cases hs
    | cons b left =>
      dsimp only at hs
      cases ha : s.leaf b with
      | none => rw [ha] at hs; cases hs
      | some arr =>
        rw [ha] at hs
        dsimp only at hs
        split_ifs at hs
        obtain rfl := Option.some.inj hs
        exact ⟨.feed b left, rfl, rfl, id, nofun, nofun, fun _ => .inr trivial⟩
  | feed b left =>
    rw [hpc] at hs
    obtain rfl := Option.some.inj hs
    exact ⟨.row left, rfl, rfl, id, nofun, nofun, fun _ => .inr trivial⟩

theorem Sequential.step {a : Action} (h : Sequential s) (hw : writeBuffer ≤ 2)
    (hs : step spec bytes maxPending n writeBuffer s a = some s') : Sequential s' := by
  have hone : inFlight writeBuffer = 1 := by unfold inFlight; omega
  cases a with
  | emit i =>
    simp only [Raster.step] at hs
    unfold Raster.emit at hs
    cases hg : s.waiting[i]? with
    | none => rw [hg] at hs; cases hs
    | some g =>
      simp only [hg, hone, Nat.add_sub_cancel] at hs
      split_ifs at hs with hall
      obtain rfl := Option.some.inj hs
      rw [List.take_length] at hall
      rcases h with ⟨hc, hp⟩ | ⟨cs, c, hf⟩
      · refine .inr ⟨[], ⟨g.1, g.2, .test⟩, ?_, ?_, nofun, ?_, nofun⟩
        · simp only [hc, List.nil_append]
        · simp only [hp, hc, List.length_nil, List.drop_nil, List.nil_append]
        · exact fun h => (h.elim (fun h => (h rfl).elim) id).elim
      · have hdone : c.pc = .row [] := by
          rw [hf.pending, List.all_cons, List.all_nil, Bool.and_true, State.done, hf.calls,
            List.getElem?_concat_length] at hall
          exact of_decide_eq_true hall
        refine .inr ⟨cs ++ [c], ⟨g.1, g.2, .test⟩, ?_, ?_, ?_, ?_, nofun⟩
        · simp only [hf.calls]
        · simp only [List.drop_length, hf.calls, List.nil_append]
        · intro x hx
          rcases List.mem_append.mp hx with hx | hx
          · exact hf.returned x hx
          · rw [List.mem_singleton.mp hx]
            exact hdone
        · exact fun _ => hf.box (.inr (by rw [hdone]; trivial))
  | step i =>
    obtain ⟨c, hi, hc⟩ := Option.bind_eq_some_iff.mp hs
    obtain ⟨pc, hcalls, hpend, hbox, hrun, hopening, hwriting⟩ := callStep_moves hc
    rcases h with ⟨hnil, -⟩ | ⟨cs, last, hf⟩
    · rw [hnil] at hi
      cases hi
    · obtain ⟨rfl, rfl⟩ := hf.running hi hrun
      refine .inr ⟨cs, { c with pc }, ?_, hpend.trans hf.pending, hf.returned, ?_, ?_⟩
      · rw [hcalls, hf.calls, List.set_append_right _ _ le_rfl, Nat.sub_self]
        rfl
      · rintro (hne | hwr)
        · exact hbox (hf.box (.inl hne))
        · rcases hwriting hwr with hb | hwr
          · exact hb
          · exact hbox (hf.box (.inr hwr))
      · intro ho
        rcases hopening ho with ho | hb
        · exact hf.first ho
        · by_contra hne
          rw [hf.box (.inl hne)] at hb
          cases hb
  | armFail i =>
    obtain ⟨c, hi, hc⟩ := Option.bind_eq_some_iff.mp hs
    unfold armFail at hc
    rcases h with ⟨hnil, -⟩ | ⟨cs, last, hf⟩
    · rw [hnil] at hi
      cases hi
    · cases hpc : c.pc with
      | arm left =>
        rw [hpc] at hc
        obtain rfl := Option.some.inj hc
        obtain ⟨rfl, rfl⟩ := hf.running hi (by rw [hpc]; nofun)
        refine .inr ⟨cs, { c with pc := .arm [] }, ?_, hf.pending, hf.returned, ?_, ?_⟩
        · simp only [State.setPc, hf.calls, List.set_append_right _ _ le_rfl, Nat.sub_self]
          rfl
        · exact fun h => hf.box (h.imp_right nofun)
        · exact fun _ => hf.first (by rw [hpc]; trivial)
      | test | template | row | feed => rw [hpc] at hc; cases hc

omit [DecidableEq β] in
/-- With a buffer of one or two nothing is written while the leaf is being opened. -/
theorem Sequential.settled (h : Sequential s) (a : Action) : Settled spec s a := by
  cases a with
  | emit i | armFail i => trivial
  | step i =>
    cases hi : s.calls[i]? with
    | none => simp only [Settled, hi, Option.map_none, Spares]
    | some c =>
      rcases h with ⟨hnil, -⟩ | ⟨cs, last, hf⟩
      · rw [hnil] at hi
        cases hi
      · simp only [Settled, hi, Option.map_some]
        have halone : c.pc.opening → s.calls = [c] := by
          intro ho
          obtain ⟨-, rfl⟩ := hf.running hi (fun hr => by rw [hr] at ho; cases ho)
          rw [hf.calls, hf.first ho, List.nil_append]
        cases hpc : c.pc with
        | test | row | feed => trivial
        | template =>
          rw [hpc] at halone
          intro x hx b _
          rw [halone trivial, List.mem_singleton] at hx
          rw [hx, hpc]
          exact id
        | arm left =>
          rw [hpc] at halone
          cases left with
          | nil => trivial
          | cons b left =>
            intro _ x hx
            rw [halone trivial, List.mem_singleton] at hx
            rw [hx, hpc]
            exact id

end Sequential

section Runs
variable [DecidableEq β]

theorem sequential_reach {C : State β γ → Action → Prop} {debris : β → Option (List (List γ))}
    (hw : writeBuffer ≤ 2)
    (h : Reach (step spec bytes maxPending n writeBuffer) C (init debris groups) s) :
    Sequential s := by
  induction h with
  | start => exact .inl ⟨rfl, rfl⟩
  | next _ _ he ih => exact ih.step hw he

/-- Two acquisitions of one tile. -/
def twoDays : List RasterEntry :=
  [⟨"S2A_1", ["b04"], some "2024-06-01T10:30:00Z", none⟩,
    ⟨"S2B_2", ["b04"], some "2024-06-06T10:30:00Z", none⟩]

def twoDaysUs (s : String) : Int :=
  if s = "2024-06-01T10:30:00Z" then 1717237800000000 else 1717669800000000

def twoDaysIndex : List (String × Nat) := [("2024-06-01T10:30:00Z", 0), ("2024-06-06T10:30:00Z", 1)]

theorem twoDays_index : rasterTimeIndex twoDaysUs twoDays = .ok twoDaysIndex := by decide +kernel

def daySlab (key : String) (_ : String) : List Nat :=
  if key = "2024-06-01T10:30:00Z" then [7] else [9]

/-- One uint16 band over a single cell. -/
def oneBand : LeafSpec String Nat where
  bands := ["9/b04"]
  coords := [("9/time", [[1717237800000000], [1717669800000000]])]
  nodup := by decide
  cells := 1
  fill := fun _ => 0
  cast := fun _ v => v % 65536

def littleEndian16 (v : Nat) : List UInt8 := [UInt8.ofNat v, UInt8.ofNat (v / 256)]

def twoDaysInit : State String Nat := init (fun _ => none) (groupSlabs daySlab twoDaysIndex)

/-- Both first calls find the box empty; the second templates after the first wrote. -/
def bothOpen : List Action :=
  [.emit 0, .emit 0, .step 0, .step 1, .step 0, .step 0, .step 0, .step 0, .step 0, .step 0,
    .step 1, .step 1, .step 1, .step 1, .step 1, .step 1]

/-- The first call opens the leaf before the second one tests it. -/
def firstOpens : List Action :=
  [.emit 0, .step 0, .step 0, .step 0, .step 0, .step 0, .emit 0, .step 0, .step 1, .step 1,
    .step 1, .step 0]

theorem finished_of_map {o : Option (State β γ)} {s : State β γ} (h : o = some s)
    (hf : o.map (fun s => (s.waiting.length, s.calls.all fun c => decide (c.pc = .row []))) =
      some (0, true)) : Finished s := by
  rw [h] at hf
  obtain ⟨hw, hc⟩ := Prod.mk.inj (Option.some.inj hf)
  refine ⟨List.eq_nil_of_length_eq_zero hw, fun c hc' => ?_⟩
  exact of_decide_eq_true (List.all_eq_true.mp hc c hc')

theorem leaf_exact_of_settled_twoDays :
    ∃ s, Finished s ∧
      Exact oneBand littleEndian16 (·) 2 (groupSlabs daySlab twoDaysIndex) s := by
  have hrun : (exec (step oneBand littleEndian16 1000 2 3) twoDaysInit firstOpens).isSome := by
    decide +kernel
  obtain ⟨s, hs⟩ := Option.isSome_iff_exists.mp hrun
  have hf : Finished s := finished_of_map hs (by decide +kernel)
  have hr := Reach.of_exec (B := fun s a => decide (Settled oneBand s a)) (by decide +kernel) hs
  exact ⟨s, hf, leaf_exact_of_settled oneBand littleEndian16 (·) 1000 3 twoDaysUs twoDays daySlab
    (fun _ => none) twoDaysIndex twoDays_index s (hr.mono fun _ _ h => of_decide_eq_true h) hf⟩

theorem not_exact_of_both_open :
    rasterTimeIndex twoDaysUs twoDays = .ok twoDaysIndex ∧
      ¬ ∀ s, Reach (step oneBand littleEndian16 1000 2 3) (fun _ _ => True) twoDaysInit s →
        Finished s →
        Exact oneBand littleEndian16 (·) 2 (groupSlabs daySlab twoDaysIndex) s := by
  refine ⟨twoDays_index, fun hall => ?_⟩
  have hrun : (exec (step oneBand littleEndian16 1000 2 3) twoDaysInit bothOpen).isSome := by
    decide +kernel
  obtain ⟨s, hs⟩ := Option.isSome_iff_exists.mp hrun
  have hf : Finished s := finished_of_map hs (by decide +kernel)
  have hr := Reach.of_exec_forall (C := fun _ _ => True) (fun _ _ _ => trivial) hs
  obtain ⟨arr, ha, -, hrow⟩ := (hall s hr hf).rows (0, daySlab "2024-06-01T10:30:00Z")
    (.head _) "9/b04" (.head _)
  have hleaf : (exec (step oneBand littleEndian16 1000 2 3) twoDaysInit bothOpen).map
      (fun s => s.leaf "9/b04") = some (some [[0], [9]]) := by decide +kernel
  rw [hs, Option.map_some, ha] at hleaf
  rw [Option.some.inj (Option.some.inj hleaf)] at hrow
  cases hrow

/-- At the default buffer, and with one worker thread, every run is exact. -/
theorem leaf_exact_of_small_buffer {isoUs : String → Int} {granules : List RasterEntry}
    {slabOf : String → β → List γ} {debris : β → Option (List (List γ))}
    {index : List (String × Nat)} (hindex : rasterTimeIndex isoUs granules = .ok index)
    (hw : writeBuffer ≤ 2)
    (hr : Reach (step spec bytes maxPending index.length writeBuffer) (fun _ _ => True)
      (init debris (groupSlabs slabOf index)) s) (hf : Finished s) :
    Exact spec bytes sha256 index.length (groupSlabs slabOf index) s :=
  exact_of_inv (inv_reach (nodup_groupSlabs hindex slabOf)
    (fun hr a _ _ => (sequential_reach hw hr).settled a) hr) hf

end Runs
end Zagg.Raster
