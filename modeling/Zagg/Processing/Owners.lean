import Zagg.Lib.Pointwise
import Zagg.Processing.Link

/-!
# The owner of a base row

Painting records in order leaves each base row with the last record that owns it, at the base
rate and over a slice alike. On disjoint records a row has one owner at most, which the search
over the sorted starts finds as well.
-/
namespace Zagg.Processing

open Zagg.Lib

universe u v

section LastOwner
variable {α : Type u} {β : Type v}

/-- The last record of the list that owns the row. -/
def lastOwner : List (LinkRecord × α) → Nat → Option (LinkRecord × α)
  | [], _ => none
  | x :: rs, row => (lastOwner rs row).or (if x.1.owns row then some x else none)

theorem lastOwner_some {rs : List (LinkRecord × α)} {row : Nat} {x : LinkRecord × α}
    (h : lastOwner rs row = some x) : x ∈ rs ∧ x.1.owns row = true := by
  induction rs with
  | nil => cases h
  | cons y rs ih =>
    rw [lastOwner] at h
    cases hrest : lastOwner rs row with
    | some z =>
      rw [hrest] at h
      obtain rfl : z = x := Option.some.inj h
      obtain ⟨hmem, howns⟩ := ih hrest
      exact ⟨.tail _ hmem, howns⟩
    | none =>
      rw [hrest, Option.none_or] at h
      split_ifs at h with howns
      obtain rfl := Option.some.inj h
      exact ⟨.head _, howns⟩

theorem lastOwner_none {rs : List (LinkRecord × α)} {row : Nat} :
    lastOwner rs row = none ↔ ∀ x ∈ rs, x.1.owns row = false := by
  induction rs with
  | nil => exact ⟨fun _ => nofun, fun _ => rfl⟩
  | cons y rs ih =>
    rw [lastOwner, Option.or_eq_none_iff, ih, List.forall_mem_cons, and_comm]
    cases y.1.owns row <;> simp

theorem owns_iff {r : LinkRecord} {row : Nat} :
    r.owns row = true ↔ r.beg ≤ row ∧ (row : Int) < r.stop := decide_eq_true_iff

theorem pos_of_owns {r : LinkRecord} {row : Nat} (h : r.owns row = true) : 0 < r.cnt := by
  obtain ⟨h1, h2⟩ := owns_iff.mp h
  rw [LinkRecord.stop] at h2
  omega

end LastOwner

section Paint
variable {α : Type u} {β : Type v}

theorem paint_range (n beg cnt : Nat) (g f : Nat → β) :
    paint ((List.range n).map g) beg cnt f =
      (List.range n).map fun i => if beg ≤ i ∧ i < beg + cnt then f (i - beg) else g i := by
  refine List.ext_getElem (by simp [paint]) fun i h1 h2 => ?_
  simp only [paint, List.getElem_mapIdx, List.getElem_map, List.getElem_range]

/-- What stops a paint loop: the first record with rows that is refused. -/
def refusal (refuse : LinkRecord → Option String) (rs : List (LinkRecord × α)) : Option String :=
  rs.findSome? fun x => if x.1.cnt = 0 then none else refuse x.1

/-- A paint loop stops at its first refusal or leaves each row with its last owner's value. -/
theorem paintRecords_eq (refuse : LinkRecord → Option String)
    (hrefuse : ∀ r, refuse r = none → 0 ≤ r.beg) (value : α → Nat → β)
    (rs : List (LinkRecord × α)) (n : Nat) (g : Nat → β) :
    paintRecords refuse value rs ((List.range n).map g) =
      match refusal refuse rs with
      | some e => .error e
      | none => .ok ((List.range n).map fun i => (lastOwner rs i).elim (g i) fun x =>
          value x.2 (i - x.1.beg.toNat)) := by
  induction rs generalizing g with
  | nil => rfl
  | cons x rs ih =>
    rw [paintRecords, List.foldlM_cons, refusal, List.findSome?_cons]
    by_cases hc : x.1.cnt = 0
    · have howns : ∀ i, x.1.owns i ≠ true := fun i h => absurd (pos_of_owns h) (by omega)
      rw [if_pos hc, if_pos hc]
      refine (ih g).trans ?_
      rw [refusal]
      cases rs.findSome? fun x => if x.1.cnt = 0 then none else refuse x.1 with
      | some e => rfl
      | none =>
        simp only [lastOwner, if_neg (howns _), Option.or_none]
    · rw [if_neg hc, if_neg hc]
      cases hx : refuse x.1 with
      | some e => rfl
      | none =>
        have hbeg := hrefuse x.1 hx
        have hpaint := ih fun i => if x.1.beg.toNat ≤ i ∧ i < x.1.beg.toNat + x.1.cnt then
          value x.2 (i - x.1.beg.toNat) else g i
        rw [← paint_range] at hpaint
        refine hpaint.trans ?_
        rw [refusal]
        cases rs.findSome? fun x => if x.1.cnt = 0 then none else refuse x.1 with
        | some e => rfl
        | none =>
          refine congrArg Except.ok (List.map_congr_left fun i _ => ?_)
          have howns : x.1.owns i = true ↔ x.1.beg.toNat ≤ i ∧ i < x.1.beg.toNat + x.1.cnt := by
            rw [owns_iff, LinkRecord.stop]
            omega
          rw [lastOwner]
          cases lastOwner rs i with
          | some y => rfl
          | none =>
            simp only [Option.none_or, Option.elim_none, howns]
            split_ifs <;> rfl

end Paint

section GatherMap
variable (link : Link)

/-- The records with their indices, as the gather maps paint them. -/
def ownerRecords : List (LinkRecord × Nat) := link.records.map fun r => (r, r.index)

theorem belowBase_none {r : LinkRecord} : belowBase link r = none ↔ 0 ≤ r.beg := by
  rw [belowBase]
  split_ifs with h
  · simp [h]
  · simp only [true_iff]
    omega

theorem or_eq_none_left {r : LinkRecord} {o : Option String}
    (h : (belowBase link r).or o = none) : 0 ≤ r.beg :=
  (belowBase_none link).mp (Option.or_eq_none_iff.mp h).1

theorem mem_ownerRecords {x : LinkRecord × Nat} (h : x ∈ ownerRecords link) :
    x.1 ∈ link.records ∧ x.2 = x.1.index := by
  obtain ⟨r, hr, rfl⟩ := List.mem_map.mp h
  exact ⟨hr, rfl⟩

end GatherMap

section Separated

/-- The records with rows, in the order of their starts, each end before the next begins. -/
def Link.Separated (link : Link) : Prop := link.sorted.Pairwise fun a b => a.stop ≤ b.beg

theorem LinkRecord.beg_le_stop (r : LinkRecord) : r.beg ≤ r.stop := by
  rw [LinkRecord.stop]
  omega

theorem find?_zip_tail_eq_none {rs : List LinkRecord} :
    (rs.zip rs.tail).find? (fun x => decide (x.2.beg < x.1.stop)) = none ↔
      rs.Pairwise fun a b => a.stop ≤ b.beg := by
  have : IsTrans LinkRecord fun a b => a.stop ≤ b.beg :=
    ⟨fun a b d hab hbd => hab.trans (b.beg_le_stop.trans hbd)⟩
  rw [← List.isChain_iff_pairwise]
  induction rs with
  | nil => exact ⟨fun _ => .nil, fun _ => rfl⟩
  | cons a rs ih =>
    cases rs with
    | nil => exact ⟨fun _ => .singleton a, fun _ => rfl⟩
    | cons b rs =>
      rw [List.isChain_cons_cons, List.tail_cons, List.zip_cons_cons, List.find?_cons]
      by_cases h : b.beg < a.stop
      · simp [h]
      · simpa [h, not_lt.mp h] using ih

/-- The validation accepts the separated links. -/
theorem validateLinkDisjoint_ok {level : String} {link : Link} :
    validateLinkDisjoint level link = .ok () ↔ link.Separated := by
  rw [Link.Separated, ← find?_zip_tail_eq_none, validateLinkDisjoint]
  cases (link.sorted.zip link.sorted.tail).find? fun x => decide (x.2.beg < x.1.stop) with
  | none => exact ⟨fun _ => rfl, fun _ => rfl⟩
  | some x => exact ⟨nofun, nofun⟩

variable {link : Link}

theorem mem_sorted {r : LinkRecord} : r ∈ link.sorted ↔ r ∈ link.records ∧ 0 < r.cnt := by
  rw [Link.sorted, (List.perm_insertionSort _ _).mem_iff, Link.nonempty, List.mem_filter,
    decide_eq_true_eq]

/-- A row of a separated link has one owner at most. -/
theorem Link.Separated.owner_unique (h : link.Separated) {r r' : LinkRecord} (hr : r ∈ link.records)
    (hr' : r' ∈ link.records) {row : Nat} (ho : r.owns row = true) (ho' : r'.owns row = true) :
    r = r' := by
  by_contra hne
  have : Std.Symm fun a b : LinkRecord => a.stop ≤ b.beg ∨ b.stop ≤ a.beg := ⟨fun _ _ => Or.symm⟩
  have hapart := (h.imp fun hab => Or.inl hab : link.sorted.Pairwise fun a b =>
    a.stop ≤ b.beg ∨ b.stop ≤ a.beg).forall (mem_sorted.mpr ⟨hr, pos_of_owns ho⟩)
    (mem_sorted.mpr ⟨hr', pos_of_owns ho'⟩) hne
  obtain ⟨h1, h2⟩ := owns_iff.mp ho
  obtain ⟨h3, h4⟩ := owns_iff.mp ho'
  omega

theorem lastOwner_eq_some (h : link.Separated) {r : LinkRecord} (hr : r ∈ link.records) {row : Nat}
    (ho : r.owns row = true) : lastOwner (ownerRecords link) row = some (r, r.index) := by
  cases hlast : lastOwner (ownerRecords link) row with
  | none =>
    have hnot := lastOwner_none.mp hlast (r, r.index) (List.mem_map_of_mem hr)
    rw [ho] at hnot
    cases hnot
  | some x =>
    obtain ⟨hx, hox⟩ := lastOwner_some hlast
    obtain ⟨hx1, hx2⟩ := mem_ownerRecords link hx
    obtain rfl := h.owner_unique hr hx1 ho hox
    rw [Option.some_inj]
    exact Prod.ext rfl hx2

/-- The search finds the owner. -/
theorem linkParentAtRows_eq (h : link.Separated) (rows : List Nat) : linkParentAtRows link rows =
    rows.map fun row => (lastOwner (ownerRecords link) row).map Prod.snd := by
  refine List.map_congr_left fun row _ => ?_
  have hsorted : (link.sorted.map LinkRecord.beg).Pairwise (· ≤ ·) :=
    List.pairwise_map.mpr (h.imp fun {a b} hab => a.beg_le_stop.trans hab)
  dsimp only
  generalize hpos : (link.sorted.map LinkRecord.beg).findIdx (fun b => decide ((row : Int) < b)) = pos
  have hbefore : ∀ (k : Nat) (hk : k < link.sorted.length), k < pos → link.sorted[k].beg ≤ row := by
    intro k hk hlt
    have hnot := List.not_of_lt_findIdx (hpos ▸ hlt)
    rw [List.getElem_map] at hnot
    simpa using hnot
  have hafter : ∀ (k : Nat) (hk : k < link.sorted.length), pos ≤ k → (row : Int) < link.sorted[k].beg := by
    intro k hk hle
    have hlt : pos < (link.sorted.map LinkRecord.beg).length := by
      rw [List.length_map]
      omega
    have hfound : (row : Int) < (link.sorted.map LinkRecord.beg)[pos] := by
      have hp := List.findIdx_getElem (p := fun b => decide ((row : Int) < b)) (w := hpos ▸ hlt)
      simp only [hpos] at hp
      exact of_decide_eq_true hp
    rw [List.getElem_map] at hfound
    rcases Nat.lt_or_eq_of_le hle with hlt' | rfl
    · have hle' := List.pairwise_iff_getElem.mp hsorted pos k hlt (by rw [List.length_map]; exact hk) hlt'
      rw [List.getElem_map, List.getElem_map] at hle'
      omega
    · exact hfound
  cases hlast : lastOwner (ownerRecords link) row with
  | none =>
    rw [Option.map_none]
    split_ifs with h0
    · rfl
    · refine Option.bind_eq_none_iff.mpr fun r hr => if_neg fun hlt => ?_
      obtain ⟨hk, rfl⟩ := List.getElem?_eq_some_iff.mp hr
      have hmem := (mem_sorted.mp (List.getElem_mem hk)).1
      have hnot := lastOwner_none.mp hlast _ (List.mem_map_of_mem hmem)
      rw [owns_iff.mpr ⟨hbefore (pos - 1) hk (by omega), hlt⟩] at hnot
      cases hnot
  | some x =>
    obtain ⟨hx, ho⟩ := lastOwner_some hlast
    obtain ⟨hx1, hx2⟩ := mem_ownerRecords link hx
    obtain ⟨h1, h2⟩ := owns_iff.mp ho
    obtain ⟨k, hk, hget⟩ := List.getElem_of_mem (mem_sorted.mpr ⟨hx1, pos_of_owns ho⟩)
    have hpk : pos = k + 1 := by
      rcases lt_trichotomy pos (k + 1) with hlt | heq | hgt
      · have := hafter k hk (Nat.le_of_lt_succ hlt)
        rw [hget] at this
        omega
      · exact heq
      · by_cases hk1 : k + 1 < link.sorted.length
        · have hle := hbefore (k + 1) hk1 hgt
          have hsep := List.pairwise_iff_getElem.mp h k (k + 1) hk hk1 (Nat.lt_succ_self k)
          rw [hget] at hsep
          omega
        · have hmax : (link.sorted.map LinkRecord.beg).findIdx (fun b => decide ((row : Int) < b)) ≤
              (link.sorted.map LinkRecord.beg).length := List.findIdx_le_length
          rw [hpos, List.length_map] at hmax
          omega
    rw [if_neg (by omega), hpk, Nat.add_sub_cancel, List.getElem?_eq_getElem hk, hget, Option.bind_some,
      if_pos h2, Option.map_some, hx2]

end Separated

section AtRows
variable {β : Type} {link : Link}

theorem getElem?_records (i : Nat) : link.records[i]? =
    (link.rows[i]?).map fun x => ⟨i, x.1, x.1 - link.indexBase, x.2⟩ := by
  rw [Link.records, List.getElem?_map, List.getElem?_zipIdx, Option.map_map, Nat.zero_add]
  rfl

theorem index_lt {r : LinkRecord} (hr : r ∈ link.nonempty) : r.index < link.rows.length := by
  obtain ⟨i, hi⟩ := List.mem_iff_getElem?.mp (List.mem_filter.mp hr).1
  rw [getElem?_records] at hi
  obtain ⟨x, hx, rfl⟩ := Option.map_eq_some_iff.mp hi
  exact (List.getElem?_eq_some_iff.mp hx).1

theorem mem_zip_records {l : List β} {x : LinkRecord × β} (h : x ∈ link.records.zip l) :
    x.1 ∈ link.records ∧ l[x.1.index]? = some x.2 := by
  obtain ⟨i, hi⟩ := List.mem_iff_getElem?.mp h
  obtain ⟨hr, hl⟩ := List.getElem?_zip_eq_some.mp hi
  refine ⟨List.mem_of_getElem? hr, ?_⟩
  rw [getElem?_records] at hr
  obtain ⟨row, -, hrow⟩ := Option.map_eq_some_iff.mp hr
  rw [← hrow]
  exact hl

theorem zip_records_of_mem {l : List β} (hlen : l.length = link.rows.length) {r : LinkRecord}
    (h : r ∈ link.records) : ∃ v, l[r.index]? = some v ∧ (r, v) ∈ link.records.zip l := by
  obtain ⟨i, hi⟩ := List.mem_iff_getElem?.mp h
  have hrow := @getElem?_records link i
  rw [hi] at hrow
  obtain ⟨row, hget, hr⟩ := Option.map_eq_some_iff.mp hrow.symm
  have hlt : i < l.length := by
    rw [hlen]
    exact (List.getElem?_eq_some_iff.mp hget).1
  have hl : l[i]? = some l[i] := List.getElem?_eq_getElem hlt
  refine ⟨l[i], by rw [← hr]; exact hl, ?_⟩
  exact List.mem_iff_getElem?.mpr ⟨i, List.getElem?_zip_eq_some.mpr ⟨hi, hl⟩⟩

/-- The value of a row's owner, `fill` where it has none. -/
def ownerValue (link : Link) (fill : β) (l : List β) (row : Nat) : β :=
  (lastOwner (link.records.zip l) row).elim fill Prod.snd

theorem lastOwner_zip (h : link.Separated) {l : List β} (hlen : l.length = link.rows.length)
    (row : Nat) : (lastOwner (ownerRecords link) row).bind (fun x => l[x.2]?) =
      (lastOwner (link.records.zip l) row).map Prod.snd ∧
    ((lastOwner (ownerRecords link) row).isSome = (lastOwner (link.records.zip l) row).isSome) := by
  cases hlast : lastOwner (link.records.zip l) row with
  | none =>
    have hnone : lastOwner (ownerRecords link) row = none := by
      refine lastOwner_none.mpr fun x hx => ?_
      obtain ⟨v, -, hv⟩ := zip_records_of_mem hlen (mem_ownerRecords link hx).1
      exact lastOwner_none.mp hlast _ hv
    rw [hnone]
    exact ⟨rfl, rfl⟩
  | some x =>
    obtain ⟨hx, ho⟩ := lastOwner_some hlast
    obtain ⟨hr, hv⟩ := mem_zip_records hx
    rw [lastOwner_eq_some h hr ho]
    exact ⟨hv, rfl⟩

/-- Values looked up at the owners. -/
theorem gatherSegmentAtParents_eq (h : link.Separated) {l : List β} (fill : β)
    (hlen : l.length = link.rows.length) (hne : l ≠ []) (rows : List Nat) :
    gatherSegmentAtParents fill l (rows.map fun row => (lastOwner (ownerRecords link) row).map Prod.snd)
      = .ok (rows.map (ownerValue link fill l)) := by
  rw [gatherSegmentAtParents, List.mapM_map]
  refine mapM_ok fun row _ => ?_
  obtain ⟨hvalue, hsome⟩ := lastOwner_zip h hlen row
  rw [Function.comp, ownerValue]
  cases howner : lastOwner (ownerRecords link) row with
  | none =>
    rw [howner] at hsome
    have hnone : lastOwner (link.records.zip l) row = none := Option.not_isSome_iff_eq_none.mp
      (by rw [← hsome]; exact Bool.false_ne_true)
    obtain ⟨v, l', rfl⟩ := List.exists_cons_of_ne_nil hne
    rw [hnone]
    rfl
  | some x =>
    rw [howner, Option.bind_some] at hvalue
    rw [howner] at hsome
    obtain ⟨y, hy⟩ := Option.isSome_iff_exists.mp hsome.symm
    rw [hy, Option.map_some] at hvalue
    rw [hy, Option.map_some, Option.getD_some, hvalue]
    rfl

/-- A record mask painted over the base rate, and looked up at some rows: refused with one
text, or the same verdicts. -/
theorem expandMask_agree (h : link.Separated) {mask : List Bool}
    (hlen : mask.length = link.rows.length) (hne : mask ≠ []) (n : Nat) (rows : List Nat) :
    (∃ e, expandMaskToBase mask link n = .error e ∧ expandMaskAtRows mask link rows = .error e) ∨
      (expandMaskToBase mask link n = .ok ((List.range n).map (ownerValue link false mask)) ∧
        expandMaskAtRows mask link rows = .ok (rows.map (ownerValue link false mask))) := by
  have hpaint := paintRecords_eq (belowBase link) (fun r => (belowBase_none link).mp)
    (fun (_ : Bool) _ => true) ((link.records.zip mask).filter Prod.snd) n fun _ => false
  have hinit : List.replicate n false = (List.range n).map fun _ => false := by
    rw [List.map_const', List.length_range]
  rw [expandMaskToBase, expandMaskAtRows, hinit, hpaint, refusal]
  cases ((link.records.zip mask).filter Prod.snd).findSome? fun x =>
      if x.1.cnt = 0 then none else belowBase link x.1 with
  | some e => exact .inl ⟨e, rfl, rfl⟩
  | none =>
    refine .inr ⟨congrArg Except.ok (List.map_congr_left fun row _ => ?_), ?_⟩
    · rw [ownerValue]
      cases hlast : lastOwner (link.records.zip mask) row with
      | none =>
        have hnone : lastOwner ((link.records.zip mask).filter Prod.snd) row = none :=
          lastOwner_none.mpr fun x hx => lastOwner_none.mp hlast x (List.mem_filter.mp hx).1
        rw [hnone]
        rfl
      | some x =>
        obtain ⟨hx, ho⟩ := lastOwner_some hlast
        obtain ⟨hr, hv⟩ := mem_zip_records hx
        cases hkept : lastOwner ((link.records.zip mask).filter Prod.snd) row with
        | none =>
          cases hb : x.2 with
          | false => exact hb.symm
          | true =>
            have hnot := lastOwner_none.mp hkept x (List.mem_filter.mpr ⟨hx, hb⟩)
            rw [ho] at hnot
            cases hnot
        | some y =>
          obtain ⟨hy, hoy⟩ := lastOwner_some hkept
          obtain ⟨hy1, hy2⟩ := List.mem_filter.mp hy
          obtain ⟨hry, hvy⟩ := mem_zip_records hy1
          rw [h.owner_unique hr hry ho hoy, hvy] at hv
          exact hy2.symm.trans (Option.some.inj hv)
    · rw [linkParentAtRows_eq h]
      exact gatherSegmentAtParents_eq h false hlen hne rows

/-- A record value painted over the base rate, and looked up at some rows: both refused, or the
same values. -/
theorem gatherSegment_agree (h : link.Separated) (fill : β) {seg : List β}
    (hlen : seg.length = link.rows.length) (hne : seg ≠ []) (n : Nat) (rows : List Nat) :
    ((∃ e, broadcastSegmentToBase fill seg link n = .error e) ∧
        ∃ e, gatherSegmentAtRows fill seg link n rows = .error e) ∨
      (broadcastSegmentToBase fill seg link n = .ok ((List.range n).map (ownerValue link fill seg)) ∧
        gatherSegmentAtRows fill seg link n rows = .ok (rows.map (ownerValue link fill seg))) := by
  have hpaint := paintRecords_eq (fun r => (belowBase link r).or (segmentPastEnd n r))
    (fun r => or_eq_none_left link) (fun (v : β) _ => v) (link.records.zip seg) n fun _ => fill
  have hinit : List.replicate n fill = (List.range n).map fun _ => fill := by
    rw [List.map_const', List.length_range]
  rw [broadcastSegmentToBase, hinit, hpaint, gatherSegmentAtRows]
  have hall : refusal (fun r => (belowBase link r).or (segmentPastEnd n r)) (link.records.zip seg) = none ↔
      ∀ r ∈ link.nonempty, belowBase link r = none ∧ segmentPastEnd n r = none := by
    rw [refusal, List.findSome?_eq_none_iff]
    constructor
    · intro hno r hr
      obtain ⟨hmem, hpos⟩ := List.mem_filter.mp hr
      obtain ⟨v, -, hv⟩ := zip_records_of_mem hlen hmem
      have hr' := hno _ hv
      rw [if_neg (Nat.ne_of_gt (of_decide_eq_true hpos))] at hr'
      exact Option.or_eq_none_iff.mp hr'
    · intro hno x hx
      split_ifs with hc
      · rfl
      · exact Option.or_eq_none_iff.mpr (hno x.1 (List.mem_filter.mpr
          ⟨(mem_zip_records hx).1, decide_eq_true (Nat.pos_of_ne_zero hc)⟩))
  cases hrefusal : refusal (fun r => (belowBase link r).or (segmentPastEnd n r))
      (link.records.zip seg) with
  | some e =>
    left
    refine ⟨⟨e, rfl⟩, ?_⟩
    cases hbelow : link.nonempty.findSome? (belowBase link) with
    | some e' => exact ⟨e', rfl⟩
    | none =>
      cases hpast : link.nonempty.findSome? (segmentPastEnd n) with
      | some e' => exact ⟨e', rfl⟩
      | none =>
        have hno := hall.mpr fun r hr => ⟨List.findSome?_eq_none_iff.mp hbelow r hr,
          List.findSome?_eq_none_iff.mp hpast r hr⟩
        rw [hrefusal] at hno
        cases hno
  | none =>
    have hno := hall.mp hrefusal
    rw [List.findSome?_eq_none_iff.mpr fun r hr => (hno r hr).1,
      List.findSome?_eq_none_iff.mpr fun r hr => (hno r hr).2]
    refine .inr ⟨rfl, ?_⟩
    rw [linkParentAtRows_eq h]
    exact gatherSegmentAtParents_eq h fill hlen hne rows

/-- The restricted form refuses where the full one does, and is the full one at the rows. -/
def AgreesAt (rows : List Nat) (full restricted : Except String (List β)) : Prop :=
  (∃ e e', full = .error e ∧ restricted = .error e') ∨
    ∃ out vs, full = .ok out ∧ restricted = .ok vs ∧ rows.map (fun row => out[row]?) = vs.map some

theorem agreesAt_of_rows {n : Nat} {rows : List Nat} (hrows : ∀ row ∈ rows, row < n) (value : Nat → β) :
    AgreesAt rows (.ok ((List.range n).map value)) (.ok (rows.map value)) := by
  refine .inr ⟨_, _, rfl, rfl, ?_⟩
  rw [List.map_map]
  apply List.map_congr_left
  intro row hrow
  have hlt : row < (List.range n).length := by
    rw [List.length_range]
    exact hrows row hrow
  rw [List.getElem?_map, List.getElem?_eq_getElem hlt, List.getElem_range]
  rfl

/-- A gather from no record fails as soon as a row is asked for. -/
theorem gatherSegmentAtParents_empty (fill : β) {parents : List (Option Nat)} (hne : parents ≠ []) :
    ∃ e, gatherSegmentAtParents fill [] parents = .error e := by
  obtain ⟨parent, parents, rfl⟩ := List.exists_cons_of_ne_nil hne
  rw [gatherSegmentAtParents, List.mapM_cons, List.getElem?_nil]
  exact ⟨_, rfl⟩

/-- A link without records: the full forms are the fill. -/
theorem restricted_empty (hlink : link.rows = []) (fill : β) (n : Nat) (rows : List Nat) :
    expandMaskToBase [] link n = .ok (List.replicate n false) ∧
      broadcastSegmentToBase fill [] link n = .ok (List.replicate n fill) ∧
      expandMaskAtRows [] link rows = gatherSegmentAtParents false [] (linkParentAtRows link rows) ∧
      gatherSegmentAtRows fill [] link n rows = gatherSegmentAtParents fill [] (linkParentAtRows link rows) := by
  have hrecords : link.records = [] := by rw [Link.records, hlink]; rfl
  have hnonempty : link.nonempty = [] := by rw [Link.nonempty, hrecords]; rfl
  refine ⟨?_, ?_, ?_, ?_⟩
  · rw [expandMaskToBase, hrecords]
    rfl
  · rw [broadcastSegmentToBase, hrecords]
    rfl
  · rw [expandMaskAtRows, hrecords]
    rfl
  · rw [gatherSegmentAtRows, hnonempty]
    rfl

theorem not_agreesAt_empty (fill : β) (n : Nat) (parents : List (Option Nat)) {rows : List Nat}
    (hne : parents ≠ []) :
    ¬AgreesAt rows (.ok (List.replicate n fill)) (gatherSegmentAtParents fill [] parents) := by
  obtain ⟨e, he⟩ := gatherSegmentAtParents_empty fill hne
  rw [he]
  rintro (⟨e, e', hfull, -⟩ | ⟨out, vs, -, hrestricted, -⟩)
  · cases hfull
  · cases hrestricted

/-- The restricted expansions are the full ones at the rows exactly when the link has a record or
no row is asked for. -/
theorem restricted_agrees_iff {level : String} {link : Link}
    (hlink : validateLinkDisjoint level link = .ok ()) {mask : List Bool} {seg : List β} (fill : β)
    (hmask : mask.length = link.rows.length) (hseg : seg.length = link.rows.length) (n : Nat)
    {rows : List Nat} (hrows : ∀ row ∈ rows, row < n) :
    (AgreesAt rows (expandMaskToBase mask link n) (expandMaskAtRows mask link rows) ↔
        link.rows ≠ [] ∨ rows = []) ∧
      (AgreesAt rows (broadcastSegmentToBase fill seg link n) (gatherSegmentAtRows fill seg link n rows) ↔
        link.rows ≠ [] ∨ rows = []) := by
  have h := validateLinkDisjoint_ok.mp hlink
  by_cases hne : link.rows = []
  · obtain rfl : mask = [] := List.length_eq_zero_iff.mp (by rw [hmask, hne]; rfl)
    obtain rfl : seg = [] := List.length_eq_zero_iff.mp (by rw [hseg, hne]; rfl)
    obtain ⟨hfullMask, hfullSeg, hrowsMask, hrowsSeg⟩ := restricted_empty hne fill n rows
    rw [hfullMask, hfullSeg, hrowsMask, hrowsSeg]
    by_cases hnone : rows = []
    · rw [hnone]
      have hagree : ∀ {γ : Type} (fill : γ), AgreesAt [] (.ok (List.replicate n fill))
          (gatherSegmentAtParents fill [] (linkParentAtRows link [])) :=
        fun fill => .inr ⟨_, [], rfl, rfl, rfl⟩
      exact ⟨iff_of_true (hagree false) (.inr rfl), iff_of_true (hagree fill) (.inr rfl)⟩
    · have hparents : linkParentAtRows link rows ≠ [] := by
        intro hnil
        exact hnone (List.map_eq_nil_iff.mp hnil)
      have hnot : ¬(link.rows ≠ [] ∨ rows = []) := by
        rintro (hlink | hrows)
        · exact hlink hne
        · exact hnone hrows
      exact ⟨iff_of_false (not_agreesAt_empty false n _ hparents) hnot,
        iff_of_false (not_agreesAt_empty fill n _ hparents) hnot⟩
  · have hsome {γ : Type} {l : List γ} (hl : l.length = link.rows.length) : l ≠ [] := by
      intro hnil
      rw [hnil] at hl
      exact hne (List.length_eq_zero_iff.mp hl.symm)
    constructor
    · refine iff_of_true ?_ (.inl hne)
      rcases expandMask_agree h hmask (hsome hmask) n rows with ⟨e, hfull, hat⟩ | ⟨hfull, hat⟩
      · exact .inl ⟨e, e, hfull, hat⟩
      · rw [hfull, hat]
        exact agreesAt_of_rows hrows _
    · refine iff_of_true ?_ (.inl hne)
      rcases gatherSegment_agree h fill hseg (hsome hseg) n rows with ⟨⟨e, hfull⟩, e', hat⟩ | ⟨hfull, hat⟩
      · exact .inl ⟨e, e', hfull, hat⟩
      · rw [hfull, hat]
        exact agreesAt_of_rows hrows _

/-- Two records in no order, an empty one, and a gap at the end of the base. -/
def gappedLink : Link := ⟨[(4, 3), (0, 0), (1, 3)], 1⟩

theorem restricted_agrees_iff_gapped :
    (AgreesAt [0, 3, 6] (expandMaskToBase [true, true, false] gappedLink 8)
        (expandMaskAtRows [true, true, false] gappedLink [0, 3, 6]) ↔
        gappedLink.rows ≠ [] ∨ [0, 3, 6] = []) ∧
      (AgreesAt [0, 3, 6] (broadcastSegmentToBase 0 [5, 6, 7] gappedLink 8)
        (gatherSegmentAtRows 0 [5, 6, 7] gappedLink 8 [0, 3, 6]) ↔
        gappedLink.rows ≠ [] ∨ [0, 3, 6] = []) := by
  have hlink : validateLinkDisjoint "segment" gappedLink = .ok () := by decide +kernel
  have hmask : [true, true, false].length = gappedLink.rows.length := rfl
  have hseg : [5, 6, 7].length = gappedLink.rows.length := rfl
  have hrows : ∀ row ∈ [0, 3, 6], row < 8 := by decide
  exact restricted_agrees_iff hlink 0 hmask hseg 8 hrows

/-- Two rows of a base that no record covers. -/
theorem restricted_refuses_empty :
    validateLinkDisjoint "segment" ⟨[], 1⟩ = .ok () ∧
      expandMaskToBase [] ⟨[], 1⟩ 2 = .ok [false, false] ∧
      expandMaskAtRows [] ⟨[], 1⟩ [0, 1] = .error "index 0 is out of bounds for axis 0 with size 0" ∧
      broadcastSegmentToBase 0 [] ⟨[], 1⟩ 2 = .ok [0, 0] ∧
      gatherSegmentAtRows 0 [] ⟨[], 1⟩ 2 [0, 1] =
        .error "index 0 is out of bounds for axis 0 with size 0" := by
  decide +kernel

end AtRows
end Zagg.Processing
