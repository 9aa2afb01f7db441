import Zagg.Hive.PackedToc

/-!
# The laws of the temporal quantization

Quantizing covers the instants of the buckets it meets and no others, so everything that can be
said of it is said of buckets: what it leaves uncovered, what it does to a union, and what is
left of an order that was coarsened before. The arithmetic is done in `uint64`, and none of
its steps reaches past it.
-/
namespace Zagg.Hive

open Zagg.Lib
open Zagg.Catalog (Word)

section Uint64

/-- The widening of one envelope in `uint64`: its start, and the end less one. -/
def widenSpan64 (k maxNs start stop : UInt64) : UInt64 × UInt64 :=
  let lo := (start >>> k) <<< k
  let last := max stop (start + 1) - 1
  let hi := min (((last >>> k) + 1) <<< k) maxNs
  (lo, hi - 1)

/-- No step of the widening of an envelope wraps. -/
structure NoWrap (k maxNs start stop : UInt64) : Prop where
  next : (start + 1).toNat = start.toNat + 1
  lo : ((start >>> k) <<< k).toNat = start.toNat / 2 ^ k.toNat * 2 ^ k.toNat
  last : (max stop (start + 1) - 1).toNat = max stop.toNat (start.toNat + 1) - 1
  bucket : (((max stop (start + 1) - 1) >>> k) + 1).toNat =
    (max stop (start + 1) - 1).toNat / 2 ^ k.toNat + 1
  shifted : ((((max stop (start + 1) - 1) >>> k) + 1) <<< k).toNat =
    (((max stop (start + 1) - 1) >>> k) + 1).toNat * 2 ^ k.toNat
  hi : (min ((((max stop (start + 1) - 1) >>> k) + 1) <<< k) maxNs - 1).toNat =
    (min ((((max stop (start + 1) - 1) >>> k) + 1) <<< k) maxNs).toNat - 1

theorem toNat_max (a b : UInt64) : (max a b).toNat = max a.toNat b.toNat := by
  have hdef : max a b = if a ≤ b then b else a := rfl
  rw [hdef, apply_ite UInt64.toNat, max_def]
  simp only [UInt64.le_iff_toNat_le]

theorem toNat_min (a b : UInt64) : (min a b).toNat = min a.toNat b.toNat := by
  have hdef : min a b = if a ≤ b then a else b := rfl
  rw [hdef, apply_ite UInt64.toNat, min_def]
  simp only [UInt64.le_iff_toNat_le]

theorem toNat_sub_one {a : UInt64} (h : 0 < a.toNat) : (a - 1).toNat = a.toNat - 1 :=
  UInt64.toNat_sub_of_le _ _ (UInt64.le_iff_toNat_le.mpr h)

theorem toNat_shiftRight (a : UInt64) {k : UInt64} (hk : k.toNat < 64) :
    (a >>> k).toNat = a.toNat / 2 ^ k.toNat := by
  rw [UInt64.toNat_shiftRight, Nat.mod_eq_of_lt hk, Nat.shiftRight_eq_div_pow]

theorem toNat_shiftLeft {a k : UInt64} (hk : k.toNat < 64) (h : a.toNat * 2 ^ k.toNat < 2 ^ 64) :
    (a <<< k).toNat = a.toNat * 2 ^ k.toNat := by
  rw [UInt64.toNat_shiftLeft, Nat.mod_eq_of_lt hk, Nat.shiftLeft_eq, Nat.mod_eq_of_lt h]

/-- An envelope below the top bit never wraps. -/
theorem noWrap {k maxNs start stop : UInt64} (hk : k.toNat ≤ 63) (hmax : 0 < maxNs.toNat)
    (hstart : start.toNat < 2 ^ 63) (hstop : stop.toNat ≤ 2 ^ 63) : NoWrap k maxNs start stop := by
  have hnext : (start + 1).toNat = start.toNat + 1 := by
    rw [UInt64.toNat_add]
    exact Nat.mod_eq_of_lt (by show start.toNat + 1 < 2 ^ 64; omega)
  have hlast : (max stop (start + 1) - 1).toNat = max stop.toNat (start.toNat + 1) - 1 := by
    rw [toNat_sub_one (by rw [toNat_max, hnext]; omega), toNat_max, hnext]
  have hlast63 : (max stop (start + 1) - 1).toNat < 2 ^ 63 := by
    rw [hlast]
    omega
  have hpos : 0 < 2 ^ k.toNat := Nat.two_pow_pos _
  have hsplit : 2 ^ (63 - k.toNat) * 2 ^ k.toNat = 2 ^ 63 := by
    rw [← Nat.pow_add]
    congr 1
    omega
  have hlt : (max stop (start + 1) - 1).toNat / 2 ^ k.toNat + 1 ≤ 2 ^ (63 - k.toNat) := by
    rw [Nat.succ_le_iff, Nat.div_lt_iff_lt_mul hpos, hsplit]
    exact hlast63
  have hbound : 2 ^ (63 - k.toNat) ≤ 2 ^ 63 := Nat.pow_le_pow_right (by decide) (by omega)
  have hbucket : (((max stop (start + 1) - 1) >>> k) + 1).toNat =
      (max stop (start + 1) - 1).toNat / 2 ^ k.toNat + 1 := by
    rw [UInt64.toNat_add, toNat_shiftRight _ (by omega)]
    exact Nat.mod_eq_of_lt (by show _ + 1 < 2 ^ 64; omega)
  have hmul : (((max stop (start + 1) - 1) >>> k) + 1).toNat * 2 ^ k.toNat ≤ 2 ^ 63 := by
    rw [hbucket, ← hsplit]
    exact Nat.mul_le_mul_right _ hlt
  have hshifted := toNat_shiftLeft (a := ((max stop (start + 1) - 1) >>> k) + 1)
    (by omega : k.toNat < 64) (hmul.trans_lt (by decide))
  refine ⟨hnext, ?_, hlast, hbucket, hshifted, toNat_sub_one ?_⟩
  · have hfloor : start.toNat / 2 ^ k.toNat * 2 ^ k.toNat ≤ start.toNat := Nat.div_mul_le_self _ _
    rw [toNat_shiftLeft (by omega), toNat_shiftRight _ (by omega)]
    rw [toNat_shiftRight _ (by omega)]
    omega
  · rw [toNat_min, hshifted, hbucket]
    exact lt_min (Nat.mul_pos (Nat.succ_pos _) hpos) hmax

/-- The widening in `uint64` is the widening of whole numbers. -/
theorem NoWrap.widenSpan {k maxNs start stop : UInt64} (h : NoWrap k maxNs start stop) :
    ((widenSpan64 k maxNs start stop).1.toNat, (widenSpan64 k maxNs start stop).2.toNat) =
      (start.toNat / 2 ^ k.toNat * 2 ^ k.toNat,
        min (((max stop.toNat (start.toNat + 1) - 1) / 2 ^ k.toNat + 1) * 2 ^ k.toNat)
          maxNs.toNat - 1) := by
  refine Prod.ext h.lo ?_
  rw [← h.last, ← h.bucket, ← h.shifted, ← toNat_min]
  exact h.hi

variable (g : Toc)

/-- `widen` in `uint64`. -/
def widen64 (k : Nat) (w : Word) : Word :=
  let span := widenSpan64 (.ofNat k) (.ofNat g.maxNs) (.ofNat (g.toc2time w).1)
    (.ofNat (g.toc2time w).2)
  g.span2toc span.1.toNat span.2.toNat

/-- `quantize_words` in `uint64`. -/
def quantizeWords64 (words : List Word) (order : Int) : Except PyError (List Word) :=
  if 0 ≤ order ∧ order ≤ 31 then
    if words = [] then .ok words
    else .ok (g.normalize (words.map (widen64 g (63 - order).toNat)))
  else .error .valueError

variable {g} (hg : g.Lawful)
include hg

/-- No step wraps on a word that an encoder produced. -/
theorem noWrap_word {w : Word} (hw : g.stop w ≤ g.maxNs) {k : Nat} (hk : k ≤ 63) :
    NoWrap (.ofNat k) (.ofNat g.maxNs) (.ofNat (g.toc2time w).1) (.ofNat (g.toc2time w).2) ∧
      widen64 g k w = widen g k w := by
  have hceil := hg.ceiling
  have hstop : max (g.toc2time w).2 ((g.toc2time w).1 + 1) ≤ g.maxNs := hw
  have hk64 : (UInt64.ofNat k).toNat = k := UInt64.toNat_ofNat_of_lt' (by show k < 2 ^ 64; omega)
  have hmax64 : (UInt64.ofNat g.maxNs).toNat = g.maxNs :=
    UInt64.toNat_ofNat_of_lt' (hceil.trans_lt (by decide))
  have hstart64 : (UInt64.ofNat (g.toc2time w).1).toNat = (g.toc2time w).1 :=
    UInt64.toNat_ofNat_of_lt' (by show _ < 2 ^ 64; omega)
  have hstop64 : (UInt64.ofNat (g.toc2time w).2).toNat = (g.toc2time w).2 :=
    UInt64.toNat_ofNat_of_lt' (by show _ < 2 ^ 64; omega)
  have hno : NoWrap (.ofNat k) (.ofNat g.maxNs) (.ofNat (g.toc2time w).1)
      (.ofNat (g.toc2time w).2) :=
    noWrap (hk64.le.trans hk) (by omega) (by omega) (by omega)
  have hspan := hno.widenSpan
  rw [hk64, hmax64, hstart64, hstop64] at hspan
  exact ⟨hno, congrArg (fun span : Nat × Nat => g.span2toc span.1 span.2) hspan⟩

theorem quantizeWords64_eq {ws : List Word} (h : g.Encodable ws) (order : Int) :
    quantizeWords64 g ws order = quantizeWords g ws order := by
  rw [quantizeWords64, quantizeWords]
  by_cases horder : 0 ≤ order ∧ order ≤ 31
  · have hmap : ws.map (widen64 g (63 - order).toNat) = ws.map (widen g (63 - order).toNat) :=
      List.map_congr_left fun w hw => (noWrap_word hg (h w hw) (by omega)).2
    rw [hmap]
  · rw [if_neg horder, if_neg horder]

end Uint64

section Laws
variable {g : Toc} (hg : g.Lawful) {k : Nat} {ws ws' : List Word}
include hg

/-- Normalizing the union of two covers is covering the union. -/
theorem Toc.coarsen_append (hk : 32 ≤ k) (h : g.Encodable ws) (h' : g.Encodable ws') :
    g.coarsen k (ws ++ ws') = g.normalize (g.coarsen k ws ++ g.coarsen k ws') := by
  have hali : g.AlignedWords 32 (g.coarsen k ws ++ g.coarsen k ws') := by
    intro w hw
    cases List.mem_append.mp hw with
    | inl hw => exact (Toc.aligned_coarsen hg hk h).mono hk w hw
    | inr hw => exact (Toc.aligned_coarsen hg hk h').mono hk w hw
  have hcov (t : Nat) : g.Covered (g.coarsen k ws ++ g.coarsen k ws') t ↔
      g.Covered (g.coarsen k (ws ++ ws')) t := by
    rw [Toc.covered_append, Toc.covered_coarsen hg hk h, Toc.covered_coarsen hg hk h',
      Toc.covered_coarsen hg hk (h.append h'), ← and_or_left]
    simp only [Toc.Meets, Toc.covered_append, or_and_right, exists_or]
  by_cases hnil : ws ++ ws' = []
  · obtain ⟨rfl, rfl⟩ := List.append_eq_nil_iff.mp hnil
    have hnone (t : Nat) : ¬g.Covered (g.normalize (g.coarsen k [] ++ g.coarsen k [])) t := by
      rw [hg.covered _ hali, hcov]
      exact fun ⟨_, hw, _⟩ => nomatch hw
    show [] = _
    symm
    rw [List.eq_nil_iff_forall_not_mem]
    intro w hw
    exact hnone _ (Toc.covered_start hw)
  · have hali' := (Toc.aligned_widened hg hk (h.append h')).mono hk
    have hself : g.coarsen k (ws ++ ws') = g.normalize ((ws ++ ws').map (widen g k)) := by
      rw [Toc.coarsen_of_ne hnil]
    rw [hself]
    refine hg.canonical _ _ hali' hali fun t => ?_
    rw [← hg.covered _ hali', ← hself, hcov]

/-- A gap survives exactly when it contains a whole bucket. -/
theorem Toc.gap_iff (hk : 32 ≤ k) (h : g.Encodable ws) {t t' : Nat}
    (ht : g.Covered ws t) (ht' : g.Covered ws t')
    (hgap : ∀ u, t < u → u < t' → ¬g.Covered ws u) :
    (∃ u, t < u ∧ u < t' ∧ ¬g.Covered (g.coarsen k ws) u) ↔
      ∃ b, t < b * 2 ^ k ∧ (b + 1) * 2 ^ k ≤ t' := by
  have hpos : 0 < 2 ^ k := Nat.two_pow_pos k
  have hmax := h.lt ht'
  constructor
  · intro ⟨u, hlo, hhi, hu⟩
    have hmiss : ¬g.Meets k ws (u / 2 ^ k) := fun hm =>
      hu ((Toc.covered_coarsen hg hk h u).mpr ⟨hhi.trans hmax, hm⟩)
    refine ⟨u / 2 ^ k, ?_, ?_⟩
    · by_contra hge
      have hle : u / 2 ^ k ≤ t / 2 ^ k :=
        (Nat.le_div_iff_mul_le hpos).mpr (Nat.le_of_not_lt hge)
      exact hmiss ⟨t, ht, le_antisymm (Nat.div_le_div_right hlo.le) hle⟩
    · by_contra hlt
      have hle : t' / 2 ^ k < u / 2 ^ k + 1 :=
        (Nat.div_lt_iff_lt_mul hpos).mpr (Nat.lt_of_not_le hlt)
      exact hmiss ⟨t', ht', le_antisymm (Nat.le_of_lt_succ hle) (Nat.div_le_div_right hhi.le)⟩
  · intro ⟨b, hlo, hhi⟩
    have hlt : b * 2 ^ k < t' := (Nat.mul_lt_mul_of_pos_right (Nat.lt_succ_self b) hpos).trans_le hhi
    refine ⟨b * 2 ^ k, hlo, hlt, fun hcov => ?_⟩
    obtain ⟨-, u, hu, hb⟩ := (Toc.covered_coarsen hg hk h _).mp hcov
    rw [Nat.mul_div_cancel b hpos] at hb
    -- the bucket lies inside the gap
    have hfirst : b * 2 ^ k ≤ u := (Nat.le_div_iff_mul_le hpos).mp hb.ge
    have hlast : u < (b + 1) * 2 ^ k := (Nat.div_lt_iff_lt_mul hpos).mp (by omega)
    exact hgap u (by omega) (by omega) hu

/-- Coarsening to the cap ends at the quantization of the source at the order it reports. -/
theorem capFrom_eq {cap : Nat} (hcap : 1 ≤ cap) (fuel : Nat) (h : g.Encodable ws) {order : Int}
    (horder : 0 ≤ order ∧ order ≤ 31) (hfuel : order ≤ fuel) :
    ∃ order', 0 ≤ order' ∧ order' ≤ order ∧
      capFrom g cap fuel (g.coarsen (63 - order).toNat ws) order =
        .ok (g.coarsen (63 - order').toNat ws, order') ∧
      (g.coarsen (63 - order').toNat ws).length ≤ cap := by
  have hzero : (g.coarsen 63 ws).length ≤ cap := (Toc.length_coarsen_zero hg h).trans hcap
  induction fuel generalizing order with
  | zero =>
    obtain rfl : order = 0 := by omega
    exact ⟨0, le_rfl, le_rfl, rfl, hzero⟩
  | succ fuel ih =>
    rw [capFrom]
    by_cases hmore : (g.coarsen (63 - order).toNat ws).length > cap ∧ order > 0
    · have hnext : quantizeWords g (g.coarsen (63 - order).toNat ws) (order - 1) =
          .ok (g.coarsen (63 - (order - 1)).toNat ws) := by
        rw [quantizeWords_eq (by omega), Toc.coarsen_coarsen hg (bits_le horder.2) h (by omega)]
      have hprev : 0 ≤ order - 1 ∧ order - 1 ≤ 31 := by omega
      obtain ⟨order', hlo, hhi, hrun, hlen⟩ := ih hprev (by omega)
      refine ⟨order', hlo, by omega, ?_, hlen⟩
      rw [if_pos hmore, hnext]
      exact hrun
    · refine ⟨order, horder.1, le_rfl, if_neg hmore, ?_⟩
      by_cases hlong : (g.coarsen (63 - order).toNat ws).length > cap
      · obtain rfl : order = 0 := by omega
        exact hzero
      · exact Nat.le_of_not_lt hlong

end Laws

/-- What holds of the words `r` that quantizing `ws` at an order gives. -/
structure QuantizeLaws (g : Toc) (order : Int) (ws r : List Word) : Prop where
  covers : ∀ t, g.Covered ws t → g.Covered r t
  idempotent : quantizeWords g r order = .ok r
  coarser : ∀ order', 0 ≤ order' → order' ≤ order →
    quantizeWords g r order' = quantizeWords g ws order'
  union : ∀ ws' r', g.Encodable ws' → quantizeWords g ws' order = .ok r' →
    quantizeWords g (ws ++ ws') order = .ok (g.normalize (r ++ r'))
  gap : ∀ t t', g.Covered ws t → g.Covered ws t' → (∀ u, t < u → u < t' → ¬g.Covered ws u) →
    ((∃ u, t < u ∧ u < t' ∧ ¬g.Covered r u) ↔
      ∃ b, t < b * 2 ^ (63 - order).toNat ∧ (b + 1) * 2 ^ (63 - order).toNat ≤ t')
  /-- Below the ceiling the clamp keeps every instant of a bucket that is met. -/
  clamp : ∀ t < g.maxNs, g.Covered r t ↔ g.Meets (63 - order).toNat ws (t / 2 ^ (63 - order).toNat)
  uint64 : quantizeWords64 g ws order = .ok r ∧ ∀ w ∈ ws,
    NoWrap (.ofNat (63 - order).toNat) (.ofNat g.maxNs) (.ofNat (g.toc2time w).1)
      (.ofNat (g.toc2time w).2)
  capped : ∃ q order', capCover g r order = .ok (q, order') ∧ 0 ≤ order' ∧ order' ≤ order ∧
    quantizeWords g ws order' = .ok q ∧ q.length ≤ coverCap

/-- Quantizing at an order of the grammar succeeds, and obeys the laws. -/
theorem quantizeWords_laws {g : Toc} (hg : g.Lawful) {order : Int} (horder : 0 ≤ order ∧ order ≤ 31)
    {ws : List Word} (h : g.Encodable ws) :
    ∃ r, quantizeWords g ws order = .ok r ∧ QuantizeLaws g order ws r := by
  have hk := bits_le horder.2
  have hself : quantizeWords g ws order = .ok (g.coarsen (63 - order).toNat ws) :=
    quantizeWords_eq horder
  refine ⟨_, hself, ?_⟩
  constructor
  case covers => exact fun t => Toc.covered_of_source hg hk h
  case idempotent => rw [quantizeWords_eq horder, Toc.coarsen_coarsen hg hk h le_rfl]
  case coarser =>
    intro order' hlo hhi
    have horder' : 0 ≤ order' ∧ order' ≤ 31 := ⟨hlo, hhi.trans horder.2⟩
    rw [quantizeWords_eq horder', quantizeWords_eq horder',
      Toc.coarsen_coarsen hg hk h (by omega)]
  case union =>
    intro ws' r' h' hr'
    rw [quantizeWords_eq horder] at hr' ⊢
    cases hr'
    rw [Toc.coarsen_append hg hk h h']
  case gap => exact fun t t' => Toc.gap_iff hg hk h
  case clamp =>
    intro t ht
    rw [Toc.covered_coarsen hg hk h]
    exact and_iff_right ht
  case uint64 =>
    refine ⟨(quantizeWords64_eq hg h order).trans hself, fun w hw => ?_⟩
    exact (noWrap_word hg (h w hw) (by omega)).1
  case capped =>
    obtain ⟨order', hlo, hhi, hrun, hlen⟩ :=
      capFrom_eq hg (show 1 ≤ coverCap by decide) order.toNat h horder (by omega)
    exact ⟨_, order', hrun, hlo, hhi, quantizeWords_eq ⟨hlo, hhi.trans horder.2⟩, hlen⟩

/-- A range that ends at the ceiling, and one early in the scale. -/
def ceilingWords : List Word := [(2 ^ 32 - 4) * 2 ^ 32 + (2 ^ 31 - 1), 2 ^ 32 + 1]

theorem quantizeWords_laws_ceiling :
    ∃ r, quantizeWords packedToc ceilingWords 18 = .ok r ∧
      QuantizeLaws packedToc 18 ceilingWords r :=
  quantizeWords_laws packedToc_lawful (by decide)
    (show ∀ w ∈ ceilingWords, packedToc.stop w ≤ packedToc.maxNs by decide)

example : quantizeWords packedToc ceilingWords 31 =
    .ok [1, (2 ^ 32 - 4) * 2 ^ 32 + (2 ^ 31 - 1)] := by
  decide +kernel

end Zagg.Hive
