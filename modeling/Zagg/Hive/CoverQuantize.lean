import Zagg.Hive.CoverSections
import Zagg.Lib.Intervals

/-!
# Quantized covers

A quantized cover covers exactly the buckets its source meets. Coarsening it again is
coarsening the source, and a contribution it already covers leaves it as it is.
-/
namespace Zagg.Hive

open Zagg.Lib
open Zagg.Catalog (Word)

namespace Toc

variable (g : Toc)

def start (w : Word) : Nat := (g.toc2time w).1

/-- The exclusive end; a timestamp covers one instant. -/
def stop (w : Word) : Nat := max (g.toc2time w).2 ((g.toc2time w).1 + 1)

def Covered (ws : List Word) (t : Nat) : Prop := ∃ w ∈ ws, g.start w ≤ t ∧ t < g.stop w

/-- No envelope reaches past the ceiling of the scale. -/
def Encodable (ws : List Word) : Prop := ∀ w ∈ ws, g.stop w ≤ g.maxNs

/-- The bounds of a run of buckets of `2 ^ k` ns; the topmost one ends at the ceiling. -/
structure Aligned (k lo hi : Nat) : Prop where
  first : 2 ^ k ∣ lo
  last : 2 ^ k ∣ hi ∨ hi = g.maxNs
  lt : lo < hi
  le : hi ≤ g.maxNs

def AlignedWords (k : Nat) (ws : List Word) : Prop := ∀ w ∈ ws, g.Aligned k (g.start w) (g.stop w)

/-- What the code relies on in `mortie`: aligned bounds are encoded exactly, and normalizing
gives the one list of separate ranges with the same cover. -/
structure Lawful : Prop where
  ceiling : g.maxNs ≤ 2 ^ 63
  span : ∀ lo hi, g.Aligned 32 lo hi → g.toc2time (g.span2toc lo (hi - 1)) = (lo, hi)
  covered : ∀ ws, g.AlignedWords 32 ws → ∀ t, g.Covered (g.normalize ws) t ↔ g.Covered ws t
  apart : ∀ ws, g.AlignedWords 32 ws → (g.normalize ws).Pairwise fun v w => g.stop v < g.start w
  canonical : ∀ ws ws', g.AlignedWords 32 ws → g.AlignedWords 32 ws' →
    (∀ t, g.Covered ws t ↔ g.Covered ws' t) → g.normalize ws = g.normalize ws'
  word_lt : ∀ ws, g.AlignedWords 32 ws → ∀ w ∈ g.normalize ws, w < 2 ^ 64

variable {g} {k k' : Nat} {ws src src' : List Word}

theorem start_lt_stop (w : Word) : g.start w < g.stop w :=
  Nat.lt_of_lt_of_le (Nat.lt_succ_self _) (le_max_right _ _)

theorem AlignedWords.mono (h : g.AlignedWords k' ws) (hk : k ≤ k') : g.AlignedWords k ws := by
  have hdvd : 2 ^ k ∣ 2 ^ k' := Nat.pow_dvd_pow 2 hk
  intro w hw
  have hw := h w hw
  exact ⟨hdvd.trans hw.first, hw.last.imp_left hdvd.trans, hw.lt, hw.le⟩

theorem AlignedWords.encodable (h : g.AlignedWords k ws) : g.Encodable ws := fun w hw => (h w hw).le

theorem covered_start {w : Word} (hw : w ∈ ws) : g.Covered ws (g.start w) :=
  ⟨w, hw, le_rfl, start_lt_stop w⟩

theorem covered_last {w : Word} (hw : w ∈ ws) : g.Covered ws (g.stop w - 1) := by
  have h := start_lt_stop (g := g) w
  exact ⟨w, hw, by omega, by omega⟩

theorem covered_append {ws' : List Word} {t : Nat} :
    g.Covered (ws ++ ws') t ↔ g.Covered ws t ∨ g.Covered ws' t := by
  constructor
  · intro ⟨w, hw, ht⟩
    exact (List.mem_append.mp hw).imp (fun hw => ⟨w, hw, ht⟩) fun hw => ⟨w, hw, ht⟩
  · intro h
    rcases h with ⟨w, hw, ht⟩ | ⟨w, hw, ht⟩
    · exact ⟨w, List.mem_append_left _ hw, ht⟩
    · exact ⟨w, List.mem_append_right _ hw, ht⟩

theorem Encodable.lt (h : g.Encodable ws) {t : Nat} (ht : g.Covered ws t) : t < g.maxNs := by
  obtain ⟨w, hw, -, hlt⟩ := ht
  exact hlt.trans_le (h w hw)

theorem Encodable.append {ws' : List Word} (h : g.Encodable ws) (h' : g.Encodable ws') :
    g.Encodable (ws ++ ws') := by
  intro w hw
  rcases List.mem_append.mp hw with hw | hw
  · exact h w hw
  · exact h' w hw

/-- The buckets a list of words meets. -/
def Meets (g : Toc) (k : Nat) (ws : List Word) (b : Nat) : Prop := ∃ t, g.Covered ws t ∧ t / 2 ^ k = b

/-- The cover of a nonempty list at a grid; the empty list stays as it is. -/
def coarsen (g : Toc) (k : Nat) (ws : List Word) : List Word :=
  if ws = [] then ws else g.normalize (ws.map (widen g k))

theorem coarsen_of_ne (h : ws ≠ []) : g.coarsen k ws = g.normalize (ws.map (widen g k)) := if_neg h

section Widen
variable (hg : g.Lawful) (hk : 32 ≤ k)
include hg hk

theorem widen_bounds {w : Word} (hw : g.stop w ≤ g.maxNs) :
    g.start (widen g k w) = g.start w / 2 ^ k * 2 ^ k ∧
      g.stop (widen g k w) = min (((g.stop w - 1) / 2 ^ k + 1) * 2 ^ k) g.maxNs ∧
      g.Aligned k (g.start (widen g k w)) (g.stop (widen g k w)) := by
  have hlt := start_lt_stop (g := g) w
  have hpos : 0 < 2 ^ k := Nat.two_pow_pos k
  have hfloor : g.start w / 2 ^ k * 2 ^ k ≤ g.start w := Nat.div_mul_le_self _ _
  have hceil : g.stop w - 1 < ((g.stop w - 1) / 2 ^ k + 1) * 2 ^ k :=
    (Nat.div_lt_iff_lt_mul hpos).mp (Nat.lt_succ_self _)
  have hali : g.Aligned k (g.start w / 2 ^ k * 2 ^ k)
      (min (((g.stop w - 1) / 2 ^ k + 1) * 2 ^ k) g.maxNs) := by
    refine ⟨Nat.dvd_mul_left _ _, ?_, by omega, min_le_right _ _⟩
    rcases min_choice (((g.stop w - 1) / 2 ^ k + 1) * 2 ^ k) g.maxNs with h | h
    · rw [h]
      exact .inl (Nat.dvd_mul_left _ _)
    · exact .inr h
  have hdvd : 2 ^ 32 ∣ 2 ^ k := Nat.pow_dvd_pow 2 hk
  have hspan : g.toc2time (widen g k w) = (g.start w / 2 ^ k * 2 ^ k,
      min (((g.stop w - 1) / 2 ^ k + 1) * 2 ^ k) g.maxNs) :=
    hg.span _ _ ⟨hdvd.trans hali.first, hali.last.imp_left hdvd.trans, hali.lt, hali.le⟩
  have hstart : g.start (widen g k w) = g.start w / 2 ^ k * 2 ^ k := by rw [start, hspan]
  have hstop : g.stop (widen g k w) = min (((g.stop w - 1) / 2 ^ k + 1) * 2 ^ k) g.maxNs := by
    rw [stop, hspan]
    exact max_eq_left (Nat.succ_le_of_lt hali.lt)
  rw [hstart, hstop]
  exact ⟨rfl, rfl, hali⟩

theorem covered_widen {w : Word} (hw : g.stop w ≤ g.maxNs) (t : Nat) :
    (g.start (widen g k w) ≤ t ∧ t < g.stop (widen g k w)) ↔
      t < g.maxNs ∧ ∃ t', g.start w ≤ t' ∧ t' < g.stop w ∧ t' / 2 ^ k = t / 2 ^ k := by
  obtain ⟨hstart, hstop, -⟩ := widen_bounds hg hk hw
  have hpos : 0 < 2 ^ k := Nat.two_pow_pos k
  rw [exists_in_bucket (start_lt_stop w), hstart, hstop, lt_min_iff, ← Nat.le_div_iff_mul_le hpos,
    ← Nat.div_lt_iff_lt_mul hpos, Nat.lt_succ_iff]
  tauto

theorem aligned_widened (h : g.Encodable ws) : g.AlignedWords k (ws.map (widen g k)) := by
  intro w hw
  obtain ⟨v, hv, rfl⟩ := List.mem_map.mp hw
  exact (widen_bounds hg hk (h v hv)).2.2

theorem covered_coarsen (h : g.Encodable ws) (t : Nat) :
    g.Covered (g.coarsen k ws) t ↔ t < g.maxNs ∧ g.Meets k ws (t / 2 ^ k) := by
  by_cases hnil : ws = []
  · subst hnil
    exact iff_of_false (fun ⟨_, hw, _⟩ => nomatch hw) fun ⟨_, _, ⟨_, hw, _⟩, _⟩ => nomatch hw
  · rw [coarsen_of_ne hnil, hg.covered _ ((aligned_widened hg hk h).mono hk)]
    constructor
    · intro ⟨w, hw, ht⟩
      obtain ⟨v, hv, rfl⟩ := List.mem_map.mp hw
      obtain ⟨hlt, t', hstart, hstop, hb⟩ := (covered_widen hg hk (h v hv) t).mp ht
      exact ⟨hlt, t', ⟨v, hv, hstart, hstop⟩, hb⟩
    · intro ⟨hlt, t', ⟨v, hv, hstart, hstop⟩, hb⟩
      exact ⟨widen g k v, List.mem_map_of_mem hv,
        (covered_widen hg hk (h v hv) t).mpr ⟨hlt, t', hstart, hstop, hb⟩⟩

theorem covered_of_source (h : g.Encodable ws) {t : Nat} (ht : g.Covered ws t) :
    g.Covered (g.coarsen k ws) t :=
  (covered_coarsen hg hk h t).mpr ⟨h.lt ht, t, ht, rfl⟩

/-- Two sources that meet the same buckets have one cover. -/
theorem coarsen_congr (h : g.Encodable src) (h' : g.Encodable src')
    (hmeets : ∀ b, g.Meets k src b ↔ g.Meets k src' b) : g.coarsen k src = g.coarsen k src' := by
  have hempty : src = [] ↔ src' = [] := by
    constructor
    · intro hnil
      refine List.eq_nil_iff_forall_not_mem.mpr fun w hw => ?_
      obtain ⟨t, ⟨v, hv, -⟩, -⟩ := (hmeets _).mpr ⟨_, covered_start hw, rfl⟩
      exact absurd (hnil ▸ hv) List.not_mem_nil
    · intro hnil
      refine List.eq_nil_iff_forall_not_mem.mpr fun w hw => ?_
      obtain ⟨t, ⟨v, hv, -⟩, -⟩ := (hmeets _).mp ⟨_, covered_start hw, rfl⟩
      exact absurd (hnil ▸ hv) List.not_mem_nil
  by_cases hnil : src = []
  · rw [hnil, hempty.mp hnil]
  · have hnil' : src' ≠ [] := fun hn => hnil (hempty.mpr hn)
    have hcov := covered_coarsen hg hk h
    have hcov' := covered_coarsen hg hk h'
    rw [coarsen_of_ne hnil] at hcov ⊢
    rw [coarsen_of_ne hnil'] at hcov' ⊢
    have hali := (aligned_widened hg hk h).mono hk
    have hali' := (aligned_widened hg hk h').mono hk
    refine hg.canonical _ _ hali hali' fun t => ?_
    rw [← hg.covered _ hali, ← hg.covered _ hali', hcov, hcov', hmeets]

theorem apart_coarsen (h : g.Encodable ws) :
    (g.coarsen k ws).Pairwise fun v w => g.stop v < g.start w := by
  by_cases hnil : ws = []
  · subst hnil
    exact .nil
  · rw [coarsen_of_ne hnil]
    exact hg.apart _ ((aligned_widened hg hk h).mono hk)

/-- The words of a cover begin and end where widened words do. -/
theorem aligned_coarsen (h : g.Encodable ws) : g.AlignedWords k (g.coarsen k ws) := by
  have hapart := apart_coarsen hg hk h
  by_cases hnil : ws = []
  · subst hnil
    exact fun w hw => nomatch hw
  · rw [coarsen_of_ne hnil] at hapart ⊢
    have hali := aligned_widened hg hk h
    have hcov := hg.covered _ (hali.mono hk)
    have hsep : ∀ v ∈ g.normalize (ws.map (widen g k)), ∀ w ∈ g.normalize (ws.map (widen g k)),
        v = w ∨ g.stop v < g.start w ∨ g.stop w < g.start v := by
      intro v hv w hw
      by_cases heq : v = w
      · exact .inl heq
      · have hsym : Std.Symm fun a b => g.stop a < g.start b ∨ g.stop b < g.start a :=
          ⟨fun _ _ => Or.symm⟩
        have heither : (g.normalize (ws.map (widen g k))).Pairwise fun a b =>
            g.stop a < g.start b ∨ g.stop b < g.start a := hapart.imp .inl
        exact .inr (heither.forall hv hw heq)
    intro w hw
    have hlt := start_lt_stop (g := g) w
    obtain ⟨u, hu, hu1, hu2⟩ := (hcov _).mp (covered_start hw)
    obtain ⟨v, hv, hv1, hv2⟩ := (hcov _).mp (covered_last hw)
    have hfirst : g.start u = g.start w := by
      by_contra hne
      obtain ⟨x, hx, hx1, hx2⟩ := (hcov (g.start w - 1)).mpr ⟨u, hu, by omega, by omega⟩
      have hxlt := start_lt_stop (g := g) x
      rcases hsep x hx w hw with rfl | hlt' | hlt' <;> omega
    have hlast : g.stop v = g.stop w := by
      by_contra hne
      obtain ⟨x, hx, hx1, hx2⟩ := (hcov (g.stop w)).mpr ⟨v, hv, by omega, by omega⟩
      have hxlt := start_lt_stop (g := g) x
      rcases hsep x hx w hw with rfl | hlt' | hlt' <;> omega
    have hau := hali u hu
    have hav := hali v hv
    rw [hfirst] at hau
    rw [hlast] at hav
    exact ⟨hau.first, hav.last, hlt, hav.le⟩

theorem encodable_coarsen (h : g.Encodable ws) : g.Encodable (g.coarsen k ws) :=
  (aligned_coarsen hg hk h).encodable

/-- A cover meets the coarser buckets its source meets. -/
theorem meets_coarsen (h : g.Encodable ws) (hkk : k ≤ k') (b : Nat) :
    g.Meets k' (g.coarsen k ws) b ↔ g.Meets k' ws b := by
  constructor
  · intro ⟨t, ht, hb⟩
    obtain ⟨-, t', ht', heq⟩ := (covered_coarsen hg hk h t).mp ht
    exact ⟨t', ht', (bucket_coarsen hkk heq).trans hb⟩
  · intro ⟨t, ht, hb⟩
    exact ⟨t, covered_of_source hg hk h ht, hb⟩

theorem coarsen_coarsen (h : g.Encodable ws) (hkk : k ≤ k') :
    g.coarsen k' (g.coarsen k ws) = g.coarsen k' ws :=
  coarsen_congr hg (hk.trans hkk) (encodable_coarsen hg hk h) h (meets_coarsen hg hk h hkk)

/-- A contribution that a cover already covers leaves it as it is. -/
theorem coarsen_absorb (h : g.Encodable ws) (h' : g.Encodable src)
    (hsub : ∀ t, g.Covered src t → g.Covered (g.coarsen k ws) t) :
    g.coarsen k (g.coarsen k ws ++ src) = g.coarsen k ws := by
  refine coarsen_congr hg hk ((encodable_coarsen hg hk h).append h') h fun b => ?_
  rw [← meets_coarsen hg hk h le_rfl b]
  constructor
  · intro ⟨t, ht, hb⟩
    exact ⟨t, (covered_append.mp ht).elim id (hsub t), hb⟩
  · intro ⟨t, ht, hb⟩
    exact ⟨t, covered_append.mpr (.inl ht), hb⟩

theorem coarsen_lt (h : g.Encodable ws) : ∀ w ∈ g.coarsen k ws, w < 2 ^ 64 := by
  by_cases hnil : ws = []
  · subst hnil
    exact fun w hw => nomatch hw
  · rw [coarsen_of_ne hnil]
    exact hg.word_lt _ ((aligned_widened hg hk h).mono hk)

end Widen

/-- Order 0 is a single bucket. -/
theorem length_coarsen_zero (hg : g.Lawful) (h : g.Encodable ws) : (g.coarsen 63 ws).length ≤ 1 := by
  have hali := aligned_coarsen hg (by decide : 32 ≤ 63) h
  have hzero : ∀ w ∈ g.coarsen 63 ws, g.start w = 0 := by
    intro w hw
    have hlt : g.start w < 2 ^ 63 := ((hali w hw).lt.trans_le (hali w hw).le).trans_le hg.ceiling
    exact Nat.eq_zero_of_dvd_of_lt (hali w hw).first hlt
  have hapart := apart_coarsen hg (by decide : 32 ≤ 63) h
  match hcover : g.coarsen 63 ws with
  | [] => exact Nat.zero_le _
  | [w] => exact le_rfl
  | v :: w :: rest =>
    rw [hcover] at hapart hzero
    have hvw := (List.pairwise_cons.mp hapart).1 w (.head _)
    rw [hzero w (.tail _ (.head _))] at hvw
    exact absurd hvw (Nat.not_lt_zero _)

end Toc

variable {g : Toc} {order order' : Int} {ws src r : List Word}

/-- A block's words at its recorded order. -/
def Quantized (g : Toc) (order : Int) (ws : List Word) : Prop :=
  ∃ src, g.Encodable src ∧ quantizeWords g src order = .ok ws

theorem quantizeWords_eq (h : 0 ≤ order ∧ order ≤ 31) :
    quantizeWords g ws order = .ok (g.coarsen (63 - order).toNat ws) := by
  rw [quantizeWords, if_pos h, Toc.coarsen]
  split_ifs <;> rfl

theorem quantized_iff : Quantized g order ws ↔ (0 ≤ order ∧ order ≤ 31) ∧
    ∃ src, g.Encodable src ∧ g.coarsen (63 - order).toNat src = ws := by
  constructor
  · intro ⟨src, hsrc, hws⟩
    have horder : 0 ≤ order ∧ order ≤ 31 := by
      by_contra hout
      rw [quantizeWords, if_neg hout] at hws
      cases hws
    rw [quantizeWords_eq horder] at hws
    exact ⟨horder, src, hsrc, Except.ok.inj hws⟩
  · intro ⟨horder, src, hsrc, hws⟩
    exact ⟨src, hsrc, by rw [quantizeWords_eq horder, hws]⟩

theorem bits_le {order : Int} (h : order ≤ 31) : 32 ≤ (63 - order).toNat := by omega

section Orders
variable (hg : g.Lawful)
include hg

theorem Quantized.aligned (h : Quantized g order ws) : g.AlignedWords (63 - order).toNat ws := by
  obtain ⟨horder, src, hsrc, rfl⟩ := quantized_iff.mp h
  exact Toc.aligned_coarsen hg (bits_le horder.2) hsrc

theorem Quantized.encodable (h : Quantized g order ws) : g.Encodable ws := (h.aligned hg).encodable

theorem Quantized.word_lt (h : Quantized g order ws) : ∀ w ∈ ws, w < 2 ^ 64 := by
  obtain ⟨horder, src, hsrc, rfl⟩ := quantized_iff.mp h
  exact Toc.coarsen_lt hg (bits_le horder.2) hsrc

/-- Quantizing only widens. -/
theorem exists_quantizeWords (h : g.Encodable ws) (horder : 0 ≤ order ∧ order ≤ 31) :
    ∃ r, quantizeWords g ws order = .ok r ∧ Quantized g order r ∧
      ∀ t, g.Covered ws t → g.Covered r t := by
  refine ⟨_, quantizeWords_eq horder, ⟨ws, h, quantizeWords_eq horder⟩, fun t ht => ?_⟩
  exact Toc.covered_of_source hg (bits_le horder.2) h ht

theorem Quantized.absorb (h : Quantized g order ws) (hsrc : g.Encodable src)
    (hsub : ∀ t, g.Covered src t → g.Covered ws t) :
    quantizeWords g (ws ++ src) order = .ok ws := by
  obtain ⟨horder, source, hsource, rfl⟩ := quantized_iff.mp h
  rw [quantizeWords_eq horder, Toc.coarsen_absorb hg (bits_le horder.2) hsource hsrc hsub]

theorem Quantized.length_zero (h : Quantized g 0 ws) : ws.length ≤ 1 := by
  obtain ⟨-, src, hsrc, rfl⟩ := quantized_iff.mp h
  exact Toc.length_coarsen_zero hg hsrc

/-- Coarsening by order ends within the cap and only widens. -/
theorem exists_capFrom {cap : Nat} (hcap : 1 ≤ cap) (fuel : Nat) (h : Quantized g order ws)
    (hfuel : order ≤ fuel) : ∃ r order', capFrom g cap fuel ws order = .ok (r, order') ∧
      Quantized g order' r ∧ order' ≤ order ∧ r.length ≤ cap ∧
      ∀ t, g.Covered ws t → g.Covered r t := by
  have hrange := (quantized_iff.mp h).1
  induction fuel generalizing ws order with
  | zero =>
    obtain rfl : order = 0 := by omega
    exact ⟨ws, 0, rfl, h, le_rfl, (h.length_zero hg).trans hcap, fun _ ht => ht⟩
  | succ fuel ih =>
    rw [capFrom]
    split_ifs with hmore
    · obtain ⟨next, hnext, hquant, hsub⟩ := exists_quantizeWords hg (h.encodable hg)
        (by omega : 0 ≤ order - 1 ∧ order - 1 ≤ 31)
      obtain ⟨r, order', hr, hquant', hle, hlen, hsub'⟩ := ih hquant (by omega) (by omega)
      refine ⟨r, order', ?_, hquant', by omega, hlen, fun t ht => hsub' t (hsub t ht)⟩
      rw [hnext]
      exact hr
    · refine ⟨ws, order, rfl, h, le_rfl, ?_, fun _ ht => ht⟩
      by_cases hzero : order = 0
      · subst hzero
        exact (h.length_zero hg).trans hcap
      · omega

end Orders

theorem capFrom_of_le {cap : Nat} (fuel : Nat) (h : ws.length ≤ cap) :
    capFrom g cap fuel ws order = .ok (ws, order) := by
  cases fuel with
  | zero => rfl
  | succ fuel => rw [capFrom, if_neg (by omega)]

end Zagg.Hive
