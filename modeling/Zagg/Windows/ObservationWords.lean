import Mathlib.Data.List.MinMax
import Zagg.Lib.Pointwise
import Zagg.Stats.Composition
import Zagg.Windows.DatasetTime

/-!
# Observation time words

A column of offsets since an epoch becomes one word a value. The whole seconds and the rest are
brought to nanoseconds apart and added to the epoch's in 64-bit integers, once the least and the
greatest value are known to be within the scale.
-/
namespace Zagg.Windows

open Zagg.Lib
open Zagg.Stats (rint rint_mono rint_add_even rint_error)

/-- `TOC_MAX_NS`: the ceiling of the words' scale. -/
def tocMaxNs : Nat := 2 ^ 63 - 2 ^ 32

/-- `TOC_EPOCH`. -/
def tocEpoch : Instant := .midnight ⟨1850, 1, 1, by decide⟩

def tocSourceScales : List String := ["gps", "tai"]

/-- `UNIT_SECONDS`. -/
def unitTable : List (String × ℚ) := [("seconds", 1), ("days", 86400)]

inductive WordsError
  | scale (scale : String)
  | units (units : String)
  | beforeEpoch (when : Instant)
  | nonFinite
  | precedes (ns : ℤ)
  | exceeds (ns : ℤ)
  | kernel
deriving DecidableEq

/-- The kernels of `mortie` that the conversion calls. -/
structure TocKernels where
  fromDatetime64 : Instant → Except WordsError UInt64
  time2toc : List UInt64 → Except WordsError (List UInt64)
  toc2time : UInt64 → UInt64 × UInt64

/-- What the conversion relies on: an epoch is within the scale, and the words of instants within
it decode to them. -/
structure TocKernels.Lawful (k : TocKernels) : Prop where
  epoch_lt : ∀ t base, k.fromDatetime64 t = .ok base → base.toNat < tocMaxNs
  decodes : ∀ ns : List UInt64, (∀ n ∈ ns, n.toNat < tocMaxNs) →
    ∃ words, k.time2toc ns = .ok words ∧ words.map k.toc2time = ns.map fun n => (n, n)

section Conversion

def internalNs (k : TocKernels) (when : Instant) : Except WordsError UInt64 :=
  if when.before tocEpoch then .error (.beforeEpoch when) else k.fromDatetime64 when

/-- `offsets`; the value `none` is a NaN or an infinity. -/
def finiteOffsets (values : List (Option ℚ)) (seconds : ℚ) : Except WordsError (List ℚ) :=
  match values.mapM id with
  | none => .error .nonFinite
  | some finite => .ok (finite.map (· * seconds))

def fracNs (offset : ℚ) : ℤ := rint ((offset - ⌊offset⌋) * 1000000000)

/-- `low` and `high`, without bounds. -/
def offsetNs (offset : ℚ) : ℤ := ⌊offset⌋ * 1000000000 + fracNs offset

def checkDomain (base : ℤ) (offsets : List ℚ) : Except WordsError Unit :=
  match offsets.argmin id, offsets.argmax id with
  | some lo, some hi =>
    if offsetNs lo < -base then .error (.precedes (-(offsetNs lo + base)))
    else if tocMaxNs - 1 - base < offsetNs hi then
      .error (.exceeds (offsetNs hi - (tocMaxNs - 1 - base)))
    else .ok ()
  | _, _ => .ok ()

/-- `internal`, in the arithmetic of `int64`. -/
def internal (base : ℤ) (offset : ℚ) : Int64 :=
  Int64.ofInt base + Int64.ofInt ⌊offset⌋ * 1000000000 + Int64.ofInt (fracNs offset)

def observationWords (k : TocKernels) (values : List (Option ℚ)) (epoch : Instant)
    (scale units : String) : Except WordsError (List UInt64) :=
  if scale ∉ tocSourceScales then .error (.scale scale)
  else
    match unitTable.lookup units with
    | none => .error (.units units)
    | some seconds => do
      let base ← internalNs k epoch
      let offsets ← finiteOffsets values seconds
      checkDomain base.toNat offsets
      k.time2toc (offsets.map fun offset => (internal base.toNat offset).toUInt64)

end Conversion

section Nanoseconds

/-- The two parts make up the nearest nanosecond of the whole offset. -/
theorem offsetNs_eq (offset : ℚ) : offsetNs offset = rint (offset * 1000000000) := by
  have hsplit : offset * 1000000000 =
      ((⌊offset⌋ * 1000000000 : ℤ) : ℚ) + (offset - ⌊offset⌋) * 1000000000 := by
    push_cast
    ring
  rw [hsplit, rint_add_even (by omega)]
  rfl

theorem offsetNs_mono {x y : ℚ} (h : x ≤ y) : offsetNs x ≤ offsetNs y := by
  rw [offsetNs_eq, offsetNs_eq]
  exact rint_mono (by linarith)

theorem fracNs_bounds (offset : ℚ) : 0 ≤ fracNs offset ∧ fracNs offset ≤ 1000000000 := by
  have hlo : (0 : ℚ) ≤ (offset - ⌊offset⌋) * 1000000000 := by
    have := Int.floor_le offset
    linarith
  have hhi : (offset - ⌊offset⌋) * 1000000000 ≤ ((1000000000 : ℤ) : ℚ) := by
    have := (Int.lt_floor_add_one offset).le
    push_cast
    linarith
  have h0 := rint_mono hlo
  have h1 := rint_mono hhi
  rw [show (0 : ℚ) = ((0 : ℤ) : ℚ) from rfl, Stats.rint_intCast] at h0
  rw [Stats.rint_intCast] at h1
  exact ⟨h0, h1⟩

/-- The least and the greatest value decide for the column. -/
theorem checkDomain_ok_iff {base : ℤ} {offsets : List ℚ} : checkDomain base offsets = .ok () ↔
    ∀ x ∈ offsets, 0 ≤ base + offsetNs x ∧ base + offsetNs x < tocMaxNs := by
  unfold checkDomain
  cases hlo : offsets.argmin id with
  | none =>
    rw [List.argmin_eq_none.mp hlo]
    exact iff_of_true rfl nofun
  | some lo =>
    cases hhi : offsets.argmax id with
    | none =>
      rw [List.argmax_eq_none.mp hhi]
      exact iff_of_true rfl nofun
    | some hi =>
      have hlo_mem := List.argmin_mem hlo
      have hhi_mem := List.argmax_mem hhi
      dsimp only
      split_ifs with hlow hhigh
      · exact iff_of_false nofun fun h => by have := (h lo hlo_mem).1; omega
      · exact iff_of_false nofun fun h => by have := (h hi hhi_mem).2; omega
      · refine iff_of_true rfl fun x hx => ?_
        have hge : offsetNs lo ≤ offsetNs x := offsetNs_mono (List.le_of_mem_argmin hx hlo)
        have hle : offsetNs x ≤ offsetNs hi := offsetNs_mono (List.le_of_mem_argmax hx hhi)
        exact ⟨by omega, by omega⟩

end Nanoseconds

section Machine

/-- A number of `int64`. -/
def Fits (z : ℤ) : Prop := -2 ^ 63 ≤ z ∧ z < 2 ^ 63

/-- Every number on the way to a word is in the range of its machine type. -/
structure NoOverflow (base : ℤ) (offset : ℚ) : Prop where
  base_fits : Fits base
  whole : Fits ⌊offset⌋
  wholeNs : Fits (⌊offset⌋ * 1000000000)
  frac : Fits (fracNs offset)
  sum : Fits (base + ⌊offset⌋ * 1000000000)
  internal : 0 ≤ base + offsetNs offset ∧ Fits (base + offsetNs offset)

theorem noOverflow_of_admitted {base : ℤ} {offset : ℚ} (hbase : 0 ≤ base ∧ base < tocMaxNs)
    (h : 0 ≤ base + offsetNs offset ∧ base + offsetNs offset < tocMaxNs) :
    NoOverflow base offset := by
  obtain ⟨hfrac, hfrac'⟩ := fracNs_bounds offset
  have hmax : (tocMaxNs : ℤ) = 9223372032559808512 := rfl
  rw [hmax] at hbase h
  simp only [offsetNs] at h
  constructor <;> simp only [Fits, offsetNs] <;> omega

theorem internal_toNat {base : ℤ} {offset : ℚ} (h : NoOverflow base offset) :
    ((internal base offset).toUInt64.toNat : ℤ) = base + offsetNs offset := by
  have hsum : internal base offset = Int64.ofInt (base + offsetNs offset) := by
    rw [offsetNs, ← add_assoc, Int64.ofInt_add, Int64.ofInt_add, Int64.ofInt_mul]
    rfl
  have htoInt : (Int64.ofInt (base + offsetNs offset)).toInt = base + offsetNs offset :=
    Int64.toInt_ofInt_of_le h.internal.2.1 h.internal.2.2
  have hpos : (0 : Int64) ≤ Int64.ofInt (base + offsetNs offset) := by
    rw [Int64.le_iff_toInt_le, htoInt]
    exact h.internal.1
  rw [hsum, Int64.toNat_toUInt64_of_le hpos, Int64.toNatClampNeg, htoInt]
  exact Int.toNat_of_nonneg h.internal.1

end Machine

section Column
variable {k : TocKernels} {values : List (Option ℚ)} {epoch : Instant} {scale units : String}
  {base : UInt64} {seconds : ℚ}

/-- A value of the column is finite and its nearest nanosecond `ns` is on the scale. -/
def Representable (base : UInt64) (seconds : ℚ) (value : Option ℚ) : Prop :=
  ∃ v, value = some v ∧ 0 ≤ base.toNat + rint (v * seconds * 1000000000) ∧
    base.toNat + rint (v * seconds * 1000000000) < tocMaxNs

theorem finiteOffsets_ok_iff {offsets : List ℚ} : finiteOffsets values seconds = .ok offsets ↔
    ∃ finite : List ℚ, values = finite.map some ∧ offsets = finite.map (· * seconds) := by
  unfold finiteOffsets
  cases h : values.mapM id with
  | none =>
    refine iff_of_false nofun fun ⟨finite, hvalues, _⟩ => ?_
    obtain ⟨value, hmem, hnone⟩ := exists_none_of_mapM h
    obtain ⟨v, -, rfl⟩ := List.mem_map.mp (hvalues ▸ hmem)
    cases hnone
  | some finite =>
    have hvalues : values = finite.map some := by
      have hpair := forall₂_of_mapM_some h
      clear h
      induction hpair with
      | nil => rfl
      | cons h _ ih => rw [List.map_cons, ← ih, ← h]; rfl
    constructor
    · intro hok
      exact ⟨finite, hvalues, (Except.ok.inj hok).symm⟩
    · intro ⟨finite', hvalues', hoffsets⟩
      have hsame : finite = finite' :=
        List.map_injective_iff.mpr (Option.some_injective ℚ) (hvalues.symm.trans hvalues')
      rw [hoffsets, hsame]

theorem none_of_finiteOffsets {err : WordsError}
    (h : finiteOffsets values seconds = .error err) : none ∈ values := by
  unfold finiteOffsets at h
  cases hvalues : values.mapM id with
  | none =>
    obtain ⟨value, hmem, hnone⟩ := exists_none_of_mapM hvalues
    exact hnone ▸ hmem
  | some finite =>
    rw [hvalues] at h
    cases h

theorem observationWords_eq (hscale : scale ∈ tocSourceScales)
    (hunits : unitTable.lookup units = some seconds) (hepoch : internalNs k epoch = .ok base) :
    observationWords k values epoch scale units =
      finiteOffsets values seconds >>= fun offsets => checkDomain base.toNat offsets >>= fun _ =>
        k.time2toc (offsets.map fun offset => (internal base.toNat offset).toUInt64) := by
  unfold observationWords
  rw [if_neg (not_not.mpr hscale), hunits, hepoch]
  rfl

/-- The check of the domain on the offsets is one on the column's values. -/
theorem representable_iff {finite : List ℚ} :
    checkDomain base.toNat (finite.map (· * seconds)) = .ok () ↔
      ∀ value ∈ finite.map some, Representable base seconds value := by
  rw [checkDomain_ok_iff, List.forall_mem_map, List.forall_mem_map]
  refine forall₂_congr fun v _ => ?_
  rw [offsetNs_eq]
  constructor
  · exact fun h => ⟨v, rfl, h⟩
  · intro ⟨v', hv, h⟩
    rwa [Option.some.inj hv]

/-- The exact instant of a value, in nanoseconds of the scale. -/
def exactNs (base : UInt64) (seconds v : ℚ) : ℚ := base.toNat + v * seconds * 1000000000

/-- Rounding gives the nearest whole number. -/
theorem rint_nearest (q : ℚ) (m : ℤ) : |q - rint q| ≤ |q - m| := by
  obtain ⟨hlo, hhi⟩ := rint_error q
  by_cases heq : m = rint q
  · rw [heq]
  · have hhalf : |q - rint q| ≤ 1 / 2 := abs_le.mpr ⟨by linarith, by linarith⟩
    have hapart : (1 : ℚ) ≤ |(rint q : ℚ) - m| := by
      have : (1 : ℤ) ≤ |rint q - m| := Int.one_le_abs (sub_ne_zero.mpr (Ne.symm heq))
      exact_mod_cast this
    have htriangle := abs_sub_abs_le_abs_sub ((rint q : ℚ) - m) (rint q - q)
    have hdiff : (rint q : ℚ) - m - (rint q - q) = q - m := by ring
    rw [hdiff, abs_sub_comm (rint q : ℚ) q] at htriangle
    linarith

/-- What is known of a value's word: it decodes to the nearest nanosecond of the exact instant, a
tie going to the even offset, and no number on the way left its machine type. -/
structure WordOf (k : TocKernels) (base : UInt64) (seconds v : ℚ) (word : UInt64) : Prop where
  instant : ∃ n : UInt64, k.toc2time word = (n, n) ∧
    (n.toNat : ℤ) = base.toNat + rint (v * seconds * 1000000000) ∧
    ∀ m : ℤ, |exactNs base seconds v - n.toNat| ≤ |exactNs base seconds v - m|
  noOverflow : NoOverflow base.toNat (v * seconds)

theorem wordOf_internal {v : ℚ} (hbase : base.toNat < tocMaxNs) {word : UInt64}
    (hv : Representable base seconds (some v))
    (hword : k.toc2time word =
      ((internal base.toNat (v * seconds)).toUInt64, (internal base.toNat (v * seconds)).toUInt64)) :
    WordOf k base seconds v word := by
  obtain ⟨v', hsome, hrange⟩ := hv
  rw [← Option.some.inj hsome, ← offsetNs_eq] at hrange
  have hno := noOverflow_of_admitted ⟨Int.natCast_nonneg _, by exact_mod_cast hbase⟩ hrange
  have hnat := internal_toNat hno
  rw [offsetNs_eq] at hnat
  refine ⟨⟨_, hword, hnat, fun m => ?_⟩, hno⟩
  have hcast : (((internal base.toNat (v * seconds)).toUInt64.toNat : ℤ) : ℚ) =
      base.toNat + rint (v * seconds * 1000000000) := by
    rw [hnat]
    push_cast
    rfl
  have hnearest := rint_nearest (v * seconds * 1000000000) (m - base.toNat)
  rw [Int.cast_natCast] at hcast
  rw [exactNs, hcast]
  push_cast at hnearest
  rw [add_sub_add_left_eq_sub]
  have hsame : (base.toNat : ℚ) + v * seconds * 1000000000 - m =
      v * seconds * 1000000000 - (m - base.toNat) := by ring
  rwa [hsame]

/-- A column is refused exactly when a value is not finite or its nearest nanosecond is not on the
scale; otherwise each value has the word of its nearest nanosecond. -/
theorem observationWords_nearest (hk : k.Lawful) (hscale : scale ∈ tocSourceScales)
    (hunits : unitTable.lookup units = some seconds) (hepoch : internalNs k epoch = .ok base)
    (values : List (Option ℚ)) :
    ((∃ err, observationWords k values epoch scale units = .error err) ↔
      ∃ value ∈ values, ¬Representable base seconds value) ∧
    ∀ words, observationWords k values epoch scale units = .ok words →
      List.Forall₂ (fun value word => ∃ v, value = some v ∧ WordOf k base seconds v word)
        values words := by
  have hbase : base.toNat < tocMaxNs := by
    unfold internalNs at hepoch
    split_ifs at hepoch
    exact hk.epoch_lt _ _ hepoch
  rw [observationWords_eq hscale hunits hepoch]
  cases hfinite : finiteOffsets values seconds with
  | error err =>
    have hnone : ¬Representable base seconds none := fun ⟨_, h, _⟩ => nomatch h
    exact ⟨iff_of_true ⟨err, rfl⟩ ⟨none, none_of_finiteOffsets hfinite, hnone⟩, nofun⟩
  | ok offsets =>
    obtain ⟨finite, rfl, rfl⟩ := finiteOffsets_ok_iff.mp hfinite
    cases hcheck : checkDomain base.toNat (finite.map (· * seconds)) with
    | error err =>
      refine ⟨iff_of_true ⟨err, by simp only [bind, Except.bind, hcheck]⟩ ?_, ?_⟩
      · by_contra hall
        have hok := representable_iff.mpr fun value hmem =>
          not_not.mp fun hn => hall ⟨value, hmem, hn⟩
        rw [hok] at hcheck
        cases hcheck
      · intro words h
        simp only [bind, Except.bind, hcheck] at h
        cases h
    | ok u =>
      have hall := representable_iff.mp hcheck
      have hlt : ∀ n ∈ (finite.map (· * seconds)).map
          fun offset => (internal base.toNat offset).toUInt64, n.toNat < tocMaxNs := by
        intro n hn
        obtain ⟨offset, hoffset, rfl⟩ := List.mem_map.mp hn
        have hrange := checkDomain_ok_iff.mp hcheck offset hoffset
        have hnat := internal_toNat (noOverflow_of_admitted
          ⟨Int.natCast_nonneg _, by exact_mod_cast hbase⟩ hrange)
        have hlt := hrange.2
        rw [← hnat] at hlt
        exact_mod_cast hlt
      obtain ⟨words, hwords, hdecode⟩ := hk.decodes _ hlt
      have hrun : (Except.ok (finite.map (· * seconds)) >>= fun offsets =>
          checkDomain base.toNat offsets >>= fun _ => k.time2toc (offsets.map fun offset =>
            (internal base.toNat offset).toUInt64)) = .ok words := by
        simp only [bind, Except.bind, hcheck]
        exact hwords
      rw [hrun]
      refine ⟨iff_of_false nofun fun ⟨value, hmem, hn⟩ => hn (hall value hmem), ?_⟩
      intro words' hsame
      obtain rfl := Except.ok.inj hsame
      rw [List.map_map, List.map_map, ← List.forall₂_eq_eq_eq, List.forall₂_map_left_iff,
        List.forall₂_map_right_iff] at hdecode
      rw [List.forall₂_map_left_iff]
      have hrepr : ∀ v ∈ finite, Representable base seconds (some v) := fun v hv =>
        hall _ (List.mem_map_of_mem hv)
      refine List.Forall₂.imp ?_ ((List.forall₂_and_left _ _).mpr ⟨hrepr, hdecode.flip⟩)
      exact fun v word h => ⟨v, rfl, wordOf_internal hbase h.1 h.2⟩

end Column

section Samples

/-- Nanoseconds since the scale's first instant, without leap seconds. -/
def sampleNs (t : Instant) : Nat :=
  (t.date.ordinal - tocEpoch.date.ordinal) * 86400000000000 + t.time * 1000

/-- Kernels that keep an instant as its own word. -/
def sampleKernels : TocKernels where
  fromDatetime64 t := if sampleNs t < tocMaxNs then .ok (.ofNat (sampleNs t)) else .error .kernel
  time2toc ns :=
    if ns.all fun n => n.toNat < tocMaxNs then .ok ns else .error .kernel
  toc2time word := (word, word)

theorem tocMaxNs_lt_size : tocMaxNs < UInt64.size := by decide

theorem sampleKernels_epoch {t : Instant} {base : UInt64}
    (h : sampleKernels.fromDatetime64 t = .ok base) : base.toNat < tocMaxNs := by
  unfold sampleKernels at h
  simp only at h
  split at h
  · next hlt =>
    rw [← Except.ok.inj h, UInt64.toNat_ofNat_of_lt' (Nat.lt_trans hlt tocMaxNs_lt_size)]
    exact hlt
  · cases h

theorem sampleKernels_lawful : sampleKernels.Lawful where
  epoch_lt _ _ h := sampleKernels_epoch h
  decodes ns h := by
    refine ⟨ns, ?_, rfl⟩
    have hall : (ns.all fun n => n.toNat < tocMaxNs) = true := by
      rw [List.all_eq_true]
      exact fun n hn => decide_eq_true (h n hn)
    unfold sampleKernels
    exact if_pos hall

/-- The epoch of the satellite's clock. -/
def gpsEpoch : Instant := .midnight ⟨1980, 1, 6, by decide⟩

theorem observationWords_nearest_gps :
    observationWords sampleKernels [some (3 / 2)] gpsEpoch "gps" "seconds" =
        .ok [4102790401500000000] ∧
      List.Forall₂ (fun value word => ∃ v, value = some v ∧
          WordOf sampleKernels 4102790400000000000 1 v word)
        [some (3 / 2)] [4102790401500000000] := by
  have hrun : observationWords sampleKernels [some (3 / 2)] gpsEpoch "gps" "seconds" =
      .ok [4102790401500000000] := by decide +kernel
  have hepoch : internalNs sampleKernels gpsEpoch = .ok 4102790400000000000 := by decide +kernel
  exact ⟨hrun, (observationWords_nearest sampleKernels_lawful (by decide) rfl hepoch _).2 _ hrun⟩

/-- An observation less than half a nanosecond before the scale begins is rounded onto it. -/
theorem observationWords_before_epoch :
    sampleKernels.Lawful ∧ internalNs sampleKernels tocEpoch = .ok 0 ∧
      exactNs 0 1 (-3 / 10000000000) < 0 ∧
      observationWords sampleKernels [some (-3 / 10000000000)] tocEpoch "gps" "seconds" = .ok [0] := by
  refine ⟨sampleKernels_lawful, ?_, ?_, ?_⟩
  · decide +kernel
  · decide +kernel
  · decide +kernel

end Samples

end Zagg.Windows
