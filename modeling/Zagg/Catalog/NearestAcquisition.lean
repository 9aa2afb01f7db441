import Mathlib.Data.Rat.Cast.Order
import Mathlib.Algebra.Order.Field.Rat
import Zagg.Lib.Nearest
import Zagg.Lib.Pointwise

/-!
# The nearest acquisition of an epoch

Instants are 64-bit patterns, read as signed nanoseconds; the least pattern is NaT. The flanks'
distances are differences of the patterns modulo 2^64, which are exact because a flank lies on
a known side, and a missing flank is farther than any two instants are apart.
-/
namespace Zagg.Catalog.Nearest

open Zagg.Lib

/-- A `datetime64[ns]` or `timedelta64[ns]`, as its bits. -/
abbrev Ns := BitVec 64

def naT : Ns := BitVec.intMin 64

/-- The `numpy.timedelta64` of a `max_time_offset`. -/
structure Timedeltas (Offset : Type) where
  isnat : Offset → Bool
  toNs : Offset → Ns
  roundTrips : Offset → Bool
  repr : Offset → String

section Code
variable {Offset : Type} (np : Timedeltas Offset)

/-- `_cap_ns`. -/
def capNs : Option Offset → Except String (Option Int)
  | none => .ok none
  | some offset =>
    let shown := np.repr offset
    if np.isnat offset then .error s!"max_time_offset must be a real duration (got {shown})"
    else if !np.roundTrips offset then
      .error ("max_time_offset does not convert exactly to nanoseconds " ++
        s!"(got {shown}; timedelta64[ns] spans ~292 years)")
    else if (np.toNs offset).toInt < 0 then
      .error s!"max_time_offset must be non-negative (got {shown})"
    else .ok (some (np.toNs offset).toInt)

/-- `NaT` is refused. -/
def refuseNaT (name : String) (arr : List Ns) : Except String Unit :=
  let count := arr.count naT
  let size := arr.length
  if naT ∈ arr then .error s!"{name} carries NaT ({count} of {size})" else .ok ()

def far : Ns := BitVec.allOnes 64

/-- `np.iinfo(np.int64).max`. -/
def int64Max : Ns := BitVec.intMax 64

section Epoch
variable (ts : List Ns) (e : Ns)

/-- `np.searchsorted(ts, e)`. -/
def pos : Nat := bisectLeft (ts.map BitVec.toInt) e.toInt

def left : Ns := if 0 < pos ts e then e - ts.getD (pos ts e - 1) 0 else far

def right : Ns :=
  if pos ts e < ts.length then ts.getD (min (pos ts e) (ts.length - 1)) 0 - e else far

def nearest : Nat :=
  if right ts e < left ts e then min (pos ts e) (ts.length - 1) else pos ts e - 1

/-- The start of the run of times equal to the nearest. -/
def runStart : Nat := pos ts (ts.getD (nearest ts e) 0)

def magnitude : Ns := if right ts e < left ts e then right ts e else left ts e

def offset : Ns :=
  let signed := if magnitude ts e ≤ int64Max then magnitude ts e else int64Max
  if magnitude ts e ≤ int64Max then if right ts e < left ts e then signed else -signed else naT

def selection (cap : Option Int) (order : List Nat) : Int :=
  match cap with
  | none => order.getD (runStart ts e) 0
  | some cap => if magnitude ts e ≤ BitVec.ofInt 64 cap then order.getD (runStart ts e) 0 else -1

end Epoch

/-- `nearest_acquisitions`. -/
def nearestAcquisitions (epochs times : List Ns) (maxTimeOffset : Option Offset) :
    Except String (List Int × List Ns) := do
  refuseNaT "epochs" epochs
  refuseNaT "times" times
  let cap ← capNs np maxTimeOffset
  if epochs.length = 0 ∨ times.length = 0 then
    return (epochs.map fun _ => -1, epochs.map fun _ => naT)
  let order := argsort (times.map BitVec.toInt)
  let ts := gather times order
  return (epochs.map fun e => selection ts e cap order, epochs.map (offset ts))

end Code

/-- What the code relies on: a duration that survives the way to nanoseconds and back is that
many nanoseconds long. -/
def Timedeltas.Exact {Offset : Type} (np : Timedeltas Offset) (duration : Offset → ℚ) : Prop :=
  ∀ o, np.isnat o = false → np.roundTrips o = true → ((np.toNs o).toInt : ℚ) = duration o

/-- The nanoseconds between two instants. -/
def distance (t e : Ns) : Nat := (t.toInt - e.toInt).natAbs

/-- The nearest time; of those as near the earlier, and of equal times the first. -/
structure NearestAt (times : List Ns) (e : Ns) (i : Nat) (t : Ns) : Prop where
  get : times[i]? = some t
  least : ∀ k t', times[k]? = some t' → distance t e < distance t' e ∨
    distance t e = distance t' e ∧ (t.toInt < t'.toInt ∨ t = t' ∧ i ≤ k)

/-- A number of nanoseconds that a `timedelta64[ns]` holds. -/
def Representable (d : Int) : Prop := -2 ^ 63 < d ∧ d < 2 ^ 63

/-- The answer for one epoch. -/
structure Answer {Offset : Type} (duration : Offset → ℚ) (times : List Ns)
    (maxTimeOffset : Option Offset) (e : Ns) (s : Int) (o : Ns) : Prop where
  empty : times = [] → s = -1 ∧ o = naT
  nearest : times ≠ [] → ∃ i t, NearestAt times e i t ∧ (s = i ∨ s = -1) ∧
    (s = -1 ↔ ∃ cap, maxTimeOffset = some cap ∧ duration cap < distance t e) ∧
    (Representable (t.toInt - e.toInt) → o ≠ naT ∧ o.toInt = t.toInt - e.toInt) ∧
    (¬Representable (t.toInt - e.toInt) → o = naT)

section Gaps
variable {ts : List Ns} {e : Ns}

theorem toInt_getD {i : Nat} : (ts.getD i 0).toInt = (ts.map BitVec.toInt).getD i 0 := by
  rw [List.getD_eq_getElem?_getD, List.getD_eq_getElem?_getD, List.getElem?_map]
  cases ts[i]? <;> rfl

theorem toNat_far : far.toNat = 2 ^ 64 - 1 := by decide

/-- A difference of patterns is the difference of the instants, once its sign is known. -/
theorem toNat_sub_of_le {a b : Ns} (h : b.toInt ≤ a.toInt) : (a - b).toNat = (a.toInt - b.toInt).toNat := by
  have ha := a.isLt
  have hb := b.isLt
  rw [BitVec.toNat_sub]
  rw [BitVec.toInt_eq_toNat_cond, BitVec.toInt_eq_toNat_cond] at h ⊢
  split_ifs at h ⊢ <;> omega

theorem toNat_left : (left ts e).toNat = leftGap (2 ^ 64 - 1) (ts.map BitVec.toInt) e.toInt := by
  unfold left leftGap
  rw [pos]
  split_ifs with hpos
  · obtain ⟨-, hlt⟩ := left_flank hpos
    rw [← toInt_getD] at hlt ⊢
    exact toNat_sub_of_le hlt.le
  · exact toNat_far

theorem toNat_right : (right ts e).toNat = rightGap (2 ^ 64 - 1) (ts.map BitVec.toInt) e.toInt := by
  unfold right rightGap
  rw [pos, List.length_map]
  split_ifs with hpos
  · have hmin : min (bisectLeft (ts.map BitVec.toInt) e.toInt) (ts.length - 1) =
        bisectLeft (ts.map BitVec.toInt) e.toInt := by omega
    have hflank : bisectLeft (ts.map BitVec.toInt) e.toInt < (ts.map BitVec.toInt).length := by
      rwa [List.length_map]
    obtain ⟨-, hle⟩ := right_flank hflank
    rw [hmin]
    rw [← toInt_getD] at hle ⊢
    exact toNat_sub_of_le hle
  · exact toNat_far

end Gaps

section Instants
variable {t e : Ns}

theorem lt_toInt_of_ne_naT (h : e ≠ naT) : -2 ^ 63 < e.toInt := by
  have hle : -2 ^ 63 ≤ e.toInt := BitVec.le_toInt e
  apply lt_of_le_of_ne hle
  intro heq
  exact h (BitVec.eq_of_toInt_eq heq.symm)

theorem distance_lt_far (ht : t ≠ naT) (he : e ≠ naT) : (t.toInt - e.toInt).natAbs < 2 ^ 64 - 1 := by
  have ht' := lt_toInt_of_ne_naT ht
  have he' := lt_toInt_of_ne_naT he
  have htt : t.toInt < 2 ^ 63 := BitVec.toInt_lt
  have hee : e.toInt < 2 ^ 63 := BitVec.toInt_lt
  omega

/-- A small pattern is its own number, and its negation the opposite one. -/
theorem toInt_of_le_int64Max (h : e ≤ int64Max) :
    e.toInt = e.toNat ∧ (-e).toInt = -(e.toNat : Int) := by
  have hle : e.toNat ≤ 2 ^ 63 - 1 := h
  have hpos : e.toInt = e.toNat := by
    rw [BitVec.toInt_eq_toNat_cond, if_pos (by omega)]
  refine ⟨hpos, ?_⟩
  rw [BitVec.toInt_neg_of_ne_intMin, hpos]
  rintro rfl
  exact absurd h (by decide)

end Instants

section Epoch
variable {times : List Ns} {e : Ns}

/-- The times in the order of their stable sort. -/
def sortedTimes (times : List Ns) : List Ns := gather times (argsort (times.map BitVec.toInt))

theorem map_sortedTimes (times : List Ns) :
    (sortedTimes times).map BitVec.toInt = sortedKeys (times.map BitVec.toInt) := by
  rw [← gather_argsort, sortedTimes, gather, gather, List.map_filterMap]
  apply List.filterMap_congr
  intro i _
  rw [List.getElem?_map]

/-- The nearest time and its signed distance. -/
theorem nearest_spec (htimes : naT ∉ times) (he : e ≠ naT) (hne : times ≠ []) :
    let ts := sortedTimes times
    let v := (ts.getD (nearest ts e) 0).toInt
    v ∈ times.map BitVec.toInt ∧ IsNearest (times.map BitVec.toInt) e.toInt v ∧
      v - e.toInt = if right ts e < left ts e then ((magnitude ts e).toNat : Int)
        else -((magnitude ts e).toNat : Int) := by
  intro ts v
  have hmap : ts.map BitVec.toInt = sortedKeys (times.map BitVec.toInt) := map_sortedTimes times
  have hperm : (ts.map BitVec.toInt).Perm (times.map BitVec.toInt) := hmap ▸ perm_sortedKeys _
  have hsorted : (ts.map BitVec.toInt).Pairwise (· ≤ ·) := hmap ▸ pairwise_sortedKeys _
  have hts : ts.map BitVec.toInt ≠ [] := by
    intro hnil
    rw [hnil] at hperm
    exact hne (List.map_eq_nil_iff.mp hperm.nil_eq.symm)
  have hfar : ∀ x ∈ ts.map BitVec.toInt, (x - e.toInt).natAbs < 2 ^ 64 - 1 := by
    intro x hx
    obtain ⟨t, ht, rfl⟩ := List.mem_map.mp (hperm.mem_iff.mp hx)
    exact distance_lt_far (fun hnat => htimes (hnat ▸ ht)) he
  have hlt : right ts e < left ts e ↔
      rightGap (2 ^ 64 - 1) (ts.map BitVec.toInt) e.toInt <
        leftGap (2 ^ 64 - 1) (ts.map BitVec.toInt) e.toInt := by
    rw [← toNat_left, ← toNat_right]
    rfl
  have hnear : ∀ w, IsNearest (ts.map BitVec.toInt) e.toInt w →
      IsNearest (times.map BitVec.toInt) e.toInt w := fun w h x hx => h x (hperm.mem_iff.mpr hx)
  have hv : v = (ts.map BitVec.toInt).getD (nearest ts e) 0 := toInt_getD
  by_cases hright : right ts e < left ts e
  · obtain ⟨hlen, hgap, hnearest⟩ := right_nearest hsorted hfar (hlt.mp hright)
    have hmin : nearest ts e = bisectLeft (ts.map BitVec.toInt) e.toInt := by
      rw [List.length_map] at hlen
      rw [nearest, if_pos hright, pos]
      omega
    rw [hv, hmin, if_pos hright, magnitude, if_pos hright, toNat_right]
    exact ⟨hperm.mem_iff.mp (right_flank hlen).1, hnear _ hnearest, hgap⟩
  · obtain ⟨hpos, hgap, hnearest⟩ := left_nearest hsorted hts hfar (hlt.not.mp hright)
    have hpred : nearest ts e = bisectLeft (ts.map BitVec.toInt) e.toInt - 1 := by
      rw [nearest, if_neg hright, pos]
    rw [hv, hpred, if_neg hright, magnitude, if_neg hright, toNat_left]
    exact ⟨hperm.mem_iff.mp (left_flank hpos).1, hnear _ hnearest, hgap⟩

/-- The run start leads to the first of the nearest times. -/
theorem runStart_spec (htimes : naT ∉ times) (he : e ≠ naT) (hne : times ≠ []) :
    ∃ i t, (argsort (times.map BitVec.toInt)).getD (runStart (sortedTimes times) e) 0 = i ∧
      NearestAt times e i t ∧
      t = (sortedTimes times).getD (nearest (sortedTimes times) e) 0 := by
  obtain ⟨hmem, hnearest, -⟩ := nearest_spec htimes he hne
  obtain ⟨i, hi, hat, hfirst⟩ := argsort_bisectLeft hmem
  have hkey : ∀ (k : Nat) (t' : Ns), times[k]? = some t' → (times.map BitVec.toInt)[k]? = some t'.toInt := by
    intro k t' hk
    rw [List.getElem?_map, hk]
    rfl
  rw [List.getElem?_map] at hat
  obtain ⟨t, ht, hval⟩ := Option.map_eq_some_iff.mp hat
  have hlit := BitVec.eq_of_toInt_eq hval
  refine ⟨i, t, ?_, ⟨ht, fun k t' hk => ?_⟩, hlit⟩
  · rw [runStart, pos, map_sortedTimes, List.getD_eq_getElem?_getD, hi]
    rfl
  · have hmem' : t'.toInt ∈ times.map BitVec.toInt := List.mem_of_getElem? (hkey k t' hk)
    rcases hnearest _ hmem' with hlt | ⟨heq, hle⟩
    · rw [← hval] at hlt
      exact .inl hlt
    · rw [← hval] at heq hle
      refine .inr ⟨heq, ?_⟩
      rcases lt_or_eq_of_le hle with hlt | hsame
      · exact .inl hlt
      · obtain rfl := BitVec.eq_of_toInt_eq hsame
        exact .inr ⟨rfl, hfirst k (hval ▸ hkey k t hk)⟩

theorem toNat_magnitude (htimes : naT ∉ times) (he : e ≠ naT) (hne : times ≠ []) :
    (magnitude (sortedTimes times) e).toNat =
      distance ((sortedTimes times).getD (nearest (sortedTimes times) e) 0) e := by
  obtain ⟨-, -, hgap⟩ := nearest_spec htimes he hne
  rw [distance]
  split_ifs at hgap <;> omega

theorem offset_spec (htimes : naT ∉ times) (he : e ≠ naT) (hne : times ≠ []) :
    let d := ((sortedTimes times).getD (nearest (sortedTimes times) e) 0).toInt - e.toInt
    let o := offset (sortedTimes times) e
    (Representable d → o ≠ naT ∧ o.toInt = d) ∧ (¬Representable d → o = naT) := by
  intro d o
  obtain ⟨-, -, hgap⟩ := nearest_spec htimes he hne
  have hd : d = if right (sortedTimes times) e < left (sortedTimes times) e
      then ((magnitude (sortedTimes times) e).toNat : Int)
      else -((magnitude (sortedTimes times) e).toNat : Int) := hgap
  have hfits : magnitude (sortedTimes times) e ≤ int64Max ↔ Representable d := by
    have hle : magnitude (sortedTimes times) e ≤ int64Max ↔
        (magnitude (sortedTimes times) e).toNat ≤ 2 ^ 63 - 1 := Iff.rfl
    rw [hle, hd, Representable]
    split_ifs <;> omega
  constructor
  · intro hrep
    have hmag := hfits.mpr hrep
    obtain ⟨hposi, hnegi⟩ := toInt_of_le_int64Max hmag
    have htoInt : o.toInt = d := by
      show (offset _ e).toInt = d
      rw [offset, if_pos hmag, if_pos hmag, hd]
      split_ifs
      · exact hposi
      · exact hnegi
    refine ⟨?_, htoInt⟩
    intro hnat
    have hmin : naT.toInt = -2 ^ 63 := by decide
    rw [hnat, hmin] at htoInt
    exact absurd hrep.1 (by omega)
  · intro hrep
    show offset _ e = naT
    rw [offset, if_neg (hfits.not.mpr hrep)]

end Epoch
section Cap

theorem selection_none (ts : List Ns) (e : Ns) (order : List Nat) :
    selection ts e none order = order.getD (runStart ts e) 0 := rfl

theorem selection_some (ts : List Ns) (e : Ns) (cap : Int) (order : List Nat) :
    selection ts e (some cap) order =
      if magnitude ts e ≤ BitVec.ofInt 64 cap then (order.getD (runStart ts e) 0 : Int) else -1 := rfl

variable {Offset : Type} {np : Timedeltas Offset} {duration : Offset → ℚ}

theorem refuseNaT_ok {name : String} {arr : List Ns} (h : naT ∉ arr) : refuseNaT name arr = .ok () := by
  rw [refuseNaT, if_neg h]

/-- A cap that is accepted is the pattern of its duration. -/
theorem capNs_spec (hnp : np.Exact duration) {maxTimeOffset : Option Offset} {cap : Option Int}
    (h : capNs np maxTimeOffset = .ok cap) :
    (maxTimeOffset = none ∧ cap = none) ∨ ∃ o, maxTimeOffset = some o ∧
      cap = some (np.toNs o).toInt ∧ 0 ≤ (np.toNs o).toInt ∧ ((np.toNs o).toInt : ℚ) = duration o := by
  cases maxTimeOffset with
  | none => exact .inl ⟨rfl, (Except.ok.inj h).symm⟩
  | some o =>
    rw [capNs] at h
    split_ifs at h with hnat htrip hneg
    · refine .inr ⟨o, rfl, (Except.ok.inj h).symm, not_lt.mp hneg, hnp o ?_ ?_⟩
      · simpa using hnat
      · simpa using htrip

theorem le_ofInt_iff {m c : Ns} (h : 0 ≤ c.toInt) : m ≤ BitVec.ofInt 64 c.toInt ↔ (m.toNat : Int) ≤ c.toInt := by
  have hc : (c.toNat : Int) = c.toInt := by
    rw [BitVec.toInt_eq_toNat_cond] at h ⊢
    split_ifs at h ⊢
    · rfl
    · have hlt := c.isLt
      omega
  rw [BitVec.ofInt_toInt, ← hc, BitVec.le_def]
  exact Nat.cast_le.symm

/-- The answer where there is an acquisition. -/
theorem answer_spec (hnp : np.Exact duration) {times : List Ns} (htimes : naT ∉ times)
    {maxTimeOffset : Option Offset} {cap : Option Int} (hcap : capNs np maxTimeOffset = .ok cap)
    {e : Ns} (he : e ≠ naT) (hne : times ≠ []) : Answer duration times maxTimeOffset e
      (selection (sortedTimes times) e cap (argsort (times.map BitVec.toInt)))
      (offset (sortedTimes times) e) := by
  refine ⟨fun hnil => absurd hnil hne, fun _ => ?_⟩
  obtain ⟨i, t, hi, hat, ht⟩ := runStart_spec htimes he hne
  obtain ⟨hfits, hover⟩ := offset_spec htimes he hne
  have hmag := toNat_magnitude htimes he hne
  rw [← ht] at hfits hover hmag
  rcases capNs_spec hnp hcap with ⟨rfl, rfl⟩ | ⟨o, rfl, rfl, hpos, hexact⟩
  · rw [selection_none, hi]
    refine ⟨i, t, hat, .inl rfl, ?_, hfits, hover⟩
    constructor
    · intro hneg
      omega
    · rintro ⟨c, hc, -⟩
      cases hc
  · have hle := le_ofInt_iff (m := magnitude (sortedTimes times) e) hpos
    have hbeyond : (∃ c, some o = some c ∧ duration c < distance t e) ↔
        ¬((distance t e : Int) ≤ (np.toNs o).toInt) := by
      rw [not_le]
      constructor
      · rintro ⟨c, hc, hlt⟩
        obtain rfl := Option.some.inj hc
        rw [← hexact] at hlt
        exact_mod_cast hlt
      · intro hlt
        refine ⟨o, rfl, ?_⟩
        rw [← hexact]
        exact_mod_cast hlt
    rw [hmag] at hle
    rw [selection_some, hi]
    refine ⟨i, t, hat, ?_, ?_, hfits, hover⟩
    · split_ifs
      · exact .inl rfl
      · exact .inr rfl
    · rw [hbeyond, ← hle]
      by_cases hsel : magnitude (sortedTimes times) e ≤ BitVec.ofInt 64 (np.toNs o).toInt
      · rw [if_pos hsel]
        constructor
        · intro hneg
          omega
        · exact fun hnot => absurd hsel hnot
      · rw [if_neg hsel]
        exact ⟨fun _ => hsel, fun _ => rfl⟩

end Cap

section Sample

/-- Durations in seconds or nanoseconds. -/
inductive Duration where
  | s (count : Ns)
  | ns (count : Ns)

def Duration.toNs : Duration → Ns
  | .s count => count * 1000000000
  | .ns count => count

def Duration.exact : Duration → ℚ
  | .s count => count.toInt * 1000000000
  | .ns count => count.toInt

/-- `numpy.timedelta64` on such durations. -/
def durations : Timedeltas Duration where
  isnat
    | .s count => count == naT
    | .ns count => count == naT
  toNs := Duration.toNs
  roundTrips
    | .s count => (count * 1000000000).toInt / 1000000000 == count.toInt
    | .ns _ => true
  repr _ := "timedelta64"

theorem durations_exact : durations.Exact Duration.exact := by
  intro o hnat htrip
  cases o with
  | ns count => rfl
  | s count =>
    have hback : (count * 1000000000).toInt / 1000000000 = count.toInt := by simpa [durations] using htrip
    have hmod : (count * 1000000000).toInt = (count.toInt * 1000000000).bmod (2 ^ 64) :=
      BitVec.toInt_mul _ _
    have hwrap := Int.bmod_add_bdiv (count.toInt * 1000000000) (2 ^ 64)
    rw [← hmod] at hwrap
    have hsame : (count * 1000000000).toInt = count.toInt * 1000000000 := by
      have hlow := Int.ediv_mul_le (count * 1000000000).toInt (by decide : (1000000000 : Int) ≠ 0)
      have hhigh := Int.lt_ediv_add_one_mul_self (count * 1000000000).toInt (by decide : (0 : Int) < 1000000000)
      rw [hback] at hlow hhigh
      omega
    show (((count * 1000000000).toInt : Int) : ℚ) = (count.toInt : ℚ) * 1000000000
    rw [hsame]
    exact_mod_cast rfl

end Sample

/-- The whole call: an answer for each epoch. -/
theorem nearestAcquisitions_spec {Offset : Type} {np : Timedeltas Offset} {duration : Offset → ℚ}
    (hnp : np.Exact duration) {epochs times : List Ns} (hepochs : naT ∉ epochs) (htimes : naT ∉ times)
    {maxTimeOffset : Option Offset} {cap : Option Int} (hcap : capNs np maxTimeOffset = .ok cap) :
    ∃ (s : Ns → Int) (o : Ns → Ns),
      nearestAcquisitions np epochs times maxTimeOffset = .ok (epochs.map s, epochs.map o) ∧
      ∀ e ∈ epochs, Answer duration times maxTimeOffset e (s e) (o e) := by
  have hrun : nearestAcquisitions np epochs times maxTimeOffset =
      if epochs.length = 0 ∨ times.length = 0 then
        .ok (epochs.map fun _ => -1, epochs.map fun _ => naT)
      else .ok (epochs.map fun e => selection (sortedTimes times) e cap (argsort (times.map BitVec.toInt)),
        epochs.map (offset (sortedTimes times))) := by
    rw [nearestAcquisitions, refuseNaT_ok hepochs, refuseNaT_ok htimes, hcap]
    split_ifs <;> rfl
  rw [hrun]
  by_cases hempty : epochs.length = 0 ∨ times.length = 0
  · rw [if_pos hempty]
    refine ⟨_, _, rfl, fun e he => ?_⟩
    have hnone : times = [] := by
      rcases hempty with hzero | hzero
      · rw [List.eq_nil_of_length_eq_zero hzero] at he
        cases he
      · exact List.eq_nil_of_length_eq_zero hzero
    exact ⟨fun _ => ⟨rfl, rfl⟩, fun hne => absurd hnone hne⟩
  · rw [if_neg hempty]
    have hne : times ≠ [] := fun hnil => hempty (.inr (by rw [hnil]; rfl))
    exact ⟨_, _, rfl, fun e he => answer_spec hnp htimes hcap (fun hnat => hepochs (hnat ▸ he)) hne⟩

/-- What the call needs to return. -/
theorem naT_notMem_of_ok {Offset : Type} {np : Timedeltas Offset} {epochs times : List Ns}
    {maxTimeOffset : Option Offset} {r : List Int × List Ns}
    (h : nearestAcquisitions np epochs times maxTimeOffset = .ok r) : naT ∉ times := by
  intro hmem
  rw [nearestAcquisitions] at h
  obtain ⟨_, -, h⟩ := bind_ok h
  obtain ⟨_, htimes, -⟩ := bind_ok h
  rw [refuseNaT, if_pos hmem] at htimes
  cases htimes

/-- Each epoch gets the nearest time, or nothing beyond the cap, and the exact offset where a
`timedelta64[ns]` can hold it. -/
theorem nearest_acquisitions_exact {Offset : Type} {np : Timedeltas Offset} {duration : Offset → ℚ}
    (hnp : np.Exact duration) {epochs times : List Ns} (hepochs : naT ∉ epochs) (htimes : naT ∉ times)
    {maxTimeOffset : Option Offset} {cap : Option Int} (hcap : capNs np maxTimeOffset = .ok cap) :
    ∃ sel offs, nearestAcquisitions np epochs times maxTimeOffset = .ok (sel, offs) ∧
      sel.length = epochs.length ∧ offs.length = epochs.length ∧
      ∀ (j : Nat) e, epochs[j]? = some e → ∃ s o, sel[j]? = some s ∧ offs[j]? = some o ∧
        Answer duration times maxTimeOffset e s o := by
  obtain ⟨s, o, hrun, hanswer⟩ := nearestAcquisitions_spec hnp hepochs htimes hcap
  refine ⟨_, _, hrun, List.length_map .., List.length_map .., fun j e hj => ?_⟩
  rw [List.getElem?_map, List.getElem?_map, hj]
  exact ⟨s e, o e, rfl, rfl, hanswer e (List.mem_of_getElem? hj)⟩

theorem nearest_acquisitions_exact_twoTimes :
    ∃ sel offs, nearestAcquisitions durations [4, 9000000000] [7, 1, 7] (some (.s 1)) = .ok (sel, offs) ∧
      sel.length = [(4 : Ns), 9000000000].length ∧ offs.length = [(4 : Ns), 9000000000].length ∧
      ∀ (j : Nat) e, [(4 : Ns), 9000000000][j]? = some e → ∃ s o, sel[j]? = some s ∧ offs[j]? = some o ∧
        Answer Duration.exact [7, 1, 7] (some (.s 1)) e s o :=
  have hcap : capNs durations (some (.s 1)) = .ok (some 1000000000) := rfl
  nearest_acquisitions_exact durations_exact (by decide) (by decide) hcap

/-- A difference of -2^63 fits an `int64` and is reported as NaT. -/
theorem nearest_acquisitions_least_offset :
    nearestAcquisitions durations [4611686018427387904] [-4611686018427387904] none = .ok ([0], [naT]) ∧
      (-4611686018427387904 : Ns).toInt - (4611686018427387904 : Ns).toInt = -2 ^ 63 := by
  constructor
  · rfl
  · decide

end Zagg.Catalog.Nearest
