import Zagg.Lib.Interp
import Zagg.Stats.Quantile

/-!
# Reading cumulative weights

`cdf_from_tdigest` places every centroid at the middle of its own span of cumulative weight and
interpolates between the means. It starts at 0 below the first mean and ends at the total weight
above the last; at the last mean itself half of the last centroid is still missing, except that a
single centroid is a step.
-/
namespace Zagg.Stats

open Zagg.Lib

/-- `cum_center`: the cumulative weight at each centroid's middle. -/
def cumCenter (digest : Digest) : List ℚ :=
  let weights := digest.map Centroid.weight
  List.zipWith (fun upper weight => upper - weight / 2) (cumsum weights) weights

/-- The estimate for a digest with a centroid. -/
def cdfAt (digest : Digest) (x : ℚ) : ℚ :=
  match digest with
  | [c] => if c.mean ≤ x then totalWeight [c] else 0
  | digest => interp 0 (totalWeight digest) x ((digest.map Centroid.mean).zip (cumCenter digest))

/-- `cdf_from_tdigest`; `none` is the NaN of an empty digest. -/
def cdfFromTdigest (digest : Digest) (x : ℚ) : Option ℚ :=
  if digest = [] then none else some (cdfAt digest x)

section Points

/-- The points of the polygon, from a cumulative weight on. -/
def pointsFrom (acc : ℚ) : Digest → List (ℚ × ℚ)
  | [] => []
  | c :: cs => (c.mean, acc + c.weight / 2) :: pointsFrom (acc + c.weight) cs

theorem zip_cumCenter (digest : Digest) :
    (digest.map Centroid.mean).zip (cumCenter digest) = pointsFrom 0 digest := by
  have hscan : ∀ (acc : ℚ) (cs : Digest),
      (cs.map Centroid.mean).zip (List.zipWith (fun upper weight => upper - weight / 2)
        (((cs.map Centroid.weight).scanl (· + ·) acc).tail) (cs.map Centroid.weight)) =
        pointsFrom acc cs := by
    intro acc cs
    induction cs generalizing acc with
    | nil => rfl
    | cons c cs ih =>
      rw [pointsFrom, ← ih (acc + c.weight)]
      have hhalf : acc + c.weight / 2 = acc + c.weight - c.weight / 2 := by ring
      have hhead : (cs.map Centroid.weight).scanl (· + ·) (acc + c.weight) = (acc + c.weight) ::
          ((cs.map Centroid.weight).scanl (· + ·) (acc + c.weight)).tail := by
        cases cs <;> simp
      simp only [List.map_cons, List.scanl_cons, List.tail_cons]
      rw [hhalf, hhead]
      rfl
  exact hscan 0 digest

variable {acc : ℚ} {cs : Digest}

theorem pointsFrom_ne_nil (h : cs ≠ []) : pointsFrom acc cs ≠ [] := by
  cases cs with
  | nil => exact absurd rfl h
  | cons c cs => exact List.cons_ne_nil _ _

/-- A point stands for a centroid, at least half its weight above the start and below the end. -/
theorem mem_pointsFrom (hpos : ∀ c ∈ cs, 0 < c.weight) {p : ℚ × ℚ} (hp : p ∈ pointsFrom acc cs) :
    ∃ c ∈ cs, p.1 = c.mean ∧ acc + c.weight / 2 ≤ p.2 ∧
      p.2 + c.weight / 2 ≤ acc + totalWeight cs := by
  induction cs generalizing acc with
  | nil => cases hp
  | cons d cs ih =>
    have hd := hpos d (.head _)
    have hrest : 0 ≤ totalWeight cs :=
      List.sum_nonneg fun w hw => by
        obtain ⟨c, hc, rfl⟩ := List.mem_map.mp hw
        exact (hpos c (.tail _ hc)).le
    have htotal : totalWeight (d :: cs) = d.weight + totalWeight cs := totalWeight_cons d cs
    rcases List.mem_cons.mp hp with rfl | hp
    · refine ⟨d, .head _, rfl, le_rfl, ?_⟩
      dsimp only
      linarith
    · obtain ⟨c, hc, hmean, hlow, hhigh⟩ := ih (fun c hc => hpos c (.tail _ hc)) hp
      refine ⟨c, .tail _ hc, hmean, ?_, ?_⟩
      · linarith
      · linarith

theorem ascends_pointsFrom (hsorted : cs.Pairwise fun c d => c.mean ≤ d.mean)
    (hpos : ∀ c ∈ cs, 0 < c.weight) : Ascends (pointsFrom acc cs) := by
  induction cs generalizing acc with
  | nil => exact .nil
  | cons c cs ih =>
    have hc := hpos c (.head _)
    apply List.pairwise_cons.mpr
    refine ⟨fun p hp => ?_, ih hsorted.of_cons fun d hd => hpos d (.tail _ hd)⟩
    obtain ⟨d, hd, hmean, hlow, -⟩ := mem_pointsFrom (fun d hd => hpos d (.tail _ hd)) hp
    have hd' := hpos d (.tail _ hd)
    constructor
    · rw [hmean]
      exact List.rel_of_pairwise_cons hsorted hd
    · show acc + c.weight / 2 ≤ p.2
      linarith

/-- The last point is half the last weight below the total. -/
theorem getLast?_pointsFrom (acc : ℚ) {c : Centroid} (h : cs.getLast? = some c) :
    (pointsFrom acc cs).getLast? = some (c.mean, acc + totalWeight cs - c.weight / 2) := by
  induction cs generalizing acc with
  | nil => cases h
  | cons d cs ih =>
    rw [totalWeight_cons]
    cases cs with
    | nil =>
      obtain rfl : d = c := Option.some.inj h
      have hhalf : acc + (d.weight + totalWeight []) - d.weight / 2 = acc + d.weight / 2 := by
        rw [show totalWeight [] = 0 from rfl]
        ring
      rw [hhalf]
      rfl
    | cons e cs =>
      rw [List.getLast?_cons_cons] at h
      have hlast := ih (acc + d.weight) h
      rw [pointsFrom, pointsFrom, List.getLast?_cons_cons, ← pointsFrom, hlast, add_assoc]

end Points

section Laws
variable {digest : Digest}

/-- Two centroids or more are interpolated. -/
theorem cdfAt_many {c d : Centroid} {cs : Digest} (x : ℚ) :
    cdfAt (c :: d :: cs) x =
      interp 0 (totalWeight (c :: d :: cs)) x (pointsFrom 0 (c :: d :: cs)) := by
  rw [← zip_cumCenter]
  rfl

theorem totalWeight_nonneg (hpos : ∀ c ∈ digest, 0 < c.weight) : 0 ≤ totalWeight digest := by
  apply List.sum_nonneg
  intro w hw
  obtain ⟨c, hc, rfl⟩ := List.mem_map.mp hw
  exact (hpos c hc).le

theorem points_bounds (hpos : ∀ c ∈ digest, 0 < c.weight) {p : ℚ × ℚ}
    (hp : p ∈ pointsFrom 0 digest) : 0 ≤ p.2 ∧ p.2 ≤ totalWeight digest := by
  obtain ⟨c, hc, -, hlow, hhigh⟩ := mem_pointsFrom hpos hp
  have hc' := hpos c hc
  constructor <;> linarith

theorem cdfAt_mono (hsorted : digest.Pairwise fun c d => c.mean ≤ d.mean)
    (hpos : ∀ c ∈ digest, 0 < c.weight) : Monotone (cdfAt digest) := by
  intro x y hxy
  have htotal := totalWeight_nonneg hpos
  match digest with
  | [] => exact le_rfl
  | [c] =>
    rw [cdfAt, cdfAt]
    split_ifs with hx hy
    · exact le_rfl
    · exact absurd (hx.trans hxy) hy
    · exact htotal
    · exact le_rfl
  | c :: d :: cs =>
    rw [cdfAt_many, cdfAt_many]
    exact interp_mono (ascends_pointsFrom hsorted hpos) (fun p hp => (points_bounds hpos hp).1)
      (fun p hp => (points_bounds hpos hp).2) htotal hxy

theorem cdfAt_bounds (hsorted : digest.Pairwise fun c d => c.mean ≤ d.mean)
    (hpos : ∀ c ∈ digest, 0 < c.weight) (hne : digest ≠ []) (x : ℚ) :
    0 ≤ cdfAt digest x ∧ cdfAt digest x ≤ totalWeight digest := by
  have htotal := totalWeight_nonneg hpos
  match digest with
  | [] => exact absurd rfl hne
  | [c] =>
    rw [cdfAt]
    split_ifs
    · exact ⟨htotal, le_rfl⟩
    · exact ⟨le_rfl, htotal⟩
  | c :: d :: cs =>
    rw [cdfAt_many]
    exact interp_bounds (ascends_pointsFrom hsorted hpos) (fun p hp => (points_bounds hpos hp).1)
      (fun p hp => (points_bounds hpos hp).2) htotal

theorem cdfAt_below (hpos : ∀ c ∈ digest, 0 < c.weight) {x : ℚ} (hx : ∀ c ∈ digest, x < c.mean) :
    cdfAt digest x = 0 := by
  match digest with
  | [] => rfl
  | [c] => exact if_neg (not_le.mpr (hx c (.head _)))
  | c :: d :: cs =>
    rw [cdfAt_many]
    apply interp_of_lt
    intro p hp
    obtain ⟨e, he, hmean, -⟩ := mem_pointsFrom hpos hp
    exact hmean ▸ hx e he

theorem cdfAt_above (hpos : ∀ c ∈ digest, 0 < c.weight) (hne : digest ≠ []) {x : ℚ}
    (hx : ∀ c ∈ digest, c.mean < x) : cdfAt digest x = totalWeight digest := by
  match digest with
  | [] => exact absurd rfl hne
  | [c] => exact if_pos (hx c (.head _)).le
  | c :: d :: cs =>
    rw [cdfAt_many]
    apply interp_of_gt (pointsFrom_ne_nil (List.cons_ne_nil _ _))
    intro p hp
    obtain ⟨e, he, hmean, -⟩ := mem_pointsFrom hpos hp
    exact hmean ▸ hx e he

/-- At the last mean of several centroids half of the last one is still missing. -/
theorem cdfAt_last {c d last : Centroid} {cs : Digest}
    (hsorted : (c :: d :: cs).Pairwise fun c d => c.mean ≤ d.mean)
    (hpos : ∀ e ∈ c :: d :: cs, 0 < e.weight) (hlast : (c :: d :: cs).getLast? = some last) :
    cdfAt (c :: d :: cs) last.mean = totalWeight (c :: d :: cs) - last.weight / 2 := by
  have hpoint := getLast?_pointsFrom 0 hlast
  have hmax : ∀ p ∈ pointsFrom 0 (c :: d :: cs), p.1 ≤ last.mean := by
    intro p hp
    obtain ⟨e, he, hmean, -⟩ := mem_pointsFrom hpos hp
    obtain ⟨front, hfront⟩ := List.getLast?_eq_some_iff.mp hlast
    rw [hfront] at hsorted he
    rw [hmean]
    rcases List.mem_append.mp he with he | he
    · exact (List.pairwise_append.mp hsorted).2.2 e he last (.head _)
    · rw [List.mem_singleton.mp he]
  have hlastPoint : (pointsFrom 0 (c :: d :: cs)).getLast (pointsFrom_ne_nil (List.cons_ne_nil _ _)) =
      (last.mean, totalWeight (c :: d :: cs) - last.weight / 2) := by
    have hsome := List.getLast?_eq_some_getLast (pointsFrom_ne_nil (List.cons_ne_nil c (d :: cs)) : pointsFrom 0 _ ≠ [])
    rw [hpoint, zero_add] at hsome
    exact (Option.some.inj hsome).symm
  rw [cdfAt_many]
  show interp 0 _ last.mean ((c.mean, 0 + c.weight / 2) :: pointsFrom (0 + c.weight) (d :: cs)) = _
  rw [interp, if_neg (not_lt.mpr (hmax _ (.head _))), if_neg, interpFrom_last]
  · exact congrArg Prod.snd hlastPoint
  · exact fun q hq => hmax q (.tail _ hq)
  · exact not_lt.mpr (congrArg Prod.fst hlastPoint).ge

end Laws

end Zagg.Stats
