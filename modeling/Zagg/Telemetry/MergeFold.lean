import Zagg.Lib.Nested
import Zagg.Telemetry.StatsRecord

/-!
# The fold of stats records

Each key of the fold is observed of a record in one way, and the fold of records has the
observations of all of them combined.
-/
namespace Zagg.Telemetry

open Zagg.Lib

section Values

/-- A fold of values that stand for members of a type. -/
theorem foldlM_embed {α : Type*} {inj : α → Json} {f : Json → Json → Except PyError Json}
    (op : α → α → α) (h : ∀ a b, f (inj a) (inj b) = .ok (inj (op a b))) (a : α) (as : List α) :
    (as.map inj).foldlM f (inj a) = .ok (inj (as.foldl op a)) := by
  induction as generalizing a with
  | nil => rfl
  | cons b as ih =>
    rw [List.map_cons, List.foldlM_cons, h]
    exact ih (op a b)

theorem sum_nums (qs : List ℚ) : sum (qs.map .num) = .ok (.num qs.sum) := by
  rw [sum, foldlM_embed (· + ·) fun _ _ => rfl, ← List.sum_eq_foldl]

theorem sum_cons (q : ℚ) (qs : List ℚ) :
    sum ((q :: qs).map .num) = .ok (.num (qs.foldl (· + ·) q)) := by
  rw [sum, foldlM_embed (· + ·) fun _ _ => rfl, List.foldl_cons, zero_add]

theorem larger_num (p q : ℚ) : larger (.num p) (.num q) = .ok (.num (max p q)) := by
  have hcomparable : (Json.num p).comparable (.num q) = true := rfl
  have hless : (Json.num p).less (.num q) = decide (p < q) := rfl
  rw [larger, if_pos hcomparable, hless, max_def_lt]
  simp only [decide_eq_true_eq]
  split_ifs <;> rfl

theorem larger_str (s t : String) : larger (.str s) (.str t) = .ok (.str (max s t)) := by
  have hcomparable : (Json.str s).comparable (.str t) = true := rfl
  have hless : (Json.str s).less (.str t) = decide (s < t) := by
    rw [Json.less, ← decide_not]
    exact decide_eq_decide.mpr not_le
  rw [larger, if_pos hcomparable, hless, max_def_lt]
  simp only [decide_eq_true_eq]
  split_ifs <;> rfl

/-- A missing value as `None`. -/
def render {α : Type*} (inj : α → Json) : Option α → Json
  | none => .null
  | some a => inj a

/-- What there is of some values is folded, and what is missing left out. -/
theorem orNone_eq {α : Type*} {inj : α → Json} {op : α → α → α} [Std.Associative op]
    {f : List Json → Except PyError Json} (hinj : ∀ a, isNull (inj a) = false)
    (hf : ∀ a as, f ((a :: as).map inj) = .ok (inj (as.foldl op a))) {obs : Json → Option α}
    {values : List Json} (h : ∀ v ∈ values, v = render inj (obs v)) :
    orNone f values = .ok (render inj ((values.map obs).foldr (Option.merge op) none)) := by
  have hpresent : (values.filter fun v => !isNull v) = ((values.map obs).filterMap id).map inj := by
    induction values with
    | nil => rfl
    | cons v values ih =>
      obtain ⟨hv, hvalues⟩ := List.forall_mem_cons.mp h
      rw [List.map_cons]
      cases hobs : obs v with
      | none =>
        rw [hobs] at hv
        have hnull : ¬(!isNull v) = true := by rw [hv]; exact Bool.false_ne_true
        rw [List.filter_cons_of_neg (p := fun v => !isNull v) hnull, ih hvalues]
        rfl
      | some a =>
        rw [hobs] at hv
        have hcons : (some a :: values.map obs).filterMap id = a :: (values.map obs).filterMap id :=
          List.filterMap_cons_some rfl
        have hsome : (!isNull v) = true := by rw [hv, render, hinj]; rfl
        rw [hcons, List.filter_cons_of_pos (p := fun v => !isNull v) hsome, ih hvalues, List.map_cons]
        exact congrArg (· :: _) hv
  rw [orNone, hpresent, foldr_merge_eq]
  cases (values.map obs).filterMap id with
  | nil => rfl
  | cons a as => exact hf a as

end Values

section Observations

def count (key : String) (r : Record) : ℚ := (Json.field r key).number.getD 0

def optional (key : String) (r : Record) : Option ℚ := (Json.field r key).number

/-- The seconds of a phase. -/
def phase (name : String) (r : Record) : Option ℚ :=
  match Json.field r "phase_timings" with
  | .obj fields => (fields.lookup name).bind Json.number
  | _ => none

def textOf : Json → Option String
  | .str s => some s
  | _ => none

def stamp (r : Record) : Option String := textOf (Json.field r "timestamp")

def succeeded (r : Record) : Bool := (Json.field r "success").truthy

/-- A number, or nothing. -/
def Numeric (v : Json) : Prop := v = .null ∨ ∃ q, v = .num q

theorem Numeric.eq_render {v : Json} (h : Numeric v) : v = render .num v.number := by
  obtain rfl | ⟨q, rfl⟩ := h
  · rfl
  · rfl

/-- A block of seconds by phase, or nothing. -/
def PhaseBlock (v : Json) : Prop :=
  v = .null ∨ ∃ fields, v = .obj fields ∧ (fields.map Prod.fst).Nodup ∧ ∀ f ∈ fields, ∃ q, f.2 = .num q

/-- A stats record of the schema; any key but the version may be absent. -/
structure Current (r : Record) : Prop where
  version : (Json.field r "schema_version").pyEq schemaVersion = true
  counts : ∀ key ∈ sumKeys, Numeric (Json.field r key)
  totals : ∀ key ∈ sumOrNoneKeys, Numeric (Json.field r key)
  peaks : ∀ key ∈ maxOrNoneKeys, Numeric (Json.field r key)
  phases : PhaseBlock (Json.field r "phase_timings")
  timestamp : Json.field r "timestamp" = .null ∨ ∃ s, Json.field r "timestamp" = .str s
  identity : ∀ key ∈ eqOrNoneKeys, (Json.field r key).Distinct

end Observations

section Phases

/-- The seconds of each phase as a block has them. -/
def Seconds (phases : Record) (secs : String → Option ℚ) : Prop :=
  (phases.map Prod.fst).Nodup ∧ ∀ name, phases.lookup name = (secs name).map .num

theorem Seconds.congr {phases : Record} {secs secs' : String → Option ℚ} (h : Seconds phases secs)
    (hsecs : ∀ name, secs name = secs' name) : Seconds phases secs' :=
  ⟨h.1, fun name => hsecs name ▸ h.2 name⟩

theorem merge_none (q : Option ℚ) : q = Option.merge (· + ·) q none :=
  (Std.LawfulRightIdentity.right_id q).symm

theorem addPhase_seconds {phases : Record} {secs : String → Option ℚ} (h : Seconds phases secs)
    (name : String) (q : ℚ) : ∃ phases', addPhase phases (name, .num q) = .ok phases' ∧
      Seconds phases' fun other =>
        if other = name then Option.merge (· + ·) (secs other) (some q) else secs other := by
  have hvalue : add ((phases.lookup name).getD (.num 0)) (.num q) =
      .ok (.num (((secs name).getD 0) + q)) := by
    rw [h.2 name]
    cases secs name with
    | none => rfl
    | some p => rfl
  refine ⟨put name (.num ((secs name).getD 0 + q)) phases, ?_, nodup_put _ _ h.1, fun other => ?_⟩
  · rw [addPhase, hvalue]
    rfl
  · rw [lookup_put]
    dsimp only
    split_ifs with heq
    · subst heq
      cases secs other with
      | none => exact congrArg (some ∘ Json.num) (zero_add q)
      | some p => rfl
    · exact h.2 other

/-- The items of a block are added to the phases they name. -/
theorem foldlM_addPhase_seconds {fields : Record} (hn : (fields.map Prod.fst).Nodup)
    (hnum : ∀ f ∈ fields, ∃ q, f.2 = .num q) {phases : Record} {secs : String → Option ℚ}
    (h : Seconds phases secs) : ∃ phases', fields.foldlM addPhase phases = .ok phases' ∧
      Seconds phases' fun name =>
        Option.merge (· + ·) (secs name) ((fields.lookup name).bind Json.number) := by
  induction fields generalizing phases secs with
  | nil => exact ⟨phases, rfl, h.congr fun name => merge_none (secs name)⟩
  | cons f fields ih =>
    obtain ⟨⟨q, hq⟩, hrest⟩ := List.forall_mem_cons.mp hnum
    rw [List.map_cons, List.nodup_cons] at hn
    obtain ⟨name, value⟩ := f
    obtain rfl : value = .num q := hq
    obtain ⟨phases', hphases', hsecs⟩ := addPhase_seconds h name q
    obtain ⟨phases'', hphases'', hall⟩ := ih hn.2 hrest hsecs
    refine ⟨phases'', ?_, hall.congr fun other => ?_⟩
    · rw [List.foldlM_cons, hphases']
      exact hphases''
    · rw [List.lookup_cons]
      by_cases heq : other = name
      · rw [if_pos heq, heq, beq_self_eq_true, lookup_eq_none.mpr hn.1]
        exact (merge_none _).symm
      · rw [if_neg heq, beq_false_of_ne heq]

theorem addPhases_seconds {r : Record} (hr : PhaseBlock (Json.field r "phase_timings"))
    {phases : Record} {secs : String → Option ℚ} (h : Seconds phases secs) :
    ∃ phases', addPhases phases r = .ok phases' ∧
      Seconds phases' fun name => Option.merge (· + ·) (secs name) (phase name r) := by
  obtain hnull | ⟨fields, hfields, hn, hnum⟩ := hr
  · refine ⟨phases, ?_, h.congr fun name => ?_⟩
    · rw [addPhases, phaseItems, hnull]
      rfl
    · rw [phase, hnull]
      exact merge_none _
  · have hitems : phaseItems r = .ok fields := by
      rw [phaseItems, hfields]
      cases fields with
      | nil => rfl
      | cons f fields => rfl
    obtain ⟨phases', hphases', hsecs⟩ := foldlM_addPhase_seconds hn hnum h
    refine ⟨phases', ?_, hsecs.congr fun name => ?_⟩
    · rw [addPhases, hitems]
      exact hphases'
    · rw [phase, hfields]

/-- The phases of a fold: the seconds of every record summed by phase. -/
theorem foldlM_addPhases_seconds {records : List Record}
    (hrecords : ∀ r ∈ records, PhaseBlock (Json.field r "phase_timings")) {phases : Record}
    {secs : String → Option ℚ} (h : Seconds phases secs) :
    ∃ phases', records.foldlM addPhases phases = .ok phases' ∧
      Seconds phases' fun name => Option.merge (· + ·) (secs name)
        ((records.map (phase name)).foldr (Option.merge (· + ·)) none) := by
  induction records generalizing phases secs with
  | nil => exact ⟨phases, rfl, h.congr fun name => merge_none (secs name)⟩
  | cons r records ih =>
    obtain ⟨hr, hrecords⟩ := List.forall_mem_cons.mp hrecords
    obtain ⟨phases', hphases', hsecs⟩ := addPhases_seconds hr h
    obtain ⟨phases'', hphases'', hall⟩ := ih hrecords hsecs
    refine ⟨phases'', ?_, hall.congr fun name => ?_⟩
    · rw [List.foldlM_cons, hphases']
      exact hphases''
    · rw [List.map_cons, List.foldr_cons]
      exact Std.Associative.assoc _ _ _

end Phases

end Zagg.Telemetry
