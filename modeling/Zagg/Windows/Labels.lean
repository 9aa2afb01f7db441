import Zagg.Lib.Calendar
import Zagg.Lib.DecimalText

/-!
# Window labels

The labels of the generative schedules are fixed-width digits of a calendar term, and decode to
a half-open range of instants; explicit labels are opaque and have declared ranges. The
patterns are matched with `$`, which also stands before a newline that ends the text.
-/
namespace Zagg.Windows

open Zagg.Lib Zagg.Lib.DecimalText

/-- `GENERATIVE_SCHEDULES`. -/
inductive Cadence
  | yearly
  | monthly
  | daily
deriving DecidableEq

/-- `SCHEDULES`. -/
inductive Schedule
  | none
  | generative (c : Cadence)
  | explicit
deriving DecidableEq

abbrev Label := List Char

inductive WindowError
  | reserved (schedule : String)
  | unknown (schedule : String)
  | label (label : Label) (schedule : Schedule)
  | undeclared (label : Label)
  /-- `ValueError` of `datetime`. -/
  | date
  /-- `OverflowError` past the last day. -/
  | overflow
  | noLabels (schedule : Schedule)
  | noWindows (schedule : Schedule)
  | precedes
deriving DecidableEq

/-- A UTC `datetime`: its date and the microseconds of the day. -/
structure Instant where
  date : Date
  time : Nat
  inDay : time < 86400000000
deriving DecidableEq

namespace Instant

def before (a b : Instant) : Prop :=
  a.date.rank < b.date.rank ∨ a.date.rank = b.date.rank ∧ a.time < b.time

instance (a b : Instant) : Decidable (a.before b) := by
  unfold before
  infer_instance

def midnight (d : Date) : Instant := ⟨d, 0, by decide⟩

end Instant

/-- One entry of a declared windows list, with its bounds parsed. -/
structure Declared where
  label : Label
  start : Instant
  stop : Instant

/-- `re.match` of a pattern between `^` and `$`. -/
def matchesToEnd (pattern : List Char → Bool) (s : List Char) : Bool :=
  pattern s || (s.getLast? == some '\n' && pattern s.dropLast)

/-- `[0-9A-Za-z-]`. -/
def isLabelChar (ch : Char) : Bool :=
  isAsciiDigit ch || (65 ≤ ch.toNat && ch.toNat ≤ 90) || (97 ≤ ch.toNat && ch.toNat ≤ 122) ||
    ch == '-'

/-- `[0-9A-Za-z-]{1,32}`. -/
def labelPattern (s : List Char) : Bool :=
  1 ≤ s.length && s.length ≤ 32 && s.all isLabelChar

def Cadence.width : Cadence → Nat
  | .yearly => 4
  | .monthly => 6
  | .daily => 8

/-- `[0-9]{4}`, `[0-9]{6}` or `[0-9]{8}`. -/
def Cadence.pattern (c : Cadence) (s : List Char) : Bool := s.length == c.width && s.all isAsciiDigit

/-- `_GENERATIVE_RE.get(schedule, _LABEL_RE)`. -/
def Schedule.pattern : Schedule → List Char → Bool
  | .generative c => c.pattern
  | .none | .explicit => labelPattern

def validateLabel (label : Label) (schedule : Schedule) : Except WindowError Label :=
  if matchesToEnd schedule.pattern label then .ok label else .error (.label label schedule)

/-- A calendar term in its digits. -/
def Cadence.labelText : Cadence → Date → Label
  | .yearly, d => padded 4 d.year
  | .monthly, d => padded 4 d.year ++ padded 2 d.month
  | .daily, d => padded 4 d.year ++ (padded 2 d.month ++ padded 2 d.day)

def windowLabel (dt : Instant) : Schedule → Except WindowError Label
  | .generative c => .ok (c.labelText dt.date)
  | schedule => .error (.noLabels schedule)

/-- `int` of a slice. -/
def intOf (s : List Char) : Except WindowError Int :=
  match PyText.pyInt s with
  | some n => .ok n
  | none => .error .date

/-- `datetime(year, month, day)`. -/
def datetime (year month day : Int) : Except WindowError Date :=
  match if 0 ≤ year ∧ 0 ≤ month ∧ 0 ≤ day then Date.make year.toNat month.toNat day.toNat
    else none with
  | some d => .ok d
  | none => .error .date

/-- The first day of a label's window. -/
def Cadence.labelDate : Cadence → Label → Except WindowError Date
  | .yearly, label => do
    datetime (← intOf label) 1 1
  | .monthly, label => do
    datetime (← intOf (label.take 4)) (← intOf ((label.drop 4).take 2)) 1
  | .daily, label => do
    datetime (← intOf (label.take 4)) (← intOf ((label.drop 4).take 2))
      (← intOf ((label.drop 6).take 2))

/-- The first day of the window after the one that starts on a date. -/
def Cadence.next : Cadence → Date → Option Date
  | .yearly => Date.nextYear
  | .monthly => Date.nextMonth
  | .daily => Date.nextDay

/-- What the step past the last window raises. -/
def Cadence.pastEnd : Cadence → WindowError
  | .daily => .overflow
  | _ => .date

def windowRange (label : Label) (schedule : Schedule) (windows : List Declared) :
    Except WindowError (Instant × Instant) := do
  let label ← validateLabel label schedule
  match schedule with
  | .generative c =>
    let start ← c.labelDate label
    match c.next start with
    | some stop => .ok (.midnight start, .midnight stop)
    | none => .error c.pastEnd
  | .explicit =>
    match windows.find? fun w => w.label = label with
    | some w => .ok (w.start, w.stop)
    | none => .error (.undeclared label)
  | .none => .error (.noWindows .none)

/-- The loop of `windows_intersecting`; `none` is a run cut short. -/
def enumerate (c : Cadence) : Nat → Label → Label → List Label →
    Option (Except WindowError (List Label))
  | 0, _, _, _ => none
  | fuel + 1, label, last, labels =>
    if label = last then some (.ok (labels ++ [label]))
    else
      match windowRange label (.generative c) [] with
      | .error e => some (.error e)
      | .ok (_, hi) =>
        match windowLabel hi (.generative c) with
        | .error e => some (.error e)
        | .ok next => enumerate c fuel next last (labels ++ [label])

def windowsIntersecting (fuel : Nat) (start stop : Instant) (schedule : Schedule)
    (windows : List Declared) : Option (Except WindowError (List Label)) :=
  if stop.before start then some (.error .precedes)
  else
    match schedule with
    | .explicit => some (.ok ((windows.filter fun w =>
        ¬stop.before w.start ∧ start.before w.stop).map Declared.label))
    | .none => some (.error (.noWindows .none))
    | .generative c => enumerate c fuel (c.labelText start.date) (c.labelText stop.date) []

section Texts

/-- The dates on which windows start. -/
def Cadence.IsStart : Cadence → Date → Prop
  | .yearly, d => d.month = 1 ∧ d.day = 1
  | .monthly, d => d.day = 1
  | .daily, _ => True

/-- The first day of the window of a date. -/
def Cadence.floor : Cadence → Date → Date
  | .yearly => Date.yearStart
  | .monthly => Date.monthStart
  | .daily => id

theorem Cadence.succeeds : ∀ c : Cadence, Succeeds c.IsStart Date.rank c.next
  | .yearly => Date.succeeds_year
  | .monthly => Date.succeeds_month
  | .daily => Date.succeeds_day

theorem Cadence.isStart_floor (c : Cadence) (d : Date) : c.IsStart (c.floor d) := by
  cases c with
  | yearly => exact ⟨rfl, rfl⟩
  | monthly => exact rfl
  | daily => exact trivial

/-- A label names its window's first day. -/
theorem Cadence.labelText_floor (c : Cadence) (d : Date) : c.labelText (c.floor d) = c.labelText d := by
  cases c <;> rfl

theorem Cadence.floor_start {c : Cadence} {s : Date} (h : c.IsStart s) : c.floor s = s := by
  cases c with
  | yearly => exact Date.ext_fields rfl h.1.symm h.2.symm
  | monthly => exact Date.ext_fields rfl rfl h.symm
  | daily => rfl

/-- The digits of a text of one width are those of its number. -/
theorem padded_rank {width : Nat} (hw : 0 < width) {ds : List (Fin 10)} (h : ds.length = width) :
    padded width (Digits.rank ds) = text ds := by
  have hlt := Digits.rank_lt ds
  rw [h] at hlt
  obtain ⟨es, htext, hrank, hlen⟩ := exists_padded hw hlt
  rw [htext, Digits.rank_inj (hlen.trans h.symm) hrank]

theorem intOf_text {ds : List (Fin 10)} (hne : ds ≠ []) (hlen : ds.length ≤ 4300) :
    intOf (text ds) = .ok (Digits.rank ds : Nat) := by
  rw [intOf, pyInt_text hne hlen]

theorem datetime_nat (year month day : Nat) :
    datetime year month day = match Date.make year month day with
      | some d => .ok d
      | none => .error .date := by
  have hsign : (0 : Int) ≤ year ∧ (0 : Int) ≤ month ∧ (0 : Int) ≤ day := by omega
  rw [datetime, if_pos hsign]
  rfl

theorem datetime_ok {year month day : Nat} {d : Date} :
    datetime year month day = .ok d ↔ d.year = year ∧ d.month = month ∧ d.day = day := by
  rw [datetime_nat, ← Date.make_eq_some]
  cases Date.make year month day with
  | none => exact ⟨nofun, nofun⟩
  | some e =>
    constructor
    · intro h
      cases h
      rfl
    · intro h
      cases h
      rfl

/-- The fields of a date in its digits. -/
theorem exists_fields (d : Date) : ∃ ys ms ds : List (Fin 10),
    (padded 4 d.year = text ys ∧ Digits.rank ys = d.year ∧ ys.length = 4) ∧
    (padded 2 d.month = text ms ∧ Digits.rank ms = d.month ∧ ms.length = 2) ∧
    padded 2 d.day = text ds ∧ Digits.rank ds = d.day ∧ ds.length = 2 := by
  have hd := d.bounds
  obtain ⟨ys, hys⟩ := exists_padded (by decide : 0 < 4) (show d.year < 10 ^ 4 by omega)
  obtain ⟨ms, hms⟩ := exists_padded (by decide : 0 < 2) (show d.month < 10 ^ 2 by omega)
  obtain ⟨ds, hds⟩ := exists_padded (by decide : 0 < 2) (show d.day < 10 ^ 2 by omega)
  exact ⟨ys, ms, ds, hys, hms, hds⟩

theorem take_text (ds es : List (Fin 10)) : (text ds ++ text es).take ds.length = text ds :=
  List.take_left' (length_text ds)

theorem drop_text (ds es : List (Fin 10)) : (text ds ++ text es).drop ds.length = text es :=
  List.drop_left' (length_text ds)

theorem ne_nil_of_length {ds : List (Fin 10)} {n : Nat} (h : ds.length = n + 1) : ds ≠ [] := by
  intro hnil
  rw [hnil] at h
  exact absurd h (Nat.succ_ne_zero n).symm

/-- A label is digits, as many as its schedule has. -/
theorem Cadence.exists_digits (c : Cadence) (d : Date) : ∃ ds : List (Fin 10),
    c.labelText d = text ds ∧ ds.length = c.width ∧ Digits.rank ds = match c with
      | .yearly => d.year
      | .monthly => d.year * 100 + d.month
      | .daily => d.year * 10000 + (d.month * 100 + d.day) := by
  obtain ⟨ys, ms, ds, ⟨hy, hyr, hyl⟩, ⟨hm, hmr, hml⟩, hd, hdr, hdl⟩ := exists_fields d
  cases c with
  | yearly => exact ⟨ys, hy, hyl, hyr⟩
  | monthly =>
    refine ⟨ys ++ ms, ?_, ?_, ?_⟩
    · rw [Cadence.labelText, hy, hm, text_append]
    · rw [List.length_append, hyl, hml]
      rfl
    · show Digits.rank (ys ++ ms) = d.year * 100 + d.month
      rw [Digits.rank_append, hyr, hmr, hml]
      omega
  | daily =>
    refine ⟨ys ++ (ms ++ ds), ?_, ?_, ?_⟩
    · rw [Cadence.labelText, hy, hm, hd, text_append, text_append]
    · rw [List.length_append, List.length_append, hyl, hml, hdl]
      rfl
    · show Digits.rank (ys ++ (ms ++ ds)) = d.year * 10000 + (d.month * 100 + d.day)
      rw [Digits.rank_append, Digits.rank_append, List.length_append, hyr, hmr, hdr, hml, hdl]
      omega

theorem Cadence.pattern_labelText (c : Cadence) (d : Date) : c.pattern (c.labelText d) = true := by
  obtain ⟨ds, htext, hlen, -⟩ := c.exists_digits d
  rw [Cadence.pattern, htext, length_text, hlen, exists_text.mpr ⟨ds, rfl⟩, beq_self_eq_true]
  rfl

/-- A label decodes to the first day of its window. -/
theorem Cadence.labelDate_labelText {c : Cadence} {s : Date} (h : c.IsStart s) :
    c.labelDate (c.labelText s) = .ok s := by
  obtain ⟨ys, ms, ds, ⟨hy, hyr, hyl⟩, ⟨hm, hmr, hml⟩, hd, hdr, hdl⟩ := exists_fields s
  have hyear : intOf (text ys) = .ok (s.year : Int) := by
    rw [intOf_text (ne_nil_of_length hyl) (by omega), hyr]
  have hmonth : intOf (text ms) = .ok (s.month : Int) := by
    rw [intOf_text (ne_nil_of_length hml) (by omega), hmr]
  have hday : intOf (text ds) = .ok (s.day : Int) := by
    rw [intOf_text (ne_nil_of_length hdl) (by omega), hdr]
  cases c with
  | yearly =>
    rw [Cadence.labelDate, Cadence.labelText, hy, hyear]
    exact datetime_ok.mpr ⟨rfl, h.1, h.2⟩
  | monthly =>
    have hfirst : (text ys ++ text ms).take 4 = text ys := hyl ▸ take_text ys ms
    have hlast : ((text ys ++ text ms).drop 4).take 2 = text ms := by
      rw [← hyl, drop_text, List.take_of_length_le (by rw [length_text, hml])]
    rw [Cadence.labelDate, Cadence.labelText, hy, hm, hfirst, hlast, hyear, hmonth]
    exact datetime_ok.mpr ⟨rfl, rfl, h⟩
  | daily =>
    have hfirst : (text ys ++ (text ms ++ text ds)).take 4 = text ys := by
      rw [← text_append]
      exact hyl ▸ take_text ys (ms ++ ds)
    have hrest : (text ys ++ (text ms ++ text ds)).drop 4 = text ms ++ text ds := by
      rw [← text_append]
      exact hyl ▸ drop_text ys (ms ++ ds)
    have hmiddle : (text ms ++ text ds).take 2 = text ms := hml ▸ take_text ms ds
    have hsix : (text ys ++ (text ms ++ text ds)).drop 6 = (text ms ++ text ds).drop 2 := by
      conv_rhs => rw [← hrest, List.drop_drop]
    have hlast : ((text ms ++ text ds).drop 2).take 2 = text ds := by
      rw [← hml, drop_text, List.take_of_length_le (by rw [length_text, hdl, hml])]
    rw [Cadence.labelDate, Cadence.labelText, hy, hm, hd, hfirst, hrest, hmiddle, hsix, hlast, hyear,
      hmonth, hday]
    exact datetime_ok.mpr ⟨rfl, rfl, rfl⟩

/-- A slice of digits reads as its rank. -/
theorem intOf_slice (ds : List (Fin 10)) (k : Nat) {n : Nat} (hn : 0 < n) (hlen : k + n ≤ ds.length)
    (hshort : n ≤ 4300) :
    intOf (((text ds).drop k).take n) = .ok (Digits.rank ((ds.drop k).take n) : Nat) ∧
      padded n (Digits.rank ((ds.drop k).take n)) = text ((ds.drop k).take n) := by
  have hslice : ((text ds).drop k).take n = text ((ds.drop k).take n) := by
    rw [text, text, List.map_take, List.map_drop]
  have hlength : ((ds.drop k).take n).length = n := by
    rw [List.length_take, List.length_drop]
    omega
  have hne : (ds.drop k).take n ≠ [] := by
    intro hnil
    rw [hnil] at hlength
    exact absurd hlength hn.ne
  rw [hslice]
  exact ⟨intOf_text hne (hlength.le.trans hshort), padded_rank hn hlength⟩

/-- A text of the schedule's digits that decodes is the label of the window it decodes to. -/
theorem Cadence.eq_labelText {c : Cadence} {label : Label} (hp : c.pattern label = true) {s : Date}
    (h : c.labelDate label = .ok s) : c.IsStart s ∧ label = c.labelText s := by
  rw [Cadence.pattern, Bool.and_eq_true, beq_iff_eq] at hp
  obtain ⟨ds, rfl⟩ := exists_text.mp hp.2
  have hlen := hp.1
  rw [length_text] at hlen
  cases c with
  | yearly =>
    have hlen : ds.length = 4 := hlen
    rw [Cadence.labelDate, intOf_text (ne_nil_of_length hlen) (by omega)] at h
    have h : datetime (Digits.rank ds : Nat) (1 : Nat) (1 : Nat) = .ok s := h
    obtain ⟨hy, hm, hd⟩ := datetime_ok.mp h
    refine ⟨⟨hm, hd⟩, ?_⟩
    rw [Cadence.labelText, hy, padded_rank (by decide) hlen]
  | monthly =>
    have hlen : ds.length = 6 := hlen
    obtain ⟨hyear, hypad⟩ := intOf_slice ds 0 (by decide : 0 < 4) (by omega) (by decide)
    obtain ⟨hmonth, hmpad⟩ := intOf_slice ds 4 (by decide : 0 < 2) (by omega) (by decide)
    rw [List.drop_zero, List.drop_zero] at hyear
    rw [List.drop_zero] at hypad
    rw [Cadence.labelDate, hyear, hmonth] at h
    have h : datetime (Digits.rank (ds.take 4) : Nat) (Digits.rank ((ds.drop 4).take 2) : Nat)
        (1 : Nat) = .ok s := h
    obtain ⟨hy, hm, hd⟩ := datetime_ok.mp h
    refine ⟨hd, ?_⟩
    rw [Cadence.labelText, hy, hm, hypad, hmpad, ← text_append,
      List.take_of_length_le (l := ds.drop 4) (by rw [List.length_drop]; omega),
      List.take_append_drop]
  | daily =>
    have hlen : ds.length = 8 := hlen
    obtain ⟨hyear, hypad⟩ := intOf_slice ds 0 (by decide : 0 < 4) (by omega) (by decide)
    obtain ⟨hmonth, hmpad⟩ := intOf_slice ds 4 (by decide : 0 < 2) (by omega) (by decide)
    obtain ⟨hday, hdpad⟩ := intOf_slice ds 6 (by decide : 0 < 2) (by omega) (by decide)
    rw [List.drop_zero, List.drop_zero] at hyear
    rw [List.drop_zero] at hypad
    rw [Cadence.labelDate, hyear, hmonth, hday] at h
    obtain ⟨hy, hm, hd⟩ := datetime_ok.mp h
    refine ⟨trivial, ?_⟩
    have hsplit : (ds.drop 4).take 2 ++ (ds.drop 6).take 2 = ds.drop 4 := by
      rw [List.take_of_length_le (l := ds.drop 6) (by rw [List.length_drop]; omega)]
      have hdrop : ds.drop 6 = (ds.drop 4).drop 2 := by rw [List.drop_drop]
      rw [hdrop, List.take_append_drop]
    rw [Cadence.labelText, hy, hm, hd, hypad, hmpad, hdpad, ← text_append, ← text_append, hsplit,
      List.take_append_drop]

end Texts

end Zagg.Windows
