import Zagg.Windows.Labels

/-!
# The windows of a range

The windows of a generative schedule tile the calendar: an instant is in the one window its
label names, and the labels of a closed range are found by stepping from the first instant's
window to the last one's. The last window of the calendar has no end and is never stepped past.
-/
namespace Zagg.Windows

open Zagg.Lib Zagg.Lib.DecimalText

section Grid

theorem Cadence.floors (c : Cadence) : Floors c.IsStart Date.rank c.next c.floor := by
  constructor
  · exact c.isStart_floor
  · intro d
    have hd := d.bounds
    cases c with
    | yearly =>
      show (d.year * 13 + 1) * 32 + 1 ≤ d.rank
      rw [Date.rank]
      omega
    | monthly =>
      show (d.year * 13 + d.month) * 32 + 1 ≤ d.rank
      rw [Date.rank]
      omega
    | daily => exact le_rfl
  · intro d e h
    have hd := d.bounds
    cases c with
    | yearly =>
      obtain ⟨hy, hm, hday⟩ := Date.make_eq_some.mp h
      have hy : e.year = d.year + 1 := hy
      rw [Date.rank, Date.rank]
      omega
    | monthly =>
      obtain ⟨hday, he⟩ := Date.nextMonth_some h
      have he : d.month = 12 ∧ e.year = d.year + 1 ∧ e.month = 1 ∨
        d.month < 12 ∧ e.year = d.year ∧ e.month = d.month + 1 := he
      rw [Date.rank, Date.rank]
      omega
    | daily => exact (Date.succeeds_day.step d e trivial h).2.1

/-- The last day of the calendar. -/
def lastDate : Date := ⟨9999, 12, 31, by decide⟩

theorem rank_le_last (d : Date) : d.rank ≤ lastDate.rank := by
  have hd := d.bounds
  show d.rank ≤ (9999 * 13 + 12) * 32 + 31
  rw [Date.rank]
  omega

/-- Labels name the first day of a window, one to one. -/
theorem Cadence.labelText_inj {c : Cadence} {s s' : Date} (h : c.IsStart s) (h' : c.IsStart s')
    (htext : c.labelText s = c.labelText s') : s = s' := by
  have hdate := c.labelDate_labelText h
  rw [htext, c.labelDate_labelText h'] at hdate
  exact (Except.ok.inj hdate).symm

/-- The labels are in the order of the windows. -/
theorem Cadence.labelText_lt {c : Cadence} {s s' : Date} (h : c.IsStart s) (h' : c.IsStart s')
    (hlt : s.rank < s'.rank) : c.labelText s < c.labelText s' := by
  obtain ⟨ds, htext, hlen, hrank⟩ := c.exists_digits s
  obtain ⟨ds', htext', hlen', hrank'⟩ := c.exists_digits s'
  have hs := s.bounds
  have hs' := s'.bounds
  rw [Date.rank, Date.rank] at hlt
  rw [htext, htext']
  apply text_lt (hlen.trans hlen'.symm)
  rw [hrank, hrank']
  cases c with
  | yearly =>
    show s.year < s'.year
    have hfirst : s.month = 1 ∧ s.day = 1 := h
    have hfirst' : s'.month = 1 ∧ s'.day = 1 := h'
    omega
  | monthly =>
    show s.year * 100 + s.month < s'.year * 100 + s'.month
    have hfirst : s.day = 1 := h
    have hfirst' : s'.day = 1 := h'
    omega
  | daily =>
    show s.year * 10000 + (s.month * 100 + s.day) < s'.year * 10000 + (s'.month * 100 + s'.day)
    omega

end Grid

section Ranges
variable {c : Cadence}

theorem windowRange_labelText {s : Date} (h : c.IsStart s) (windows : List Declared) :
    windowRange (c.labelText s) (.generative c) windows = match c.next s with
      | some e => .ok (.midnight s, .midnight e)
      | none => .error c.pastEnd := by
  have hvalid : validateLabel (c.labelText s) (.generative c) = .ok (c.labelText s) := by
    apply if_pos
    show (c.pattern (c.labelText s) || _) = true
    rw [c.pattern_labelText, Bool.true_or]
  rw [windowRange, hvalid]
  show (c.labelDate (c.labelText s) >>= _) = _
  rw [c.labelDate_labelText h]
  rfl

/-- The instants of a label's window: from its first day to the end of its range. The last
window, whose range has no end, goes on to the end of the calendar. -/
def InWindow (c : Cadence) (label : Label) (t : Instant) : Prop :=
  ∃ s, c.labelDate label = .ok s ∧ ¬t.before (.midnight s) ∧
    ∀ lo hi, windowRange label (.generative c) [] = .ok (lo, hi) → t.before hi

theorem not_before_midnight {t : Instant} {s : Date} :
    ¬t.before (.midnight s) ↔ s.rank ≤ t.date.rank := by
  show ¬(t.date.rank < s.rank ∨ t.date.rank = s.rank ∧ t.time < 0) ↔ _
  omega

theorem before_midnight {t : Instant} {s : Date} :
    t.before (.midnight s) ↔ t.date.rank < s.rank := by
  show (t.date.rank < s.rank ∨ t.date.rank = s.rank ∧ t.time < 0) ↔ _
  omega

theorem inWindow_iff {s : Date} (h : c.IsStart s) {t : Instant} :
    InWindow c (c.labelText s) t ↔ c.floor t.date = s := by
  have hrange := windowRange_labelText h []
  rw [floor_eq_iff c.succeeds c.floors h]
  constructor
  · intro ⟨s', hs', hlo, hhi⟩
    rw [c.labelDate_labelText h] at hs'
    cases hs'
    refine ⟨not_before_midnight.mp hlo, fun e he => ?_⟩
    rw [he] at hrange
    exact before_midnight.mp (hhi _ _ hrange)
  · intro ⟨hlo, hhi⟩
    refine ⟨s, c.labelDate_labelText h, not_before_midnight.mpr hlo, fun lo hi hok => ?_⟩
    rw [hrange] at hok
    cases hnext : c.next s with
    | none =>
      rw [hnext] at hok
      exact nomatch hok
    | some e =>
      rw [hnext] at hok
      cases hok
      exact before_midnight.mpr (hhi e hnext)

/-- A label of the schedule's grammar with an instant in its window names that window. -/
theorem label_of_inWindow {label : Label} (hp : c.pattern label = true) {t : Instant}
    (h : InWindow c label t) : label = c.labelText (c.floor t.date) := by
  obtain ⟨s, hs, -⟩ := id h
  obtain ⟨hstart, rfl⟩ := c.eq_labelText hp hs
  rw [(inWindow_iff hstart).mp h]

end Ranges

section Loop
variable {c : Cadence}

/-- The loop follows the walk of its windows, given a pass for each. -/
theorem enumerate_walk {a e : Date} {l : List Date} (h : Walk c.next a e l) (he : c.IsStart e) :
    c.IsStart a → ∀ (labels : List Label) (more : Nat),
      enumerate c (l.length + more) (c.labelText a) (c.labelText e) labels =
        some (.ok (labels ++ l.map c.labelText)) := by
  induction h with
  | stop a =>
    intro _ labels more
    rw [List.length_singleton, Nat.add_comm, enumerate, if_pos rfl]
    rfl
  | step hne hnext h ih =>
    intro ha labels more
    have hb := (c.succeeds.step _ _ ha hnext).1
    have hlabel : c.labelText _ ≠ c.labelText _ := fun heq => hne (c.labelText_inj ha he heq)
    rw [List.length_cons, Nat.add_right_comm, enumerate, if_neg hlabel,
      windowRange_labelText ha [], hnext]
    refine (ih he hb _ more).trans ?_
    rw [List.append_assoc]
    rfl

/-- An instant between the bounds is in a window exactly when the window starts between the
windows of the bounds. -/
theorem meets_iff {s : Date} (h : c.IsStart s) {start stop : Instant}
    (hle : ¬stop.before start) :
    (∃ t, ¬Instant.before t start ∧ ¬stop.before t ∧ InWindow c (c.labelText s) t) ↔
      (c.floor start.date).rank ≤ s.rank ∧ s.rank ≤ (c.floor stop.date).rank := by
  have hmono {d e : Date} (hde : d.rank ≤ e.rank) : (c.floor d).rank ≤ (c.floor e).rank :=
    floor_mono c.succeeds c.floors hde
  constructor
  · intro ⟨t, hlo, hhi, hin⟩
    rw [inWindow_iff h] at hin
    subst hin
    rw [Instant.before] at hlo hhi
    exact ⟨hmono (by omega), hmono (by omega)⟩
  · intro ⟨hlo, hhi⟩
    by_cases heq : c.floor start.date = s
    · refine ⟨start, ?_, hle, (inWindow_iff h).mpr heq⟩
      rw [Instant.before]
      omega
    · have hlt : (c.floor start.date).rank < s.rank :=
        Nat.lt_of_le_of_ne hlo fun hr => heq (Date.rank_inj hr)
      obtain ⟨b, hnext, hb⟩ := exists_next c.succeeds (c.isStart_floor _) h hlt
      have hstart := c.floors.lt start.date b hnext
      have hstop := c.floors.le stop.date
      refine ⟨.midnight s, ?_, ?_, (inWindow_iff h).mpr (c.floor_start h)⟩
      · show ¬(s.rank < start.date.rank ∨ s.rank = start.date.rank ∧ 0 < start.time)
        omega
      · rw [not_before_midnight]
        omega

/-- The windows of a closed range, each once and in order. -/
theorem exists_windows {start stop : Instant} (hle : ¬stop.before start) :
    ∃ starts : List Date,
      (∀ more, windowsIntersecting (starts.length + more) start stop (.generative c) [] =
        some (.ok (starts.map c.labelText))) ∧
      starts.Pairwise (fun s s' => s.rank < s'.rank) ∧
      ∀ s, s ∈ starts ↔ c.IsStart s ∧
        ∃ t, ¬Instant.before t start ∧ ¬stop.before t ∧ InWindow c (c.labelText s) t := by
  have hranks : start.date.rank ≤ stop.date.rank := by
    rw [Instant.before] at hle
    omega
  obtain ⟨l, hwalk, hsorted, hmem⟩ := exists_walk c.succeeds (c.isStart_floor start.date)
    (c.isStart_floor stop.date) (floor_mono c.succeeds c.floors hranks)
  refine ⟨l, fun more => ?_, hsorted, fun s => ?_⟩
  · rw [windowsIntersecting, if_neg hle]
    show enumerate c _ (c.labelText start.date) (c.labelText stop.date) [] = _
    rw [← c.labelText_floor start.date, ← c.labelText_floor stop.date,
      enumerate_walk hwalk (c.isStart_floor _) (c.isStart_floor _)]
    rfl
  · rw [hmem]
    exact and_congr_right fun hs => (meets_iff hs hle).symm

end Loop

/-- The windows of a range are those with an instant in common with it, in the order of time and
of their labels, and the loop ends. Every instant is in the window that its label names and in
no other; the window has an end unless it is the last one. -/
theorem windows_exact (c : Cadence) :
    (∀ start stop : Instant, ¬stop.before start → ∃ labels,
      (∃ fuel, ∀ more, windowsIntersecting (fuel + more) start stop (.generative c) [] =
        some (.ok labels)) ∧
      labels.Pairwise (fun label label' => label < label' ∧
        ∀ s s', c.labelDate label = .ok s → c.labelDate label' = .ok s' →
          (Instant.midnight s).before (.midnight s')) ∧
      ∀ label, label ∈ labels ↔ c.pattern label = true ∧
        ∃ t, ¬Instant.before t start ∧ ¬stop.before t ∧ InWindow c label t) ∧
    ∀ t : Instant, ∃ label, windowLabel t (.generative c) = .ok label ∧
      c.pattern label = true ∧ InWindow c label t ∧
      (∀ label', c.pattern label' = true → InWindow c label' t → label' = label) ∧
      (label ≠ c.labelText lastDate → ∃ lo hi,
        windowRange label (.generative c) [] = .ok (lo, hi) ∧ ¬t.before lo ∧ t.before hi) := by
  constructor
  · intro start stop hle
    obtain ⟨starts, hrun, hsorted, hmem⟩ := exists_windows (c := c) hle
    refine ⟨starts.map c.labelText, ⟨starts.length, hrun⟩, ?_, fun label => ?_⟩
    · rw [List.pairwise_map]
      refine hsorted.imp_of_mem fun {a b} ha hb hlt => ?_
      have hsa := ((hmem a).mp ha).1
      have hsb := ((hmem b).mp hb).1
      refine ⟨c.labelText_lt hsa hsb hlt, fun s s' hs hs' => ?_⟩
      rw [c.labelDate_labelText hsa] at hs
      rw [c.labelDate_labelText hsb] at hs'
      cases hs
      cases hs'
      exact before_midnight.mpr hlt
    · rw [List.mem_map]
      constructor
      · intro ⟨s, hs, hlabel⟩
        subst hlabel
        exact ⟨c.pattern_labelText s, ((hmem s).mp hs).2⟩
      · intro ⟨hp, t, hlo, hhi, hin⟩
        obtain ⟨s, hs, -⟩ := id hin
        obtain ⟨hstart, rfl⟩ := c.eq_labelText hp hs
        exact ⟨s, (hmem s).mpr ⟨hstart, t, hlo, hhi, hin⟩, rfl⟩
  · intro t
    have hin : InWindow c (c.labelText t.date) t := by
      rw [← c.labelText_floor]
      exact (inWindow_iff (c.isStart_floor _)).mpr rfl
    refine ⟨c.labelText t.date, rfl, c.pattern_labelText _, hin, fun label' hp h => ?_, fun hne => ?_⟩
    · rw [label_of_inWindow hp h, c.labelText_floor]
    · rw [← c.labelText_floor t.date, ← c.labelText_floor lastDate] at hne
      have hlt : (c.floor t.date).rank < (c.floor lastDate).rank :=
        Nat.lt_of_le_of_ne (floor_mono c.succeeds c.floors (rank_le_last _)) fun hr =>
          hne (by rw [Date.rank_inj hr])
      obtain ⟨b, hnext, -⟩ := exists_next c.succeeds (c.isStart_floor _) (c.isStart_floor _) hlt
      refine ⟨.midnight (c.floor t.date), .midnight b, ?_, ?_, ?_⟩
      · rw [← c.labelText_floor, windowRange_labelText (c.isStart_floor _), hnext]
      · exact not_before_midnight.mpr (c.floors.le _)
      · exact before_midnight.mpr (c.floors.lt _ b hnext)

example : windowsIntersecting 5 (.midnight ⟨9999, 12, 30, by decide⟩) (.midnight lastDate)
    (.generative .daily) [] = some (.ok ["99991230".toList, "99991231".toList]) := by
  decide +kernel

end Zagg.Windows
