import Zagg.Windows.Dispatch

/-!
# The windows of an observation

The windows of a declaration do not overlap, and those enumerated for a closed range cover it,
up to the end of its last day. An observation passes the filter pair of a window exactly if
its instant is in the window, so at most one window takes it.
-/
namespace Zagg.Windows

open Zagg.Lib Processing

section Timeline
variable {c : Cadence}

/-- An instant, in seconds, between half-open bounds. -/
def Within (lo hi : Instant) (x : ℚ) : Prop := lo.seconds ≤ x ∧ x < hi.seconds

/-- The end of an instant's day. -/
def dayEnd (t : Instant) : ℚ := (t.date.ordinal + 1) * 86400

theorem seconds_midnight (d : Date) : (Instant.midnight d).seconds = d.ordinal * 86400 := by
  rw [Instant.seconds]
  simp [Instant.midnight]

theorem seconds_lt_dayEnd (t : Instant) : t.seconds < dayEnd t := by
  have htime : (t.time : ℚ) < 86400000000 := by exact_mod_cast t.inDay
  rw [Instant.seconds, dayEnd]
  linarith

/-- What starts after a day starts after its end. -/
theorem dayEnd_le {t : Instant} {d : Date} (h : t.date.rank < d.rank) :
    dayEnd t ≤ (Instant.midnight d).seconds := by
  have hday : (t.date.ordinal : ℚ) + 1 ≤ d.ordinal := by exact_mod_cast Date.ordinal_lt h
  rw [dayEnd, seconds_midnight]
  linarith

theorem midnight_le {d e : Date} (h : d.rank ≤ e.rank) :
    (Instant.midnight d).seconds ≤ (Instant.midnight e).seconds := by
  rw [← Instant.not_before_iff, not_before_midnight]
  exact h

/-- Of the windows enumerated for a range one has started last. -/
theorem exists_started {start stop : Instant} {x : ℚ} (hlo : start.seconds ≤ x)
    (hhi : x < dayEnd stop) :
    ∃ s, c.IsStart s ∧ (c.floor start.date).rank ≤ s.rank ∧
      s.rank ≤ (c.floor stop.date).rank ∧ (Instant.midnight s).seconds ≤ x ∧
      ∀ e, c.next s = some e → x < (Instant.midnight e).seconds := by
  have hrank : start.date.rank ≤ stop.date.rank := by
    by_contra hlt
    have hend := dayEnd_le (not_le.mp hlt)
    have hmidnight : (Instant.midnight start.date).seconds ≤ start.seconds :=
      Instant.not_before_iff.mp (not_before_midnight.mpr le_rfl)
    linarith
  have hfirst : (Instant.midnight (c.floor start.date)).seconds ≤ x :=
    (Instant.not_before_iff.mp (not_before_midnight.mpr (c.floors.le _))).trans hlo
  have hfloor := floor_mono c.succeeds c.floors hrank
  obtain ⟨s, hs, hstarted, hge, hle, hlast⟩ := exists_last c.succeeds
    (p := fun s => (Instant.midnight s).seconds ≤ x) (c.floor stop.date) _
    (c.isStart_floor start.date) hfirst (Nat.add_sub_cancel' hfloor)
  refine ⟨s, hs, hge, hle, hstarted, fun e hnext => ?_⟩
  by_cases he : e.rank ≤ (c.floor stop.date).rank
  · exact not_le.mp (hlast e hnext he)
  · have hafter : stop.date.rank < e.rank := by
      by_contra hbefore
      have hmono := floor_mono c.succeeds c.floors (not_lt.mp hbefore)
      rw [c.floor_start (c.succeeds.step s e hs hnext).1] at hmono
      exact he hmono
    exact hhi.trans_le (dayEnd_le hafter)

/-- No instant is in two windows of a cadence. -/
theorem start_unique {s s' e e' : Date} (hs : c.IsStart s) (hs' : c.IsStart s')
    (he : c.next s = some e) (he' : c.next s' = some e') {x : ℚ}
    (h : Within (.midnight s) (.midnight e) x) (h' : Within (.midnight s') (.midnight e') x) :
    s = s' := by
  have hapart {s s' e : Date} (hs : c.IsStart s) (hs' : c.IsStart s') (he : c.next s = some e)
      (hlt : s.rank < s'.rank) (hin : Within (.midnight s) (.midnight e) x) :
      x < (Instant.midnight s').seconds :=
    hin.2.trans_le (midnight_le ((c.succeeds.step s e hs he).2.2 s' hs' hlt))
  obtain hlt | heq | hlt := lt_trichotomy s.rank s'.rank
  · exact absurd h'.1 (not_le.mpr (hapart hs hs' he hlt h))
  · exact Date.rank_inj heq
  · exact absurd h.1 (not_le.mpr (hapart hs' hs he' hlt h'))

end Timeline

section Bounds
variable {w : Windowing}

/-- A window's payload from its range. -/
def Windowing.payload (w : Windowing) (label : Label) (lo hi : Instant) : Window :=
  ⟨label, w.encoding.utcToOffset lo, w.encoding.utcToOffset hi⟩

theorem windowBounds_eq (label : Label) : windowBounds w label =
    match windowRange label w.schedule w.windows with
    | .ok (lo, hi) => .ok (w.payload label lo hi, lo, hi)
    | .error e => .error (.window e) := by
  rw [windowBounds]
  cases windowRange label w.schedule w.windows with
  | ok bounds => rfl
  | error e => rfl

theorem windowBounds_labelText {c : Cadence} (hw : w.schedule = .generative c) {s : Date}
    (hs : c.IsStart s) : windowBounds w (c.labelText s) =
      match c.next s with
      | some e => .ok (w.payload (c.labelText s) (.midnight s) (.midnight e), .midnight s, .midnight e)
      | none => .error (.window c.pastEnd) := by
  rw [windowBounds_eq, hw, windowRange_labelText hs]
  cases c.next s with
  | some e => rfl
  | none => rfl

/-- Every declared window is found by its label. -/
theorem windowBounds_declared (hw : w.schedule = .explicit) {d : Declared} (hd : d ∈ w.windows) :
    windowBounds w d.label = .ok (w.payload d.label d.start d.stop, d.start, d.stop) := by
  have hfind : w.windows.find? (fun e => e.label = d.label) = some d := by
    have hsome : (w.windows.find? fun e => e.label = d.label).isSome :=
      List.find?_isSome.mpr ⟨d, hd, decide_eq_true rfl⟩
    obtain ⟨e, he⟩ := Option.isSome_iff_exists.mp hsome
    have hlabel : e.label = d.label := by simpa using List.find?_some he
    rw [he, List.inj_on_of_nodup_map w.unique (List.mem_of_find?_eq_some he) hd hlabel]
  have hrange : windowRange d.label .explicit w.windows = .ok (d.start, d.stop) := by
    simp only [windowRange, w.valid d hd, hfind, bind, Except.bind]
  rw [windowBounds_eq, hw, hrange]

/-- The labels of a declaration. -/
def Windowing.IsLabel (w : Windowing) (label : Label) : Prop :=
  match w.schedule with
  | .generative c => c.pattern label = true
  | _ => label ∈ w.windows.map Declared.label

/-- A window of the declaration, with its range. -/
def Windowing.HasWindow (w : Windowing) (window : Window) (lo hi : Instant) : Prop :=
  w.IsLabel window.label ∧ windowBounds w window.label = .ok (window, lo, hi)

theorem eq_payload {label : Label} {window : Window} {lo hi : Instant}
    (h : windowBounds w label = .ok (window, lo, hi)) : window = w.payload label lo hi := by
  rw [windowBounds_eq] at h
  split at h
  · obtain ⟨hwindow, hrange⟩ := Prod.mk.inj (Except.ok.inj h)
    cases hrange
    exact hwindow.symm
  · cases h

/-- The windows of a cadence are those of its starts that have a next one. -/
theorem hasWindow_generative {c : Cadence} (hw : w.schedule = .generative c) {window : Window}
    {lo hi : Instant} : w.HasWindow window lo hi ↔ ∃ s e, c.IsStart s ∧ c.next s = some e ∧
      lo = .midnight s ∧ hi = .midnight e ∧ window = w.payload (c.labelText s) lo hi := by
  constructor
  · intro ⟨hlabel, hbounds⟩
    rw [Windowing.IsLabel, hw] at hlabel
    have hrange := hbounds
    rw [windowBounds_eq, hw] at hrange
    split at hrange
    · next lo' hi' hok =>
      have hdate : ∃ s, c.labelDate window.label = .ok s := by
        rw [windowRange] at hok
        obtain ⟨label, hvalid, hok⟩ := bind_ok hok
        rw [validateLabel] at hvalid
        split_ifs at hvalid
        cases hvalid
        obtain ⟨s, hs, -⟩ := bind_ok hok
        exact ⟨s, hs⟩
      obtain ⟨s, hs⟩ := hdate
      obtain ⟨hstart, htext⟩ := c.eq_labelText hlabel hs
      rw [htext, windowBounds_labelText hw hstart] at hbounds
      cases hnext : c.next s with
      | none =>
        rw [hnext] at hbounds
        cases hbounds
      | some e =>
        rw [hnext] at hbounds
        cases hbounds
        exact ⟨s, e, hstart, hnext, rfl, rfl, rfl⟩
    · cases hrange
  · rintro ⟨s, e, hs, hnext, rfl, rfl, rfl⟩
    constructor
    · rw [Windowing.IsLabel, hw]
      exact c.pattern_labelText s
    · show windowBounds w (c.labelText s) = _
      rw [windowBounds_labelText hw hs, hnext]

/-- The windows of an explicit list. -/
theorem hasWindow_explicit (hw : w.schedule = .explicit) {window : Window} {lo hi : Instant} :
    w.HasWindow window lo hi ↔ ∃ d ∈ w.windows, lo = d.start ∧ hi = d.stop ∧
      window = w.payload d.label lo hi := by
  constructor
  · intro ⟨hlabel, hbounds⟩
    rw [Windowing.IsLabel, hw] at hlabel
    obtain ⟨d, hd, hlabel⟩ := List.mem_map.mp hlabel
    rw [← hlabel, windowBounds_declared hw hd] at hbounds
    cases hbounds
    exact ⟨d, hd, rfl, rfl, rfl⟩
  · rintro ⟨d, hd, rfl, rfl, rfl⟩
    constructor
    · rw [Windowing.IsLabel, hw]
      exact List.mem_map_of_mem hd
    · exact windowBounds_declared hw hd

/-- No instant is in two windows of a declaration. -/
theorem Windowing.HasWindow.unique {window window' : Window} {lo hi lo' hi' : Instant}
    (h : w.HasWindow window lo hi) (h' : w.HasWindow window' lo' hi') {x : ℚ}
    (hin : Within lo hi x) (hin' : Within lo' hi' x) : window = window' := by
  cases hw : w.schedule with
  | none => exact absurd hw w.windowed
  | generative c =>
    obtain ⟨s, e, hs, hnext, rfl, rfl, rfl⟩ := (hasWindow_generative hw).mp h
    obtain ⟨s', e', hs', hnext', rfl, rfl, rfl⟩ := (hasWindow_generative hw).mp h'
    cases start_unique hs hs' hnext hnext' hin hin'
    rw [hnext] at hnext'
    cases hnext'
    rfl
  | explicit =>
    obtain ⟨d, hd, rfl, rfl, rfl⟩ := (hasWindow_explicit hw).mp h
    obtain ⟨d', hd', rfl, rfl, rfl⟩ := (hasWindow_explicit hw).mp h'
    have hsame : d = d' := by
      by_contra hne
      have hsymm : Std.Symm fun a b : Declared =>
          ¬b.start.before a.stop ∨ ¬a.start.before b.stop := ⟨fun _ _ h => h.symm⟩
      cases w.disjoint.forall hd hd' hne with
      | inl hapart =>
        have hle := Instant.not_before_iff.mp hapart
        exact absurd hin'.1 (not_le.mpr (hin.2.trans_le hle))
      | inr hapart =>
        have hle := Instant.not_before_iff.mp hapart
        exact absurd hin.1 (not_le.mpr (hin'.2.trans_le hle))
    rw [hsame]

end Bounds

section Filter
variable {w : Windowing} {src : DataSource ℚ}

/-- The comparisons of rational times. -/
def exactTimes : Env ℚ Unit Unit where
  eq a b := decide (a = b)
  lt a b := decide (a < b)
  le a b := decide (a ≤ b)
  assign _ _ := ()
  shardOf _ := ()
  evaluate _ _ := .ok []
  exceeds _ _ := false

/-- A value of the time field passes the filter pair of a window. -/
def Passes (src : DataSource ℚ) (w : Windowing) (window : Window) (value : ℚ) : Prop :=
  ∃ pair, windowTimeFilters src w window.start window.stop = .ok pair ∧
    ∀ p ∈ pair, Processing.compare exactTimes p.op p.values p.value value = true

/-- The time field is a declared base-rate variable. -/
def HasTimeField (src : DataSource ℚ) (w : Windowing) : Prop :=
  ∃ v, src.vars.find? (fun v => v.name = w.timeField) = some v ∧ v.path ≠ ""

theorem passes_iff (hfield : HasTimeField src w) {window : Window} {value : ℚ} :
    Passes src w window value ↔ window.start ≤ value ∧ value < window.stop := by
  obtain ⟨v, hv, hpath⟩ := hfield
  rw [Passes, windowTimeFilters, hv]
  simp only [if_neg hpath, Except.ok.injEq, exists_eq_left', List.forall_mem_cons,
    Processing.compare, exactTimes, decide_eq_true_eq]
  exact and_congr_right fun _ => and_iff_left fun _ h => nomatch h

/-- The values that pass are those whose instant is in the window. -/
theorem Windowing.HasWindow.passes_iff {window : Window} {lo hi : Instant}
    (h : w.HasWindow window lo hi) (hfield : HasTimeField src w) {value : ℚ} :
    Passes src w window value ↔ Within lo hi (w.encoding.offsetToUtc value) := by
  rw [Windows.passes_iff hfield, eq_payload h.2]
  exact and_congr (w.encoding.utcToOffset_le_iff) (w.encoding.lt_utcToOffset_iff)

end Filter

end Zagg.Windows
