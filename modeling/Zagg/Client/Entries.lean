import Zagg.Client.PollerRun

/-!
# One entry at a time

A resolve pass, a selection and an invoke each act on a shard's entry alone, and note events
of that shard only. What they can do to an entry is listed once here.
-/
namespace Zagg.Client

open Zagg.Lib

def Event.key : Event → StatusKey
  | .invoked key _ => key
  | .acted key _ => key
  | .dropped key _ _ => key
  | .resolved key _ => key

/-- One shard's history. -/
def eventsOf (key : StatusKey) (events : List Event) : List Event :=
  events.filter fun ev => ev.key = key

section Events
variable {key : StatusKey} {events events' : List Event}

theorem eventsOf_append : eventsOf key (events ++ events') = eventsOf key events ++ eventsOf key events' :=
  List.filter_append ..

theorem eventsOf_eq_self (h : ∀ ev ∈ events, ev.key = key) : eventsOf key events = events :=
  List.filter_eq_self.mpr fun ev hev => decide_eq_true (h ev hev)

theorem eventsOf_eq_nil (h : ∀ ev ∈ events, ev.key ≠ key) : eventsOf key events = [] :=
  List.filter_eq_nil_iff.mpr fun ev hev => by rw [decide_eq_true_eq]; exact h ev hev

theorem key_of_mem_resolvedEvent {e : Entry} {ev : Event} (h : ev ∈ resolvedEvent e) :
    ev.key = e.key := by
  rw [resolvedEvent, Option.mem_toList, Option.map_eq_some_iff] at h
  obtain ⟨r, -, rfl⟩ := h
  rfl

theorem resolvedEvent_of_none {e : Entry} (h : e.future = none) : resolvedEvent e = [] := by
  rw [resolvedEvent, h]
  rfl

end Events

section Resolve
variable {cfg : Config} {reads : Reads} {e : Entry}

/-- An object whose attempt is noted as acted on. -/
def Seen (consumed : List AttemptId) (object : Json) : Prop :=
  ∃ fields id, object = .obj fields ∧ (Json.field fields "attempt_id").truthy = true ∧
    attemptId (Json.field fields "attempt_id") = .ok id ∧ id ∈ consumed

/-- Why a drop is classified: nothing stands, the GET failed, or the attempt was seen. -/
def NothingNew (reads : Reads) (e : Entry) : Prop :=
  reads.standing e.key = none ∨ reads.unreadable e.key = true ∨
    ∃ object, reads.standing e.key = some object ∧ Seen e.consumed object

/-- What the resolve pass does to a pending entry. -/
inductive Resolves (cfg : Config) (reads : Reads) (e : Entry) : Entry → List Event → Prop
  | waits (consumed : List AttemptId) : Resolves cfg reads e { e with consumed := consumed } []
  | acts (consumed : List AttemptId) (fields : List (String × Json)) (duration : Json)
      (standing : reads.standing e.key = some (.obj fields)) :
      Resolves cfg reads e
        { e with
          consumed := consumed
          future := some (resolutionOf (reads.clock e.key) e fields duration) }
        [.acted e.key (Json.field fields "attempt_id"),
          .resolved e.key (resolutionOf (reads.clock e.key) e fields duration)]
  | refires (late : pastDeadline cfg reads.now e = true) (nothing : NothingNew reads e)
      (live : e.live = true) (refires : e.dropRefires < maxDropRefires)
      (attempts : e.attempts < cfg.retries) :
      Resolves cfg reads e { e with dropRefires := e.dropRefires + 1, queued := true }
        [.dropped e.key (reads.standing e.key) e.consumed]
  | givesUp (r : Result) (late : pastDeadline cfg reads.now e = true) (nothing : NothingNew reads e) :
      Resolves cfg reads e { e with future := some (.failure .drop r) }
        [.dropped e.key (reads.standing e.key) e.consumed, .resolved e.key (.failure .drop r)]

theorem noteAttempt_ok {attempt : Json} {noted : Option Entry} (h : noteAttempt e attempt = .ok noted) :
    (∃ consumed, noted = some { e with consumed := consumed }) ∨
      (noted = none ∧ attempt.truthy = true ∧ ∃ id, attemptId attempt = .ok id ∧ id ∈ e.consumed) := by
  rw [noteAttempt] at h
  split_ifs at h with htruthy
  · cases hid : attemptId attempt with
    | error err => rw [hid] at h; cases h
    | ok id =>
      rw [hid] at h
      replace h := Except.ok.inj h
      dsimp only at h
      split_ifs at h with hseen
      · exact .inr ⟨h.symm, htruthy, id, rfl, hseen.1⟩
      · exact .inl ⟨_, h.symm⟩
  · exact .inl ⟨e.consumed, (Except.ok.inj h).symm⟩

/-- A listed object is acted on, raises with at most its attempt noted, or is not new. -/
theorem consume_cases (now : ℚ) (object : Option Json) :
    (∃ consumed err, consume now e object = .raised { e with consumed := consumed } err) ∨
      (consume now e object = .skipped ∧ ∀ o, object = some o → Seen e.consumed o) ∨
      ∃ consumed fields duration, object = some (.obj fields) ∧ consume now e object =
        .acted { e with consumed := consumed, future := some (resolutionOf now e fields duration) }
          (Json.field fields "attempt_id") := by
  cases object with
  | none => exact .inr (.inl ⟨rfl, nofun⟩)
  | some object =>
    cases object with
    | obj fields =>
      simp only [consume]
      cases hn : noteAttempt e (Json.field fields "attempt_id") with
      | error err => exact .inl ⟨e.consumed, err, rfl⟩
      | ok noted =>
        rcases noteAttempt_ok hn with ⟨consumed, rfl⟩ | ⟨rfl, htruthy, id, hid, hseen⟩
        · cases hd : durationOf (Json.field fields "body").orEmpty with
          | error err => exact .inl ⟨consumed, err, rfl⟩
          | ok duration => exact .inr (.inr ⟨consumed, fields, duration, rfl, rfl⟩)
        · exact .inr (.inl ⟨rfl, fun o ho => ⟨fields, id, (Option.some.inj ho).symm, htruthy, hid, hseen⟩⟩)
    | null | bool | num | inf | nan | str | arr => exact .inl ⟨e.consumed, .attributeError, rfl⟩

theorem resolves_classify (hnothing : NothingNew reads e) (hfuture : e.future = none) :
    Resolves cfg reads e (classify cfg reads e).1 (classify cfg reads e).2 := by
  rw [classify]
  split_ifs with hlate
  · rw [dropped]
    split_ifs with hguard
    · dsimp only
      rw [resolvedEvent_of_none]
      · exact .refires hlate hnothing hguard.1 hguard.2.1 hguard.2.2
      · exact hfuture
    · exact .givesUp _ hlate hnothing
  · exact .waits e.consumed

theorem Entry.pending_iff : e.pending = true ↔ e.queued = false ∧ e.future = none := by
  rw [Entry.pending, Bool.and_eq_true, Bool.not_eq_true', Option.isNone_iff_eq_none]

theorem resolveEntry_resolves (hpending : e.pending = true) :
    Resolves cfg reads e (resolveEntry cfg reads e).1 (resolveEntry cfg reads e).2.1 := by
  have hfuture := (Entry.pending_iff.mp hpending).2
  rw [resolveEntry]
  by_cases hlisted : reads.listed e.key = true
  · rw [if_pos hlisted]
    obtain ⟨object, hobject⟩ := Option.isSome_iff_exists.mp hlisted
    rcases @consume_cases e (reads.clock e.key) (reads.get e.key) with
      ⟨consumed, err, hc⟩ | ⟨hc, hseen⟩ | ⟨consumed, fields, duration, hget, hc⟩
    · rw [hc]
      exact .waits consumed
    · rw [hc]
      refine resolves_classify ?_ hfuture
      by_cases hread : reads.unreadable e.key = true
      · exact .inr (.inl hread)
      · rw [Reads.get, if_neg hread] at hseen
        exact .inr (.inr ⟨object, hobject, hseen object hobject⟩)
    · rw [hc]
      rw [Reads.get] at hget
      split_ifs at hget
      exact .acts consumed fields duration hget
  · rw [if_neg hlisted]
    have hnone : reads.standing e.key = none :=
      Option.not_isSome_iff_eq_none.mp hlisted
    exact resolves_classify (.inl hnone) hfuture

theorem Resolves.key_eq {e' : Entry} {evs : List Event} (h : Resolves cfg reads e e' evs) :
    e'.key = e.key ∧ ∀ ev ∈ evs, ev.key = e.key := by
  cases h with
  | waits => exact ⟨rfl, fun ev hev => absurd hev List.not_mem_nil⟩
  | acts =>
    refine ⟨rfl, fun ev hev => ?_⟩
    rcases List.mem_cons.mp hev with rfl | hev
    · rfl
    · rw [List.mem_singleton.mp hev]
      rfl
  | refires =>
    refine ⟨rfl, fun ev hev => ?_⟩
    rw [List.mem_singleton.mp hev]
    rfl
  | givesUp =>
    refine ⟨rfl, fun ev hev => ?_⟩
    rcases List.mem_cons.mp hev with rfl | hev
    · rfl
    · rw [List.mem_singleton.mp hev]
      rfl

theorem map_key_resolveLanded {es : List Entry} :
    (resolveLanded cfg reads es).1.map Entry.key = es.map Entry.key := by
  induction es with
  | nil => rfl
  | cons e es ih =>
    rw [resolveLanded]
    split_ifs with hpending
    · have hkey := (@resolveEntry_resolves cfg reads e hpending).key_eq.1
      generalize resolveEntry cfg reads e = r at hkey ⊢
      obtain ⟨a, evs, err⟩ := r
      cases err with
      | some err => rw [List.map_cons, List.map_cons, hkey]
      | none => rw [List.map_cons, List.map_cons, hkey, ih]
    · rw [List.map_cons, List.map_cons, ih]

/-- An event of the pass is one of a pending entry's. -/
theorem resolves_of_mem {es : List Entry} {ev : Event} (h : ev ∈ (resolveLanded cfg reads es).2.1) :
    ∃ e ∈ es, e.pending = true ∧ ∃ e' evs, Resolves cfg reads e e' evs ∧ ev ∈ evs := by
  induction es with
  | nil => cases h
  | cons e es ih =>
    have hrest : ev ∈ (resolveLanded cfg reads es).2.1 →
        ∃ x ∈ e :: es, x.pending = true ∧ ∃ e' evs, Resolves cfg reads x e' evs ∧ ev ∈ evs := by
      intro h
      obtain ⟨x, hx, hres⟩ := ih h
      exact ⟨x, .tail _ hx, hres⟩
    rw [resolveLanded] at h
    split_ifs at h with hpending
    · have hres := @resolveEntry_resolves cfg reads e hpending
      generalize resolveEntry cfg reads e = r at h hres
      obtain ⟨a, evs, err⟩ := r
      cases err with
      | some err => exact ⟨e, .head _, hpending, a, evs, hres, h⟩
      | none =>
        rcases List.mem_append.mp h with h | h
        · exact ⟨e, .head _, hpending, a, evs, hres, h⟩
        · exact hrest h
    · exact hrest h

theorem keys_resolveLanded {es : List Entry} {ev : Event}
    (h : ev ∈ (resolveLanded cfg reads es).2.1) : ev.key ∈ es.map Entry.key := by
  obtain ⟨e, he, -, e', evs, hres, hev⟩ := resolves_of_mem h
  rw [hres.key_eq.2 ev hev]
  exact List.mem_map_of_mem he

/-- Each entry of the pass is as it was, or resolved for itself. -/
theorem mem_resolveLanded {es : List Entry} {e' : Entry} (hnodup : (es.map Entry.key).Nodup)
    (h : e' ∈ (resolveLanded cfg reads es).1) :
    ∃ e ∈ es, e'.key = e.key ∧
      ((e' = e ∧ eventsOf e.key (resolveLanded cfg reads es).2.1 = []) ∨
        e.pending = true ∧
          Resolves cfg reads e e' (eventsOf e.key (resolveLanded cfg reads es).2.1)) := by
  induction es with
  | nil => cases h
  | cons e es ih =>
    rw [List.map_cons, List.nodup_cons] at hnodup
    have hrest : ∀ ev ∈ (resolveLanded cfg reads es).2.1, ev.key ≠ e.key := by
      intro ev hev heq
      exact hnodup.1 (heq ▸ keys_resolveLanded hev)
    have hother : ∀ x ∈ es, x.key ≠ e.key := fun x hx heq =>
      hnodup.1 (heq ▸ List.mem_map_of_mem hx)
    rw [resolveLanded] at h ⊢
    split_ifs at h ⊢ with hpending
    · have hres := @resolveEntry_resolves cfg reads e hpending
      generalize resolveEntry cfg reads e = r at h hres ⊢
      obtain ⟨a, evs, err⟩ := r
      obtain ⟨hkey, hevs⟩ := hres.key_eq
      have hmine : eventsOf e.key evs = evs := eventsOf_eq_self hevs
      have hskip : ∀ x ∈ es, eventsOf x.key evs = [] := fun x hx =>
        eventsOf_eq_nil fun ev hev heq => hother x hx (heq.symm.trans (hevs ev hev))
      cases err with
      | some err =>
        rcases List.mem_cons.mp h with rfl | h
        · exact ⟨e, .head _, hkey, .inr ⟨hpending, by rw [hmine]; exact hres⟩⟩
        · exact ⟨e', .tail _ h, rfl, .inl ⟨rfl, hskip e' h⟩⟩
      | none =>
        rcases List.mem_cons.mp h with rfl | h
        · refine ⟨e, .head _, hkey, .inr ⟨hpending, ?_⟩⟩
          rw [eventsOf_append, hmine, eventsOf_eq_nil hrest, List.append_nil]
          exact hres
        · obtain ⟨x, hx, hxkey, hcases⟩ := ih hnodup.2 h
          refine ⟨x, .tail _ hx, hxkey, ?_⟩
          rw [eventsOf_append, hskip x hx, List.nil_append]
          exact hcases
    · rcases List.mem_cons.mp h with rfl | h
      · exact ⟨e', .head _, rfl, .inl ⟨rfl, eventsOf_eq_nil hrest⟩⟩
      · obtain ⟨x, hx, hxkey, hcases⟩ := ih hnodup.2 h
        exact ⟨x, .tail _ hx, hxkey, hcases⟩

end Resolve
end Zagg.Client
