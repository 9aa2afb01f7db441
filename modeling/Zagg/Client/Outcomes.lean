import Zagg.Client.Budget

/-!
# Sound outcomes

A future carries what a worker of the run wrote for its shard, or that nothing was there to be
read. The second fails for an object whose GET faults at a tick past the deadline.
-/
namespace Zagg.Client

open Zagg.Lib

section Worker

/-- `BENIGN_ERRORS`. -/
def benignErrors : List String := ["No granules found", "No data after filtering"]

/-- `code == 200`. -/
def isOk : Json → Bool
  | .num q => decide (q = 200)
  | _ => false

/-- The status a worker reports for its envelope. -/
def statusText (code error : Json) : String :=
  if error.isOneOf benignErrors then "no_data"
  else if isOk code ∧ error.truthy = false then "ok"
  else "failed"

/-- `STATUS_SCHEMA_VERSION`. -/
def schemaVersion : Json := .num 1

/-- `build_shard_status`, given the execution's attempt id and the body as parsed. `render` is
`str` of a truthy error. -/
def buildShardStatus (render : Json → String) (runId : String) (key : StatusKey) (attempt : String)
    (code : Json) (body : List (String × Json)) : Json :=
  let error := Json.field body "error"
  .obj [("schema_version", schemaVersion),
    ("status", .str (statusText code error)),
    ("attempt_id", .str attempt),
    ("run_id", .str runId),
    ("shard", .str (toString key.shard)),
    ("window", (key.window.map Json.str).getD .null),
    ("timings", Json.field body "phase_timings"),
    ("error", if error.truthy then .str (render error) else .null),
    ("status_code", code),
    ("body", .obj body)]

theorem statusText_cases (code error : Json) :
    statusText code error = "no_data" ∨ statusText code error = "ok" ∨
      statusText code error = "failed" := by
  rw [statusText]
  split_ifs
  · exact .inl rfl
  · exact .inr (.inl rfl)
  · exact .inr (.inr rfl)

end Worker

section Soundness
variable (cfg : Config) (render : Json → String) (runId : String)

/-- A worker of the run wrote the object for the shard. -/
def WorkerWrote (key : StatusKey) (object : Json) : Prop :=
  ∃ attempt code body, object = buildShardStatus render runId key attempt code body

/-- The steps of a run: workers write the objects, and no shard is past its deadline at a tick
where its object stands and its GET fails. -/
def Readable (s : State) : Act → Prop
  | .land key object => WorkerWrote render runId key object
  | .resolve now listFails unreadable _ =>
    listFails = true ∨ ∀ e ∈ s.entries, e.pending = true → pastDeadline cfg now e = true →
      (s.objects.lookup e.key).isSome = true → unreadable e.key = false
  | _ => True

/-- What a resolved future says, against what was written and done. -/
def Justified (written : List (StatusKey × Json)) (events : List Event) (key : StatusKey) :
    Resolution → Prop
  | .result r => ∃ attempt code body,
      (key, buildShardStatus render runId key attempt code body) ∈ written ∧
      (statusText code (Json.field body "error") = "ok" ∨
        statusText code (Json.field body "error") = "no_data") ∧
      r.body = .obj body ∧ r.statusCode = code
  | .failure .worker r => ∃ attempt code body,
      (key, buildShardStatus render runId key attempt code body) ∈ written ∧
      statusText code (Json.field body "error") = "failed" ∧ r.body = .obj body ∧ r.statusCode = code
  | .failure .drop _ => ∃ standing consumed, .dropped key standing consumed ∈ events
  | .failure .invoke _ => True
  | .failure .shutdown _ => True

structure Sound (s : State) : Prop where
  written : ∀ key object, s.objects.lookup key = some object → (key, object) ∈ s.written
  workers : ∀ x ∈ s.written, WorkerWrote render runId x.1 x.2
  futures : ∀ e ∈ s.entries, ∀ r, e.future = some r → Justified render runId s.written s.events e.key r
  drops : ∀ key standing consumed, .dropped key standing consumed ∈ s.events →
    ∀ object, standing = some object → Seen consumed object

variable {cfg render runId} {s s' : State} {e e' : Entry}

theorem Justified.mono {written written' : List (StatusKey × Json)} {events events' : List Event}
    {key : StatusKey} {r : Resolution} (h : Justified render runId written events key r)
    (hwritten : written ⊆ written') (hevents : events ⊆ events') :
    Justified render runId written' events' key r := by
  cases r with
  | result r =>
    obtain ⟨attempt, code, body, hw, hrest⟩ := h
    exact ⟨attempt, code, body, hwritten hw, hrest⟩
  | failure cause r =>
    cases cause with
    | worker =>
      obtain ⟨attempt, code, body, hw, hrest⟩ := h
      exact ⟨attempt, code, body, hwritten hw, hrest⟩
    | drop =>
      obtain ⟨standing, consumed, hev⟩ := h
      exact ⟨standing, consumed, hevents hev⟩
    | invoke => trivial
    | shutdown => trivial

theorem orEmpty_obj (fields : List (String × Json)) : (Json.obj fields).orEmpty = .obj fields := by
  cases fields <;> rfl

/-- An object a worker wrote, as the poller resolves from it. -/
theorem justified_resolutionOf {now : ℚ} {key : StatusKey} {fields : List (String × Json)}
    {duration : Json} {written : List (StatusKey × Json)} {events : List Event}
    (hworker : WorkerWrote render runId key (.obj fields))
    (hwritten : (key, Json.obj fields) ∈ written) :
    Justified render runId written events key (resolutionOf now e fields duration) := by
  obtain ⟨attempt, code, body, hobject⟩ := hworker
  rw [hobject] at hwritten
  have hstatus : Json.field fields "status" = .str (statusText code (Json.field body "error")) := by
    rw [Json.obj.inj hobject]
    rfl
  have hcode : Json.field fields "status_code" = code := by
    rw [Json.obj.inj hobject]
    rfl
  have hbody : (Json.field fields "body").orEmpty = .obj body := by
    rw [Json.obj.inj hobject]
    exact orEmpty_obj body
  have hone : ∀ text, (Json.str text).isOneOf ["ok", "no_data"] =
      decide (text = "ok" ∨ text = "no_data") := by
    intro text
    simp only [Json.isOneOf, List.mem_cons, List.not_mem_nil, or_false]
  rw [resolutionOf, hstatus, hcode, hbody, hone]
  split_ifs with hdone
  · exact ⟨attempt, code, body, hwritten, of_decide_eq_true hdone, rfl, rfl⟩
  · refine ⟨attempt, code, body, hwritten, ?_, rfl, rfl⟩
    rcases statusText_cases code (Json.field body "error") with h | h | h
    · exact absurd (decide_eq_true (.inr h)) hdone
    · exact absurd (decide_eq_true (.inl h)) hdone
    · exact h

theorem Sound.land (h : Sound render runId s) {key : StatusKey} {object : Json}
    (hworker : WorkerWrote render runId key object) :
    Sound render runId
      { s with objects := put key object s.objects, written := (key, object) :: s.written } where
  written k o hk := by
    dsimp only at hk ⊢
    by_cases hkey : k = key
    · rw [hkey, lookup_put_self] at hk
      rw [hkey, ← Option.some.inj hk]
      exact .head _
    · rw [lookup_put_of_ne hkey] at hk
      exact .tail _ (h.written k o hk)
  workers x hx := by
    rcases List.mem_cons.mp hx with rfl | hx
    · exact hworker
    · exact h.workers x hx
  futures e he r hr := (h.futures e he r hr).mono (List.subset_cons_self _ _) (List.Subset.refl _)
  drops := h.drops

theorem mem_of_eventsOf {key : StatusKey} {events : List Event} {ev : Event}
    (h : ev ∈ eventsOf key events) : ev ∈ events := (List.mem_filter.mp h).1

theorem Sound.resolve (h : Sound render runId s) (hinv : Inv cfg s) {now : ℚ}
    {unreadable : StatusKey → Bool} {clock : StatusKey → ℚ}
    (hread : ∀ e ∈ s.entries, e.pending = true → pastDeadline cfg now e = true →
      (s.objects.lookup e.key).isSome = true → unreadable e.key = false) :
    Sound render runId { s with
      entries := (resolveLanded cfg (s.reads now unreadable clock) s.entries).1
      events := s.events ++ (resolveLanded cfg (s.reads now unreadable clock) s.entries).2.1 } where
  written := h.written
  workers := h.workers
  futures e' he' r hr := by
    obtain ⟨e, he, hkey, hcases⟩ := mem_resolveLanded hinv.keys_nodup he'
    have hgrow : s.events ⊆
        s.events ++ (resolveLanded cfg (s.reads now unreadable clock) s.entries).2.1 :=
      List.subset_append_left _ _
    have hold : ∀ r, e.future = some r → Justified render runId s.written
        (s.events ++ (resolveLanded cfg (s.reads now unreadable clock) s.entries).2.1) e'.key r :=
      fun r hr => hkey ▸ (h.futures e he r hr).mono (List.Subset.refl _) hgrow
    rcases hcases with ⟨rfl, -⟩ | ⟨hpending, hres⟩
    · exact hold r hr
    · have hfuture := (Entry.pending_iff.mp hpending).2
      generalize hevs : eventsOf e.key _ = evs at hres
      cases hres with
      | waits => exact hold r hr
      | acts consumed fields duration hstanding =>
        obtain rfl := Option.some.inj hr
        have hwritten := h.written e.key _ hstanding
        exact justified_resolutionOf (h.workers _ hwritten) hwritten
      | refires =>
        rw [hfuture] at hr
        cases hr
      | givesUp r' hlate hnothing =>
        obtain rfl := Option.some.inj hr
        have hdrop : Event.dropped e.key (s.objects.lookup e.key) e.consumed ∈
            eventsOf e.key (resolveLanded cfg (s.reads now unreadable clock) s.entries).2.1 := by
          rw [hevs]
          exact .head _
        exact ⟨_, _, List.mem_append_right _ (mem_of_eventsOf hdrop)⟩
  drops key standing consumed hev object hobject := by
    rcases List.mem_append.mp hev with hev | hev
    · exact h.drops key standing consumed hev object hobject
    · obtain ⟨e, he, hpending, e', evs, hres, hmem⟩ := resolves_of_mem hev
      have hread' := hread e he hpending
      have hnew : ∀ consumed, consumed = e.consumed → NothingNew (s.reads now unreadable clock) e →
          pastDeadline cfg now e = true → s.objects.lookup e.key = some object →
            Seen consumed object := by
        intro consumed hconsumed hnothing hlate hstanding
        rcases hnothing with hnone | hunread | ⟨o, ho, hseen⟩
        · exact absurd (hnone.symm.trans hstanding) (by nofun)
        · have hfalse := hread' hlate (by rw [hstanding]; rfl)
          exact absurd (hfalse.symm.trans hunread) Bool.false_ne_true
        · rw [hconsumed, ← Option.some.inj (ho.symm.trans hstanding)]
          exact hseen
      cases hres with
      | waits => cases hmem
      | acts =>
        rcases List.mem_cons.mp hmem with heq | hmem
        · cases heq
        · cases List.mem_singleton.mp hmem
      | refires hlate hnothing =>
        cases List.mem_singleton.mp hmem
        exact hnew _ rfl hnothing hlate hobject
      | givesUp r hlate hnothing =>
        rcases List.mem_cons.mp hmem with heq | hmem
        · cases heq
          exact hnew _ rfl hnothing hlate hobject
        · cases List.mem_singleton.mp hmem

/-- A fired shard resolves at most as an invoke fault. -/
theorem fire_future (now : ℚ) (fault : Option String) (e : Entry) :
    (fire cfg now fault e).future = e.future ∨
      ∃ r, (fire cfg now fault e).future = some (.failure .invoke r) := by
  rw [fire]
  split_ifs
  · cases fault with
    | none => exact .inl rfl
    | some msg =>
      dsimp only [invokeFaulted]
      split_ifs
      · exact .inl rfl
      · exact .inr ⟨_, rfl⟩
  · exact .inl rfl

theorem not_dropped_of_resolvedEvent {e : Entry} {key : StatusKey} {standing : Option Json}
    {consumed : List AttemptId} : .dropped key standing consumed ∉ resolvedEvent e := by
  intro h
  rw [resolvedEvent, Option.mem_toList, Option.map_eq_some_iff] at h
  obtain ⟨r, -, hr⟩ := h
  cases hr

theorem Sound.step (h : Sound render runId s) (hinv : Inv cfg s) {act : Act}
    (hread : Readable cfg render runId s act) (hs : step cfg s act = some s') :
    Sound render runId s' := by
  cases act with
  | register key label live granuleCount dispatchedAt now =>
    rw [Client.step] at hs
    split_ifs at hs
    · cases hs
      exact {
        written := h.written
        workers := h.workers
        futures := fun e he r hr =>
          (h.futures e he r hr).mono (List.Subset.refl _) (List.subset_append_left _ _)
        drops := fun key standing consumed hev => by
          rcases List.mem_append.mp hev with hev | hev
          · exact h.drops key standing consumed hev
          · exact absurd hev not_dropped_of_resolvedEvent }
    · cases hs
      exact {
        written := h.written
        workers := h.workers
        futures := fun e he r hr => by
          rcases List.mem_append.mp he with he | he
          · exact h.futures e he r hr
          · rw [List.mem_singleton.mp he] at hr
            cases hr
        drops := h.drops }
  | shutdown =>
    cases hs
    exact ⟨h.written, h.workers, h.futures, h.drops⟩
  | land key object =>
    cases hs
    exact h.land hread
  | resolve now listFails unreadable clock =>
    rw [Client.step] at hs
    split_ifs at hs with hbatch hlist
    · cases hs
      exact h
    · cases hs
      exact h.resolve hinv (hread.resolve_left hlist)
  | select now =>
    rw [Client.step] at hs
    split_ifs at hs with hbatch
    cases hs
    exact {
      written := h.written
      workers := h.workers
      futures := fun e' he' r hr => by
        obtain ⟨e, he, rfl⟩ := List.mem_map.mp he'
        split_ifs at hr ⊢
        · exact h.futures e he r hr
        · exact h.futures e he r hr
      drops := h.drops }
  | invoke now fault =>
    simp only [Client.step] at hs
    cases hb : s.batch with
    | nil =>
      rw [hb] at hs
      cases hs
    | cons key batch =>
      rw [hb] at hs
      cases hs
      exact {
        written := h.written
        workers := h.workers
        futures := fun e' he' r hr => by
          obtain ⟨e, he, rfl⟩ := List.mem_map.mp he'
          have hold : ∀ evs r, e.future = some r →
              Justified render runId s.written (s.events ++ evs) e.key r := fun evs r hr =>
            (h.futures e he r hr).mono (List.Subset.refl _) (List.subset_append_left _ _)
          split_ifs at hr ⊢
          · rw [fire_key]
            rcases @fire_future cfg now fault e with hf | ⟨r', hf⟩
            · exact hold _ r (hf.symm.trans hr)
            · rw [← Option.some.inj (hf.symm.trans hr)]
              trivial
          · exact hold _ r hr
        drops := fun k standing consumed hev => by
          rcases List.mem_append.mp hev with hev | hev
          · exact h.drops k standing consumed hev
          · obtain ⟨e, -, hev⟩ := List.mem_flatMap.mp hev
            rw [fireEvents] at hev
            split_ifs at hev
            · rcases List.mem_cons.mp hev with heq | hev
              · cases heq
              · exact absurd hev not_dropped_of_resolvedEvent
            · cases hev }

theorem sound_start : Sound render runId State.start where
  written _ _ h := by cases h
  workers _ h := absurd h List.not_mem_nil
  futures _ h := absurd h List.not_mem_nil
  drops _ _ _ h := absurd h List.not_mem_nil

/-- In a run whose objects workers wrote, and whose GETs of standing objects succeed for the
shards past their deadline, every future says what a worker wrote for the shard, and a drop is
classified only where no object stands that was not acted on. -/
theorem outcomes_sound (h : Reach (Client.step cfg) (Readable cfg render runId) State.start s) :
    (∀ e ∈ s.entries, ∀ r, e.future = some r → Justified render runId s.written s.events e.key r) ∧
      ∀ key standing consumed, .dropped key standing consumed ∈ s.events →
        ∀ object, standing = some object → Seen consumed object := by
  have hboth : Inv cfg s ∧ Sound render runId s := by
    apply h.invariant
    · exact ⟨inv_start, sound_start⟩
    · intro s s' act hs hread he
      exact ⟨hs.1.step he, hs.2.step hs.1 hread he⟩
  exact ⟨hboth.2.futures, hboth.2.drops⟩

end Soundness

section Attached

/-- The object of a shard that wrote its data. -/
def okStatus (attempt : String) : Json :=
  buildShardStatus (fun _ => "") "r1" ⟨7, none⟩ attempt (.num 200) [("duration_s", .num 12)]

/-- A run attached at 5000 s to a shard dispatched at 1000 s, whose object already landed. -/
def attached (unreadable : StatusKey → Bool) : List Act :=
  [.land ⟨7, none⟩ (okStatus "a1"), .register ⟨7, none⟩ "7" false 0 (some 1000) 5000,
    .resolve 5000 false unreadable fun _ => 5000]

def Entry.succeeded (e : Entry) : Bool :=
  match e.future with
  | some (.result _) => true
  | _ => false

def Entry.failedUnknown (e : Entry) : Bool :=
  match e.future with
  | some (.failure .drop r) => decide (r.outcome = some "failed-unknown")
  | _ => false

theorem outcomes_sound_attached :
    ∃ s, exec (step ⟨1070, 3, none⟩) State.start (attached fun _ => false) = some s ∧
      s.entries.any Entry.succeeded = true ∧
      (∀ e ∈ s.entries, ∀ r, e.future = some r →
        Justified (fun _ => "") "r1" s.written s.events e.key r) ∧
      ∀ key standing consumed, .dropped key standing consumed ∈ s.events →
        ∀ object, standing = some object → Seen consumed object := by
  have hrun : (exec (step ⟨1070, 3, none⟩) State.start (attached fun _ => false)).any (fun s =>
      s.entries.any Entry.succeeded) = true := by decide +kernel
  obtain ⟨s, hs, hdone⟩ := (Option.any_eq_true _ _).mp hrun
  refine ⟨s, hs, hdone, ?_⟩
  apply outcomes_sound
  refine Reach.of_exec_forall (fun act hact s => ?_) hs
  rcases List.mem_cons.mp hact with rfl | hact
  · exact ⟨"a1", .num 200, [("duration_s", .num 12)], rfl⟩
  · rcases List.mem_cons.mp hact with rfl | hact
    · trivial
    · rw [List.mem_singleton.mp hact]
      exact .inr fun _ _ _ _ _ => rfl

/-- One faulting GET on the first tick of an attached run gives the shard up as having no
status object, while its `ok` object stands and was never acted on. -/
theorem attached_failed_unknown :
    ∃ s, exec (step ⟨1070, 3, none⟩) State.start (attached fun _ => true) = some s ∧
      s.objects = [(⟨7, none⟩, okStatus "a1")] ∧
      ∃ e ∈ s.entries, e.key = ⟨7, none⟩ ∧ e.consumed = [] ∧ e.failedUnknown = true := by
  have hrun : (exec (step ⟨1070, 3, none⟩) State.start (attached fun _ => true)).any (fun s =>
      s.entries.any fun e => decide (e.key = ⟨7, none⟩ ∧ e.consumed = [] ∧ e.failedUnknown = true)) =
      true := by decide +kernel
  refine ⟨_, rfl, rfl, ?_⟩
  obtain ⟨s, hs, hany⟩ := (Option.any_eq_true _ _).mp hrun
  rw [Option.some.inj hs]
  obtain ⟨e, he, hp⟩ := List.any_eq_true.mp hany
  exact ⟨e, he, of_decide_eq_true hp⟩

end Attached
end Zagg.Client
