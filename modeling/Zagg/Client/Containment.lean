import Mathlib.Algebra.Order.BigOperators.Group.List
import Mathlib.Algebra.Order.Ring.Nat
import Zagg.Client.Budget

/-!
# One bad status object

A tick resolves every pending shard in one loop. What an object's shape makes that loop raise
ends it, and the dispatch that would follow.
-/
namespace Zagg.Client

open Zagg.Lib

section Tick
variable (cfg : Config)

/-- One pass of the dispatch loop: the selection's clock, and each invoke's. -/
structure Round where
  now : ℚ
  clock : StatusKey → ℚ
  fault : StatusKey → Option String

def fireBatch (round : Round) (batch : List StatusKey) (es : List Entry) : List Entry :=
  es.map fun e => if e.key ∈ batch then fire cfg (round.clock e.key) (round.fault e.key) e else e

/-- The passes of `_dispatch_up_to_window`, until one selects nothing. -/
def dispatchRounds (rounds : Nat → Round) : (fuel n : Nat) → List Entry → List Entry
  | 0, _, es => es
  | fuel + 1, n, es =>
    let batch := batchOf cfg (rounds n).now es
    if batch = [] then es
    else dispatchRounds rounds fuel (n + 1) (fireBatch cfg (rounds n) batch (unqueue batch es))

/-- The invokes a queued shard has left, and one more pass to find it gone. -/
def budget (e : Entry) : Nat := if e.queued && e.future.isNone then cfg.retries - e.attempts + 1 else 0

def dispatchUpToWindow (rounds : Nat → Round) (es : List Entry) : List Entry :=
  dispatchRounds cfg rounds ((es.map (budget cfg)).sum + 1) 0 es

/-- `_tick`, its LIST succeeding. -/
def tick (reads : Reads) (rounds : Nat → Round) (es : List Entry) : List Entry × Option PyError :=
  let r := resolveLanded cfg reads es
  match r.2.2 with
  | some err => (r.1, some err)
  | none => (dispatchUpToWindow cfg rounds r.1, none)

end Tick

section Window
variable {cfg : Config}

theorem budget_fire_lt {e : Entry} {now t : ℚ} (h : e.eligible now = true) (fault : Option String) :
    budget cfg (fire cfg t fault { e with queued := false }) < budget cfg e := by
  rw [Entry.eligible, Bool.and_eq_true] at h
  have hold : budget cfg e = cfg.retries - e.attempts + 1 := by rw [budget, if_pos h.1]
  rw [hold, fire]
  split_ifs with hlive
  · cases fault with
    | none => exact Nat.succ_pos _
    | some msg =>
      dsimp only [invokeFaulted]
      split_ifs with hretry
      · rw [budget]
        split_ifs
        · dsimp only at hretry ⊢
          omega
        · omega
      · exact Nat.succ_pos _
  · exact Nat.succ_pos _

/-- A pass that selects a shard spends from the budget. -/
theorem budget_round_lt {es : List Entry} (hnodup : (es.map Entry.key).Nodup) (round : Round)
    (hbatch : batchOf cfg round.now es ≠ []) :
    ((fireBatch cfg round (batchOf cfg round.now es)
      (unqueue (batchOf cfg round.now es) es)).map (budget cfg)).sum < (es.map (budget cfg)).sum := by
  have hchosen : ∀ e ∈ es, e.key ∈ batchOf cfg round.now es → e.eligible round.now = true := by
    intro e he hmem
    obtain ⟨x, hx, hkey, heligible⟩ := mem_batchOf hmem
    exact List.inj_on_of_nodup_map hnodup hx he hkey ▸ heligible
  have hmap : (fireBatch cfg round (batchOf cfg round.now es)
      (unqueue (batchOf cfg round.now es) es)).map (budget cfg) = es.map fun e =>
        if e.key ∈ batchOf cfg round.now es then
          budget cfg (fire cfg (round.clock e.key) (round.fault e.key) { e with queued := false })
        else budget cfg e := by
    rw [fireBatch, unqueue, List.map_map, List.map_map]
    refine List.map_congr_left fun e _ => ?_
    rw [Function.comp_apply, Function.comp_apply]
    by_cases hmem : e.key ∈ batchOf cfg round.now es
    · rw [if_pos hmem, if_pos hmem, if_pos hmem]
    · rw [if_neg hmem, if_neg hmem, if_neg hmem]
  rw [hmap]
  obtain ⟨key, hkey⟩ := List.exists_mem_of_ne_nil _ hbatch
  obtain ⟨x, hx, rfl, heligible⟩ := mem_batchOf hkey
  refine List.sum_lt_sum _ _ (fun e he => ?_) ⟨x, hx, ?_⟩
  · split_ifs with hmem
    · exact (budget_fire_lt (hchosen e he hmem) _).le
    · exact le_rfl
  · rw [if_pos hkey]
    exact budget_fire_lt heligible _

theorem nodup_round {es : List Entry} (hnodup : (es.map Entry.key).Nodup) (round : Round)
    (batch : List StatusKey) : ((fireBatch cfg round batch (unqueue batch es)).map Entry.key).Nodup := by
  have hkeys : (fireBatch cfg round batch (unqueue batch es)).map Entry.key =
      (unqueue batch es).map Entry.key := by
    rw [fireBatch, List.map_map]
    refine List.map_congr_left fun e _ => ?_
    rw [Function.comp_apply]
    split_ifs
    · exact fire_key _ _ e
    · rfl
  rw [hkeys, map_key_unqueue]
  exact hnodup

/-- The loop ends with nothing left to select: the window is full or no shard is due. -/
theorem dispatchRounds_filled (rounds : Nat → Round) {fuel : Nat} (n : Nat) {es : List Entry}
    (hnodup : (es.map Entry.key).Nodup) (hfuel : (es.map (budget cfg)).sum < fuel) :
    ∃ m, batchOf cfg (rounds m).now (dispatchRounds cfg rounds fuel n es) = [] := by
  induction fuel generalizing n es with
  | zero => omega
  | succ fuel ih =>
    rw [dispatchRounds]
    split_ifs with hbatch
    · exact ⟨n, hbatch⟩
    · have hless := budget_round_lt hnodup (rounds n) hbatch
      exact ih (n + 1) (nodup_round hnodup _ _) (by omega)

end Window

section Shapes
variable {cfg : Config} {reads : Reads} {rounds : Nat → Round} {es : List Entry} {key : StatusKey}

def hashable (attempt : Json) : Bool :=
  match attemptId attempt with
  | .ok _ => true
  | .error _ => false

/-- A mapping whose `attempt_id` is falsy or hashable and whose `body` is falsy or a mapping. -/
def wellShaped : Json → Bool
  | .obj fields =>
    (!(Json.field fields "attempt_id").truthy || hashable (Json.field fields "attempt_id")) &&
      (!(Json.field fields "body").truthy || (Json.field fields "body").isDict)
  | _ => false

theorem durationOf_orEmpty (body : Json) :
    (∃ duration, durationOf body.orEmpty = .ok duration) ↔
      (!body.truthy || body.isDict) = true := by
  cases htruthy : body.truthy with
  | false =>
    rw [Json.orEmpty_of_falsy htruthy]
    exact iff_of_true ⟨_, rfl⟩ rfl
  | true =>
    rw [Json.orEmpty_of_truthy htruthy]
    cases body with
    | obj fields => exact iff_of_true ⟨_, rfl⟩ rfl
    | null | bool | num | inf | nan | str | arr =>
      refine iff_of_false (fun hex => ?_) Bool.false_ne_true
      obtain ⟨duration, h⟩ := hex
      simp only [durationOf] at h
      rw [if_pos htruthy] at h
      cases h

theorem noteAttempt_error {e : Entry} {attempt : Json} :
    (∃ err, noteAttempt e attempt = .error err) ↔ (!attempt.truthy || hashable attempt) = false := by
  rw [noteAttempt, hashable]
  cases attempt.truthy with
  | false => exact iff_of_false (fun hex => by cases hex.choose_spec) (fun h => by cases h)
  | true =>
    cases attemptId attempt with
    | ok id => exact iff_of_false (fun hex => by cases hex.choose_spec) (fun h => by cases h)
    | error err => exact iff_of_true ⟨err, rfl⟩ rfl

/-- A well-shaped object, or none at all, raises in no state of the entry. -/
theorem not_raised_of_wellShaped {now : ℚ} {e e' : Entry} {object : Option Json} {err : PyError}
    (h : ∀ o, object = some o → wellShaped o = true) : consume now e object ≠ .raised e' err := by
  cases object with
  | none =>
    intro h
    cases h
  | some o =>
    have hshape := h o rfl
    cases o with
    | obj fields =>
      rw [wellShaped, Bool.and_eq_true] at hshape
      obtain ⟨duration, hduration⟩ := (durationOf_orEmpty _).mpr hshape.2
      rw [consume]
      cases hnote : noteAttempt e (Json.field fields "attempt_id") with
      | error err =>
        have hbad := noteAttempt_error.mp ⟨err, hnote⟩
        rw [hshape.1] at hbad
        cases hbad
      | ok noted =>
        cases noted with
        | none =>
          intro h
          cases h
        | some e =>
          simp only [hduration]
          intro h
          cases h
    | null | bool | num | inf | nan | str | arr => cases hshape

/-- Any other object raises for an entry that has seen no attempt. -/
theorem raised_of_not_wellShaped {now : ℚ} {e : Entry} {object : Json} (hnew : e.consumed = [])
    (h : wellShaped object = false) :
    ∃ consumed err, consume now e (some object) = .raised { e with consumed := consumed } err := by
  cases object with
  | obj fields =>
    rw [consume]
    cases hnote : noteAttempt e (Json.field fields "attempt_id") with
    | error err => exact ⟨e.consumed, err, rfl⟩
    | ok noted =>
      rcases noteAttempt_ok hnote with ⟨consumed, rfl⟩ | ⟨-, -, id, -, hseen⟩
      · have hattempt : (!(Json.field fields "attempt_id").truthy ||
            hashable (Json.field fields "attempt_id")) = true := by
          by_contra hbad
          obtain ⟨err, herr⟩ := noteAttempt_error.mpr (Bool.not_eq_true _ ▸ hbad)
          rw [hnote] at herr
          cases herr
        rw [wellShaped, hattempt, Bool.true_and] at h
        cases hduration : durationOf (Json.field fields "body").orEmpty with
        | ok duration =>
          have hbody := (durationOf_orEmpty _).mp ⟨duration, hduration⟩
          rw [h] at hbody
          cases hbody
        | error err => exact ⟨consumed, err, rfl⟩
      · rw [hnew] at hseen
        cases hseen
  | null | bool | num | inf | nan | str | arr => exact ⟨e.consumed, .attributeError, rfl⟩

end Shapes

section Pass
variable {cfg : Config} {reads reads' : Reads} {rounds : Nat → Round} {es : List Entry}
  {key : StatusKey}

/-- No pending entry's listed object raises. -/
def Quiet (reads : Reads) (es : List Entry) : Prop :=
  ∀ e ∈ es, e.pending = true → ∀ o, reads.get e.key = some o → wellShaped o = true

theorem resolveEntry_quiet {e : Entry} (h : ∀ o, reads.get e.key = some o → wellShaped o = true) :
    (resolveEntry cfg reads e).2.2 = none := by
  rw [resolveEntry]
  split_ifs
  · cases hc : consume (reads.clock e.key) e (reads.get e.key) with
    | raised e' err => exact absurd hc (not_raised_of_wellShaped h)
    | skipped => rfl
    | acted e' attempt => rfl
  · rfl

/-- With no object that raises, the pass resolves each pending entry for itself. -/
theorem resolveLanded_quiet (h : Quiet reads es) :
    (resolveLanded cfg reads es).2.2 = none ∧ (resolveLanded cfg reads es).1 =
      es.map fun e => if e.pending then (resolveEntry cfg reads e).1 else e := by
  induction es with
  | nil => exact ⟨rfl, rfl⟩
  | cons e es ih =>
    obtain ⟨herr, hmap⟩ := ih fun x hx => h x (.tail _ hx)
    rw [resolveLanded, List.map_cons]
    split_ifs with hpending
    · have hnone : (resolveEntry cfg reads e).2.2 = none :=
        resolveEntry_quiet (h e (.head _) hpending)
      generalize resolveEntry cfg reads e = r at hnone ⊢
      obtain ⟨a, evs, err⟩ := r
      obtain rfl : err = none := hnone
      exact ⟨herr, congrArg _ hmap⟩
    · exact ⟨herr, congrArg _ hmap⟩

theorem resolveEntry_congr {e : Entry} (hnow : reads.now = reads'.now)
    (hstanding : reads.standing e.key = reads'.standing e.key)
    (hunreadable : reads.unreadable e.key = reads'.unreadable e.key)
    (hclock : reads.clock e.key = reads'.clock e.key) :
    resolveEntry cfg reads e = resolveEntry cfg reads' e := by
  rw [resolveEntry, resolveEntry, classify, classify, Reads.listed, Reads.listed, Reads.get,
    Reads.get, hnow, hstanding, hunreadable, hclock]

/-- The reads of a tick where one key's object cannot be read. -/
def Reads.without (reads : Reads) (key : StatusKey) : Reads :=
  { reads with unreadable := fun k => k = key || reads.unreadable k }

/-- The other shards go as if the key's object were unreadable, the tick ends with nothing left
to dispatch, and past its deadline the key's own shard is acted on or classified. -/
structure Contained (cfg : Config) (reads : Reads) (rounds : Nat → Round) (es : List Entry)
    (key : StatusKey) : Prop where
  others : (resolveLanded cfg reads es).1.filter (fun e => e.key ≠ key) =
    (resolveLanded cfg (reads.without key) es).1.filter fun e => e.key ≠ key
  filled : ∃ n, batchOf cfg (rounds n).now (tick cfg reads rounds es).1 = []
  classified : ∀ e ∈ (resolveLanded cfg reads es).1, e.key = key →
    pastDeadline cfg reads.now e = true → e.pending = false

theorem resolveEntry_deadline {e : Entry} (hquiet : (resolveEntry cfg reads e).2.2 = none)
    (hlate : pastDeadline cfg reads.now e = true) : (resolveEntry cfg reads e).1.pending = false := by
  have hclassify : (classify cfg reads e).1.pending = false := by
    rw [classify, if_pos hlate, dropped]
    split_ifs
    · rfl
    · rw [resolveFailure, Entry.pending]
      exact Bool.and_false _
  rw [resolveEntry] at hquiet ⊢
  split_ifs at hquiet ⊢
  · rcases @consume_cases e (reads.clock e.key) (reads.get e.key) with
      ⟨consumed, err, hc⟩ | ⟨hc, -⟩ | ⟨consumed, fields, duration, -, hc⟩
    · rw [hc] at hquiet
      cases hquiet
    · rw [hc]
      exact hclassify
    · rw [hc, Entry.pending]
      exact Bool.and_false _
  · exact hclassify

theorem resolveEntry_dispatchedAt {e : Entry} (hpending : e.pending = true) :
    (resolveEntry cfg reads e).1.dispatchedAt = e.dispatchedAt := by
  have hres := @resolveEntry_resolves cfg reads e hpending
  generalize resolveEntry cfg reads e = r at hres ⊢
  obtain ⟨a, evs, err⟩ := r
  cases hres <;> rfl

theorem Reads.unreadable_without (reads : Reads) (key k : StatusKey) :
    (reads.without key).unreadable k = (decide (k = key) || reads.unreadable k) := rfl

theorem Reads.get_of_without {k : StatusKey} {o : Json} (h : (reads.without key).get k = some o) :
    reads.get k = some o := by
  rw [Reads.get] at h ⊢
  split_ifs at h with hboth
  have hread : ¬ reads.unreadable k = true := fun hr => hboth (by
    rw [Reads.unreadable_without, hr, Bool.or_true])
  rw [if_neg hread]
  exact h

theorem filter_map_congr {f g : Entry → Entry} (hf : ∀ e ∈ es, (f e).key = e.key)
    (hg : ∀ e ∈ es, (g e).key = e.key) (h : ∀ e ∈ es, e.key ≠ key → f e = g e) :
    (es.map f).filter (fun e => e.key ≠ key) = (es.map g).filter fun e => e.key ≠ key := by
  induction es with
  | nil => rfl
  | cons e es ih =>
    have hrest := ih (fun x hx => hf x (.tail _ hx)) (fun x hx => hg x (.tail _ hx))
      fun x hx => h x (.tail _ hx)
    rw [List.map_cons, List.map_cons, List.filter_cons, List.filter_cons, hf e (.head _),
      hg e (.head _), hrest]
    split_ifs with hne
    · rw [h e (.head _) (of_decide_eq_true hne)]
    · rfl

theorem resolved_key {e : Entry} :
    (if e.pending then (resolveEntry cfg reads e).1 else e).key = e.key := by
  split_ifs with hpending
  · exact (@resolveEntry_resolves cfg reads e hpending).key_eq.1
  · rfl

theorem contained_of_quiet (hnodup : (es.map Entry.key).Nodup) (h : Quiet reads es) :
    Contained cfg reads rounds es key := by
  obtain ⟨herr, hmap⟩ := @resolveLanded_quiet cfg reads es h
  have hwithout : Quiet (reads.without key) es := fun e he hpending o ho =>
    h e he hpending o (Reads.get_of_without ho)
  obtain ⟨-, hmap'⟩ := @resolveLanded_quiet cfg _ es hwithout
  have htick : tick cfg reads rounds es =
      (dispatchUpToWindow cfg rounds (resolveLanded cfg reads es).1, none) := by
    rw [tick, herr]
  exact {
    others := by
      rw [hmap, hmap']
      refine filter_map_congr (fun e _ => resolved_key) (fun e _ => resolved_key) fun e _ hne => ?_
      have hread : reads.unreadable e.key = (reads.without key).unreadable e.key := by
        rw [Reads.unreadable_without, decide_eq_false hne, Bool.false_or]
      have hsame : resolveEntry cfg reads e = resolveEntry cfg (reads.without key) e :=
        resolveEntry_congr rfl rfl hread rfl
      rw [hsame]
    filled := by
      rw [htick]
      exact dispatchRounds_filled rounds 0 (by rw [map_key_resolveLanded]; exact hnodup)
        (Nat.lt_succ_self _)
    classified := fun e' he' hkey hlate => by
      rw [hmap] at he'
      obtain ⟨e, he, rfl⟩ := List.mem_map.mp he'
      split_ifs at hlate ⊢ with hpending
      · rw [pastDeadline, resolveEntry_dispatchedAt hpending] at hlate
        exact resolveEntry_deadline (resolveEntry_quiet (h e he hpending)) hlate
      · exact Bool.not_eq_true _ ▸ hpending }

end Pass

section Claim

/-- An observed shard, one second past its dispatch. -/
def observed (key : StatusKey) : Entry := newEntry key "7" false 0 (some 0) 1

def readsOf (standing : StatusKey → Option Json) : Reads := ⟨1, standing, fun _ => false, fun _ => 1⟩

def quietRounds (_ : Nat) : Round := ⟨1, fun _ => 1, fun _ => none⟩

theorem observed_pending (key : StatusKey) : (observed key).pending = true := rfl

/-- An entry that raises ends the pass, whatever comes after it. -/
theorem resolveLanded_raised {cfg : Config} {reads : Reads} {e e' : Entry} {es : List Entry}
    {err : PyError} (hpending : e.pending = true) (hlisted : reads.listed e.key = true)
    (hraised : consume (reads.clock e.key) e (reads.get e.key) = .raised e' err) :
    resolveLanded cfg reads (e :: es) = (e' :: es, [], some err) := by
  have hentry : resolveEntry cfg reads e = (e', [], some err) := by
    rw [resolveEntry, if_pos hlisted, hraised]
  rw [resolveLanded, if_pos hpending, hentry]

/-- An object at a shard's key is contained in every state of the poller exactly when it is
well-shaped. -/
theorem contained_iff_wellShaped (object : Json) :
    (∀ cfg reads rounds es key, (es.map Entry.key).Nodup → reads.standing key = some object →
      (∀ e ∈ es, e.key ≠ key → ∀ o, reads.get e.key = some o → wellShaped o = true) →
        Contained cfg reads rounds es key) ↔ wellShaped object = true := by
  constructor
  · intro h
    by_contra hshape
    have hall := h ⟨0, 1, none⟩ (readsOf fun _ => some object) quietRounds [observed ⟨7, none⟩]
      ⟨7, none⟩ (List.nodup_singleton _) rfl fun e he hne => by
        rw [List.mem_singleton.mp he] at hne
        exact absurd rfl hne
    obtain ⟨consumed, err, hraised⟩ := @raised_of_not_wellShaped 1 (observed ⟨7, none⟩) object rfl
      (Bool.not_eq_true _ ▸ hshape)
    have hlast := hall.classified { observed ⟨7, none⟩ with consumed := consumed }
    rw [resolveLanded_raised (observed_pending _) rfl hraised] at hlast
    have hlate : pastDeadline ⟨0, 1, none⟩ 1 (observed ⟨7, none⟩) = true := by decide +kernel
    exact Bool.noConfusion (hlast (.head _) rfl hlate)
  · intro hshape cfg reads rounds es key hnodup hstanding hothers
    refine contained_of_quiet hnodup fun e he _ o ho => ?_
    by_cases hkey : e.key = key
    · rw [Reads.get] at ho
      split_ifs at ho
      rw [hkey, hstanding] at ho
      exact Option.some.inj ho ▸ hshape
    · exact hothers e he hkey o ho

/-- A list standing for shard 7 keeps it past its deadline, leaves shard 8's landed object
unread and shard 9 unfired. -/
theorem list_object_blocks :
    let landed : Json := .obj [("status", .str "ok"), ("attempt_id", .str "b1")]
    let reads := readsOf fun key =>
      if key = ⟨7, none⟩ then some (.arr []) else if key = ⟨8, none⟩ then some landed else none
    let es := [observed ⟨7, none⟩, observed ⟨8, none⟩, newEntry ⟨9, none⟩ "9" true 4 none 0]
    (tick ⟨0, 3, some 5⟩ reads quietRounds es).1 = es ∧
      pastDeadline ⟨0, 3, some 5⟩ reads.now (observed ⟨7, none⟩) = true ∧
      ¬ Contained ⟨0, 3, some 5⟩ reads quietRounds es ⟨7, none⟩ := by
  have hlate : pastDeadline ⟨0, 3, some 5⟩ 1 (observed ⟨7, none⟩) = true := by decide +kernel
  refine ⟨rfl, hlate, fun h => ?_⟩
  exact Bool.noConfusion (h.classified (observed ⟨7, none⟩) (.head _) rfl hlate)

end Claim
end Zagg.Client
