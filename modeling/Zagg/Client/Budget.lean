import Mathlib.Data.List.Nodup
import Zagg.Client.Entries

/-!
# The dispatch budget

A drop, a fault and a terminal status each leave a shard's counters in a known relation to
its history, whatever the order they come in. The window bounds what is in flight.
-/
namespace Zagg.Client

open Zagg.Lib

section Counts

def Event.isInvoke : Event → Bool
  | .invoked _ _ => true
  | _ => false

/-- An invoke that did not fault: it may have started a worker. -/
def Event.isStart : Event → Bool
  | .invoked _ none => true
  | _ => false

def Event.isAct : Event → Bool
  | .acted _ _ => true
  | _ => false

def Event.isResolution : Event → Bool
  | .resolved _ _ => true
  | _ => false

def invokes (history : List Event) : Nat := history.countP Event.isInvoke
def starts (history : List Event) : Nat := history.countP Event.isStart
def acts (history : List Event) : Nat := history.countP Event.isAct
def resolutions (history : List Event) : Nat := history.countP Event.isResolution

variable (history evs : List Event)

@[simp] theorem invokes_append : invokes (history ++ evs) = invokes history + invokes evs :=
  List.countP_append

@[simp] theorem starts_append : starts (history ++ evs) = starts history + starts evs :=
  List.countP_append

@[simp] theorem acts_append : acts (history ++ evs) = acts history + acts evs := List.countP_append

@[simp] theorem resolutions_append :
    resolutions (history ++ evs) = resolutions history + resolutions evs := List.countP_append

end Counts

section Kept
variable {cfg : Config} {e e' : Entry} {history evs : List Event}

/-- A shard's counters against its history. `chosen` says it is in the batch in hand. -/
structure Kept (cfg : Config) (e : Entry) (chosen : Prop) (history : List Event) : Prop where
  invokes_eq : invokes history = if e.live then e.attempts else 0
  attempts_le : e.attempts ≤ cfg.retries
  chosen_pending : chosen → e.pending = true
  waiting : e.future = none → e.queued = true ∨ chosen →
    e.live = true ∧ e.attempts < cfg.retries ∧ starts history ≤ e.dropRefires
  starts_le : starts history ≤ e.dropRefires + 1
  refires_le : e.dropRefires ≤ maxDropRefires
  resolutions_eq : resolutions history = if e.future.isSome then 1 else 0
  acts_le : acts history ≤ resolutions history
  settled : history.Pairwise fun a b => a.isAct = true → b.isInvoke = false

theorem Config.one_le_retries (cfg : Config) : 1 ≤ cfg.retries := le_max_left _ _

theorem kept_new (cfg : Config) (key : StatusKey) (label : String) (live : Bool) (granuleCount : Nat)
    (dispatchedAt : Option ℚ) (now : ℚ) :
    Kept cfg (newEntry key label live granuleCount dispatchedAt now) False [] where
  invokes_eq := by cases live <;> rfl
  attempts_le := by
    have := cfg.one_le_retries
    cases live
    · exact this
    · exact Nat.zero_le _
  chosen_pending := False.elim
  waiting _ h := by
    have := cfg.one_le_retries
    cases live
    · rcases h with h | h
      · cases h
      · exact h.elim
    · exact ⟨rfl, this, le_rfl⟩
  starts_le := Nat.zero_le _
  refires_le := Nat.zero_le _
  resolutions_eq := rfl
  acts_le := le_rfl
  settled := .nil

/-- No status object of an unresolved shard was acted on. -/
theorem Kept.acts_eq_zero {chosen : Prop} (h : Kept cfg e chosen history) (hfuture : e.future = none) :
    acts history = 0 := by
  have hle := h.acts_le
  rw [h.resolutions_eq, hfuture] at hle
  exact Nat.le_zero.mp hle

theorem settled_append {chosen : Prop} (h : Kept cfg e chosen history) (hfuture : e.future = none)
    (hevs : evs.Pairwise fun a b => a.isAct = true → b.isInvoke = false) :
    (history ++ evs).Pairwise fun a b => a.isAct = true → b.isInvoke = false := by
  refine List.pairwise_append.mpr ⟨h.settled, hevs, fun a ha b _ hact => ?_⟩
  have hpos : 0 < acts history := List.countP_pos_iff.mpr ⟨a, ha, hact⟩
  have hzero := h.acts_eq_zero hfuture
  omega

theorem Kept.resolves {reads : Reads} (h : Kept cfg e False history) (hpending : e.pending = true)
    (hres : Resolves cfg reads e e' evs) : Kept cfg e' False (history ++ evs) := by
  obtain ⟨hqueued, hfuture⟩ := Entry.pending_iff.mp hpending
  have hinv := h.invokes_eq
  have hatt := h.attempts_le
  have hstarts := h.starts_le
  have hrefires := h.refires_le
  have hresolved : resolutions history = 0 := by rw [h.resolutions_eq, hfuture]; rfl
  have hacts := h.acts_eq_zero hfuture
  cases hres with
  | waits consumed =>
    rw [List.append_nil]
    exact ⟨hinv, hatt, False.elim, h.waiting, hstarts, hrefires, h.resolutions_eq, h.acts_le,
      h.settled⟩
  | acts consumed fields duration hstanding =>
    exact {
      invokes_eq := by rw [invokes_append]; exact hinv
      attempts_le := hatt
      chosen_pending := False.elim
      waiting := fun hnone => by cases hnone
      starts_le := by rw [starts_append]; exact hstarts
      refires_le := hrefires
      resolutions_eq := by rw [resolutions_append, hresolved]; rfl
      acts_le := by rw [resolutions_append, acts_append, hresolved, hacts]; exact le_rfl
      settled := settled_append h hfuture (List.pairwise_pair.mpr fun _ => rfl) }
  | refires hlate hnothing hlive hguard hattempts =>
    exact {
      invokes_eq := by rw [invokes_append]; exact hinv
      attempts_le := hatt
      chosen_pending := False.elim
      waiting := fun _ _ => ⟨hlive, hattempts, by rw [starts_append]; exact hstarts⟩
      starts_le := by rw [starts_append]; exact hstarts.trans (Nat.le_succ _)
      refires_le := hguard
      resolutions_eq := by rw [resolutions_append, hresolved, hfuture]; rfl
      acts_le := by rw [acts_append, hacts]; exact Nat.zero_le _
      settled := settled_append h hfuture (List.pairwise_singleton _ _) }
  | givesUp r hlate hnothing =>
    exact {
      invokes_eq := by rw [invokes_append]; exact hinv
      attempts_le := hatt
      chosen_pending := False.elim
      waiting := fun hnone => by cases hnone
      starts_le := by rw [starts_append]; exact hstarts
      refires_le := hrefires
      resolutions_eq := by rw [resolutions_append, hresolved]; rfl
      acts_le := by rw [acts_append, hacts]; exact Nat.zero_le _
      settled := settled_append h hfuture (List.pairwise_pair.mpr fun hact => by cases hact) }

/-- An eligible shard taken off the queue. -/
theorem Kept.chosen {now : ℚ} (h : Kept cfg e False history) (heligible : e.eligible now = true) :
    Kept cfg { e with queued := false } True history := by
  rw [Entry.eligible, Bool.and_eq_true, Bool.and_eq_true, Option.isNone_iff_eq_none] at heligible
  obtain ⟨⟨hqueued, hfuture⟩, -⟩ := heligible
  have hwaiting := h.waiting hfuture (.inl hqueued)
  exact {
    invokes_eq := h.invokes_eq
    attempts_le := h.attempts_le
    chosen_pending := fun _ => Entry.pending_iff.mpr ⟨rfl, hfuture⟩
    waiting := fun _ _ => hwaiting
    starts_le := h.starts_le
    refires_le := h.refires_le
    resolutions_eq := h.resolutions_eq
    acts_le := h.acts_le
    settled := h.settled }

/-- One invoke of a chosen shard. -/
theorem Kept.fired (h : Kept cfg e True history) (now : ℚ) (fault : Option String) :
    Kept cfg (fire cfg now fault e) False
      (history ++ fireEvents fault e (fire cfg now fault e)) := by
  obtain ⟨hqueued, hfuture⟩ := Entry.pending_iff.mp (h.chosen_pending trivial)
  obtain ⟨hlive, hattempts, hstarts⟩ := h.waiting hfuture (.inr trivial)
  have hinv : invokes history = e.attempts := by rw [h.invokes_eq, if_pos hlive]
  have hresolved : resolutions history = 0 := by rw [h.resolutions_eq, hfuture]; rfl
  have hacts := h.acts_eq_zero hfuture
  rw [fireEvents, if_pos hlive, fire, if_pos hlive]
  cases fault with
  | none =>
    dsimp only
    rw [resolvedEvent_of_none]
    · exact {
          invokes_eq := by rw [invokes_append, hinv, if_pos hlive]; rfl
          attempts_le := hattempts
          chosen_pending := False.elim
          waiting := fun _ hq => by
            rcases hq with hq | hq
            · rw [hqueued] at hq
              cases hq
            · exact hq.elim
          starts_le := by rw [starts_append]; exact Nat.succ_le_succ hstarts
          refires_le := h.refires_le
          resolutions_eq := by rw [resolutions_append, hresolved, hfuture]; rfl
          acts_le := by rw [acts_append, hacts]; exact Nat.zero_le _
          settled := settled_append h hfuture (List.pairwise_singleton _ _) }
    · exact hfuture
  | some msg =>
    dsimp only [invokeFaulted]
    split_ifs with hretry
    · rw [resolvedEvent_of_none]
      · exact {
            invokes_eq := by rw [invokes_append, hinv, if_pos hlive]; rfl
            attempts_le := hattempts
            chosen_pending := False.elim
            waiting := fun _ _ => ⟨hlive, hretry.2, by rw [starts_append]; exact hstarts⟩
            starts_le := by rw [starts_append]; exact h.starts_le
            refires_le := h.refires_le
            resolutions_eq := by rw [resolutions_append, hresolved, hfuture]; rfl
            acts_le := by rw [acts_append, hacts]; exact Nat.zero_le _
            settled := settled_append h hfuture (List.pairwise_singleton _ _) }
      · exact hfuture
    · exact {
        invokes_eq := by rw [invokes_append, hinv, resolveFailure, if_pos hlive]; rfl
        attempts_le := hattempts
        chosen_pending := False.elim
        waiting := fun hnone => by cases hnone
        starts_le := by rw [starts_append]; exact h.starts_le
        refires_le := h.refires_le
        resolutions_eq := by rw [resolutions_append, hresolved]; rfl
        acts_le := by rw [acts_append, hacts]; exact Nat.zero_le _
        settled := settled_append h hfuture (List.pairwise_pair.mpr fun hact => by cases hact) }

end Kept

section Window
variable {cfg : Config}

def Entry.holdsSlot (e : Entry) : Bool := e.live && e.pending

/-- Each shard's counters agree with its history, and the window is kept. -/
structure Inv (cfg : Config) (s : State) : Prop where
  keys_nodup : (s.entries.map Entry.key).Nodup
  batch_nodup : s.batch.Nodup
  batch_mem : ∀ key ∈ s.batch, key ∈ s.entries.map Entry.key
  kept : ∀ e ∈ s.entries, Kept cfg e (e.key ∈ s.batch) (eventsOf e.key s.events)
  refused : ∀ e ∈ s.refused, e.key ∉ s.entries.map Entry.key ∧
    ∃ r, eventsOf e.key s.events = [.resolved e.key r]
  unknown : ∀ key, key ∉ s.entries.map Entry.key → key ∉ s.refused.map Entry.key →
    eventsOf key s.events = []
  window : ∀ m, cfg.maxInFlight = some m → s.entries.countP Entry.holdsSlot ≤ m

theorem Kept.congr {e : Entry} {history : List Event} {chosen chosen' : Prop}
    (h : Kept cfg e chosen history) (hiff : chosen ↔ chosen') : Kept cfg e chosen' history :=
  propext hiff ▸ h

theorem Entry.pending_of_resolves {reads : Reads} {e e' : Entry} {evs : List Event}
    (hpending : e.pending = true) (h : Resolves cfg reads e e' evs) :
    e'.live = e.live ∧ (e'.pending = true → e.pending = true) := by
  cases h <;> exact ⟨rfl, fun _ => hpending⟩

theorem countP_resolveLanded_le (reads : Reads) (es : List Entry) :
    (resolveLanded cfg reads es).1.countP Entry.holdsSlot ≤ es.countP Entry.holdsSlot := by
  induction es with
  | nil => exact le_rfl
  | cons e es ih =>
    have hslot : ∀ e' : Entry, e.pending = true → e'.live = e.live → ∀ l l' : List Entry,
        l.countP Entry.holdsSlot ≤ l'.countP Entry.holdsSlot →
          (e' :: l).countP Entry.holdsSlot ≤ (e :: l').countP Entry.holdsSlot := by
      intro e' hpending hlive l l' hle
      rw [List.countP_cons, List.countP_cons]
      have hmine : e'.holdsSlot = true → e.holdsSlot = true := by
        rw [Entry.holdsSlot, Entry.holdsSlot, hlive, hpending, Bool.and_true, Bool.and_eq_true]
        exact And.left
      split_ifs with h1 h2
      · omega
      · exact absurd (hmine h1) h2
      · omega
      · omega
    rw [resolveLanded]
    split_ifs with hpending
    · have hlive := (Entry.pending_of_resolves hpending (@resolveEntry_resolves cfg reads e hpending)).1
      generalize resolveEntry cfg reads e = r at hlive ⊢
      obtain ⟨a, evs, err⟩ := r
      cases err with
      | some err => exact hslot a hpending hlive es es le_rfl
      | none => exact hslot a hpending hlive _ es ih
    · rw [List.countP_cons, List.countP_cons]
      omega

/-- A batch takes at most as many slots as it has shards. -/
theorem countP_unqueue_le {es : List Entry} (hnodup : (es.map Entry.key).Nodup) (batch : List StatusKey) :
    (unqueue batch es).countP Entry.holdsSlot ≤ es.countP Entry.holdsSlot + batch.length := by
  have hsplit : (unqueue batch es).countP Entry.holdsSlot ≤
      es.countP Entry.holdsSlot + es.countP fun e => decide (e.key ∈ batch) := by
    clear hnodup
    induction es with
    | nil => exact le_rfl
    | cons e es ih =>
      rw [unqueue] at ih ⊢
      rw [List.map_cons, List.countP_cons, List.countP_cons, List.countP_cons]
      have hone : ∀ b : Prop, ∀ _ : Decidable b, (if b then 1 else 0) ≤ 1 := by
        intro b _
        split_ifs <;> omega
      by_cases hmem : e.key ∈ batch
      · have hlast := hone ((if e.key ∈ batch then { e with queued := false } else e).holdsSlot = true)
          inferInstance
        rw [if_pos (decide_eq_true hmem)]
        omega
      · rw [if_neg hmem]
        omega
  have hchosen : (es.countP fun e => decide (e.key ∈ batch)) ≤ batch.length := by
    have hsub : ((es.filter fun e => decide (e.key ∈ batch)).map Entry.key).Nodup :=
      hnodup.sublist (List.filter_sublist.map _)
    have hmem : (es.filter fun e => decide (e.key ∈ batch)).map Entry.key ⊆ batch := by
      intro key hkey
      obtain ⟨e, he, rfl⟩ := List.mem_map.mp hkey
      exact of_decide_eq_true (List.mem_filter.mp he).2
    have hle := (List.subperm_of_subset hsub hmem).length_le
    rw [List.length_map, ← List.countP_eq_length_filter] at hle
    exact hle
  omega

theorem length_batchOf_le {m : Nat} (hm : cfg.maxInFlight = some m) (now : ℚ) (es : List Entry) :
    (batchOf cfg now es).length ≤ m - inFlight es := by
  rw [batchOf, List.length_map, hm]
  exact (List.length_take_le _ _)

end Window

section Steps
variable {cfg : Config} {s s' : State}

theorem eventsOf_resolvedEvent {key : StatusKey} {e : Entry} (h : e.key ≠ key) :
    eventsOf key (resolvedEvent e) = [] :=
  eventsOf_eq_nil fun _ hev heq => h ((key_of_mem_resolvedEvent hev).symm.trans heq)

theorem Inv.register (h : Inv cfg s) (key : StatusKey) (label : String) (live : Bool)
    (granuleCount : Nat) (dispatchedAt : Option ℚ) (now : ℚ)
    (hs : step cfg s (.register key label live granuleCount dispatchedAt now) = some s') :
    Inv cfg s' := by
  rw [step] at hs
  split_ifs at hs with hseen hstopped
  · obtain ⟨hentries, hrefused⟩ := not_or.mp hseen
    have hmine := h.unknown key hentries hrefused
    cases hs
    exact {
      keys_nodup := h.keys_nodup
      batch_nodup := h.batch_nodup
      batch_mem := h.batch_mem
      kept := fun e he => by
        have hne : e.key ≠ key := fun heq => hentries (heq ▸ List.mem_map_of_mem he)
        rw [eventsOf_append, eventsOf_resolvedEvent hne.symm, List.append_nil]
        exact h.kept e he
      refused := fun e he => by
        rcases List.mem_append.mp he with he | he
        · have hne : e.key ≠ key := fun heq => hrefused (heq ▸ List.mem_map_of_mem he)
          rw [eventsOf_append, eventsOf_resolvedEvent hne.symm, List.append_nil]
          exact h.refused e he
        · rw [List.mem_singleton.mp he]
          have hself : eventsOf key (resolvedEvent
              (refuse now (newEntry key label live granuleCount dispatchedAt now))) = _ :=
            eventsOf_eq_self fun _ hev => key_of_mem_resolvedEvent hev
          have hevents := @eventsOf_append key s.events (resolvedEvent
            (refuse now (newEntry key label live granuleCount dispatchedAt now)))
          rw [hmine, List.nil_append, hself] at hevents
          exact ⟨hentries, _, hevents⟩
      unknown := fun other ho hr => by
        rw [List.map_append, List.mem_append, not_or] at hr
        have hne : key ≠ other := fun heq => hr.2 (heq ▸ List.mem_singleton_self _)
        rw [eventsOf_append, eventsOf_resolvedEvent hne, List.append_nil]
        exact h.unknown other ho hr.1
      window := h.window }
  · obtain ⟨hentries, hrefused⟩ := not_or.mp hseen
    have hmine := h.unknown key hentries hrefused
    cases hs
    exact {
      keys_nodup := by
        rw [List.map_append]
        refine List.nodup_append.mpr ⟨h.keys_nodup, List.nodup_singleton _, fun a ha b hb heq => ?_⟩
        rw [heq, List.mem_singleton.mp hb] at ha
        exact hentries ha
      batch_nodup := h.batch_nodup
      batch_mem := fun k hk => by
        rw [List.map_append]
        exact List.mem_append_left _ (h.batch_mem k hk)
      kept := fun e he => by
        rcases List.mem_append.mp he with he | he
        · exact h.kept e he
        · rw [List.mem_singleton.mp he]
          have hbatch : key ∉ s.batch := fun hb => hentries (h.batch_mem key hb)
          have hnew := kept_new cfg key label live granuleCount dispatchedAt now
          exact hmine.symm ▸ hnew.congr (iff_of_false id hbatch)
      refused := fun e he => by
        have hne : e.key ≠ key := fun heq => hrefused (heq ▸ List.mem_map_of_mem he)
        refine ⟨fun hmem => ?_, (h.refused e he).2⟩
        rw [List.map_append, List.mem_append] at hmem
        exact hmem.elim (h.refused e he).1 fun hk => hne (List.mem_singleton.mp hk)
      unknown := fun other ho hr => by
        rw [List.map_append, List.mem_append, not_or] at ho
        exact h.unknown other ho.1 hr
      window := fun m hm => by
        have hslot : (newEntry key label live granuleCount dispatchedAt now).holdsSlot = false := by
          cases live <;> rfl
        rw [List.countP_append, List.countP_singleton, hslot]
        exact h.window m hm }

theorem Inv.resolve (h : Inv cfg s) (hbatch : s.batch = []) (reads : Reads) :
    Inv cfg { s with
      entries := (resolveLanded cfg reads s.entries).1
      events := s.events ++ (resolveLanded cfg reads s.entries).2.1 } := by
  have hother : ∀ key, key ∉ s.entries.map Entry.key →
      eventsOf key (resolveLanded cfg reads s.entries).2.1 = [] := fun key hkey =>
    eventsOf_eq_nil fun ev hev heq => hkey (heq ▸ keys_resolveLanded hev)
  exact {
    keys_nodup := by
      dsimp only
      rw [map_key_resolveLanded]
      exact h.keys_nodup
    batch_nodup := h.batch_nodup
    batch_mem := fun key hkey => by
      rw [map_key_resolveLanded]
      exact h.batch_mem key hkey
    kept := fun e' he' => by
      obtain ⟨e, he, hkey, hcases⟩ := mem_resolveLanded h.keys_nodup he'
      have hnone : e.key ∈ s.batch ↔ False := by rw [hbatch]; exact iff_of_false List.not_mem_nil id
      have hkept := (h.kept e he).congr hnone
      rw [eventsOf_append, hkey]
      rcases hcases with ⟨rfl, hnil⟩ | ⟨hpending, hres⟩
      · rw [hnil, List.append_nil]
        exact hkept.congr hnone.symm
      · exact (hkept.resolves hpending hres).congr hnone.symm
    refused := fun e he => by
      obtain ⟨hkey, r, hr⟩ := h.refused e he
      rw [map_key_resolveLanded, eventsOf_append, hother e.key hkey, List.append_nil]
      exact ⟨hkey, r, hr⟩
    unknown := fun key hk hr => by
      rw [map_key_resolveLanded] at hk
      rw [eventsOf_append, hother key hk, List.append_nil]
      exact h.unknown key hk hr
    window := fun m hm => (countP_resolveLanded_le reads s.entries).trans (h.window m hm) }

theorem map_key_unqueue (batch : List StatusKey) (es : List Entry) :
    (unqueue batch es).map Entry.key = es.map Entry.key := by
  rw [unqueue, List.map_map]
  refine List.map_congr_left fun e _ => ?_
  rw [Function.comp_apply]
  split_ifs <;> rfl

theorem mem_batchOf {now : ℚ} {es : List Entry} {key : StatusKey} (h : key ∈ batchOf cfg now es) :
    ∃ e ∈ es, e.key = key ∧ e.eligible now = true := by
  obtain ⟨e, he, rfl⟩ := List.mem_map.mp h
  obtain ⟨hmem, heligible⟩ := List.mem_filter.mp (List.mem_of_mem_take he)
  exact ⟨e, hmem, rfl, heligible⟩

theorem Inv.select (h : Inv cfg s) (hbatch : s.batch = []) (now : ℚ) :
    Inv cfg { s with
      entries := unqueue (batchOf cfg now s.entries) s.entries
      batch := batchOf cfg now s.entries } where
  keys_nodup := by
    dsimp only
    rw [map_key_unqueue]
    exact h.keys_nodup
  batch_nodup :=
    (h.keys_nodup.sublist (List.filter_sublist.map _)).sublist
      ((List.take_sublist _ _).map Entry.key)
  batch_mem key hkey := by
    obtain ⟨e, he, rfl, -⟩ := mem_batchOf hkey
    rw [map_key_unqueue]
    exact List.mem_map_of_mem he
  kept e' he' := by
    obtain ⟨e, he, rfl⟩ := List.mem_map.mp he'
    have hnone : e.key ∈ s.batch ↔ False := by rw [hbatch]; exact iff_of_false List.not_mem_nil id
    have hkept := (h.kept e he).congr hnone
    by_cases hchosen : e.key ∈ batchOf cfg now s.entries
    · obtain ⟨x, hx, hkey, heligible⟩ := mem_batchOf hchosen
      obtain rfl := List.inj_on_of_nodup_map h.keys_nodup hx he hkey
      rw [if_pos hchosen]
      exact (hkept.chosen heligible).congr (iff_of_true trivial hchosen)
    · rw [if_neg hchosen]
      exact hkept.congr (iff_of_false id hchosen)
  refused e he := by
    rw [map_key_unqueue]
    exact h.refused e he
  unknown key hk hr := by
    rw [map_key_unqueue] at hk
    exact h.unknown key hk hr
  window m hm := by
    have hslots : s.entries.countP Entry.holdsSlot ≤ inFlight s.entries :=
      List.countP_mono_left fun e _ hslot => (Bool.and_eq_true _ _ ▸ hslot).2
    have hle := countP_unqueue_le h.keys_nodup (batchOf cfg now s.entries)
    have hlen := length_batchOf_le hm now s.entries
    have hwindow := h.window m hm
    dsimp only
    omega

theorem filter_key_eq {es : List Entry} {e : Entry} (hnodup : (es.map Entry.key).Nodup) (he : e ∈ es) :
    es.filter (fun x => x.key = e.key) = [e] := by
  induction es with
  | nil => cases he
  | cons x es ih =>
    rw [List.map_cons, List.nodup_cons] at hnodup
    rcases List.mem_cons.mp he with rfl | he
    · have hrest : es.filter (fun x => x.key = e.key) = [] :=
        List.filter_eq_nil_iff.mpr fun x hx heq =>
          hnodup.1 (of_decide_eq_true heq ▸ List.mem_map_of_mem hx)
      rw [List.filter_cons, hrest, if_pos (decide_eq_true rfl)]
    · have hne : ¬ x.key = e.key := fun heq => hnodup.1 (heq ▸ List.mem_map_of_mem he)
      rw [List.filter_cons_of_neg (by rw [decide_eq_true_eq]; exact hne), ih hnodup.2 he]

theorem fire_key (now : ℚ) (fault : Option String) (e : Entry) : (fire cfg now fault e).key = e.key := by
  rw [fire]
  split_ifs
  · cases fault with
    | none => rfl
    | some msg =>
      dsimp only [invokeFaulted]
      split_ifs <;> rfl
  · rfl

theorem fire_live (now : ℚ) (fault : Option String) (e : Entry) :
    (fire cfg now fault e).live = e.live := by
  rw [fire]
  split_ifs
  · cases fault with
    | none => rfl
    | some msg =>
      dsimp only [invokeFaulted]
      split_ifs <;> rfl
  · rfl

theorem key_of_mem_fireEvents {now : ℚ} {fault : Option String} {e : Entry} {ev : Event}
    (h : ev ∈ fireEvents fault e (fire cfg now fault e)) : ev.key = e.key := by
  rw [fireEvents] at h
  split_ifs at h
  · rcases List.mem_cons.mp h with rfl | h
    · rfl
    · rw [key_of_mem_resolvedEvent h, fire_key]
  · cases h

theorem Inv.invoke (h : Inv cfg s) {key : StatusKey} {batch : List StatusKey}
    (hbatch : s.batch = key :: batch) (now : ℚ) (fault : Option String) :
    Inv cfg { s with
      entries := s.entries.map fun e => if e.key = key then fire cfg now fault e else e
      batch := batch
      events := s.events ++ (s.entries.filter fun e => e.key = key).flatMap fun e =>
        fireEvents fault e (fire cfg now fault e) } := by
  have hkeys : (s.entries.map fun e => if e.key = key then fire cfg now fault e else e).map Entry.key =
      s.entries.map Entry.key := by
    rw [List.map_map]
    refine List.map_congr_left fun e _ => ?_
    rw [Function.comp_apply]
    split_ifs
    · exact fire_key now fault e
    · rfl
  obtain ⟨hnotMem, hnodup⟩ := List.nodup_cons.mp (hbatch ▸ h.batch_nodup)
  obtain ⟨x, hx, rfl⟩ := List.mem_map.mp (h.batch_mem key (by rw [hbatch]; exact .head _))
  have hfilter := filter_key_eq h.keys_nodup hx
  have hother : ∀ k, k ≠ x.key → eventsOf k (fireEvents fault x (fire cfg now fault x)) = [] :=
    fun k hk => eventsOf_eq_nil fun _ hev heq => hk (heq.symm.trans (key_of_mem_fireEvents hev))
  have hxchosen := (h.kept x hx).congr (iff_of_true (by rw [hbatch]; exact .head _) trivial)
  rw [hfilter, List.flatMap_singleton]
  exact {
    keys_nodup := by
      dsimp only
      rw [hkeys]
      exact h.keys_nodup
    batch_nodup := hnodup
    batch_mem := fun k hk => by
      rw [hkeys]
      exact h.batch_mem k (by rw [hbatch]; exact .tail _ hk)
    kept := fun e' he' => by
      obtain ⟨e, he, rfl⟩ := List.mem_map.mp he'
      rw [eventsOf_append]
      by_cases hkey : e.key = x.key
      · obtain rfl := List.inj_on_of_nodup_map h.keys_nodup he hx hkey
        rw [if_pos rfl, fire_key, eventsOf_eq_self fun _ hev => key_of_mem_fireEvents hev]
        exact (hxchosen.fired now fault).congr (iff_of_false id hnotMem)
      · rw [if_neg hkey, hother e.key hkey, List.append_nil]
        refine (h.kept e he).congr ?_
        rw [hbatch, List.mem_cons]
        exact or_iff_right hkey
    refused := fun e he => by
      obtain ⟨hk, r, hr⟩ := h.refused e he
      have hne : e.key ≠ x.key := fun heq => hk (heq ▸ List.mem_map_of_mem hx)
      rw [hkeys, eventsOf_append, hother e.key hne, List.append_nil]
      exact ⟨hk, r, hr⟩
    unknown := fun k hk hr => by
      rw [hkeys] at hk
      have hne : k ≠ x.key := fun heq => hk (heq ▸ List.mem_map_of_mem hx)
      rw [eventsOf_append, hother k hne, List.append_nil]
      exact h.unknown k hk hr
    window := fun m hm => by
      rw [List.countP_map]
      refine le_trans (List.countP_mono_left fun e he hslot => ?_) (h.window m hm)
      rw [Function.comp_apply] at hslot
      by_cases hkey : e.key = x.key
      · obtain rfl := List.inj_on_of_nodup_map h.keys_nodup he hx hkey
        rw [if_pos rfl, Entry.holdsSlot, fire_live, Bool.and_eq_true] at hslot
        rw [Entry.holdsSlot, hslot.1, hxchosen.chosen_pending trivial]
        rfl
      · rw [if_neg hkey] at hslot
        exact hslot }

theorem Inv.step (h : Inv cfg s) {act : Act} (hs : step cfg s act = some s') : Inv cfg s' := by
  cases act with
  | register key label live granuleCount dispatchedAt now =>
    exact h.register key label live granuleCount dispatchedAt now hs
  | shutdown =>
    cases hs
    exact ⟨h.keys_nodup, h.batch_nodup, h.batch_mem, h.kept, h.refused, h.unknown, h.window⟩
  | land key object =>
    cases hs
    exact ⟨h.keys_nodup, h.batch_nodup, h.batch_mem, h.kept, h.refused, h.unknown, h.window⟩
  | resolve now listFails unreadable clock =>
    rw [Client.step] at hs
    split_ifs at hs with hbatch hlist
    · cases hs
      exact h
    · cases hs
      exact h.resolve (not_not.mp hbatch) (s.reads now unreadable clock)
  | select now =>
    rw [Client.step] at hs
    split_ifs at hs with hbatch
    cases hs
    exact h.select (not_not.mp hbatch) now
  | invoke now fault =>
    simp only [Client.step] at hs
    cases hb : s.batch with
    | nil =>
      rw [hb] at hs
      cases hs
    | cons key batch =>
      rw [hb] at hs
      cases hs
      exact h.invoke hb now fault

theorem inv_start : Inv cfg State.start where
  keys_nodup := .nil
  batch_nodup := .nil
  batch_mem _ h := absurd h List.not_mem_nil
  kept _ h := absurd h List.not_mem_nil
  refused _ h := absurd h List.not_mem_nil
  unknown _ _ _ := rfl
  window _ _ := Nat.zero_le _

theorem inv_of_reach {C : State → Act → Prop} (h : Reach (step cfg) C State.start s) : Inv cfg s :=
  h.invariant inv_start fun hinv _ hs => hinv.step hs

/-- What the counters of a shard bound of its history. -/
theorem Inv.history_bounds (h : Inv cfg s) (key : StatusKey) :
    invokes (eventsOf key s.events) ≤ cfg.retries ∧
      starts (eventsOf key s.events) ≤ 1 + maxDropRefires ∧
      ((eventsOf key s.events).Pairwise fun a b => a.isAct = true → b.isInvoke = false) ∧
      acts (eventsOf key s.events) ≤ 1 ∧ resolutions (eventsOf key s.events) ≤ 1 := by
  by_cases hentry : key ∈ s.entries.map Entry.key
  · obtain ⟨e, he, rfl⟩ := List.mem_map.mp hentry
    have hk := h.kept e he
    have hresolved : resolutions (eventsOf e.key s.events) ≤ 1 := by
      rw [hk.resolutions_eq]
      split_ifs <;> omega
    have hinvokes : invokes (eventsOf e.key s.events) ≤ e.attempts := by
      rw [hk.invokes_eq]
      split_ifs <;> omega
    have hstarts := hk.starts_le
    have hrefires := hk.refires_le
    exact ⟨hinvokes.trans hk.attempts_le, by omega, hk.settled, hk.acts_le.trans hresolved, hresolved⟩
  · by_cases hrefused : key ∈ s.refused.map Entry.key
    · obtain ⟨e, he, rfl⟩ := List.mem_map.mp hrefused
      obtain ⟨-, r, hr⟩ := h.refused e he
      rw [hr]
      exact ⟨Nat.zero_le _, Nat.zero_le _, List.pairwise_singleton _ _, Nat.zero_le _, le_rfl⟩
    · rw [h.unknown key hentry hrefused]
      exact ⟨Nat.zero_le _, Nat.zero_le _, .nil, Nat.zero_le _, Nat.zero_le _⟩

/-- Over any history: the window is kept, a shard is invoked at most `max_retries` times, at
most `1 + _MAX_DROP_REFIRES` of its invokes start a worker, none follows a status object acted
on, at most one object is acted on, and its future is resolved at most once. -/
theorem dispatch_budget {m : Nat} (hm : cfg.maxInFlight = some m) (hr : 1 ≤ cfg.maxRetries)
    (h : Reach (Client.step cfg) (fun _ _ => True) State.start s) :
    (s.entries.countP fun e => e.live && e.pending) ≤ m ∧
      ∀ key,
        invokes (eventsOf key s.events) ≤ cfg.maxRetries ∧
        starts (eventsOf key s.events) ≤ 1 + maxDropRefires ∧
        ((eventsOf key s.events).Pairwise fun a b => a.isAct = true → b.isInvoke = false) ∧
        acts (eventsOf key s.events) ≤ 1 ∧ resolutions (eventsOf key s.events) ≤ 1 := by
  have hinv := inv_of_reach h
  have hretries : cfg.retries = cfg.maxRetries := max_eq_right hr
  refine ⟨hinv.window m hm, fun key => ?_⟩
  rw [← hretries]
  exact hinv.history_bounds key

/-- A throttled shard parks, the freed slot goes to another, and the first fires again. -/
def throttledRun : List Act :=
  [.register ⟨7, none⟩ "7" true 4 none 0, .register ⟨8, none⟩ "8" true 2 none 0,
    .select 0, .invoke 0 (some "throttled"), .select 1, .invoke 1 none,
    .land ⟨8, none⟩ (.obj [("status", .str "ok"), ("attempt_id", .str "b1")]),
    .resolve 3 false (fun _ => false) (fun _ => 3), .select 3, .invoke 3 none]

theorem dispatch_budget_throttled :
    ∃ s, exec (Client.step ⟨1070, 3, some 1⟩) State.start throttledRun = some s ∧
      (invokes (eventsOf ⟨7, none⟩ s.events) = 2 ∧ acts (eventsOf ⟨8, none⟩ s.events) = 1) ∧
      (s.entries.countP fun e => e.live && e.pending) ≤ 1 ∧
      ∀ key,
        invokes (eventsOf key s.events) ≤ 3 ∧ starts (eventsOf key s.events) ≤ 1 + maxDropRefires ∧
        ((eventsOf key s.events).Pairwise fun a b => a.isAct = true → b.isInvoke = false) ∧
        acts (eventsOf key s.events) ≤ 1 ∧ resolutions (eventsOf key s.events) ≤ 1 := by
  have hrun : (exec (Client.step ⟨1070, 3, some 1⟩) State.start throttledRun).any (fun s =>
      decide (invokes (eventsOf ⟨7, none⟩ s.events) = 2 ∧ acts (eventsOf ⟨8, none⟩ s.events) = 1)) =
      true := by decide +kernel
  obtain ⟨s, hs, hcounts⟩ := (Option.any_eq_true _ _).mp hrun
  refine ⟨s, hs, of_decide_eq_true hcounts, ?_⟩
  exact dispatch_budget rfl (by decide) (Reach.of_exec_forall (fun _ _ _ => trivial) hs)

end Steps
end Zagg.Client
