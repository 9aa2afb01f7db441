import Zagg.Stats.CompanionBatch

/-!
# The batch folds what every call would fold

A batch holds, channel by channel, the jobs it put off. Its one fold over their concatenation
is the fold of each job behind the other, so a flush fills every destination with the words
the call would have returned, and a run under the batch follows the run without it until a
call reads a destination that is still pending.
-/
namespace Zagg.Stats

open Zagg.Lib

/-- A fold put off, over a partition of its words. -/
structure Job where
  words : Words
  starts : List Nat
  out : Addr
  cover : Partition starts words.length

namespace Job

def result (m : WordFolds) (channel : Channel) (job : Job) : Option Words :=
  centroidFold m channel job.words job.starts job.words.length

def rows (jobs : List Job) : Nat := (jobs.map fun job => job.words.length).sum

/-- The jobs as the batch holds them, behind `base` rows. -/
def entries (base : Nat) : List Job → List Deferred
  | [] => []
  | job :: jobs =>
    ⟨job.words, job.starts.map (· + base), job.out, job.words.length⟩ ::
      entries (base + job.words.length) jobs

theorem entries_append (base : Nat) (jobs jobs' : List Job) :
    entries base (jobs ++ jobs') = entries base jobs ++ entries (base + rows jobs) jobs' := by
  induction jobs generalizing base with
  | nil => rfl
  | cons job jobs ih =>
    have hrows : base + rows (job :: jobs) = base + job.words.length + rows jobs := by
      rw [rows, List.map_cons, List.sum_cons, ← rows, Nat.add_assoc]
    rw [hrows, List.cons_append, entries, entries, ih, List.cons_append]

theorem words_entries (base : Nat) (jobs : List Job) :
    (entries base jobs).flatMap Deferred.words = jobs.flatMap Job.words := by
  induction jobs generalizing base with
  | nil => rfl
  | cons job jobs ih => rw [entries, List.flatMap_cons, List.flatMap_cons, ih]

theorem starts_entries (base : Nat) (jobs : List Job) :
    (entries base jobs).flatMap Deferred.starts =
      ((entries 0 jobs).flatMap Deferred.starts).map (· + base) := by
  induction jobs generalizing base with
  | nil => rfl
  | cons job jobs ih =>
    rw [entries, entries, List.flatMap_cons, List.flatMap_cons, List.map_append, ih, ih (0 + _),
      List.map_map, List.map_map]
    congr 1
    apply List.map_congr_left
    intro s _
    show s + (base + job.words.length) = s + (0 + job.words.length) + base
    omega

theorem length_words (jobs : List Job) : (jobs.flatMap Job.words).length = rows jobs := by
  rw [List.length_flatMap, rows]

/-- The concatenated partitions cover the concatenated words. -/
theorem cover_entries {jobs : List Job} (h : jobs ≠ []) :
    Partition ((entries 0 jobs).flatMap Deferred.starts) (jobs.flatMap Job.words).length := by
  induction jobs with
  | nil => exact absurd rfl h
  | cons job jobs ih =>
    have hzero : job.starts.map (· + 0) = job.starts := List.map_id _
    rw [entries, List.flatMap_cons, List.flatMap_cons, List.length_append, hzero, Nat.zero_add,
      starts_entries]
    cases jobs with
    | nil =>
      show Partition (job.starts ++ []) (job.words.length + 0)
      rw [List.append_nil]
      exact job.cover
    | cons job' jobs => exact job.cover.append (ih (List.cons_ne_nil job' jobs))

section Fold
variable {m : WordFolds} {join : Words → Option Nat} (hm : Segmented m join)
include hm

theorem length_result {channel : Channel} {job : Job} {ws : Words}
    (h : job.result m channel = some ws) : ws.length = job.starts.length := by
  rw [result, centroidFold_eq hm channel job.cover] at h
  rw [← (forall₂_of_mapM_some h).length_eq, length_pieces]

theorem length_results {channel : Channel} {jobs : List Job} {rs : List Words}
    (h : jobs.mapM (result m channel) = some rs) :
    List.Forall₂ (fun job r => r.length = job.starts.length) jobs rs :=
  (forall₂_of_mapM_some h).imp fun _ _ hr => length_result hm hr

/-- One fold over the batch is the folds of its jobs. -/
theorem centroidFold_entries (channel : Channel) {jobs : List Job} (h : jobs ≠ []) :
    centroidFold m channel ((entries 0 jobs).flatMap Deferred.words)
        ((entries 0 jobs).flatMap Deferred.starts) (rows jobs) =
      (jobs.mapM (result m channel)).map List.flatten := by
  rw [words_entries]
  induction jobs with
  | nil => exact absurd rfl h
  | cons job jobs ih =>
    have hzero : job.starts.map (· + 0) = job.starts := List.map_id _
    rw [entries, List.flatMap_cons, List.flatMap_cons, hzero, Nat.zero_add, starts_entries, rows,
      List.map_cons, List.sum_cons, ← rows, ← length_words jobs]
    cases jobs with
    | nil =>
      show centroidFold m channel (job.words ++ []) (job.starts ++ []) (job.words.length + 0) = _
      rw [List.append_nil, List.append_nil, Nat.add_zero, ← result, List.mapM_cons, List.mapM_nil]
      cases result m channel job with
      | none => rfl
      | some ws =>
        show some ws = some (ws ++ [])
        rw [List.append_nil]
    | cons job' jobs =>
      have hrest := ih (List.cons_ne_nil job' jobs)
      rw [← length_words] at hrest
      rw [centroidFold_concat hm channel job.cover (cover_entries (List.cons_ne_nil job' jobs)), hrest,
        ← result]
      generalize job' :: jobs = rest
      rw [List.mapM_cons]
      cases result m channel job with
      | none => rfl
      | some ws =>
        cases rest.mapM (result m channel) with
        | none => rfl
        | some wss => rfl

end Fold

end Job

/-- The jobs of a batch, channel by channel. -/
abbrev Queue := List (Channel × List Job)

namespace Queue

def batch (q : Queue) : Batch :=
  ⟨q.map fun e => (e.1, Job.entries 0 e.2), q.map fun e => (e.1, Job.rows e.2)⟩

def jobs (q : Queue) : List (Channel × Job) := q.flatMap fun e => e.2.map fun job => (e.1, job)

def outs (q : Queue) : List Addr := q.jobs.map fun j => j.2.out

def results (m : WordFolds) (q : Queue) : Option (List Words) :=
  q.jobs.mapM fun j => j.2.result m j.1

theorem jobs_cons (e : Channel × List Job) (q : Queue) :
    jobs (e :: q) = e.2.map (fun job => (e.1, job)) ++ jobs q := List.flatMap_cons

theorem outs_cons (e : Channel × List Job) (q : Queue) :
    outs (e :: q) = e.2.map Job.out ++ outs q := by
  rw [outs, jobs_cons, List.map_append, List.map_map]
  rfl

theorem results_cons (m : WordFolds) (e : Channel × List Job) (q : Queue) :
    results m (e :: q) = do
      let rs ← e.2.mapM (Job.result m e.1)
      let rs' ← results m q
      return rs ++ rs' := by
  rw [results, jobs_cons, List.mapM_append, List.mapM_map]
  rfl

def enqueue (channel : Channel) (job : Job) (q : Queue) : Queue :=
  put channel ((q.lookup channel).getD [] ++ [job]) q

theorem perm_enqueue (channel : Channel) (job : Job) (q : Queue) :
    (enqueue channel job q).jobs.Perm (q.jobs ++ [(channel, job)]) := by
  induction q with
  | nil => rfl
  | cons e q ih =>
    rw [enqueue, List.lookup_cons, put]
    by_cases he : e.1 = channel
    · subst he
      rw [if_pos rfl, beq_self_eq_true]
      show (((e.2 ++ [job]).map fun j => (e.1, j)) ++ jobs q).Perm _
      rw [List.map_append, List.append_assoc]
      show ((e.2.map fun j => (e.1, j)) ++ ([(e.1, job)] ++ jobs q)).Perm
        (((e.2.map fun j => (e.1, j)) ++ jobs q) ++ [(e.1, job)])
      rw [List.append_assoc]
      exact List.perm_append_comm.append_left _
    · rw [if_neg he, beq_false_of_ne (Ne.symm he)]
      show ((e.2.map fun j => (e.1, j)) ++ jobs (enqueue channel job q)).Perm
        (((e.2.map fun j => (e.1, j)) ++ jobs q) ++ [(channel, job)])
      rw [List.append_assoc]
      exact ih.append_left _

/-- Deferring puts one job at the end of its channel. -/
theorem batch_enqueue (channel : Channel) (job : Job) (q : Queue) :
    (enqueue channel job q).batch =
      ⟨put channel ((q.batch.pending.lookup channel).getD [] ++
          [⟨job.words, job.starts.map (· + (q.batch.rows.lookup channel).getD 0), job.out,
            job.words.length⟩]) q.batch.pending,
        put channel ((q.batch.rows.lookup channel).getD 0 + job.words.length) q.batch.rows⟩ := by
  have hrows : (q.batch.rows.lookup channel).getD 0 = Job.rows ((q.lookup channel).getD []) := by
    rw [batch, lookup_map_snd]
    cases q.lookup channel with
    | none => rfl
    | some jobs => rfl
  have hpending : (q.batch.pending.lookup channel).getD [] =
      Job.entries 0 ((q.lookup channel).getD []) := by
    rw [batch, lookup_map_snd]
    cases q.lookup channel with
    | none => rfl
    | some jobs => rfl
  have hentries := Job.entries_append 0 ((q.lookup channel).getD []) [job]
  have hsum : Job.rows ((q.lookup channel).getD [] ++ [job]) =
      Job.rows ((q.lookup channel).getD []) + job.words.length := by
    rw [Job.rows, List.map_append, List.sum_append, ← Job.rows, List.map_singleton,
      List.sum_singleton]
  rw [Nat.zero_add, Job.entries, Job.entries] at hentries
  rw [hrows, hpending, ← hentries, ← hsum]
  show Batch.mk ((enqueue channel job q).map _) ((enqueue channel job q).map _) = Batch.mk _ _
  congr 1
  · exact (put_map_snd (Job.entries 0) channel _ q).symm
  · exact (put_map_snd Job.rows channel _ q).symm

theorem pending_batch (q : Queue) :
    (q.batch.pending.flatMap fun e => e.2.map Deferred.out) = q.outs := by
  have hentries : ∀ base jobs, (Job.entries base jobs).map Deferred.out = jobs.map Job.out := by
    intro base jobs
    induction jobs generalizing base with
    | nil => rfl
    | cons job jobs ih => rw [Job.entries, List.map_cons, List.map_cons, ih]
  rw [outs, jobs, List.map_flatMap, batch, List.flatMap_map]
  simp only [hentries, List.map_map]
  rfl

end Queue

/-- Every destination has room for its job's words. -/
def Placed (heap : Heap) (jobs : List Job) : Prop :=
  ∀ job ∈ jobs, (heap.read job.out).length = job.starts.length

theorem length_read_set (heap : Heap) {out : Addr} {ws : Words}
    (h : ws.length = (heap.read out).length) (a : Addr) :
    (Heap.read (heap.set out ws) a).length = (heap.read a).length := by
  rw [Heap.read, List.getD_eq_getElem?_getD, List.getElem?_set]
  split_ifs with ha hbound
  · rw [← ha]
    exact h
  · rw [← ha, Heap.read, List.getD_eq_getElem?_getD, List.getElem?_eq_none (by omega)]
  · rw [Heap.read, List.getD_eq_getElem?_getD]

theorem Placed.fill {ctx : Ctx} {jobs : List Job} (h : Placed ctx.heap jobs) {out : Addr} {ws : Words}
    (hlen : ws.length = (ctx.heap.read out).length) : Placed (ctx.fill out ws).heap jobs :=
  fun job hjob => (length_read_set ctx.heap hlen job.out).trans (h job hjob)

namespace Ctx

/-- The destinations filled one behind the other. -/
def fillAll (ctx : Ctx) : List (Addr × Words) → Ctx := List.foldl (fun ctx p => ctx.fill p.1 p.2) ctx

theorem fillAll_append (ctx : Ctx) (ps ps' : List (Addr × Words)) :
    (ctx.fillAll ps).fillAll ps' = ctx.fillAll (ps ++ ps') := List.foldl_append.symm

theorem fillAll_batch (ctx : Ctx) (ps : List (Addr × Words)) : (ctx.fillAll ps).batch = ctx.batch := by
  induction ps generalizing ctx with
  | nil => rfl
  | cons p ps ih => exact ih _

theorem fillAll_deferred (ctx : Ctx) (ps : List (Addr × Words)) :
    (ctx.fillAll ps).deferred = ctx.deferred := by
  induction ps generalizing ctx with
  | nil => rfl
  | cons p ps ih => exact ih _

theorem fillAll_filled (ctx : Ctx) (ps : List (Addr × Words)) :
    (ctx.fillAll ps).filled = ctx.filled ++ ps.map Prod.fst := by
  induction ps generalizing ctx with
  | nil => exact (List.append_nil _).symm
  | cons p ps ih =>
    show ((ctx.fill p.1 p.2).fillAll ps).filled = _
    rw [ih, List.map_cons]
    show (ctx.filled ++ [p.1]) ++ ps.map Prod.fst = _
    rw [List.append_assoc]
    rfl

theorem fillAll_length (ctx : Ctx) (ps : List (Addr × Words)) :
    (ctx.fillAll ps).heap.length = ctx.heap.length := by
  induction ps generalizing ctx with
  | nil => rfl
  | cons p ps ih =>
    show ((ctx.fill p.1 p.2).fillAll ps).heap.length = _
    rw [ih]
    exact List.length_set

theorem length_read_fillAll {ctx : Ctx} {ps : List (Addr × Words)}
    (h : ∀ p ∈ ps, p.2.length = (ctx.heap.read p.1).length) (a : Addr) :
    ((ctx.fillAll ps).heap.read a).length = (ctx.heap.read a).length := by
  induction ps generalizing ctx with
  | nil => rfl
  | cons p ps ih =>
    have hfirst := length_read_set ctx.heap (h p (.head _))
    have hrest : ∀ p' ∈ ps, p'.2.length = ((ctx.fill p.1 p.2).heap.read p'.1).length :=
      fun p' hp' => (h p' (.tail _ hp')).trans (hfirst p'.1).symm
    exact (ih hrest).trans (hfirst a)

/-- Where the filled words are those of a heap that agrees elsewhere, the heap is that one. -/
theorem fillAll_heap {heap : Heap} {ctx : Ctx} {ps : List (Addr × Words)}
    (hlen : heap.length = ctx.heap.length) (hps : ∀ p ∈ ps, heap[p.1]? = some p.2)
    (hrest : ∀ a, a ∉ ps.map Prod.fst → heap[a]? = ctx.heap[a]?) : (ctx.fillAll ps).heap = heap := by
  induction ps generalizing ctx with
  | nil => exact (List.ext_getElem? fun a => hrest a List.not_mem_nil).symm
  | cons p ps ih =>
    apply ih
    · exact hlen.trans List.length_set.symm
    · exact fun p' hp' => hps p' (.tail _ hp')
    · intro a ha
      show heap[a]? = (ctx.heap.set p.1 p.2)[a]?
      rw [List.getElem?_set]
      split_ifs with h hbound
      · rw [← h, hps p (.head _)]
      · rw [← h, List.getElem?_eq_none (by omega)]
      · apply hrest
        intro hmem
        rcases List.mem_cons.mp hmem with hmem | hmem
        · exact h hmem.symm
        · exact ha hmem

theorem assign_eq {ctx : Ctx} {out : Addr} {ws : Words} (h : ws.length = (ctx.heap.read out).length) :
    ctx.assign out ws = some (ctx.fill out ws) := if_pos h

/-- The slices of the concatenated words are the words job by job. -/
theorem scatter_eq {ctx : Ctx} {jobs : List Job} {rs : List Words} (base : Nat) (done : Words)
    (hplaced : Placed ctx.heap jobs)
    (hrs : List.Forall₂ (fun job r => r.length = job.starts.length) jobs rs) :
    ctx.scatter (done ++ rs.flatten) done.length (Job.entries base jobs) =
      some (ctx.fillAll ((jobs.map Job.out).zip rs)) := by
  induction hrs generalizing ctx base done with
  | nil => rfl
  | @cons job r jobs rs hr hrs ih =>
    have hsize : (ctx.heap.read job.out).length = r.length := (hplaced job (.head _)).trans hr.symm
    have hslice : slice (done ++ (r :: rs).flatten) done.length (done.length + r.length) = r := by
      rw [slice, List.drop_left, List.flatten_cons, Nat.add_sub_cancel_left, List.take_left]
    have hrest : Placed (ctx.fill job.out r).heap jobs :=
      Placed.fill (fun j hj => hplaced j (.tail _ hj)) hsize.symm
    have ih := ih (base + job.words.length) (done ++ r) hrest
    rw [List.length_append, List.append_assoc, ← List.flatten_cons] at ih
    rw [Job.entries, scatter]
    simp only [hsize, hslice, assign_eq hsize.symm]
    exact ih

end Ctx

section Flush
variable {m : WordFolds} {join : Words → Option Nat} (hm : Segmented m join)
include hm

theorem flushChannel_eq {ctx : Ctx} (channel : Channel) {jobs : List Job} (hne : jobs ≠ [])
    (hplaced : Placed ctx.heap jobs) :
    flushChannel m channel (Job.rows jobs) ctx (Job.entries 0 jobs) =
      (jobs.mapM (Job.result m channel)).map fun rs => ctx.fillAll ((jobs.map Job.out).zip rs) := by
  match jobs, hne, hplaced with
  | [], hne, _ => exact absurd rfl hne
  | [job], _, hplaced =>
    have hzero : job.starts.map (· + 0) = job.starts := List.map_id _
    rw [Job.entries, Job.entries, flushChannel, hzero, ← Job.result, List.mapM_cons, List.mapM_nil]
    cases hr : job.result m channel with
    | none => rfl
    | some r =>
      show ctx.assign job.out r = some (ctx.fill job.out r)
      exact Ctx.assign_eq ((Job.length_result hm hr).trans (hplaced job (.head _)).symm)
  | job :: job' :: jobs, hne, hplaced =>
    show (do
      let reduced ← centroidFold m channel ((Job.entries 0 (job :: job' :: jobs)).flatMap Deferred.words)
        ((Job.entries 0 (job :: job' :: jobs)).flatMap Deferred.starts) (Job.rows (job :: job' :: jobs))
      ctx.scatter reduced 0 (Job.entries 0 (job :: job' :: jobs))) = _
    rw [Job.centroidFold_entries hm channel hne]
    generalize job :: job' :: jobs = jobs at hplaced ⊢
    cases hrs : jobs.mapM (Job.result m channel) with
    | none => rfl
    | some rs => exact Ctx.scatter_eq 0 [] hplaced (Job.length_results hm hrs)

omit hm in
/-- The words of a channel's jobs fit their destinations. -/
theorem fits_of_results {heap : Heap} {jobs : List Job} {rs : List Words}
    (hplaced : Placed heap jobs)
    (hrs : List.Forall₂ (fun job r => r.length = job.starts.length) jobs rs) :
    ∀ p ∈ (jobs.map Job.out).zip rs, p.2.length = (heap.read p.1).length := by
  induction hrs with
  | nil => exact nofun
  | @cons job r jobs rs hr _ ih =>
    intro p hp
    rcases List.mem_cons.mp hp with rfl | hp
    · exact hr.trans (hplaced job (.head _)).symm
    · exact ih (fun job hjob => hplaced job (.tail _ hjob)) p hp

/-- A flush folds every job and fills its destination. -/
theorem flush_eq {q : Queue} (hkeys : (q.map Prod.fst).Nodup) (hne : ∀ e ∈ q, e.2 ≠ []) {ctx : Ctx}
    (hplaced : Placed ctx.heap (q.jobs.map Prod.snd)) :
    q.batch.flush m ctx = (q.results m).map fun rs => ctx.fillAll (q.outs.zip rs) := by
  have hrows : ∀ e ∈ q, (q.batch.rows.lookup e.1).getD 0 = Job.rows e.2 := by
    intro e he
    rw [Queue.batch, lookup_map_snd, lookup_of_nodup hkeys he]
    rfl
  rw [Batch.flush]
  generalize q.batch.rows = rows at hrows
  show (q.map fun e => (e.1, Job.entries 0 e.2)).foldlM _ ctx = _
  clear hkeys
  induction q generalizing ctx with
  | nil => rfl
  | cons e q ih =>
    rw [Queue.jobs_cons, List.map_append, List.map_map] at hplaced
    have hfirst : Placed ctx.heap e.2 := fun job hjob =>
      hplaced job (List.mem_append_left _ (List.mem_map_of_mem hjob))
    have hrest : ∀ rs, e.2.mapM (Job.result m e.1) = some rs →
        Placed (ctx.fillAll ((e.2.map Job.out).zip rs)).heap ((Queue.jobs q).map Prod.snd) := by
      intro rs hrs job hjob
      rw [Ctx.length_read_fillAll (fits_of_results hfirst (Job.length_results hm hrs))]
      exact hplaced job (List.mem_append_right _ hjob)
    rw [List.map_cons, List.foldlM_cons, hrows e (.head _),
      flushChannel_eq hm e.1 (hne e (.head _)) hfirst, Queue.results_cons]
    cases hrs : e.2.mapM (Job.result m e.1) with
    | none => rfl
    | some rs =>
      have ih := ih (fun e he => hne e (.tail _ he)) (hrest rs hrs) fun e he => hrows e (.tail _ he)
      show (q.map fun e => (e.1, Job.entries 0 e.2)).foldlM _ _ = _
      rw [ih]
      cases Queue.results m q with
      | none => rfl
      | some rs' =>
        have hlen : (e.2.map Job.out).length = rs.length := by
          rw [List.length_map]
          exact (forall₂_of_mapM_some hrs).length_eq
        show some (((ctx.fillAll _).fillAll _)) = some (ctx.fillAll ((Queue.outs (e :: q)).zip (rs ++ rs')))
        rw [Queue.outs_cons, List.zip_append hlen, Ctx.fillAll_append]

end Flush

/-- A run under the batch with the jobs of `q` put off. -/
structure Tracks (ctx : Ctx) (q : Queue) : Prop where
  batch : ctx.batch = some q.batch
  keys : (q.map Prod.fst).Nodup
  nonempty : ∀ e ∈ q, e.2 ≠ []
  placed : ∀ j ∈ q.jobs, ctx.heap.read j.2.out = List.replicate j.2.starts.length 0
  log : ctx.deferred.Perm (ctx.filled ++ q.outs)
  nodup : ctx.deferred.Nodup
  bound : ∀ a ∈ ctx.deferred, a < ctx.heap.length

theorem read_append (heap : Heap) (ws : Words) {a : Addr} (h : a < heap.length) :
    Heap.read (heap ++ [ws]) a = heap.read a := List.getD_append _ _ _ _ h

namespace Tracks
variable {ctx : Ctx} {q : Queue}

theorem start (heap : Heap) : Tracks ⟨heap, some Batch.new, [], []⟩ [] :=
  ⟨rfl, .nil, nofun, nofun, .refl _, .nil, nofun⟩

theorem out_mem (h : Tracks ctx q) {a : Addr} (ha : a ∈ q.outs) : a ∈ ctx.deferred :=
  h.log.mem_iff.mpr (List.mem_append_right _ ha)

theorem out_lt (h : Tracks ctx q) {j : Channel × Job} (hj : j ∈ q.jobs) :
    j.2.out < ctx.heap.length := h.bound _ (h.out_mem (List.mem_map_of_mem hj))

theorem room (h : Tracks ctx q) : Placed ctx.heap (q.jobs.map Prod.snd) := by
  intro job hjob
  obtain ⟨j, hj, rfl⟩ := List.mem_map.mp hjob
  rw [h.placed j hj, List.length_replicate]

theorem alloc (h : Tracks ctx q) (ws : Words) : Tracks (ctx.alloc ws).2 q := by
  refine ⟨h.batch, h.keys, h.nonempty, fun j hj => ?_, h.log, h.nodup, fun a ha => ?_⟩
  · exact (read_append ctx.heap ws (h.out_lt hj)).trans (h.placed j hj)
  · show a < (ctx.heap ++ [ws]).length
    rw [List.length_append]
    exact Nat.lt_add_right _ (h.bound a ha)

end Tracks

/-- The state after `job` was put off. -/
def Ctx.push (ctx : Ctx) (q : Queue) (channel : Channel) (job : Job) : Ctx :=
  ⟨ctx.heap ++ [List.replicate job.starts.length 0], some (Queue.enqueue channel job q).batch,
    ctx.deferred ++ [job.out], ctx.filled⟩

theorem Queue.mem_enqueue {channel : Channel} {job : Job} {q : Queue} {j : Channel × Job} :
    j ∈ Queue.jobs (Queue.enqueue channel job q) ↔ j ∈ q.jobs ∨ j = (channel, job) := by
  rw [(Queue.perm_enqueue channel job q).mem_iff, List.mem_append, List.mem_singleton]

theorem Queue.outs_enqueue (channel : Channel) (job : Job) (q : Queue) :
    (Queue.outs (Queue.enqueue channel job q)).Perm (q.outs ++ [job.out]) := by
  have hperm := (Queue.perm_enqueue channel job q).map fun j => j.2.out
  rw [List.map_append] at hperm
  exact hperm

theorem Tracks.push {ctx : Ctx} {q : Queue} (h : Tracks ctx q) (channel : Channel) {job : Job}
    (hout : job.out = ctx.heap.length) :
    Tracks (ctx.push q channel job) (Queue.enqueue channel job q) := by
  have hlen : (ctx.push q channel job).heap.length = ctx.heap.length + 1 := List.length_append
  refine ⟨rfl, nodup_put channel _ h.keys, fun e he => ?_, fun j hj => ?_, ?_, ?_, fun a ha => ?_⟩
  · rcases mem_put he with rfl | he
    · exact List.append_ne_nil_of_right_ne_nil _ (List.cons_ne_nil job [])
    · exact h.nonempty e he
  · rcases Queue.mem_enqueue.mp hj with hj | rfl
    · exact (read_append ctx.heap _ (h.out_lt hj)).trans (h.placed j hj)
    · show Heap.read (ctx.heap ++ [_]) job.out = _
      rw [hout, Heap.read, List.getD_append_right _ _ _ _ le_rfl, Nat.sub_self]
      rfl
  · have hlog := h.log.append_right [job.out]
    rw [List.append_assoc] at hlog
    exact hlog.trans ((Queue.outs_enqueue channel job q).symm.append_left _)
  · refine List.nodup_append.mpr ⟨h.nodup, List.nodup_singleton _, fun a ha b hb hab => ?_⟩
    have hlt := h.bound a ha
    rw [hab, List.mem_singleton.mp hb, hout] at hlt
    exact Nat.lt_irrefl _ hlt
  · rw [hlen]
    rcases List.mem_append.mp ha with ha | ha
    · exact (h.bound a ha).trans (Nat.lt_succ_self _)
    · rw [List.mem_singleton.mp ha, hout]
      exact Nat.lt_succ_self _

section Steps
variable {m : WordFolds} {join : Words → Option Nat} {cap : Nat} {ctx : Ctx} {q : Queue}

variable (m cap) in
/-- A deferral puts one job off, and flushes the whole batch at the cap. -/
theorem defer_push (q : Queue) (channel : Channel) (job : Job)
    (hout : job.out = ctx.heap.length) :
    q.batch.defer m cap channel job.words job.starts job.words.length ctx =
        some (job.out, ctx.push q channel job) ∨
      q.batch.defer m cap channel job.words job.starts job.words.length ctx =
        ((Queue.enqueue channel job q).batch.flushDetached m (ctx.push q channel job)).map
          (Prod.mk job.out) := by
  have hhead : job.starts.head?.any (· ≠ 0) = false := by
    rw [job.cover.head]
    rfl
  have hpush : ctx.push q channel job = ⟨ctx.heap ++ [List.replicate job.starts.length 0],
      some (Queue.enqueue channel job q).batch, ctx.deferred ++ [ctx.heap.length], ctx.filled⟩ := by
    rw [Ctx.push, hout]
  rw [hpush, Queue.batch_enqueue, Batch.defer, hhead, if_neg Bool.false_ne_true, hout]
  dsimp only
  rw [List.take_length]
  split
  · refine .inr ?_
    generalize Batch.flushDetached m _ _ = flushed
    cases flushed with
    | none => rfl
    | some ctx' => rfl
  · exact .inl rfl

theorem results_none {j : Channel × Job} (hj : j ∈ q.jobs) (h : j.2.result m j.1 = none) :
    q.results m = none := by
  cases hrs : q.results m with
  | none => rfl
  | some rs =>
    obtain ⟨i, hi, hij⟩ := List.mem_iff_getElem.mp hj
    have hget := (List.forall₂_iff_get.mp (forall₂_of_mapM_some hrs)).2 i hi
      ((forall₂_of_mapM_some hrs).length_eq ▸ hi)
    rw [List.get_eq_getElem, hij, h] at hget
    cases hget

/-- Without a batch nothing is put off any more. -/
theorem Tracks.flush (hm : Segmented m join) (h : Tracks ctx q) :
    q.batch.flush m { ctx with batch := none } =
      (q.results m).map fun rs => Ctx.fillAll { ctx with batch := none } (q.outs.zip rs) :=
  flush_eq hm h.keys h.nonempty h.room

/-- What a flush leaves behind. -/
structure Flushed (ctx ctx' : Ctx) (q : Queue) : Prop where
  batch : ctx'.batch = none
  length : ctx'.heap.length = ctx.heap.length
  deferred : ctx'.deferred = ctx.deferred
  filled : ctx'.filled = ctx.filled ++ q.outs

theorem Tracks.flushed (hm : Segmented m join) (h : Tracks ctx q) {ctx' : Ctx}
    (hflush : q.batch.flush m { ctx with batch := none } = some ctx') : Flushed ctx ctx' q := by
  rw [h.flush hm] at hflush
  obtain ⟨rs, hrs, rfl⟩ := Option.map_eq_some_iff.mp hflush
  have hlen : q.outs.length ≤ rs.length := by
    rw [Queue.outs, List.length_map, (forall₂_of_mapM_some hrs).length_eq]
  refine ⟨Ctx.fillAll_batch _ _, Ctx.fillAll_length _ _, Ctx.fillAll_deferred _ _, ?_⟩
  rw [Ctx.fillAll_filled, List.map_fst_zip hlen]

/-- A flush inside the context leaves an empty batch. -/
theorem Tracks.restart (hm : Segmented m join) (h : Tracks ctx q) {ctx' : Ctx}
    (hflush : q.batch.flushDetached m ctx = some ctx') : Tracks ctx' [] := by
  obtain ⟨ctx'', hctx, hflush⟩ := Option.bind_eq_some_iff.mp hflush
  cases hflush
  have hleft := h.flushed hm hctx
  refine ⟨rfl, .nil, nofun, nofun, ?_, ?_, fun a ha => ?_⟩
  · show ctx''.deferred.Perm (ctx''.filled ++ [])
    rw [hleft.deferred, hleft.filled, List.append_nil]
    exact h.log
  · show ctx''.deferred.Nodup
    rw [hleft.deferred]
    exact h.nodup
  · show a < ctx''.heap.length
    rw [hleft.length]
    rw [show ctx''.deferred = ctx.deferred from hleft.deferred] at ha
    exact h.bound a ha

/-- The run without the batch beside the run under it. -/
structure Sim (m : WordFolds) (plain ctx : Ctx) (q : Queue) : Prop where
  tracks : Tracks ctx q
  free : plain.batch = none
  length : plain.heap.length = ctx.heap.length
  result : ∀ j ∈ q.jobs, ∃ ws, j.2.result m j.1 = some ws ∧ plain.heap[j.2.out]? = some ws
  rest : ∀ a, a ∉ q.outs → plain.heap[a]? = ctx.heap[a]?

variable {plain : Ctx}

theorem Sim.alloc (h : Sim m plain ctx q) (ws : Words) :
    Sim m (plain.alloc ws).2 (ctx.alloc ws).2 q := by
  refine ⟨h.tracks.alloc ws, h.free, ?_, fun j hj => ?_, fun a ha => ?_⟩
  · show (plain.heap ++ [ws]).length = (ctx.heap ++ [ws]).length
    rw [List.length_append, List.length_append, h.length]
  · obtain ⟨rs, hrs, hget⟩ := h.result j hj
    refine ⟨rs, hrs, ?_⟩
    show (plain.heap ++ [ws])[j.2.out]? = some rs
    rw [List.getElem?_append_left (h.length ▸ h.tracks.out_lt hj), hget]
  · show (plain.heap ++ [ws])[a]? = (ctx.heap ++ [ws])[a]?
    rw [List.getElem?_append, List.getElem?_append, h.length, h.rest a ha]

/-- Where one run folds, the other one puts the job off. -/
theorem Sim.push (h : Sim m plain ctx q) {channel : Channel} {job : Job}
    (hout : job.out = ctx.heap.length) {ws : Words} (hws : job.result m channel = some ws) :
    Sim m (plain.alloc ws).2 (ctx.push q channel job) (Queue.enqueue channel job q) := by
  refine ⟨h.tracks.push channel hout, h.free, ?_, fun j hj => ?_, fun a ha => ?_⟩
  · show (plain.heap ++ [ws]).length = (ctx.heap ++ [_]).length
    rw [List.length_append, List.length_append, h.length]
    rfl
  · rcases Queue.mem_enqueue.mp hj with hj | rfl
    · obtain ⟨rs, hrs, hget⟩ := h.result j hj
      refine ⟨rs, hrs, ?_⟩
      show (plain.heap ++ [ws])[j.2.out]? = some rs
      rw [List.getElem?_append_left (h.length ▸ h.tracks.out_lt hj), hget]
    · refine ⟨ws, hws, ?_⟩
      show (plain.heap ++ [ws])[job.out]? = some ws
      rw [hout, ← h.length, List.getElem?_concat_length]
  · rw [(Queue.outs_enqueue channel job q).mem_iff, List.mem_append, List.mem_singleton, not_or] at ha
    show (plain.heap ++ [ws])[a]? = (ctx.heap ++ [_])[a]?
    rw [List.getElem?_append, List.getElem?_append, h.length, h.rest a ha.1]
    split_ifs with hlt
    · rfl
    · have hgt : ctx.heap.length < a := Nat.lt_of_le_of_ne (Nat.not_lt.mp hlt) (hout ▸ Ne.symm ha.2)
      rw [List.getElem?_eq_none (Nat.sub_pos_of_lt hgt), List.getElem?_eq_none (Nat.sub_pos_of_lt hgt)]

theorem Sim.results (h : Sim m plain ctx q) :
    ∃ rs, q.results m = some rs ∧ ∀ p ∈ q.outs.zip rs, plain.heap[p.1]? = some p.2 := by
  have hresult := h.result
  rw [Queue.results, Queue.outs]
  generalize q.jobs = jobs at hresult
  induction jobs with
  | nil => exact ⟨[], rfl, nofun⟩
  | cons j jobs ih =>
    obtain ⟨ws, hws, hget⟩ := hresult j (.head _)
    obtain ⟨rs, hrs, hrest⟩ := ih fun j hj => hresult j (.tail _ hj)
    refine ⟨ws :: rs, ?_, fun p hp => ?_⟩
    · rw [List.mapM_cons, hws, hrs]
      rfl
    · rcases List.mem_cons.mp hp with rfl | hp
      · exact hget
      · exact hrest p hp

/-- A flush brings the heaps together. -/
theorem Sim.flush (hm : Segmented m join) (h : Sim m plain ctx q) :
    ∃ ctx', q.batch.flush m { ctx with batch := none } = some ctx' ∧ ctx'.heap = plain.heap := by
  obtain ⟨rs, hrs, hps⟩ := h.results
  have hlen : q.outs.length ≤ rs.length := by
    rw [Queue.outs, List.length_map, (forall₂_of_mapM_some hrs).length_eq]
  refine ⟨_, (h.tracks.flush hm).trans (congrArg (Option.map _) hrs), ?_⟩
  refine Ctx.fillAll_heap h.length hps fun a ha => ?_
  rw [List.map_fst_zip hlen] at ha
  exact h.rest a ha

/-- Some job put off will fail. -/
def Doomed (m : WordFolds) (ctx : Ctx) : Prop :=
  ∃ q, Tracks ctx q ∧ ∃ j ∈ q.jobs, j.2.result m j.1 = none

def Alike (m : WordFolds) (plain ctx : Ctx) : Prop := ∃ q, Sim m plain ctx q

theorem flushDetached_none (hm : Segmented m join) (h : Tracks ctx q) {j : Channel × Job}
    (hj : j ∈ q.jobs) (hfail : j.2.result m j.1 = none) : q.batch.flushDetached m ctx = none := by
  rw [Batch.flushDetached, h.flush hm, results_none hj hfail]
  rfl

theorem Sim.restart (hm : Segmented m join) (h : Sim m plain ctx q) :
    ∃ ctx', q.batch.flushDetached m ctx = some ctx' ∧ Sim m plain ctx' [] := by
  obtain ⟨ctx', hflush, hheap⟩ := h.flush hm
  have hdetached : q.batch.flushDetached m ctx = some { ctx' with batch := some Batch.new } := by
    rw [Batch.flushDetached, hflush]
    rfl
  refine ⟨_, hdetached, h.tracks.restart hm hdetached, h.free, ?_, nofun, fun a _ => ?_⟩
  · exact congrArg List.length hheap.symm
  · exact congrArg (fun heap : Heap => heap[a]?) hheap.symm

/-- An output leaves the runs alike, or fails in both, at the latest when the batch folds. -/
theorem follows_runOutput (hm : Segmented m join) {o : Channel × Output} (ho : o.2.Valid)
    (h : Alike m plain ctx) :
    Follows (Alike m) (Doomed m) (runOutput m cap o plain) (runOutput m cap o ctx) := by
  obtain ⟨q, h⟩ := h
  obtain ⟨channel, o⟩ := o
  cases o with
  | copy ws =>
    have haddr : plain.heap.length = ctx.heap.length := h.length
    refine .inl ⟨ctx.heap.length, (plain.alloc ws).2, (ctx.alloc ws).2, ?_, rfl, q, h.alloc ws⟩
    rw [← haddr]
    rfl
  | fold words starts n =>
    obtain ⟨hcover, rfl⟩ := ho
    have hplain : runOutput m cap (channel, .fold words starts words.length) plain =
        (centroidFold m channel words starts words.length).map plain.alloc := by
      rw [runOutput]
      simp only [h.free]
      cases centroidFold m channel words starts words.length with
      | none => rfl
      | some ws => rfl
    have hbatched : runOutput m cap (channel, .fold words starts words.length) ctx =
        q.batch.defer m cap channel words starts words.length ctx := by
      rw [runOutput]
      simp only [h.tracks.batch]
    rw [hplain, hbatched]
    let job : Job := ⟨words, starts, ctx.heap.length, hcover⟩
    have hdefer := defer_push m cap q channel job rfl
    have hmem : (channel, job) ∈ Queue.jobs (Queue.enqueue channel job q) := Queue.mem_enqueue.mpr (.inr rfl)
    have hpush := h.tracks.push channel (rfl : job.out = ctx.heap.length)
    cases hws : centroidFold m channel words starts words.length with
    | none =>
      refine .inr ⟨rfl, fun r hr => ?_⟩
      rcases hdefer with hdefer | hdefer
      · cases hdefer.symm.trans hr
        exact ⟨_, hpush, _, hmem, hws⟩
      · rw [flushDetached_none hm hpush hmem hws] at hdefer
        cases hdefer.symm.trans hr
    | some ws =>
      have hsim := h.push (rfl : job.out = ctx.heap.length) hws
      rcases hdefer with hdefer | hdefer
      · refine .inl ⟨ctx.heap.length, _, _, ?_, hdefer, _, hsim⟩
        show some (plain.alloc ws) = _
        rw [← h.length]
        rfl
      · obtain ⟨ctx', hflush, hrestart⟩ := hsim.restart hm
        rw [hflush] at hdefer
        refine .inl ⟨ctx.heap.length, _, _, ?_, hdefer, _, hrestart⟩
        show some (plain.alloc ws) = _
        rw [← h.length]
        rfl

/-- No output loses a job that will fail. -/
theorem Tracks.runOutput (hm : Segmented m join) {o : Channel × Output} (ho : o.2.Valid)
    (h : Tracks ctx q) {r : Addr × Ctx} (hr : runOutput m cap o ctx = some r) :
    ∃ q' : Queue, Tracks r.2 q' ∧ ∀ j ∈ q.jobs, j.2.result m j.1 = none → j ∈ q'.jobs := by
  obtain ⟨channel, o⟩ := o
  cases o with
  | copy ws =>
    cases hr
    exact ⟨q, h.alloc ws, fun j hj _ => hj⟩
  | fold words starts n =>
    obtain ⟨hcover, rfl⟩ := ho
    rw [Stats.runOutput] at hr
    simp only [h.batch] at hr
    let job : Job := ⟨words, starts, ctx.heap.length, hcover⟩
    have hpush := h.push channel (rfl : job.out = ctx.heap.length)
    have hmem : ∀ j ∈ q.jobs, j ∈ Queue.jobs (Queue.enqueue channel job q) :=
      fun j hj => Queue.mem_enqueue.mpr (.inl hj)
    rcases defer_push m cap q channel job rfl with hdefer | hdefer
    · cases hdefer.symm.trans hr
      exact ⟨_, hpush, fun j hj _ => hmem j hj⟩
    · obtain ⟨ctx', hflush, rfl⟩ := Option.map_eq_some_iff.mp (hdefer.symm.trans hr)
      refine ⟨[], hpush.restart hm hflush, fun j hj hfail => ?_⟩
      cases (flushDetached_none hm hpush (hmem j hj) hfail).symm.trans hflush

def Tracked (ctx : Ctx) : Prop := ∃ q, Tracks ctx q

theorem tracked_runOutput (hm : Segmented m join) {o : Channel × Output} (ho : o.2.Valid)
    (h : Tracked ctx) {r : Addr × Ctx} (hr : runOutput m cap o ctx = some r) : Tracked r.2 := by
  obtain ⟨q, h⟩ := h
  obtain ⟨q', h, -⟩ := h.runOutput hm ho hr
  exact ⟨q', h⟩

theorem doomed_runOutput (hm : Segmented m join) {o : Channel × Output} (ho : o.2.Valid)
    (h : Doomed m ctx) {r : Addr × Ctx} (hr : runOutput m cap o ctx = some r) : Doomed m r.2 := by
  obtain ⟨q, h, j, hj, hfail⟩ := h
  obtain ⟨q', h, hkeep⟩ := h.runOutput hm ho hr
  exact ⟨q', h, j, hkeep j hj hfail, hfail⟩

section Calls
variable {num : Numerics}

theorem ok_of_toOption {ε α : Type} {x : Except ε α} {a : α} (h : x.toOption = some a) : x = .ok a := by
  cases x with
  | error e => cases h
  | ok b => rw [Option.some.inj h]

/-- What the outputs of a call keep, the call keeps. -/
theorem runCall_keeps {P : Ctx → Prop}
    (step : ∀ o : Channel × Output, o.2.Valid → ∀ ctx r, P ctx → runOutput m cap o ctx = some r → P r.2)
    {call : Call} (h : P ctx) {r : Stored × Ctx} (hr : runCall m cap num call ctx = some r) : P r.2 := by
  obtain ⟨plan, hplan, hr⟩ := Option.bind_eq_some_iff.mp hr
  obtain ⟨rs, hrs, hr⟩ := Option.bind_eq_some_iff.mp hr
  cases hr
  have hvalid := Call.plan_valid (ok_of_toOption hplan)
  have hrest := runEach_keeps (fun o ho ctx r h hr => step o (hvalid o ho) ctx r h hr) h hrs
  exact hrest

theorem tracked_runCall (hm : Segmented m join) {call : Call} (h : Tracked ctx) {r : Stored × Ctx}
    (hr : runCall m cap num call ctx = some r) : Tracked r.2 :=
  runCall_keeps (P := Tracked) (fun _ ho _ _ h hr => tracked_runOutput hm ho h hr) h hr

theorem doomed_runCall (hm : Segmented m join) {call : Call} (h : Doomed m ctx) {r : Stored × Ctx}
    (hr : runCall m cap num call ctx = some r) : Doomed m r.2 :=
  runCall_keeps (P := Doomed m) (fun _ ho _ _ h hr => doomed_runOutput hm ho h hr) h hr

theorem pending_eq (h : Tracks ctx q) : ctx.pending = q.outs := by
  rw [Ctx.pending, h.batch]
  exact q.pending_batch

/-- A call that reads no pending destination sees the heap of the run without the batch. -/
theorem follows_runCall (hm : Segmented m join) {call : Call} (h : Alike m plain ctx)
    (hreads : ∀ a ∈ call.reads, a ∉ ctx.pending) :
    Follows (Alike m) (Doomed m) (runCall m cap num call plain) (runCall m cap num call ctx) := by
  have hplan : call.plan num plain.heap = call.plan num ctx.heap := by
    obtain ⟨q, h⟩ := h
    apply Call.plan_congr
    intro a ha
    have hrest := h.rest a (pending_eq h.tracks ▸ hreads a ha)
    rw [Heap.read, Heap.read, List.getD_eq_getElem?_getD, List.getD_eq_getElem?_getD, hrest]
  rw [runCall, runCall, hplan]
  cases hcall : call.plan num ctx.heap with
  | error e => exact .inr ⟨rfl, nofun⟩
  | ok plan =>
    have hvalid := Call.plan_valid hcall
    have hrun : Follows (Alike m) (Doomed m) (runEach (runOutput m cap) plan.outputs plain)
        (runEach (runOutput m cap) plan.outputs ctx) := by
      apply Follows.runEach _ _ h
      · exact fun o ho _ _ h => follows_runOutput hm (hvalid o ho) h
      · exact fun o ho _ _ h hr => doomed_runOutput hm (hvalid o ho) h hr
    refine hrun.bind (fun arrays plain ctx h => .some h) fun r hr r' hr' => ?_
    cases hr'
    exact hr

/-- A pending destination holds the reserved word, which no call gets by with. -/
theorem runCall_pending {call : Call} (h : Tracked ctx) {a : Addr} (ha : a ∈ call.reads)
    (hpending : a ∈ ctx.pending) : runCall m cap num call ctx = none := by
  obtain ⟨q, h⟩ := h
  rw [pending_eq h] at hpending
  obtain ⟨j, hj, rfl⟩ := List.mem_map.mp hpending
  have hpos : j.2.starts.length ≠ 0 := fun hnil => j.2.cover.ne_nil (List.length_eq_zero_iff.mp hnil)
  have hzero : 0 ∈ ctx.heap.read j.2.out := by
    rw [h.placed j hj]
    exact List.mem_replicate.mpr ⟨hpos, rfl⟩
  rw [runCall]
  cases hplan : call.plan num ctx.heap with
  | error e => rfl
  | ok plan => exact absurd hzero (Call.notMem_of_plan hplan _ ha)

theorem follows_runCalls (hm : Segmented m join) {calls : List Call} (h : Alike m plain ctx)
    (hsettled : settled m cap num calls ctx = true) :
    Follows (Alike m) (Doomed m) (runCalls m cap num calls plain) (runCalls m cap num calls ctx) := by
  induction calls generalizing plain ctx with
  | nil => exact .some h
  | cons call calls ih =>
    rw [settled, Bool.and_eq_true, List.all_eq_true] at hsettled
    obtain ⟨hreads, hrest⟩ := hsettled
    have hcall : Follows (Alike m) (Doomed m) (runCall m cap num call plain) (runCall m cap num call ctx) :=
      follows_runCall hm h fun a ha => of_decide_eq_true (hreads a ha)
    rw [runCalls, runEach, runEach]
    rcases hcall with ⟨stored, plain', ctx', hplain, hctx, h⟩ | ⟨hplain, hctx⟩
    · rw [hctx] at hrest
      rw [hplain, hctx]
      refine (ih h hrest).bind (fun rest plain ctx h => .some h) fun r hr r' hr' => ?_
      cases hr'
      exact hr
    · rw [hplain]
      refine .inr ⟨rfl, fun r hr => ?_⟩
      obtain ⟨r', hr', hr⟩ := Option.bind_eq_some_iff.mp hr
      obtain ⟨rs, hrs, hr⟩ := Option.bind_eq_some_iff.mp hr
      cases hr
      have hdoomed := runEach_keeps (P := Doomed m) (fun _ _ _ _ h hr => doomed_runCall hm h hr) (hctx r' hr') hrs
      exact hdoomed

theorem runCalls_unsettled (hm : Segmented m join) {calls : List Call} (h : Tracked ctx)
    (hsettled : settled m cap num calls ctx = false) : runCalls m cap num calls ctx = none := by
  induction calls generalizing ctx with
  | nil => cases hsettled
  | cons call calls ih =>
    cases hcall : runCall m cap num call ctx with
    | none =>
      rw [runCalls, runEach, hcall]
      rfl
    | some r =>
      have hreads : ∀ a ∈ call.reads, a ∉ ctx.pending := by
        intro a ha hpending
        cases hcall.symm.trans (runCall_pending h ha hpending)
      have hall : call.reads.all (fun a => a ∉ ctx.pending) = true :=
        List.all_eq_true.mpr fun a ha => decide_eq_true (hreads a ha)
      rw [settled, hall, hcall, Bool.true_and] at hsettled
      have hrest := ih (tracked_runCall hm h hcall) hsettled
      rw [runCalls] at hrest
      rw [runCalls, runEach, hcall]
      show (do
        let rs ← runEach (runCall m cap num) calls r.2
        return (r.1 :: rs.1, rs.2)) = none
      rw [hrest]
      rfl

/-- What a caller sees of a run: the digests with their arrays, and the arrays. -/
def observe (r : List Stored × Ctx) : List Stored × Heap := (r.1, r.2.heap)

theorem alike_start (m : WordFolds) (heap : Heap) : Alike m (Ctx.start heap) ⟨heap, some Batch.new, [], []⟩ :=
  ⟨[], Tracks.start heap, rfl, rfl, nofun, fun _ _ => rfl⟩

theorem exit_eq (hm : Segmented m join) {body : Ctx → Option (List Stored × Ctx)} {heap : Heap}
    {x : Option (List Stored × Ctx)}
    (h : Follows (Alike m) (Doomed m) x (body ⟨heap, some Batch.new, [], []⟩)) :
    (batchedCompanionFolds m body (Ctx.start heap)).map observe = x.map observe := by
  have hexit : batchedCompanionFolds m body (Ctx.start heap) = do
      let r ← body ⟨heap, some Batch.new, [], []⟩
      let ctx ← (r.2.batch.getD Batch.new).flush m { r.2 with batch := none }
      return (r.1, ctx) := rfl
  rw [hexit]
  rcases h with ⟨stored, plain, ctx, rfl, hbody, q, h⟩ | ⟨rfl, hbody⟩
  · obtain ⟨ctx', hflush, hheap⟩ := h.flush hm
    rw [hbody]
    show ((do
      let ctx ← (ctx.batch.getD Batch.new).flush m { ctx with batch := none }
      return (stored, ctx)) : Option (List Stored × Ctx)).map observe = _
    rw [h.tracks.batch, Option.getD_some, hflush]
    show some (stored, ctx'.heap) = some (stored, plain.heap)
    rw [hheap]
  · cases hr : body ⟨heap, some Batch.new, [], []⟩ with
    | none => rfl
    | some r =>
      obtain ⟨q, h, j, hj, hfail⟩ := hbody r hr
      show ((do
        let ctx ← (r.2.batch.getD Batch.new).flush m { r.2 with batch := none }
        return (r.1, ctx)) : Option (List Stored × Ctx)).map observe = _
      rw [h.batch, Option.getD_some, h.flush hm, results_none hj hfail]
      rfl

/-- At the exit everything deferred was filled. -/
theorem exit_log (hm : Segmented m join) {calls : List Call} {heap : Heap} {r : List Stored × Ctx}
    (hr : batchedCompanionFolds m (runCalls m cap num calls) (Ctx.start heap) = some r) :
    r.2.batch = none ∧ r.2.deferred.Nodup ∧ r.2.filled.Perm r.2.deferred := by
  obtain ⟨r', hbody, hr⟩ := Option.bind_eq_some_iff.mp hr
  obtain ⟨ctx, hflush, hr⟩ := Option.bind_eq_some_iff.mp hr
  cases hr
  rw [runCalls] at hbody
  have htracked : Tracked r'.2 :=
    runEach_keeps (P := Tracked) (fun _ _ _ _ h hr => tracked_runCall hm h hr) ⟨[], Tracks.start heap⟩ hbody
  obtain ⟨q, h⟩ := htracked
  rw [h.batch, Option.getD_some] at hflush
  have hleft := h.flushed hm hflush
  refine ⟨hleft.batch, ?_, ?_⟩
  · show ctx.deferred.Nodup
    rw [hleft.deferred]
    exact h.nodup
  · show ctx.filled.Perm ctx.deferred
    rw [hleft.deferred, hleft.filled]
    exact h.log.symm

variable (m cap num) in
/-- A run under the batch is the run without it, unless a call reads a destination that is
still pending, which raises. Every destination is filled once, and none is left at the exit. -/
theorem batchedCompanionFolds_eq (hm : Segmented m join) (calls : List Call) (heap : Heap) :
    (batchedCompanionFolds m (runCalls m cap num calls) (Ctx.start heap)).map observe =
        (if settled m cap num calls ⟨heap, some Batch.new, [], []⟩ then
          (runCalls m cap num calls (Ctx.start heap)).map observe
        else none) ∧
      ∀ r, batchedCompanionFolds m (runCalls m cap num calls) (Ctx.start heap) = some r →
        r.2.batch = none ∧ r.2.deferred.Nodup ∧ r.2.filled.Perm r.2.deferred := by
  refine ⟨?_, fun r hr => exit_log hm hr⟩
  cases hsettled : settled m cap num calls ⟨heap, some Batch.new, [], []⟩ with
  | true => exact exit_eq hm (follows_runCalls hm (alike_start m heap) hsettled)
  | false =>
    have hnone := runCalls_unsettled hm ⟨[], Tracks.start heap⟩ hsettled
    show ((do
      let r ← runCalls m cap num calls ⟨heap, some Batch.new, [], []⟩
      let ctx ← (r.2.batch.getD Batch.new).flush m { r.2 with batch := none }
      return (r.1, ctx)) : Option (List Stored × Ctx)).map observe = none
    rw [hnone]
    rfl

end Calls

end Steps

/-- Two builds of one observation, merged while their destinations are pending. -/
def pendingMerge : List Call :=
  [.build 1 [.temporal] [some 1] [0], .build 1 [.temporal] [some 2] [1],
    .merge 1 [.temporal] ⟨[⟨1, 1⟩], [2]⟩ ⟨[⟨2, 1⟩], [3]⟩]

/-- Call by call the merge finds the words of both builds, under the batch two reserved
words. -/
theorem pendingMerge_raises :
    (runCalls smallNumerics.folds 100 smallNumerics pendingMerge (Ctx.start [[21], [22]])).map observe =
        some ([⟨[⟨1, 1⟩], [2]⟩, ⟨[⟨2, 1⟩], [3]⟩, ⟨[⟨3 / 2, 2⟩], [4]⟩],
          [[21], [22], [21], [22], [21]]) ∧
      (batchedCompanionFolds smallNumerics.folds (runCalls smallNumerics.folds 100 smallNumerics pendingMerge)
        (Ctx.start [[21], [22]])).map observe = none := by
  decide +kernel

/-- Both channels, a flush at the cap inside the second build, and a merge of what it filled. -/
def mergeAfterFlush : List Call :=
  [.build 1 [.locations, .temporal] [some 1, some 2, some 5] [0, 1],
    .build 2 [.temporal] [some 4, none, some 3] [1],
    .merge 1 [.temporal] ⟨[⟨8 / 3, 3⟩], [3]⟩ ⟨[⟨3, 1⟩, ⟨4, 1⟩], [4]⟩]

theorem batchedCompanionFolds_mergeAfterFlush :
    (batchedCompanionFolds smallNumerics.folds (runCalls smallNumerics.folds 4 smallNumerics mergeAfterFlush)
        (Ctx.start [[11, 12, 13], [21, 22, 23]])).map observe =
      (runCalls smallNumerics.folds 4 smallNumerics mergeAfterFlush
        (Ctx.start [[11, 12, 13], [21, 22, 23]])).map observe ∧
    ((runCalls smallNumerics.folds 4 smallNumerics mergeAfterFlush
      (Ctx.start [[11, 12, 13], [21, 22, 23]])).map observe).isSome := by
  have hsettled : settled smallNumerics.folds 4 smallNumerics mergeAfterFlush
      ⟨[[11, 12, 13], [21, 22, 23]], some Batch.new, [], []⟩ = true := by decide +kernel
  have heq := (batchedCompanionFolds_eq smallNumerics.folds 4 smallNumerics
    (segmented_folds smallNumerics) mergeAfterFlush [[11, 12, 13], [21, 22, 23]]).1
  rw [hsettled] at heq
  exact ⟨heq, by decide +kernel⟩

end Zagg.Stats
