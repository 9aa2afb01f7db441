import Zagg.Column.Reader

/-!
# What a validated read returns

While the root carries a generation's stamp, the prefix holds nothing but that
generation's objects: the stamp is the writer's last PUT and the next rewrite deletes
before it creates. A read that ends on the stamp it began with therefore saw one
generation, unless that stamp is absent, or the prefix delete took the chunk before
the reader got to it. `torn_read_of_absent_stamp` is a schedule of the first kind.
-/
namespace Zagg.Column

open Zagg.Lib

variable {V N R : Type}

section Objects
variable [DecidableEq N]

theorem get_delete (c : Objects V N R) (k k' : ObjKey N) :
    (c.delete k).get k' = if k' = k then none else c.get k' := by
  induction c with
  | nil => simp [Objects.delete, Objects.get]
  | cons e c ih =>
    simp only [Objects.delete, Objects.get, List.filter_cons, List.find?_cons] at ih ⊢
    by_cases he : e.1 = k
    · by_cases hk : k' = k
      · simp [he, hk]
      · simpa [he, hk, Ne.symm hk] using ih
    · by_cases hk' : e.1 = k'
      · have hne : k' ≠ k := fun h => he (hk'.trans h)
        simp [hk', hne]
      · simpa [he, hk'] using ih

theorem get_put (c : Objects V N R) (k k' : ObjKey N) (o : Obj V R) :
    (c.put k o).get k' = if k' = k then some o else c.get k' := by
  by_cases hk : k' = k
  · simp [Objects.put, Objects.get, hk]
  · have hd := get_delete c k k'
    rw [if_neg hk] at hd ⊢
    rw [← hd]
    simp [Objects.put, Objects.get, Ne.symm hk]

end Objects

section
variable [DecidableEq V] [DecidableEq N]

local instance lawfulKey : LawfulBEq (Nat × N) := inferInstance

/-- What a finished rewrite leaves at each key. -/
def Generation.settledObj (g : Generation V N R) : ObjKey N → Option (Obj V R)
  | .root => some (.root (some g.stamp))
  | .group res => if res ∈ g.arrays.map Prod.fst then some .group else none
  | .array k => if k ∈ g.arrays then some (.array (g.fill k)) else none
  | .chunk k => if k ∈ g.arrays then (g.chunkOf k).map .chunk else none

/-- Nothing but objects of the finished rewrite, the root aside. -/
def Within (g : Generation V N R) (c : Objects V N R) : Prop :=
  ∀ k o, k ≠ .root → c.get k = some o → g.settledObj k = some o

variable {gens : Nat → Generation V N R}

/-- The stamped rewrite still stands, or its prefix delete is under way. -/
structure Standing (gens : Nat → Generation V N R) (w : Writer V N R) (c : Objects V N R) (g : Nat) :
    Prop where
  gen : w.gen = g
  phase : w.phase = .settled ∨ w.phase = .deleting
  within : Within (gens g) c
  root : c.rootStamp = some (gens g).stamp ∨ c.rootStamp = none

/-- What the prefix holds while rewrite `g` is in a phase. Between the delete and the stamp the
objects are those of the rewrite in progress. -/
def Creating (gens : Nat → Generation V N R) (g : Nat) (w : Writer V N R) (c : Objects V N R) :
    Phase V N R → Prop
  | .template todo =>
    Within (gens g) c ∧ c.rootStamp = none ∧ ∀ e ∈ todo, e ∈ (gens g).template
  | .arrays todo =>
    Within (gens g) c ∧ c.rootStamp = none ∧ ∀ k ∈ todo, k ∈ (gens g).arrays
  | .attrs | .stamp => Within (gens g) c ∧ c.rootStamp = none
  | .settled => Standing gens w c g
  | .deleting => True

/-- The writer side; a stamped root belongs to the standing rewrite. -/
structure WriterInv (gens : Nat → Generation V N R) (w : Writer V N R) (c : Objects V N R) :
    Prop where
  stamped : c.rootStamp ≠ none → Standing gens w c w.gen
  creating : Creating gens w.gen w c w.phase

/-- A stamp the reader holds is that of the standing rewrite or of an earlier one. -/
def Witnessed (gens : Nat → Generation V N R) (w : Writer V N R) (c : Objects V N R)
    (stamp : Option (Stamp R)) : Prop :=
  ∀ x, stamp = some x → ∃ g, x = (gens g).stamp ∧ (g < w.gen ∨ Standing gens w c g)

/-- The reader side: what was read so far is content of the rewrite whose stamp the
attempt began with, if that rewrite still stands. -/
def PcOk (gens : Nat → Generation V N R) (w : Writer V N R) (c : Objects V N R)
    (stamp : Option (Stamp R)) : Pc V N R → Prop
  | .openGroup _ _ before | .openArray _ _ before => before = stamp
  | .getChunk k _ before fill =>
    before = stamp ∧ ∀ g, before = some (gens g).stamp → Standing gens w c g →
      k ∈ (gens g).arrays ∧ fill = (gens g).fill k
  | .check k _ before fill chunk =>
    before = stamp ∧ ∀ g, before = some (gens g).stamp → Standing gens w c g →
      (k ∈ (gens g).arrays ∧ fill = (gens g).fill k) ∧
      ∀ v, chunk = some v → (gens g).chunkOf k = some v
  | .returned k (some v) =>
    ∃ g, stamp = some (gens g).stamp ∧ (gens g).content k = some v
  | _ => True

structure Inv (gens : Nat → Generation V N R) (s : State V N R) : Prop where
  writer : WriterInv gens s.writer s.objects
  reader : ∀ r, s.reader = some r → Witnessed gens s.writer s.objects r.stamp ∧
    PcOk gens s.writer s.objects r.stamp r.pc

/-- A read is only validated on a stamp that is there, and not when the prefix delete
had removed its chunk before the chunk was read. -/
def validatedSound [DecidableEq R] (gens : Nat → Generation V N R) (s : State V N R) :
    Act N → Prop
  | .read .proceed =>
    ∀ r, s.reader = some r →
      match r.pc with
      | .check key _ before _ chunk =>
        before = s.objects.rootStamp → before ≠ none ∧
          (chunk = none → ∀ g, before = some (gens g).stamp → (gens g).chunkOf key = none)
      | _ => True
  | _ => True

theorem Within.delete {g : Generation V N R} {c : Objects V N R} (h : Within g c) (k : ObjKey N) :
    Within g (c.delete k) := by
  intro k' o hne ho
  rw [get_delete] at ho
  split at ho
  · cases ho
  · exact h k' o hne ho

theorem Within.put {g : Generation V N R} {c : Objects V N R} (h : Within g c) {k : ObjKey N}
    {o : Obj V R} (hk : k ≠ .root → g.settledObj k = some o) : Within g (c.put k o) := by
  intro k' o' hne ho
  rw [get_put] at ho
  split at ho
  · next he =>
    subst he
    rw [← Option.some.inj ho]
    exact hk hne
  · exact h k' o' hne ho

theorem within_nil (g : Generation V N R) : Within g [] := fun _ _ _ h => by cases h

omit [DecidableEq V] in
theorem rootStamp_delete (c : Objects V N R) (k : ObjKey N) :
    (c.delete k).rootStamp = c.rootStamp ∨ (c.delete k).rootStamp = none := by
  rw [Objects.rootStamp, Objects.rootStamp, get_delete]
  by_cases hk : (.root : ObjKey N) = k
  · rw [if_pos hk]
    exact .inr rfl
  · rw [if_neg hk]
    exact .inl rfl

omit [DecidableEq V] in
theorem rootStamp_put_root (c : Objects V N R) (s : Option (Stamp R)) :
    (c.put .root (.root s)).rootStamp = s := by
  rw [Objects.rootStamp, get_put, if_pos rfl]

omit [DecidableEq V] in
theorem rootStamp_put {c : Objects V N R} {k : ObjKey N} (hk : k ≠ .root) (o : Obj V R) :
    (c.put k o).rootStamp = c.rootStamp := by
  rw [Objects.rootStamp, Objects.rootStamp, get_put, if_neg (Ne.symm hk)]

theorem mem_template {g : Generation V N R} {e : ObjKey N × Obj V R} (h : e ∈ g.template) :
    (e = (.root, .root none)) ∨ (e.1 ≠ .root ∧ g.settledObj e.1 = some e.2) := by
  simp only [Generation.template, List.cons_append, List.mem_cons, List.mem_append, List.mem_map,
    List.mem_dedup] at h
  rcases h with rfl | ⟨res, ⟨k, hk, rfl⟩, rfl⟩ | ⟨k, hk, rfl⟩
  · exact .inl rfl
  · exact .inr ⟨by simp, if_pos (List.mem_map_of_mem hk)⟩
  · exact .inr ⟨by simp, if_pos hk⟩

theorem Standing.delete {w : Writer V N R} {c : Objects V N R} {g : Nat} (h : Standing gens w c g)
    (k : ObjKey N) (hp : w.phase = .deleting) : Standing gens w (c.delete k) g where
  gen := h.gen
  phase := .inr hp
  within := h.within.delete k
  root := by
    rcases rootStamp_delete c k with hd | hd
    · exact hd ▸ h.root
    · exact .inr hd

/-- A move keeps the writer's side, never goes back, and leaves a standing rewrite standing until
it starts on the next one. -/
structure Advances (gens : Nat → Generation V N R) (w : Writer V N R) (c : Objects V N R)
    (w' : Writer V N R) (c' : Objects V N R) : Prop where
  inv : WriterInv gens w' c'
  gen_le : w.gen ≤ w'.gen
  standing : ∀ g, Standing gens w c g → Standing gens w' c' g ∨ g < w'.gen

section Moves
variable {w w' : Writer V N R} {c c' : Objects V N R}

/-- A rewrite in progress stands for no generation. -/
theorem not_standing (hs : w.phase ≠ .settled) (hd : w.phase ≠ .deleting) :
    ∀ n, ¬Standing gens w c n :=
  fun _ h => h.phase.elim hs hd

/-- A move of a rewrite in progress that leaves the root unstamped. -/
theorem advances_unstamped (hno : ∀ g, ¬Standing gens w c g) (hgen : w'.gen = w.gen)
    (hroot : c'.rootStamp = none) (hcreating : Creating gens w'.gen w' c' w'.phase) :
    Advances gens w c w' c' :=
  ⟨⟨fun hr => absurd hroot hr, hcreating⟩, hgen.ge, fun g hg => absurd hg (hno g)⟩

theorem advances_begin (hi : WriterInv gens w c) :
    Advances gens w c { w with phase := .deleting } c := by
  have hst : ∀ g, Standing gens w c g → Standing gens { w with phase := .deleting } c g :=
    fun g hg => ⟨hg.gen, .inr rfl, hg.within, hg.root⟩
  exact ⟨⟨fun hr => hst _ (hi.stamped hr), trivial⟩, Nat.le_refl _, fun g hg => .inl (hst g hg)⟩

theorem advances_delete (hi : WriterInv gens w c) (hp : w.phase = .deleting) (k : ObjKey N) :
    Advances gens w c w (c.delete k) := by
  have hst : ∀ g, Standing gens w c g → Standing gens w (c.delete k) g := fun g hg => hg.delete k hp
  refine ⟨⟨fun hr => ?_, by rw [hp]; trivial⟩, Nat.le_refl _, fun g hg => .inl (hst g hg)⟩
  rcases rootStamp_delete c k with hd | hd
  · exact hst _ (hi.stamped (hd ▸ hr))
  · exact absurd hd hr

/-- The prefix is empty: the next rewrite starts on its template. -/
theorem advances_deleted (w : Writer V N R) :
    Advances gens w [] ⟨w.gen + 1, .template (gens (w.gen + 1)).template⟩ [] :=
  ⟨⟨fun hr => absurd rfl hr, within_nil _, rfl, fun _ he => he⟩, Nat.le_succ _,
    fun _ hg => .inr (Nat.lt_succ_of_le hg.gen.ge)⟩

theorem advances_template {todo : Objects V N R} (hi : WriterInv gens w c)
    (hp : w.phase = .template todo) {pick : Nat} {e : ObjKey N × Obj V R} (he : todo[pick]? = some e) :
    Advances gens w c { w with phase := .template (todo.eraseIdx pick) } (c.put e.1 e.2) := by
  have hc := hi.creating
  rw [hp] at hc
  obtain ⟨hwithin, hroot, htodo⟩ := hc
  have hmem := mem_template (htodo e (List.mem_of_getElem? he))
  have hroot' : (c.put e.1 e.2).rootStamp = none := by
    rcases hmem with rfl | ⟨hne, -⟩
    · exact rootStamp_put_root _ _
    · rw [rootStamp_put hne, hroot]
  have hwithin' : Within (gens w.gen) (c.put e.1 e.2) := by
    refine hwithin.put fun hne => ?_
    rcases hmem with rfl | ⟨-, ho⟩
    · exact absurd rfl hne
    · exact ho
  exact advances_unstamped (not_standing (by simp [hp]) (by simp [hp])) rfl hroot'
    ⟨hwithin', hroot', fun e' he' => htodo e' (List.mem_of_mem_eraseIdx he')⟩

theorem advances_templated {todo : Objects V N R} (hi : WriterInv gens w c)
    (hp : w.phase = .template todo) :
    Advances gens w c { w with phase := .arrays (gens w.gen).arrays } c := by
  have hc := hi.creating
  rw [hp] at hc
  obtain ⟨hwithin, hroot, -⟩ := hc
  exact advances_unstamped (not_standing (by simp [hp]) (by simp [hp])) rfl hroot
    ⟨hwithin, hroot, fun _ hk => hk⟩

theorem advances_array {k : Key N} {todo : List (Key N)} (hi : WriterInv gens w c)
    (hp : w.phase = .arrays (k :: todo)) :
    Advances gens w c { w with phase := .arrays todo }
      (match (gens w.gen).chunkOf k with
        | some v => c.put (.chunk k) (.chunk v)
        | none => c) := by
  have hno : ∀ g, ¬Standing gens w c g := not_standing (by simp [hp]) (by simp [hp])
  have hc := hi.creating
  rw [hp] at hc
  obtain ⟨hwithin, hroot, htodo⟩ := hc
  have hrest : ∀ k' ∈ todo, k' ∈ (gens w.gen).arrays := fun k' hk' => htodo k' (.tail _ hk')
  cases hchunk : (gens w.gen).chunkOf k with
  | none => exact advances_unstamped hno rfl hroot ⟨hwithin, hroot, hrest⟩
  | some v =>
    have hroot' : (c.put (.chunk k) (.chunk v)).rootStamp = none := by
      rw [rootStamp_put (by simp), hroot]
    refine advances_unstamped hno rfl hroot' ⟨hwithin.put fun _ => ?_, hroot', hrest⟩
    rw [Generation.settledObj, if_pos (htodo k (.head _)), hchunk]
    rfl

theorem advances_written (hi : WriterInv gens w c) (hp : w.phase = .arrays []) :
    Advances gens w c { w with phase := .attrs } c := by
  have hc := hi.creating
  rw [hp] at hc
  obtain ⟨hwithin, hroot, -⟩ := hc
  exact advances_unstamped (not_standing (by simp [hp]) (by simp [hp])) rfl hroot ⟨hwithin, hroot⟩

theorem advances_attrs (hi : WriterInv gens w c) (hp : w.phase = .attrs) :
    Advances gens w c { w with phase := .stamp } (c.put .root (.root none)) := by
  have hc := hi.creating
  rw [hp] at hc
  have hroot' := rootStamp_put_root c none
  exact advances_unstamped (not_standing (by simp [hp]) (by simp [hp])) rfl hroot'
    ⟨hc.1.put fun hne => absurd rfl hne, hroot'⟩

/-- The stamp publishes the rewrite. -/
theorem advances_stamp (hi : WriterInv gens w c) (hp : w.phase = .stamp) :
    Advances gens w c { w with phase := .settled } (c.put .root (.root (some (gens w.gen).stamp))) := by
  have hc := hi.creating
  rw [hp] at hc
  have hst : Standing gens { w with phase := .settled }
      (c.put .root (.root (some (gens w.gen).stamp))) w.gen :=
    ⟨rfl, .inl rfl, hc.1.put fun hne => absurd rfl hne, .inl (rootStamp_put_root _ _)⟩
  exact ⟨⟨fun _ => hst, hst⟩, Nat.le_refl _,
    fun g hg => absurd hg (not_standing (by simp [hp]) (by simp [hp]) g)⟩

theorem writer_step (hi : WriterInv gens w c) {m : WriterMove}
    (h : writerStep gens w c m = some (w', c')) : Advances gens w c w' c' := by
  cases m with
  | begin =>
    obtain ⟨rfl, rfl⟩ := Prod.mk.inj (Option.some.inj h)
    exact advances_begin hi
  | proceed pick =>
    cases hp : w.phase with
    | deleting =>
      simp only [writerStep, hp] at h
      split at h
      · next e _ =>
        obtain ⟨rfl, rfl⟩ := Prod.mk.inj (Option.some.inj h)
        exact advances_delete hi hp e.1
      · split at h
        · next hemp =>
          obtain ⟨rfl, rfl⟩ := Prod.mk.inj (Option.some.inj h)
          rw [List.isEmpty_iff.mp hemp]
          exact advances_deleted w
        · cases h
    | template todo =>
      simp only [writerStep, hp] at h
      split at h
      · next e he =>
        obtain ⟨rfl, rfl⟩ := Prod.mk.inj (Option.some.inj h)
        exact advances_template hi hp he
      · split at h
        · obtain ⟨rfl, rfl⟩ := Prod.mk.inj (Option.some.inj h)
          exact advances_templated hi hp
        · cases h
    | arrays todo =>
      cases todo with
      | nil =>
        simp only [writerStep, hp] at h
        obtain ⟨rfl, rfl⟩ := Prod.mk.inj (Option.some.inj h)
        exact advances_written hi hp
      | cons k todo =>
        simp only [writerStep, hp] at h
        obtain ⟨rfl, rfl⟩ := Prod.mk.inj (Option.some.inj h)
        exact advances_array hi hp
    | attrs =>
      simp only [writerStep, hp] at h
      obtain ⟨rfl, rfl⟩ := Prod.mk.inj (Option.some.inj h)
      exact advances_attrs hi hp
    | stamp =>
      simp only [writerStep, hp] at h
      obtain ⟨rfl, rfl⟩ := Prod.mk.inj (Option.some.inj h)
      exact advances_stamp hi hp
    | settled =>
      simp only [writerStep, hp] at h
      cases h

end Moves

variable [DecidableEq R]

omit [DecidableEq R] in
/-- What a read has seen stays explained when the writer moves. -/
theorem pcOk_writer {w w' : Writer V N R} {c c' : Objects V N R} {stamp : Option (Stamp R)}
    (hinj : Function.Injective fun g => (gens g).stamp) (hw : Witnessed gens w c stamp)
    (hle : w.gen ≤ w'.gen) {pc : Pc V N R} (hpc : PcOk gens w c stamp pc) :
    PcOk gens w' c' stamp pc := by
  have hback : ∀ g, stamp = some (gens g).stamp → Standing gens w' c' g → Standing gens w c g := by
    intro g hs hg
    obtain ⟨g', he, hlt | hst⟩ := hw _ hs
    · obtain rfl : g = g' := hinj he
      have := hg.gen
      omega
    · obtain rfl : g = g' := hinj he
      exact hst
  cases pc with
  | getChunk k a before fill =>
    obtain ⟨rfl, h⟩ := hpc
    exact ⟨rfl, fun g hs hg => h g hs (hback g hs hg)⟩
  | check k a before fill chunk =>
    obtain ⟨rfl, h⟩ := hpc
    exact ⟨rfl, fun g hs hg => h g hs (hback g hs hg)⟩
  | returned k values =>
    cases values with
    | none => trivial
    | some v => exact hpc
  | openGroup | openArray => exact hpc
  | idle | foreign | moving => trivial

omit [DecidableEq R] in
theorem witnessed_writer {w w' : Writer V N R} {c c' : Objects V N R} {stamp : Option (Stamp R)}
    (hw : Witnessed gens w c stamp) (hle : w.gen ≤ w'.gen)
    (hst : ∀ g, Standing gens w c g → Standing gens w' c' g ∨ g < w'.gen) :
    Witnessed gens w' c' stamp := by
  intro x hx
  obtain ⟨g, he, hlt | hg⟩ := hw x hx
  · exact ⟨g, he, .inl (by omega)⟩
  · exact ⟨g, he, (hst g hg).symm⟩

omit [DecidableEq R] in
/-- A root GET witnesses the standing rewrite. -/
theorem witnessed_root {w : Writer V N R} {c : Objects V N R} (hi : WriterInv gens w c) :
    Witnessed gens w c c.rootStamp := by
  intro x hx
  have hst := hi.stamped (by rw [hx]; simp)
  refine ⟨w.gen, ?_, .inr hst⟩
  rcases hst.root with hr | hr
  · exact Option.some.inj (hx.symm.trans hr)
  · rw [hr] at hx
    cases hx

omit [DecidableEq R] in
/-- A validated read returns the content of the generation whose stamp it ended on. -/
theorem check_content {w : Writer V N R} {c : Objects V N R} {key : Key N} {attempt : Nat}
    {before stamp : Option (Stamp R)} {fill : V} {chunk : Option V} (hi : WriterInv gens w c)
    (hpc : PcOk gens w c stamp (.check key attempt before fill chunk)) (heq : before = c.rootStamp)
    (hne : before ≠ none)
    (hchunk : chunk = none → ∀ g, before = some (gens g).stamp → (gens g).chunkOf key = none) :
    ∃ g, stamp = some (gens g).stamp ∧ (gens g).content key = some (chunk.getD fill) := by
  obtain ⟨rfl, h⟩ := hpc
  obtain ⟨x, hx⟩ := Option.ne_none_iff_exists'.mp hne
  have hst := hi.stamped (heq ▸ hne)
  have hs : before = some (gens w.gen).stamp := by
    rcases hst.root with hr | hr
    · exact heq.trans hr
    · exact absurd (heq.trans hr) hne
  obtain ⟨⟨hmem, hfill⟩, hv⟩ := h w.gen hs hst
  refine ⟨w.gen, hs, ?_⟩
  rw [Generation.content, if_pos hmem]
  cases chunk with
  | none =>
    have hnone := hchunk rfl w.gen hs
    rw [Generation.chunkOf] at hnone
    split at hnone
    · next heq' => rw [heq', hfill]; rfl
    · cases hnone
  | some v =>
    have hsome := hv v rfl
    rw [Generation.chunkOf] at hsome
    split at hsome
    · cases hsome
    · exact hsome

theorem reader_step {s : State V N R} (hi : Inv gens s) {runId : R} {runStarted : Nat}
    {r r' : Reader V N R} (hr : s.reader = some r) {m : ReaderMove N}
    (hc : validatedSound gens s (.read m))
    (h : readerStep runId runStarted r s.objects m = some r') :
    Witnessed gens s.writer s.objects r'.stamp ∧ PcOk gens s.writer s.objects r'.stamp r'.pc := by
  obtain ⟨hw, hpc⟩ := hi.reader r hr
  obtain ⟨stamp, revalidated, pc⟩ := r
  cases m with
  | call key =>
    simp only [readerStep] at h
    split at h
    · obtain rfl := Option.some.inj h
      exact ⟨hw, rfl⟩
    · obtain rfl := Option.some.inj h
      exact ⟨hw, rfl⟩
    · cases h
  | proceed =>
    cases pc with
    | openGroup key attempt before =>
      simp only [readerStep] at h
      split at h <;> obtain rfl := Option.some.inj h
      · exact ⟨hw, hpc⟩
      · exact ⟨hw, trivial⟩
    | openArray key attempt before =>
      simp only [readerStep] at h
      split at h
      · next fill hget =>
        obtain rfl := Option.some.inj h
        refine ⟨hw, hpc, fun g _ hg => ?_⟩
        have hobj := hg.within _ _ (by simp) hget
        rw [Generation.settledObj] at hobj
        split at hobj
        · next hmem => exact ⟨hmem, (by simpa using hobj.symm)⟩
        · cases hobj
      · obtain rfl := Option.some.inj h
        exact ⟨hw, trivial⟩
    | getChunk key attempt before fill =>
      simp only [readerStep] at h
      obtain rfl := Option.some.inj h
      obtain ⟨hb, hf⟩ := hpc
      refine ⟨hw, hb, fun g hs hg => ⟨hf g hs hg, fun v hv => ?_⟩⟩
      split at hv
      · next v' hget =>
        obtain rfl := Option.some.inj hv
        have hobj := hg.within _ _ (by simp) hget
        rw [Generation.settledObj, if_pos (hf g hs hg).1, Option.map_eq_some_iff] at hobj
        obtain ⟨u, hu, he⟩ := hobj
        rw [hu, Obj.chunk.inj he]
      · cases hv
    | check key attempt before fill chunk =>
      simp only [readerStep] at h
      split at h
      · next hsame =>
        obtain rfl := Option.some.inj h
        have heq : before = s.objects.rootStamp := of_decide_eq_true hsame
        obtain ⟨hne, hchunk⟩ := hc _ hr heq
        exact ⟨hw, check_content hi.writer hpc heq hne hchunk⟩
      · split at h <;> obtain rfl := Option.some.inj h
        · exact ⟨hw, trivial⟩
        · refine ⟨witnessed_root hi.writer, ?_⟩
          simp only
          split
          · exact rfl
          · trivial
    | idle | returned key values | foreign stamp | moving => simp only [readerStep] at h; cases h

theorem inv_step (hinj : Function.Injective fun g => (gens g).stamp) {runId : R} {runStarted : Nat}
    {s s' : State V N R} {a : Act N} (hi : Inv gens s) (hc : validatedSound gens s a)
    (h : step gens runId runStarted s a = some s') : Inv gens s' := by
  cases a with
  | write m =>
    obtain ⟨⟨w, c⟩, hws, rfl⟩ := Option.map_eq_some_iff.mp h
    obtain ⟨hinv, hle, hst⟩ := writer_step hi.writer hws
    refine ⟨hinv, fun r hr => ?_⟩
    obtain ⟨hw, hpc⟩ := hi.reader r hr
    exact ⟨witnessed_writer hw hle hst, pcOk_writer hinj hw hle hpc⟩
  | construct =>
    simp only [step] at h
    split at h
    · obtain ⟨r, hcon, rfl⟩ := Option.map_eq_some_iff.mp h
      refine ⟨hi.writer, fun r' hr' => ?_⟩
      obtain rfl := Option.some.inj hr'
      simp only [construct] at hcon
      split at hcon
      · next x hx =>
        obtain rfl := Option.some.inj hcon
        refine ⟨hx ▸ witnessed_root hi.writer, ?_⟩
        simp only
        split <;> trivial
      · cases hcon
    · cases h
  | read m =>
    simp only [step] at h
    split at h
    · next r hr =>
      obtain ⟨r', hrs, rfl⟩ := Option.map_eq_some_iff.mp h
      refine ⟨hi.writer, fun r'' hr'' => ?_⟩
      obtain rfl := Option.some.inj hr''
      exact reader_step hi hr hc hrs
    · cases h

omit [DecidableEq R] in
theorem inv_init (gens : Nat → Generation V N R) : Inv gens (init gens) where
  writer := ⟨fun h => absurd rfl h, within_nil _, rfl, fun _ he => he⟩
  reader _ h := by cases h

/-- The array a finished read returned is the content of the generation whose stamp
the reader holds. -/
def ReadsCommitted (gens : Nat → Generation V N R) (s : State V N R) : Prop :=
  ∀ r key v, s.reader = some r → r.pc = .returned key (some v) →
    ∃ g, r.stamp = some (gens g).stamp ∧ (gens g).content key = some v

/-- Over any interleaving of rewrites and reads whose validated reads end on a stamp
that is there, with no chunk deleted under them, no read is torn. -/
theorem readsCommitted_of_validatedSound (gens : Nat → Generation V N R)
    (hinj : Function.Injective fun g => (gens g).stamp) {runId : R} {runStarted : Nat}
    {s : State V N R}
    (h : Reach (step gens runId runStarted) (validatedSound gens) (init gens) s) :
    ReadsCommitted gens s := by
  have hi : Inv gens s := h.invariant (inv_init gens) fun hi hc hs => inv_step hinj hi hc hs
  intro r key v hr hpc
  have hok := (hi.reader r hr).2
  rw [hpc] at hok
  exact hok

end

section Runs

/-- Rewrite `n` publishes one array of one cell holding `n + 5`, stamped `n`. -/
def countGens (n : Nat) : Generation Nat Nat Nat where
  stamp := ⟨n, none⟩
  arrays := [(3, 0)]
  fill _ := 0
  slab _ := n + 5

def writes (picks : List Nat) : List (Act Nat) := picks.map fun i => .write (.proceed i)

/-- The first rewrite runs to its stamp, then a reader is constructed and starts. -/
def firstRead : List (Act Nat) :=
  writes [0, 0, 0, 0, 0, 0, 0, 0] ++ [.construct, .read (.call (3, 0))]

def reads (n : Nat) : List (Act Nat) := List.replicate n (.read .proceed)

/-- The stamp the reader holds, the array it asked for and what `read` returned. -/
def finishedRead (s : State Nat Nat Nat) :
    Option (Option (Stamp Nat) × Key Nat × Option Nat) :=
  match s.reader with
  | some ⟨stamp, _, .returned key values⟩ => some (stamp, key, values)
  | _ => none

theorem finishedRead_eq {s : State Nat Nat Nat} {stamp : Option (Stamp Nat)} {key : Key Nat}
    {values : Option Nat} (h : finishedRead s = some (stamp, key, values)) :
    ∃ r, s.reader = some r ∧ r.stamp = stamp ∧ r.pc = .returned key values := by
  simp only [finishedRead] at h
  split at h
  · next hr =>
    obtain ⟨rfl, rfl, rfl⟩ := by simpa using h
    exact ⟨_, hr, rfl, rfl⟩
  · cases h

/-- Every validated attempt has a stamp and a stored chunk. -/
def stampedChunk (s : State Nat Nat Nat) : Act Nat → Bool
  | .read .proceed =>
    match s.reader.map Reader.pc with
    | some (.check _ _ before _ chunk) => before.isSome && chunk.isSome
    | _ => true
  | _ => true

theorem validatedSound_of_stampedChunk (s : State Nat Nat Nat) (a : Act Nat)
    (h : stampedChunk s a = true) : validatedSound countGens s a := by
  cases a with
  | write | construct => trivial
  | read m =>
    cases m with
    | call => trivial
    | proceed =>
      intro r hr
      simp only [stampedChunk, hr, Option.map_some] at h
      cases hpc : r.pc with
      | check key attempt before fill chunk =>
        simp only [hpc, Bool.and_eq_true, Option.isSome_iff_ne_none] at h
        exact fun _ => ⟨h.1, fun hnone => absurd hnone h.2⟩
      | _ => trivial

/-- The prefix is deleted under the first attempt, which finds the stamp gone; the
second one reads the new template between two absent stamps. -/
def absentStampRun : List (Act Nat) :=
  firstRead ++ reads 3 ++ [.write .begin] ++ writes [0, 0, 0, 0, 0] ++ reads 1 ++
    writes [0, 0, 0] ++ reads 4

/-- The first attempt opens the group and the array; then a whole rewrite goes through, and the
attempt ends on another stamp. The second one reads the new column. -/
def racedRead : List (Act Nat) :=
  firstRead ++ reads 2 ++ [.write .begin] ++ writes (List.replicate 13 0) ++ reads 6

theorem committed_racedRead :
    ∃ s, finishedRead s = some (some ⟨1, none⟩, (3, 0), some 6) ∧ ReadsCommitted countGens s := by
  have hex : (exec (step countGens 0 0) (init countGens) racedRead).bind finishedRead =
      some (some ⟨1, none⟩, (3, 0), some 6) := by decide
  obtain ⟨s, hs, hread⟩ := Option.bind_eq_some_iff.mp hex
  have hreach : Reach (step countGens 0 0) (validatedSound countGens) (init countGens) s :=
    (Reach.of_exec (B := stampedChunk) (by decide) hs).mono validatedSound_of_stampedChunk
  have hinj : Function.Injective fun g => (countGens g).stamp :=
    fun _ _ h => (Stamp.mk.inj h).1
  exact ⟨s, hread, readsCommitted_of_validatedSound countGens hinj hreach⟩

theorem torn_read_of_absent_stamp :
    ¬ ∀ s, Reach (step countGens 0 0) (fun _ _ => True) (init countGens) s →
      ReadsCommitted countGens s := by
  intro h
  have hex : (exec (step countGens 0 0) (init countGens) absentStampRun).bind finishedRead =
      some (none, (3, 0), some 0) := by decide
  obtain ⟨s, hs, hread⟩ := Option.bind_eq_some_iff.mp hex
  obtain ⟨r, hr, hstamp, hpc⟩ := finishedRead_eq hread
  obtain ⟨g, hg, -⟩ := h s (Reach.of_exec_forall (fun _ _ _ => trivial) hs) r _ _ hr hpc
  rw [hstamp] at hg
  cases hg

end Runs

end Zagg.Column
