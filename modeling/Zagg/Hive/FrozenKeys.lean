import Zagg.Hive.Manifest
import Zagg.Lib.Dict

/-!
# Frozen keys over runs of calls and leaf writes

Runs with their own configurations call `validate_manifest` and `ensure_manifest` in any
order, with or without overwriting, and write leaves. An acceptance stands until another
call installs a manifest with other frozen keys; leaves written under a standing acceptance
agree with the manifest.
-/
namespace Zagg.Hive

open Zagg.Lib

abbrev hashOf (manifest : List (String × Json)) : Json := Json.field manifest "semantic_hash"

/-- Every frozen key but the hash. -/
def AgreesButHash (m c : List (String × Json)) : Prop :=
  ∀ key ∈ frozenManifestKeys, key ≠ "semantic_hash" →
    (frozenValue m key).pyEq (frozenValue c key) = true

/-- Every frozen key. -/
def Agrees (m c : List (String × Json)) : Prop :=
  ∀ key ∈ frozenManifestKeys, (frozenValue m key).pyEq (frozenValue c key) = true

/-- Two projections on the same keys are equal where their values are. -/
theorem pyEq_map_key (g g' : String → Json) (keys : List String) :
    (Json.obj (keys.map fun k => (k, g k))).pyEq (.obj (keys.map fun k => (k, g' k))) = true ↔
      ∀ key ∈ keys, (g key).pyEq (g' key) = true := by
  rw [Json.pyEq_obj_iff]
  simp only [List.length_map, true_and, List.forall_mem_map, lookup_map_key]
  refine forall₂_congr fun key hkey => ?_
  simp [hkey]

theorem popHash_frozen (m : List (String × Json)) : popHash (frozen m) =
    (frozenManifestKeys.filter (· ≠ "semantic_hash")).map fun key => (key, frozenValue m key) := by
  rw [popHash, frozen, List.filter_map]
  rfl

theorem frozenMatches_iff {a b : List (String × Json)} : frozenMatches a b = true ↔
    AgreesButHash a b ∧ (isNone (hashOf a) = true ∨ isNone (hashOf b) = true ∨
      (hashOf a).pyEq (hashOf b) = true) := by
  have hhash : ∀ m, Json.field (frozen m) "semantic_hash" = hashOf m := by
    intro m
    rw [Json.field, frozen, lookup_map_key]
    rfl
  have hvalue : ∀ m, frozenValue m "semantic_hash" = hashOf m := fun m => rfl
  have hbut : (Json.obj (popHash (frozen a))).pyEq (.obj (popHash (frozen b))) = true ↔
      AgreesButHash a b := by
    rw [popHash_frozen, popHash_frozen, pyEq_map_key]
    simp only [List.mem_filter, decide_not, Bool.not_eq_true', decide_eq_false_iff_not, and_imp]
    rfl
  have hall : (Json.obj (frozen a)).pyEq (.obj (frozen b)) = true ↔ Agrees a b := by
    rw [frozen, frozen, pyEq_map_key]
    rfl
  rw [frozenMatches]
  simp only [hhash]
  split_ifs with hnone
  · rw [hbut]
    rw [Bool.or_eq_true] at hnone
    exact ⟨fun h => ⟨h, hnone.imp_right .inl⟩, fun h => h.1⟩
  · rw [hall]
    rw [Bool.or_eq_true, not_or] at hnone
    constructor
    · exact fun h => ⟨fun key hkey _ => h key hkey, .inr (.inr (h "semantic_hash" (by decide)))⟩
    · rintro ⟨hbut, h | h | h⟩
      · exact absurd h hnone.1
      · exact absurd h hnone.2
      · intro key hkey
        by_cases hkey' : key = "semantic_hash"
        · rw [hkey', hvalue, hvalue]
          exact h
        · exact hbut key hkey hkey'

theorem agrees_iff {m c : List (String × Json)} :
    Agrees m c ↔ AgreesButHash m c ∧ (hashOf m).pyEq (hashOf c) = true := by
  constructor
  · exact fun h => ⟨fun key hkey _ => h key hkey, h "semantic_hash" (by decide)⟩
  · rintro ⟨hbut, hhash⟩ key hkey
    by_cases hkey' : key = "semantic_hash"
    · rw [hkey']
      exact hhash
    · exact hbut key hkey hkey'

theorem distinct_field {m : List (String × Json)} (hm : (Json.obj m).Distinct) (key : String) :
    (Json.field m key).Distinct := by
  cases hm with | obj _ hm =>
  rw [Json.field]
  cases hlook : m.lookup key with
  | none => exact .null
  | some v => exact hm (key, v) (mem_of_lookup hlook)

theorem distinct_frozenValue {m : List (String × Json)} (hm : (Json.obj m).Distinct) (key : String) :
    (frozenValue m key).Distinct := by
  rw [frozenValue]
  split_ifs
  · exact .num 1
  · exact distinct_field hm key

theorem keyed_field {m : List (String × Json)} (hm : (Json.obj m).Keyed) (key : String) :
    (Json.field m key).Keyed := by
  cases hm with | obj _ hm =>
  rw [Json.field]
  cases hlook : m.lookup key with
  | none => exact .null
  | some v => exact hm (key, v) (mem_of_lookup hlook)

theorem keyed_frozenValue {m : List (String × Json)} (hm : (Json.obj m).Keyed) (key : String) :
    (frozenValue m key).Keyed := by
  rw [frozenValue]
  split_ifs
  · exact .num 1
  · exact keyed_field hm key

theorem AgreesButHash.refl {m : List (String × Json)} (hm : (Json.obj m).Distinct) :
    AgreesButHash m m := fun key _ _ => Json.pyEq_refl (distinct_frozenValue hm key)

/-- A manifest that agrees with the one in effect agrees with whatever that one agrees with. -/
theorem AgreesButHash.replace {m m' c : List (String × Json)} (hm : (Json.obj m).Keyed)
    (hm' : (Json.obj m').Keyed) (h : AgreesButHash m m') (hc : AgreesButHash m c) :
    AgreesButHash m' c := fun key hkey hne =>
  Json.pyEq_trans (Json.pyEq_symm (keyed_frozenValue hm key) (keyed_frozenValue hm' key)
    (h key hkey hne)) (hc key hkey hne)

/-! ## The system -/

/-- What one run brings: a manifest with a semantic hash. -/
structure RunManifest where
  fields : List (String × Json)
  distinct : (Json.obj fields).Distinct
  hashed : isNone (hashOf fields) = false

variable {ι : Type}

inductive Act (ι : Type) where
  | validate (r : ι) (overwriting : Bool)
  | ensure (r : ι) (overwriting : Bool)
  | leaf (r : ι) (child : String)

/-- `accepted` are the runs of any accepted call; `current` those whose acceptance stands,
`underHash` those accepted under a manifest with a hash, `wrote` those with leaves. -/
structure State (ι : Type) where
  root : Root
  accepted : List ι
  current : List ι
  underHash : List ι
  wrote : List ι

def hasHash (root : Root) : Bool :=
  match root.manifest with
  | .obj m => !isNone (hashOf m)
  | _ => false

def noteIf (b : Bool) (r : ι) (l : List ι) : List ι := if b then r :: l else l

/-- A validating call stands if the manifest it found matches, with or without overwriting. -/
def noteValidate (s : State ι) (r : ι) (manifest : List (String × Json))
    (existing : Option (List (String × Json))) : State ι :=
  let matching := existing.any (frozenMatches · manifest)
  { s with
    accepted := r :: s.accepted
    current := noteIf matching r s.current
    underHash := noteIf (matching && hasHash s.root) r s.underHash }

/-- A manifest with other frozen keys ends every earlier acceptance; where it replaces one it
resets the store. -/
def noteEnsure (s : State ι) (r : ι) (manifest : List (String × Json)) (root : Root) : State ι :=
  match s.root.manifest with
  | .obj m =>
    if frozenMatches m manifest then
      { s with
        root := root
        accepted := r :: s.accepted
        current := r :: s.current
        underHash := noteIf (hasHash root) r s.underHash }
    else ⟨root, r :: s.accepted, [r], [r], []⟩
  | _ => ⟨root, r :: s.accepted, [r], [r], s.wrote⟩

variable (config : ι → RunManifest)

/-- A refused call changes nothing; only an accepted run writes a leaf. -/
def step [DecidableEq ι] (s : State ι) : Act ι → Option (State ι)
  | .validate r overwriting =>
    match validateManifest s.root (config r).fields overwriting with
    | .ok existing => some (noteValidate s r (config r).fields existing)
    | .error _ => some s
  | .ensure r overwriting =>
    match ensureManifest s.root (config r).fields overwriting with
    | .ok root => some (noteEnsure s r (config r).fields root)
    | .error _ => some s
  | .leaf r child =>
    if r ∈ s.accepted ∧ isBaseComponent child = true then
      some { s with root.children := child :: s.root.children, wrote := r :: s.wrote }
    else none

def runActs [DecidableEq ι] (s : State ι) (acts : List (Act ι)) : Option (State ι) := acts.foldlM (step config) s

/-- A root as it is found, before any call. -/
def start (root : Root) : State ι := ⟨root, [], [], [], []⟩

/-- The manifest agrees with every run that has leaves. -/
def AllAgree (s : State ι) : Prop :=
  ∀ r ∈ s.wrote, ∃ m, s.root.manifest = .obj m ∧ Agrees m (config r).fields

/-- A run's first leaf follows an acceptance that still stands. -/
def Orderly (s : State ι) : Act ι → Prop
  | .leaf r _ => r ∈ s.current ∨ r ∈ s.wrote
  | _ => True

def OrderlyRun [DecidableEq ι] (s : State ι) : List (Act ι) → Prop
  | [] => True
  | a :: acts => Orderly s a ∧ ∀ s', step config s a = some s' → OrderlyRun s' acts

instance [DecidableEq ι] (s : State ι) : (a : Act ι) → Decidable (Orderly s a)
  | .leaf r _ => inferInstanceAs (Decidable (r ∈ s.current ∨ r ∈ s.wrote))
  | .validate _ _ => .isTrue trivial
  | .ensure _ _ => .isTrue trivial

instance decidableOrderlyRun [DecidableEq ι] (s : State ι) :
    (acts : List (Act ι)) → Decidable (OrderlyRun config s acts)
  | [] => .isTrue trivial
  | a :: acts =>
    have : Decidable (∀ s', step config s a = some s' → OrderlyRun config s' acts) :=
      match step config s a with
      | none => .isTrue nofun
      | some next =>
        have := decidableOrderlyRun next acts
        decidable_of_iff (OrderlyRun config next acts)
          ⟨fun h _ hs' => Option.some.inj hs' ▸ h, fun h => h next rfl⟩
    inferInstanceAs (Decidable (Orderly s a ∧ _))

/-! ## What a call does -/

theorem validateManifest_spec {root : Root} {c : List (String × Json)} {overwriting : Bool}
    {existing : Option (List (String × Json))} (h : validateManifest root c overwriting = .ok existing) :
    (root.manifest = .null ∧ existing = none) ∨
      ∃ m, root.manifest = .obj m ∧ existing = some m ∧ (frozenMatches m c = true ∨
        overwriting = true ∧ root.children.any isBaseComponent = false) := by
  rw [validateManifest] at h
  split at h
  · next hnull => exact .inl ⟨hnull, (Except.ok.inj h).symm⟩
  · next m hm =>
    split_ifs at h with hmatch how hleaves
    · exact .inr ⟨m, hm, (Except.ok.inj h).symm, .inl hmatch⟩
    · rw [Bool.not_eq_true] at hleaves
      exact .inr ⟨m, hm, (Except.ok.inj h).symm, .inr ⟨how, hleaves⟩⟩
  · cases h

/-- The manifest stays, is replaced by an agreeing one, or comes over none or over an empty
digit tree. -/
theorem ensureManifest_spec {root root' : Root} {c : List (String × Json)} {overwriting : Bool}
    (h : ensureManifest root c overwriting = .ok root') :
    root'.children = root.children ∧ ((root.manifest = .null ∧ root'.manifest = .obj c) ∨
      ∃ m, root.manifest = .obj m ∧
        (frozenMatches m c = true ∧ (root' = root ∨ root'.manifest = .obj c) ∨
          root.children.any isBaseComponent = false ∧ root'.manifest = .obj c)) := by
  rw [ensureManifest] at h
  cases hvalid : validateManifest root c overwriting with
  | error err =>
    rw [hvalid] at h
    cases h
  | ok existing =>
    rw [hvalid] at h
    change (if (existing.isSome && !overwriting) = true then Except.ok root
      else .ok { root with manifest := .obj c }) = _ at h
    rcases validateManifest_spec hvalid with ⟨hnull, rfl⟩ | ⟨m, hm, rfl, hmatch | ⟨how, hleaves⟩⟩
    · obtain rfl := Except.ok.inj h
      exact ⟨rfl, .inl ⟨hnull, rfl⟩⟩
    · split_ifs at h
      · obtain rfl := Except.ok.inj h
        exact ⟨rfl, .inr ⟨m, hm, .inl ⟨hmatch, .inl rfl⟩⟩⟩
      · obtain rfl := Except.ok.inj h
        exact ⟨rfl, .inr ⟨m, hm, .inl ⟨hmatch, .inr rfl⟩⟩⟩
    · subst how
      obtain rfl := Except.ok.inj h
      exact ⟨rfl, .inr ⟨m, hm, .inr ⟨hleaves, rfl⟩⟩⟩

/-! ## The invariant -/

structure Frozen (s : State ι) : Prop where
  keyed : s.root.manifest.Keyed
  standing : ∀ r, r ∈ s.current ∨ r ∈ s.wrote →
    ∃ m, s.root.manifest = .obj m ∧ AgreesButHash m (config r).fields
  hashed : ∀ r ∈ s.underHash, ∃ m, s.root.manifest = .obj m ∧ isNone (hashOf m) = false ∧
    (hashOf m).pyEq (hashOf (config r).fields) = true
  leaves : s.wrote ≠ [] → s.root.children.any isBaseComponent = true

variable {config}

theorem mem_noteIf {b : Bool} {r r' : ι} {l : List ι} (h : r' ∈ noteIf b r l) :
    (b = true ∧ r' = r) ∨ r' ∈ l := by
  rw [noteIf] at h
  split_ifs at h with hb
  · exact (List.mem_cons.mp h).imp_left fun heq => ⟨hb, heq⟩
  · exact .inr h

theorem hasHash_obj {root : Root} {m : List (String × Json)} (hm : root.manifest = .obj m) :
    hasHash root = !isNone (hashOf m) := by
  rw [hasHash, hm]

/-- A run that agrees and is compared by hash. -/
theorem hash_agrees {m : List (String × Json)} {r : ι} (hmatch : frozenMatches m (config r).fields = true)
    (hhash : isNone (hashOf m) = false) : (hashOf m).pyEq (hashOf (config r).fields) = true := by
  rcases (frozenMatches_iff.mp hmatch).2 with h | h | h
  · rw [hhash] at h
    cases h
  · rw [(config r).hashed] at h
    cases h
  · exact h

theorem Frozen.validate {s : State ι} (hs : Frozen config s) {r : ι} {overwriting : Bool}
    {existing : Option (List (String × Json))}
    (h : validateManifest s.root (config r).fields overwriting = .ok existing) :
    Frozen config (noteValidate s r (config r).fields existing) := by
  have hfound : existing.any (frozenMatches · (config r).fields) = true →
      ∃ m, s.root.manifest = .obj m ∧ frozenMatches m (config r).fields = true := by
    intro hfound
    rcases validateManifest_spec h with ⟨-, rfl⟩ | ⟨m, hm, rfl, -⟩
    · cases hfound
    · exact ⟨m, hm, hfound⟩
  refine ⟨hs.keyed, fun r' hr' => ?_, fun r' hr' => ?_, hs.leaves⟩
  · rcases hr' with hr' | hr'
    · rcases mem_noteIf hr' with ⟨hf, rfl⟩ | hr'
      · obtain ⟨m, hm, hmatch⟩ := hfound hf
        exact ⟨m, hm, (frozenMatches_iff.mp hmatch).1⟩
      · exact hs.standing r' (.inl hr')
    · exact hs.standing r' (.inr hr')
  · rcases mem_noteIf hr' with ⟨hf, rfl⟩ | hr'
    · obtain ⟨hf, hhash⟩ := (Bool.and_eq_true_iff).mp hf
      obtain ⟨m, hm, hmatch⟩ := hfound hf
      rw [hasHash_obj hm, Bool.not_eq_true'] at hhash
      exact ⟨m, hm, hhash, hash_agrees hmatch hhash⟩
    · exact hs.hashed r' hr'

theorem Frozen.ensure {s : State ι} (hs : Frozen config s) {r : ι} {overwriting : Bool} {root : Root}
    (h : ensureManifest s.root (config r).fields overwriting = .ok root) :
    Frozen config (noteEnsure s r (config r).fields root) := by
  obtain ⟨hchildren, hnull | ⟨m, hm, hcases⟩⟩ := ensureManifest_spec h
  · -- a first manifest: no run has leaves yet
    obtain ⟨hnull, hroot⟩ := hnull
    have hwrote : ∀ r', r' ∉ s.wrote := by
      intro r' hr'
      obtain ⟨m, hm, -⟩ := hs.standing r' (.inr hr')
      rw [hnull] at hm
      cases hm
    rw [noteEnsure, hnull]
    refine ⟨?_, fun r' hr' => ?_, fun r' hr' => ?_, ?_⟩
    · change root.manifest.Keyed
      rw [hroot]
      exact (config r).distinct.keyed
    · rcases hr' with hr' | hr'
      · obtain rfl := List.mem_singleton.mp hr'
        exact ⟨_, hroot, .refl (config r').distinct⟩
      · exact absurd hr' (hwrote r')
    · obtain rfl := List.mem_singleton.mp hr'
      exact ⟨_, hroot, (config r').hashed, Json.pyEq_refl (distinct_field (config r').distinct _)⟩
    · exact fun hne => absurd (List.eq_nil_iff_forall_not_mem.mpr hwrote) hne
  have hkm : (Json.obj m).Keyed := hm ▸ hs.keyed
  rw [noteEnsure, hm]
  by_cases hmatch : frozenMatches m (config r).fields = true
  · -- what agrees with the manifest before agrees with the one in effect afterwards
    have hafter : ∃ m', root.manifest = .obj m' ∧ (Json.obj m').Keyed ∧
        AgreesButHash m' (config r).fields ∧
        (isNone (hashOf m') = false → (hashOf m').pyEq (hashOf (config r).fields) = true) ∧
        (∀ c, AgreesButHash m c → AgreesButHash m' c) ∧
        (isNone (hashOf m) = false → isNone (hashOf m') = false ∧
          ∀ h, (hashOf m).pyEq h = true → (hashOf m').pyEq h = true) := by
      have hkeep : root = s.root ∨ root.manifest = .obj (config r).fields := by
        rcases hcases with ⟨-, h⟩ | ⟨-, h⟩
        · exact h
        · exact .inr h
      rcases hkeep with rfl | hroot
      · exact ⟨m, hm, hkm, (frozenMatches_iff.mp hmatch).1, hash_agrees hmatch,
          fun _ hc => hc, fun hhash => ⟨hhash, fun _ hh => hh⟩⟩
      · have hd := (config r).distinct
        refine ⟨_, hroot, hd.keyed, .refl hd, fun _ => Json.pyEq_refl (distinct_field hd _),
          fun c hc => (frozenMatches_iff.mp hmatch).1.replace hkm hd.keyed hc,
          fun hhash => ⟨(config r).hashed, fun h hh => ?_⟩⟩
        exact Json.pyEq_trans (Json.pyEq_symm (keyed_field hkm _) (keyed_field hd.keyed _)
          (hash_agrees hmatch hhash)) hh
    obtain ⟨m', hm', hkm', hown, hownHash, hreplace, hkeepHash⟩ := hafter
    simp only [hmatch, if_true]
    refine ⟨hm' ▸ hkm', fun r' hr' => ?_, fun r' hr' => ?_, fun hne => ?_⟩
    · have hold : r' = r ∨ r' ∈ s.current ∨ r' ∈ s.wrote := by
        rcases hr' with hr' | hr'
        · exact (List.mem_cons.mp hr').imp_right .inl
        · exact .inr (.inr hr')
      rcases hold with rfl | hold
      · exact ⟨m', hm', hown⟩
      · obtain ⟨m₀, hm₀, hagree⟩ := hs.standing r' hold
        obtain rfl := Json.obj.inj (hm.symm.trans hm₀)
        exact ⟨m', hm', hreplace _ hagree⟩
    · rcases mem_noteIf hr' with ⟨hhash, rfl⟩ | hr'
      · rw [hasHash_obj hm', Bool.not_eq_true'] at hhash
        exact ⟨m', hm', hhash, hownHash hhash⟩
      · obtain ⟨m₀, hm₀, hhash, hagree⟩ := hs.hashed r' hr'
        obtain rfl := Json.obj.inj (hm.symm.trans hm₀)
        obtain ⟨hhash', heq⟩ := hkeepHash hhash
        exact ⟨m', hm', hhash', heq _ hagree⟩
    · change root.children.any isBaseComponent = true
      rw [hchildren]
      exact hs.leaves hne
  · -- other frozen keys: the store is reset
    have hroot : root.manifest = .obj (config r).fields := by
      rcases hcases with ⟨h, -⟩ | ⟨-, h⟩
      · exact absurd h hmatch
      · exact h
    simp only [hmatch]
    refine ⟨?_, fun r' hr' => ?_, fun r' hr' => ?_, fun hne => absurd rfl hne⟩
    · change root.manifest.Keyed
      rw [hroot]
      exact (config r).distinct.keyed
    · rcases hr' with hr' | hr'
      · obtain rfl := List.mem_singleton.mp hr'
        exact ⟨_, hroot, .refl (config r').distinct⟩
      · exact absurd hr' List.not_mem_nil
    · obtain rfl := List.mem_singleton.mp hr'
      exact ⟨_, hroot, (config r').hashed, Json.pyEq_refl (distinct_field (config r').distinct _)⟩

theorem Frozen.step [DecidableEq ι] {s s' : State ι} (hs : Frozen config s) {a : Act ι} (ha : Orderly s a)
    (h : step config s a = some s') : Frozen config s' := by
  cases a with
  | validate r overwriting =>
    rw [Hive.step] at h
    split at h
    · next existing hexisting =>
      obtain rfl := Option.some.inj h
      exact hs.validate hexisting
    · obtain rfl := Option.some.inj h
      exact hs
  | ensure r overwriting =>
    rw [Hive.step] at h
    split at h
    · next root hroot =>
      obtain rfl := Option.some.inj h
      exact hs.ensure hroot
    · obtain rfl := Option.some.inj h
      exact hs
  | leaf r child =>
    rw [Hive.step] at h
    split_ifs at h with hguard
    obtain rfl := Option.some.inj h
    refine ⟨hs.keyed, fun r' hr' => ?_, hs.hashed, fun _ => ?_⟩
    · rcases hr' with hr' | hr'
      · exact hs.standing r' (.inl hr')
      · rcases List.mem_cons.mp hr' with rfl | hr'
        · exact hs.standing r' ha
        · exact hs.standing r' (.inr hr')
    · change (child :: s.root.children).any isBaseComponent = true
      rw [List.any_cons, hguard.2, Bool.true_or]

theorem Frozen.runActs [DecidableEq ι] {s s' : State ι} (hs : Frozen config s) {acts : List (Act ι)}
    (horder : OrderlyRun config s acts) (h : runActs config s acts = some s') : Frozen config s' := by
  induction acts generalizing s with
  | nil => exact Option.some.inj h ▸ hs
  | cons a acts ih =>
    rw [Hive.runActs, List.foldlM_cons] at h
    cases hstep : Hive.step config s a with
    | none => rw [hstep] at h; cases h
    | some next =>
      rw [hstep] at h
      exact ih (hs.step horder.1 hstep) (horder.2 next hstep) h

theorem frozen_start {root : Root} (hroot : root.manifest.Keyed) :
    Frozen config (start root : State ι) :=
  ⟨hroot, fun _ h => h.elim (absurd · List.not_mem_nil) (absurd · List.not_mem_nil),
    fun _ h => absurd h List.not_mem_nil, fun h => absurd rfl h⟩

/-- Along every orderly run the manifest agrees with every run that has leaves: on the
semantic hash as well, if it was accepted under a manifest that carries one. -/
theorem frozen_keys_agree [DecidableEq ι] {root : Root} (hroot : root.manifest.Keyed)
    {acts : List (Act ι)} (horder : OrderlyRun config (start root) acts) {s : State ι}
    (h : runActs config (start root) acts = some s) :
    ∀ r ∈ s.wrote, ∃ m, s.root.manifest = .obj m ∧ AgreesButHash m (config r).fields ∧
      (r ∈ s.underHash → Agrees m (config r).fields) := by
  have hs := (frozen_start hroot).runActs horder h
  intro r hr
  obtain ⟨m, hm, hagree⟩ := hs.standing r (.inr hr)
  refine ⟨m, hm, hagree, fun hhash => ?_⟩
  obtain ⟨m', hm', -, heq⟩ := hs.hashed r hhash
  obtain rfl := Json.obj.inj (hm.symm.trans hm')
  exact agrees_iff.mpr ⟨hagree, heq⟩

/-! ## Runs that share a store -/

def sampleManifest (semanticHash : String) (cellOrder : ℚ) : RunManifest where
  fields := [("spec", .str "morton-hive/1"), ("semantic_hash", .str semanticHash),
    ("cell_order", .num cellOrder), ("path_grouping", .num 1)]
  distinct := by
    have hkeys : ["spec", "semantic_hash", "cell_order", "path_grouping"].Nodup := by decide
    refine .obj hkeys fun f hf => ?_
    simp only [List.mem_cons, List.not_mem_nil, or_false] at hf
    rcases hf with rfl | rfl | rfl | rfl
    · exact .str _
    · exact .str _
    · exact .num _
    · exact .num _
  hashed := rfl

/-- Two runs with different aggregation semantics. -/
def twoHashes (r : Bool) : RunManifest := sampleManifest (if r then "a1" else "b2") 8

def twoOrders (r : Bool) : RunManifest := sampleManifest "a1" (if r then 8 else 9)

/-- A store templated before semantic hashing. -/
def legacyRoot : Root := ⟨.obj [("spec", .str "morton-hive/1"), ("cell_order", .num 8)], []⟩

def freshRoot : Root := ⟨.null, []⟩

def agreesB (m c : List (String × Json)) : Bool :=
  frozenManifestKeys.all fun key => (frozenValue m key).pyEq (frozenValue c key)

def disagreesB (config : ι → RunManifest) (s : State ι) : Bool :=
  s.wrote.any fun r => match s.root.manifest with
    | .obj m => !agreesB m (config r).fields
    | _ => true

theorem not_allAgree {s : State ι} (h : disagreesB config s = true) : ¬AllAgree config s := by
  intro hall
  obtain ⟨r, hr, hdis⟩ := List.any_eq_true.mp h
  obtain ⟨m, hm, hagree⟩ := hall r hr
  rw [hm] at hdis
  have hall' : agreesB m (config r).fields = true := List.all_eq_true.mpr hagree
  simp only [hall', Bool.not_true, Bool.false_eq_true] at hdis

theorem exists_disagreeing [DecidableEq ι] {acts : List (Act ι)} {root : Root}
    (h : (runActs config (start root) acts).any (disagreesB config) = true) :
    ∃ s, runActs config (start root) acts = some s ∧ ¬AllAgree config s := by
  obtain ⟨s, hs, hdis⟩ := (Option.any_eq_true _ _).mp h
  exact ⟨s, hs, not_allAgree hdis⟩

/-- Over a manifest without a hash two semantics share the store; an acceptance is overtaken
by another run's overwrite before the first leaf; and a check of a fresh root records nothing. -/
theorem frozen_keys_disagree :
    (∃ s, runActs twoHashes (start legacyRoot)
      [.ensure true false, .ensure false false, .leaf true "1", .leaf false "-2"] = some s ∧
        ¬AllAgree twoHashes s) ∧
    (∃ s, runActs twoOrders (start freshRoot)
      [.ensure true false, .ensure false true, .leaf true "1"] = some s ∧ ¬AllAgree twoOrders s) ∧
    ∃ s, runActs twoOrders (start freshRoot)
      [.validate true false, .ensure false false, .leaf true "1"] = some s ∧
        ¬AllAgree twoOrders s :=
  ⟨exists_disagreeing (by decide +kernel), exists_disagreeing (by decide +kernel),
    exists_disagreeing (by decide +kernel)⟩

/-- Two runs of one configuration, on a store that a third configuration has left empty. -/
def threeRuns (r : Fin 3) : RunManifest := sampleManifest "a1" (if r = 2 then 9 else 8)

/-- The first run replaces the manifest of the third, the second finds it by a check that asks
to overwrite, and both write. -/
def sharingActs : List (Act (Fin 3)) :=
  [.ensure 2 false, .ensure 0 true, .leaf 0 "1", .validate 1 true, .leaf 1 "-2", .ensure 2 true,
    .leaf 0 "3"]

theorem frozen_keys_agree_sharing : ∃ s, runActs threeRuns (start freshRoot) sharingActs = some s ∧
    s.wrote = [0, 1, 0] ∧
    ∀ r ∈ s.wrote, ∃ m, s.root.manifest = .obj m ∧ AgreesButHash m (threeRuns r).fields ∧
      (r ∈ s.underHash → Agrees m (threeRuns r).fields) := by
  have hsome : (runActs threeRuns (start freshRoot) sharingActs).any
      (fun s => s.wrote = [0, 1, 0]) = true := by decide +kernel
  obtain ⟨s, hs, hwrote⟩ := (Option.any_eq_true _ _).mp hsome
  have horder : OrderlyRun threeRuns (start freshRoot) sharingActs :=
    of_decide_eq_true (by decide +kernel : decide (OrderlyRun threeRuns _ _) = true)
  exact ⟨s, hs, of_decide_eq_true hwrote, frozen_keys_agree .null horder hs⟩

end Zagg.Hive
