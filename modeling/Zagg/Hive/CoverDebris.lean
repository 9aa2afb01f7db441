import Zagg.Hive.CoverFixpoint
import Zagg.Hive.CoverageWrite

/-!
# Writing over any standing cover

The write seam takes a standing object that does not decode as debris and writes the incoming
cover over it. An infinite order and the content comparison of the skip test escape its
handlers: both writes and the test go through exactly on the standing values below.
-/
namespace Zagg.Hive

open Zagg.Lib
open Zagg.Catalog (Word)

variable (g : Toc)

/-- What is read back from `coverage.toc`; an absent object and `null` are both `None`. -/
def readCover : Standing → Json
  | .json value => value
  | _ => .null

/-- What a write leaves standing. -/
def writeCover (standing : Standing) (incoming : Option Fields) (replace : Bool) :
    Except PyError (Option Fields) :=
  let existing := readCover standing
  match incoming with
  | none => .ok (match existing with
    | .obj carrier => some carrier
    | _ => none)
  | some carrier =>
    if replace then .ok (some ((coverPreserved existing).getD carrier))
    else
      match mergeCoverSections g existing (.obj carrier) with
      | .ok merged => .ok merged
      | .error err => if isDebris err then .ok (some carrier) else .error err

/-- A body as a walk that found temporal data builds it. -/
structure BuiltCover (g : Toc) (n : Int) extends Cover g n where
  shards_ne : shards ≠ []

variable {g} {n : Int} {shardsB : Fields} {pin : Int} {decimal : String} {block : Json}

/-- A block that agrees with its buffer and declares an infinite order. -/
def InfiniteBlock (block : Json) : Prop :=
  ∃ fields buffer words negative, block = .obj fields ∧ fields.lookup "words" = some buffer ∧
    decodeWords buffer = .ok words ∧ (Json.field fields "count").pyEq (.num (words.length : Int)) = true ∧
    fields.lookup "temporal_order" = some (.inf negative)

/-- A standing block that decodes at an order its shard can be quantized at. -/
def MergesBlock (shardsB : Fields) (pin : Int) (decimal : String) (block : Json) : Prop :=
  ∃ side, decodeCoverBlock block pin = .ok side ∧
    if decimal ∈ shardsB.map Prod.fst then 0 ≤ side.2 else side.1.length ≤ coverCap ∨ side.2 ≤ 32

/-- The merge meets an infinite order before anything it takes as debris. -/
def MeetsInfinity (a : Fields) (b : Cover g n) : Prop :=
  (∃ negative, a.lookup "temporal_order" = some (.inf negative)) ∨
  ∃ pin shards, objectPin a = .ok pin ∧ coverShards a = .ok shards ∧
    ∃ decimal block, shards.lookup decimal = some block ∧ InfiniteBlock block ∧
      ∀ earlier block', shards.lookup earlier = some block' → earlier < decimal →
        MergesBlock b.shards pin earlier block'

/-- The standing cover decodes and sorts together with the incoming one. -/
def MergesCover (a : Fields) (b : Cover g n) : Prop :=
  ∃ pin shards names, objectPin a = .ok pin ∧ coverShards a = .ok shards ∧
    (∀ decimal block, shards.lookup decimal = some block → MergesBlock b.shards pin decimal block) ∧
    fieldSet a = .ok names ∧ Sortable (distinct (names ++ b.names.map .str))

/-- What the comparison of contents asks of an object. -/
structure ContentReadable (carrier : Fields) : Prop where
  shards : ∃ items, (Json.field carrier "shards").orEmpty = .obj items
  fields : (Json.field carrier "fields").truthy = false ∨
    ∃ items, (Json.field carrier "fields").items = .ok items ∧
      items.Pairwise fun a b => a.comparable b

/-- The standing values that neither a write nor the skip test fails on. -/
structure Tolerable (existing : Json) (b : Cover g n) : Prop where
  finite : ∀ a, coverUsable existing = some a →
    (Json.field a "order").pyEq (Json.field b.carrier "order") = true → ¬MeetsInfinity a b
  content : ∀ a, existing = .obj a →
    (coverUsable existing = some a →
      (Json.field a "order").pyEq (Json.field b.carrier "order") = true → MergesCover a b) →
    ContentReadable a

/-! ## Which errors there are -/

theorem isDebris_iff {err : PyError} :
    isDebris err = true ↔ err = .keyError ∨ err = .typeError ∨ err = .valueError := by
  simp [isDebris, or_assoc]

/-- The errors the handlers name, and the one they miss. -/
def Foreseen (err : PyError) : Prop := isDebris err = true ∨ err = .overflowError

theorem not_debris_overflow : isDebris .overflowError ≠ true := by decide

theorem toInt_error {v : Json} {err : PyError} (h : v.toInt = .error err) : Foreseen err := by
  cases v with
  | str s =>
    rw [Json.toInt] at h
    split at h <;> cases h
    exact .inl rfl
  | inf negative => exact .inr (Except.error.inj h).symm
  | _ => cases h <;> exact .inl rfl

theorem toInt_overflow {v : Json} : v.toInt = .error .overflowError ↔ ∃ negative, v = .inf negative := by
  constructor
  · intro h
    cases v with
    | inf negative => exact ⟨negative, rfl⟩
    | str s =>
      rw [Json.toInt] at h
      split at h <;> cases h
    | _ => cases h
  · rintro ⟨negative, hv⟩
    rw [hv]
    rfl

theorem toInt_getDefault {fields : Fields} {key : String} (default : Int) :
    (getDefault fields key (.num default)).toInt = .error .overflowError ↔
      ∃ negative, fields.lookup key = some (.inf negative) := by
  rw [toInt_overflow, getDefault]
  cases fields.lookup key with
  | none => exact iff_of_false (fun hex => by cases hex.choose_spec) (fun hex => by cases hex.choose_spec)
  | some v => simp

theorem objectPin_error {carrier : Fields} {err : PyError} (h : objectPin carrier = .error err) :
    Foreseen err := by
  rw [objectPin] at h
  cases hv : (getDefault carrier "temporal_order" (.num temporalCoverOrder)).toInt with
  | ok pin =>
    rw [hv] at h
    cases h
  | error err' =>
    have hforeseen := toInt_error hv
    rw [hv] at h
    cases err' <;> cases h <;> first | exact .inl rfl | exact hforeseen

theorem objectPin_overflow {carrier : Fields} : objectPin carrier = .error .overflowError ↔
    ∃ negative, carrier.lookup "temporal_order" = some (.inf negative) := by
  rw [← toInt_getDefault, objectPin]
  cases (getDefault carrier "temporal_order" (.num temporalCoverOrder)).toInt with
  | ok pin => exact iff_of_false (fun h => by cases h) (fun h => by cases h)
  | error err => cases err <;> simp

theorem decodeWords_error {v : Json} {err : PyError} (h : decodeWords v = .error err) :
    isDebris err = true := by
  cases v with
  | str text =>
    rw [decodeWords] at h
    split_ifs at h
    · split at h
      · cases h
      · cases h
        rfl
    · cases h
      rfl
  | _ =>
    cases h
    rfl

theorem infiniteBlock_obj {fields : Fields} {buffer : Json} {words : List Word}
    (hbuffer : fields.lookup "words" = some buffer) (hwords : decodeWords buffer = .ok words) :
    InfiniteBlock (.obj fields) ↔ (Json.field fields "count").pyEq (.num (words.length : Int)) = true ∧
      ∃ negative, fields.lookup "temporal_order" = some (.inf negative) := by
  constructor
  · intro ⟨_, _, _, negative, hobj, hbuffer', hwords', hcount, horder⟩
    cases hobj
    cases hbuffer.symm.trans hbuffer'
    cases hwords.symm.trans hwords'
    exact ⟨hcount, negative, horder⟩
  · intro ⟨hcount, negative, horder⟩
    exact ⟨fields, buffer, words, negative, rfl, hbuffer, hwords, hcount, horder⟩

/-- A block fails as debris, or on an infinite order once everything before it agreed. -/
theorem decodeCoverBlock_error {err : PyError} (h : decodeCoverBlock block pin = .error err) :
    (isDebris err = true ∧ ¬InfiniteBlock block) ∨ (err = .overflowError ∧ InfiniteBlock block) := by
  cases block with
  | obj fields =>
    rw [decodeCoverBlock, Json.item] at h
    cases hbuffer : fields.lookup "words" with
    | none =>
      rw [hbuffer] at h
      cases h
      refine .inl ⟨rfl, fun hinf => ?_⟩
      obtain ⟨_, _, _, _, hobj, hlook, _⟩ := hinf
      cases hobj
      cases hbuffer.symm.trans hlook
    | some buffer =>
      rw [hbuffer] at h
      cases hwords : decodeWords buffer with
      | error err' =>
        simp only [bind, Except.bind, hwords] at h
        cases h
        refine .inl ⟨decodeWords_error hwords, fun hinf => ?_⟩
        obtain ⟨_, _, _, _, hobj, hlook, hdec, _⟩ := hinf
        cases hobj
        cases hbuffer.symm.trans hlook
        cases hwords.symm.trans hdec
      | ok words =>
        rw [infiniteBlock_obj hbuffer hwords, ← toInt_getDefault pin]
        simp only [bind, Except.bind, hwords] at h
        split_ifs at h with hcount
        · cases horder : (getDefault fields "temporal_order" (.num pin)).toInt with
          | error err' =>
            rw [horder] at h
            cases h
            rcases toInt_error horder with hdebris | rfl
            · refine .inl ⟨hdebris, fun hinf => ?_⟩
              rw [Except.error.inj hinf.2] at hdebris
              exact not_debris_overflow hdebris
            · exact .inr ⟨rfl, hcount, rfl⟩
          | ok order =>
            rw [horder] at h
            dsimp only at h
            split_ifs at h
            · cases h
              exact .inl ⟨rfl, fun hinf => by cases hinf.2⟩
            · cases h
        · cases h
          exact .inl ⟨rfl, fun hinf => hcount hinf.1⟩
  | _ =>
    cases h
    refine .inl ⟨rfl, fun hinf => ?_⟩
    obtain ⟨_, _, _, _, hobj, _⟩ := hinf
    cases hobj

theorem decodeCoverBlock_infinite (h : InfiniteBlock block) :
    decodeCoverBlock block pin = .error .overflowError := by
  obtain ⟨fields, buffer, words, negative, rfl, hbuffer, hwords, hcount, horder⟩ := h
  rw [decodeCoverBlock, Json.item, hbuffer]
  simp only [bind, Except.bind, hwords]
  rw [if_pos hcount, (toInt_getDefault pin).mpr ⟨negative, horder⟩]

/-! ## One shard -/

section Shard
variable {ws : List Word} {order : Int}

theorem quantizeWords_error (h : ¬(0 ≤ order ∧ order ≤ 31)) :
    quantizeWords g ws order = .error .valueError := if_neg h

theorem quantizeWords_ok (h : 0 ≤ order ∧ order ≤ 31) : ∃ r, quantizeWords g ws order = .ok r :=
  ⟨_, quantizeWords_eq h⟩

/-- Coarsening goes through from the finest order there is, and never refines. -/
theorem capFrom_ok (fuel : Nat) (h : order ≤ 32) :
    ∃ r, capFrom g coverCap fuel ws order = .ok r ∧ r.2 ≤ order := by
  induction fuel generalizing ws order with
  | zero => exact ⟨(ws, order), rfl, le_rfl⟩
  | succ fuel ih =>
    rw [capFrom]
    split_ifs with hmore
    · obtain ⟨next, hnext⟩ : ∃ next, quantizeWords g ws (order - 1) = .ok next :=
        quantizeWords_ok (by omega)
      obtain ⟨r, hr, hle⟩ : ∃ r, capFrom g coverCap fuel next (order - 1) = .ok r ∧ r.2 ≤ order - 1 :=
        ih (by omega)
      refine ⟨r, ?_, by omega⟩
      rw [hnext]
      exact hr
    · exact ⟨(ws, order), rfl, le_rfl⟩

theorem capCover_ok (h : ws.length ≤ coverCap ∨ order ≤ 32) :
    ∃ r, capCover g ws order = .ok r ∧ r.2 ≤ order := by
  rcases h with hlen | hle
  · exact ⟨(ws, order), capFrom_of_le _ hlen, le_rfl⟩
  · exact capFrom_ok _ hle

theorem capCover_error (h : ¬(ws.length ≤ coverCap ∨ order ≤ 32)) :
    capCover g ws order = .error .valueError := by
  rw [not_or, Nat.not_le, Int.not_le] at h
  obtain ⟨fuel, hfuel⟩ : ∃ fuel, order.toNat = fuel + 1 := ⟨order.toNat - 1, by omega⟩
  rw [capCover, hfuel, capFrom, if_pos ⟨h.1, by omega⟩, quantizeWords_error (by omega)]
  rfl

variable {shardsA : Fields} {pinA pinB : Int}

/-- What one shard of the composition is. -/
def ComposedBlock (pinA pinB : Int) (decimal : String) (e : String × Json) : Prop :=
  ∃ ws order, e = (decimal, encodeCoverBlock ws order (max pinA pinB)) ∧ order ≤ max pinA pinB

theorem composedBlock_of_sides {sides : List (List Word × Int)} {joined : List Word × Int}
    (hsides : coverSides shardsA shardsB pinA pinB decimal = .ok sides)
    (hjoined : joinSides g sides = .ok joined) (hpin : joined.2 ≤ max pinA pinB)
    (h : joined.1.length ≤ coverCap ∨ joined.2 ≤ 32) :
    ∃ e, mergeCoverShard g shardsA shardsB pinA pinB decimal = .ok e ∧
      ComposedBlock pinA pinB decimal e := by
  obtain ⟨r, hr, hle⟩ := capCover_ok (g := g) h
  exact ⟨_, mergeCoverShard_of_sides hsides hjoined hr, r.1, r.2, rfl, hle.trans hpin⟩

variable (hb : BlocksWf g shardsB pinB)
include hb

variable (pinA) in
/-- A shard of the incoming side alone. -/
theorem mergeCoverShard_incoming (hla : shardsA.lookup decimal = none)
    (hkey : decimal ∈ shardsB.map Prod.fst) :
    ∃ e, mergeCoverShard g shardsA shardsB pinA pinB decimal = .ok e ∧
      ComposedBlock pinA pinB decimal e := by
  obtain ⟨blockB, hlb⟩ : ∃ block, shardsB.lookup decimal = some block := by
    rw [← Option.ne_none_iff_exists']
    exact fun hlb => lookup_eq_none.mp hlb hkey
  obtain ⟨sideB, hdecB, hqB⟩ := hb decimal blockB hlb
  have hsides : coverSides shardsA shardsB pinA pinB decimal = .ok [sideB] := by
    simp [coverSides, hla, hlb, hdecB, Except.map, bind, Except.bind, pure, Except.pure]
  have hrange := (quantized_iff.mp hqB).1
  exact composedBlock_of_sides hsides rfl ((order_le_pin hdecB).trans (le_max_right _ _))
    (.inr (by omega))

variable (pinA) in
/-- A shard the standing side lists merges, or fails as its block does. -/
theorem mergeCoverShard_standing (hla : shardsA.lookup decimal = some block) :
    (MergesBlock shardsB pinA decimal block ∧
      ∃ e, mergeCoverShard g shardsA shardsB pinA pinB decimal = .ok e ∧
        ComposedBlock pinA pinB decimal e) ∨
    (¬MergesBlock shardsB pinA decimal block ∧
      ∃ err, mergeCoverShard g shardsA shardsB pinA pinB decimal = .error err ∧
        ((isDebris err = true ∧ ¬InfiniteBlock block) ∨ (err = .overflowError ∧ InfiniteBlock block))) := by
  cases hdec : decodeCoverBlock block pinA with
  | error err =>
    have hnot : ¬MergesBlock shardsB pinA decimal block := by
      intro hmerges
      obtain ⟨_, hside, _⟩ := hmerges
      cases hdec.symm.trans hside
    refine .inr ⟨hnot, err, ?_, decodeCoverBlock_error hdec⟩
    simp [mergeCoverShard, coverSides, hla, hdec, Except.map, bind, Except.bind]
  | ok side =>
    have hfinite : ¬InfiniteBlock block := fun h => by cases hdec.symm.trans (decodeCoverBlock_infinite h)
    have hpin := (order_le_pin hdec).trans (le_max_left pinA pinB)
    have hmerges : MergesBlock shardsB pinA decimal block ↔
        if decimal ∈ shardsB.map Prod.fst then 0 ≤ side.2 else side.1.length ≤ coverCap ∨ side.2 ≤ 32 := by
      constructor
      · rintro ⟨side', hdec', h⟩
        rwa [Except.ok.inj (hdec.symm.trans hdec')]
      · exact fun h => ⟨side, hdec, h⟩
    rw [hmerges]
    cases hlb : shardsB.lookup decimal with
    | some blockB =>
      obtain ⟨sideB, hdecB, hqB⟩ := hb decimal blockB hlb
      have hrange := (quantized_iff.mp hqB).1
      have hsides : coverSides shardsA shardsB pinA pinB decimal = .ok [side, sideB] := by
        simp [coverSides, hla, hlb, hdec, hdecB, Except.map, bind, Except.bind, pure, Except.pure]
      rw [if_pos (List.mem_map_of_mem (mem_of_lookup hlb))]
      by_cases hpos : 0 ≤ side.2
      · obtain ⟨joined, hjoined⟩ : ∃ r, quantizeWords g (side.1 ++ sideB.1) (min side.2 sideB.2) = .ok r :=
          quantizeWords_ok (by omega)
        have hjoin : joinSides g [side, sideB] = .ok (joined, min side.2 sideB.2) := by
          simp [joinSides, hjoined, bind, Except.bind, pure, Except.pure]
        exact .inl ⟨hpos, composedBlock_of_sides hsides hjoin ((min_le_left _ _).trans hpin)
          (.inr (by omega))⟩
      · refine .inr ⟨hpos, .valueError, ?_, .inl ⟨rfl, hfinite⟩⟩
        have hjoin : joinSides g [side, sideB] = .error .valueError := by
          simp [joinSides, quantizeWords_error (by omega : ¬(0 ≤ min side.2 sideB.2 ∧
            min side.2 sideB.2 ≤ 31)), bind, Except.bind]
        simp [mergeCoverShard, hsides, hjoin, bind, Except.bind]
    | none =>
      have hsides : coverSides shardsA shardsB pinA pinB decimal = .ok [side] := by
        simp [coverSides, hla, hlb, hdec, Except.map, bind, Except.bind, pure, Except.pure]
      rw [if_neg (lookup_eq_none.mp hlb)]
      by_cases hfits : side.1.length ≤ coverCap ∨ side.2 ≤ 32
      · exact .inl ⟨hfits, composedBlock_of_sides hsides rfl hpin hfits⟩
      · refine .inr ⟨hfits, .valueError, ?_, .inl ⟨rfl, hfinite⟩⟩
        have hcap := capCover_error (g := g) hfits
        rw [mergeCoverShard, hsides]
        simp [joinSides, hcap, bind, Except.bind]

end Shard

/-! ## The whole merge -/

theorem coverShards_error {carrier : Fields} {err : PyError} (h : coverShards carrier = .error err) :
    err = .typeError := by
  rw [coverShards] at h
  split at h <;> cases h
  rfl

theorem fieldSet_error {carrier : Fields} {err : PyError} (h : fieldSet carrier = .error err) :
    err = .typeError := by
  rw [fieldSet] at h
  split_ifs at h with htruthy
  · cases hitems : (Json.field carrier "fields").items with
    | error err' =>
      rw [hitems] at h
      cases h
      generalize Json.field carrier "fields" = v at hitems
      cases v <;> cases hitems <;> rfl
    | ok items =>
      rw [hitems] at h
      simp only [bind, Except.bind] at h
      split_ifs at h <;> cases h
      rfl
  · cases h

theorem pySorted_error {items : List Json} {err : PyError} (h : pySorted items = .error err) :
    err = .typeError := by
  rw [pySorted] at h
  split_ifs at h
  exact (Except.error.inj h).symm

section Merge
variable {a : Fields} {b : Cover g n}

theorem mergesBlock_not_infinite {shardsB : Fields} (h : MergesBlock shardsB pin decimal block) :
    ¬InfiniteBlock block := by
  obtain ⟨side, hdec, -⟩ := h
  exact fun hinf => nomatch hdec.symm.trans (decodeCoverBlock_infinite hinf)

/-- Past the pin and the mapping, the merge meets infinity in a block. -/
theorem meetsInfinity_iff {shards : Fields} (hpin : objectPin a = .ok pin)
    (hshards : coverShards a = .ok shards) : MeetsInfinity a b ↔
      ∃ decimal block, shards.lookup decimal = some block ∧ InfiniteBlock block ∧
        ∀ earlier block', shards.lookup earlier = some block' → earlier < decimal →
          MergesBlock b.shards pin earlier block' := by
  constructor
  · intro h
    rcases h with hinf | ⟨pin', shards', hpin', hshards', hblock⟩
    · exact nomatch hpin.symm.trans (objectPin_overflow.mpr hinf)
    · cases hpin.symm.trans hpin'
      cases hshards.symm.trans hshards'
      exact hblock
  · exact fun h => .inr ⟨pin, shards, hpin, hshards, h⟩

/-- A shard that composes has a standing block that merges. -/
theorem mergesBlock_of_ok {shards : Fields} {e : String × Json}
    (hok : mergeCoverShard g shards b.shards pin b.pin decimal = .ok e)
    (hla : shards.lookup decimal = some block) : MergesBlock b.shards pin decimal block := by
  rcases mergeCoverShard_standing pin b.blocks hla with ⟨hmerges, -⟩ | ⟨-, err, herr, -⟩
  · exact hmerges
  · exact nomatch hok.symm.trans herr

/-- The loop over the shards stops at a standing block that fails. -/
theorem shards_error {shards : Fields} (hpin : objectPin a = .ok pin)
    (hshards : coverShards a = .ok shards) {err : PyError}
    (h : (sortedKeys shards b.shards).mapM (mergeCoverShard g shards b.shards pin b.pin) = .error err) :
    ¬MergesCover a b ∧
      ((isDebris err = true ∧ ¬MeetsInfinity a b) ∨ (err = .overflowError ∧ MeetsInfinity a b)) := by
  obtain ⟨decimal, hkey, hfail, hbefore⟩ := mapM_error_increasing (strictly_sortedSet _) h
  cases hla : shards.lookup decimal with
  | none =>
    have hkeyB := (mem_sortedKeys.mp hkey).resolve_left (lookup_eq_none.mp hla)
    obtain ⟨e, he, -⟩ := mergeCoverShard_incoming pin b.blocks hla hkeyB
    exact nomatch hfail.symm.trans he
  | some block =>
    have hearlier : ∀ earlier block', shards.lookup earlier = some block' → earlier < decimal →
        MergesBlock b.shards pin earlier block' := by
      intro earlier block' hlook hlt
      have hmem : earlier ∈ sortedKeys shards b.shards :=
        mem_sortedKeys.mpr (.inl (List.mem_map_of_mem (mem_of_lookup hlook)))
      obtain ⟨e, he⟩ := hbefore earlier hmem hlt
      exact mergesBlock_of_ok he hlook
    rcases mergeCoverShard_standing pin b.blocks hla with ⟨-, e, he, -⟩ | ⟨hnot, err', herr, hkind⟩
    · exact nomatch hfail.symm.trans he
    · cases hfail.symm.trans herr
      refine ⟨fun ⟨pin', shards', _, hpin', hshards', hall, _⟩ => ?_, ?_⟩
      · cases hpin.symm.trans hpin'
        cases hshards.symm.trans hshards'
        exact hnot (hall decimal block hla)
      · rw [meetsInfinity_iff hpin hshards]
        refine hkind.imp (fun h => ⟨h.1, ?_⟩) fun h => ⟨h.1, decimal, block, hla, h.2, hearlier⟩
        intro ⟨other, block', hlook, hinf, hall⟩
        rcases lt_trichotomy other decimal with hlt | rfl | hgt
        · exact mergesBlock_not_infinite (hearlier other block' hlook hlt) hinf
        · cases hla.symm.trans hlook
          exact h.2 hinf
        · exact hnot (hall decimal block hla hgt)

/-- A composed object lists every shard of either side, in blocks no finer than its pin. -/
structure LegalMerge (a : Fields) (b : Cover g n) (written : Fields) : Prop where
  composed : mergeUsableCovers g a b.carrier = .ok written
  blocks : ∃ shardsA pin shards, coverShards a = .ok shardsA ∧ objectPin written = .ok pin ∧
    coverShards written = .ok shards ∧ shards.map Prod.fst = sortedKeys shardsA b.shards ∧
    ∀ e ∈ shards, ∃ ws order, e.2 = encodeCoverBlock ws order pin ∧ order ≤ pin

theorem composedBlock_of_ok {shards : Fields} {e : String × Json}
    (hkey : decimal ∈ sortedKeys shards b.shards)
    (hok : mergeCoverShard g shards b.shards pin b.pin decimal = .ok e) :
    ComposedBlock pin b.pin decimal e := by
  cases hla : shards.lookup decimal with
  | none =>
    have hkeyB := (mem_sortedKeys.mp hkey).resolve_left (lookup_eq_none.mp hla)
    obtain ⟨e', he', hform⟩ := mergeCoverShard_incoming pin b.blocks hla hkeyB
    exact Except.ok.inj (hok.symm.trans he') ▸ hform
  | some block =>
    rcases mergeCoverShard_standing pin b.blocks hla with ⟨-, e', he', hform⟩ | ⟨-, err, herr, -⟩
    · exact Except.ok.inj (hok.symm.trans he') ▸ hform
    · exact nomatch hok.symm.trans herr

theorem legalMerge_of_shards {shardsA shards : Fields} {fields : List Json} {written : Fields}
    (hshardsA : coverShards a = .ok shardsA)
    (h : (sortedKeys shardsA b.shards).mapM (mergeCoverShard g shardsA b.shards pin b.pin) = .ok shards)
    (hwritten : written = mergedCover a b.carrier (max pin b.pin) fields shards)
    (hcomposed : mergeUsableCovers g a b.carrier = .ok written) : LegalMerge a b written := by
  refine ⟨hcomposed, shardsA, max pin b.pin, shards, hshardsA, ?_, ?_, ?_, fun e he => ?_⟩
  · rw [hwritten]
    exact objectPin_of_num rfl
  · rw [hwritten]
    exact coverShards_of_obj rfl
  · have hrel := (forall₂_mapM h).imp fun _ _ h => (mergeCoverShard_fst h).symm
    rw [← List.forall₂_map_right_iff, List.forall₂_eq_eq_eq] at hrel
    exact hrel.symm
  · obtain ⟨decimal, hkey, hok⟩ := forall₂_exists_of_mem_right (forall₂_mapM h) he
    obtain ⟨ws, order, rfl, hle⟩ := composedBlock_of_ok hkey hok
    exact ⟨ws, order, rfl, hle⟩

theorem pairwise_of_pySorted {items fields : List Json} (h : pySorted items = .ok fields) :
    fields.Pairwise fun x y => x.comparable y := by
  rw [pySorted] at h
  split_ifs at h with hsort
  obtain rfl := Except.ok.inj h
  have hmem : ∀ x ∈ items.insertionSort fun a b => scalarLe a b, x ∈ items :=
    fun x hx => (List.mem_insertionSort _).mp hx
  rcases hsort with hlen | htext | hnumber
  · have hlen' : (items.insertionSort fun a b => scalarLe a b).length ≤ 1 := by
      rwa [List.length_insertionSort]
    generalize items.insertionSort (fun a b => scalarLe a b) = l at hlen'
    cases l with
    | nil => exact .nil
    | cons x l =>
      have hnil : l = [] := List.length_eq_zero_iff.mp (by rw [List.length_cons] at hlen'; omega)
      rw [hnil]
      exact List.pairwise_singleton _ x
  · refine List.pairwise_iff_forall_sublist.mpr fun {x y} hxy => ?_
    have hx := List.all_eq_true.mp htext x (hmem x (hxy.subset (.head _)))
    have hy := List.all_eq_true.mp htext y (hmem y (hxy.subset (.tail _ (.head _))))
    cases x <;> cases hx
    cases y <;> cases hy
    rfl
  · refine List.pairwise_iff_forall_sublist.mpr fun {x y} hxy => ?_
    have hx := List.all_eq_true.mp hnumber x (hmem x (hxy.subset (.head _)))
    have hy := List.all_eq_true.mp hnumber y (hmem y (hxy.subset (.tail _ (.head _))))
    cases x <;> cases hx <;> exact hy

/-- Blocks that all merge hold no infinity. -/
theorem not_meetsInfinity {shards : Fields} (hpin : objectPin a = .ok pin)
    (hshards : coverShards a = .ok shards)
    (h : ∀ decimal block, shards.lookup decimal = some block → MergesBlock b.shards pin decimal block) :
    ¬MeetsInfinity a b := by
  rw [meetsInfinity_iff hpin hshards]
  intro ⟨decimal, block, hlook, hinf, _⟩
  exact mergesBlock_not_infinite (h decimal block hlook) hinf

theorem mergesBlock_of_mapM {shardsA shards : Fields}
    (hmap : (sortedKeys shardsA b.shards).mapM (mergeCoverShard g shardsA b.shards pin b.pin) =
      .ok shards) :
    ∀ decimal block, shardsA.lookup decimal = some block → MergesBlock b.shards pin decimal block := by
  intro decimal block hlook
  have hmem : decimal ∈ sortedKeys shardsA b.shards :=
    mem_sortedKeys.mpr (.inl (List.mem_map_of_mem (mem_of_lookup hlook)))
  obtain ⟨e, -, he⟩ := ok_of_mapM hmap hmem
  exact mergesBlock_of_ok he hlook

/-- The names of both sides sort, or the merge fails as debris. -/
theorem merge_of_shards {shardsA shards : Fields} (hpin : objectPin a = .ok pin)
    (hshards : coverShards a = .ok shardsA)
    (hmap : (sortedKeys shardsA b.shards).mapM (mergeCoverShard g shardsA b.shards pin b.pin) =
      .ok shards) :
    (MergesCover a b ∧ ∃ written, LegalMerge a b written ∧ ContentReadable written) ∨
    (¬MergesCover a b ∧ mergeUsableCovers g a b.carrier = .error .typeError) := by
  have hall := mergesBlock_of_mapM hmap
  have hmerge : mergeUsableCovers g a b.carrier = (do
      let fields ← pySorted (distinct ((← fieldSet a) ++ (← fieldSet b.carrier)))
      return mergedCover a b.carrier (max pin b.pin) fields shards) := by
    rw [mergeUsableCovers]
    simp only [bind, Except.bind, hpin, b.pin_eq, hshards, b.shards_eq]
    rw [hmap]
  rw [b.names_eq] at hmerge
  cases hnames : fieldSet a with
  | error err =>
    refine .inr ⟨fun hmerges => ?_, ?_⟩
    · obtain ⟨_, _, names, _, _, _, hok, _⟩ := hmerges
      cases hnames.symm.trans hok
    rw [hmerge, hnames, fieldSet_error hnames]
    rfl
  | ok names =>
    rw [hnames] at hmerge
    have hiff : MergesCover a b ↔ Sortable (distinct (names ++ b.names.map .str)) := by
      constructor
      · rintro ⟨_, _, names', _, _, _, hok, hsort⟩
        rwa [Except.ok.inj (hnames.symm.trans hok)]
      · exact fun h => ⟨pin, shardsA, names, hpin, hshards, hall, hnames, h⟩
    rw [hiff, ← pySorted_ok_iff]
    cases hsort : pySorted (distinct (names ++ b.names.map .str)) with
    | error err =>
      refine .inr ⟨fun hex => absurd hex.choose_spec (fun h => by cases h), ?_⟩
      simp only [hmerge, bind, Except.bind, hsort, pySorted_error hsort]
    | ok fields =>
      have hwritten : mergeUsableCovers g a b.carrier =
          .ok (mergedCover a b.carrier (max pin b.pin) fields shards) := by
        simp only [hmerge, bind, Except.bind, hsort]
        rfl
      refine .inl ⟨⟨fields, rfl⟩, _, legalMerge_of_shards hshards hmap rfl hwritten, ?_, ?_⟩
      · exact ⟨shards, orEmpty_obj shards⟩
      · exact .inr ⟨fields, rfl, pairwise_of_pySorted hsort⟩

/-- The merge composes, fails as debris, or meets infinity. -/
theorem mergeUsableCovers_cases (a : Fields) (b : Cover g n) :
    (MergesCover a b ∧ ∃ written, LegalMerge a b written ∧ ContentReadable written) ∨
    (¬MergesCover a b ∧ ∃ err, mergeUsableCovers g a b.carrier = .error err ∧
      ((isDebris err = true ∧ ¬MeetsInfinity a b) ∨ (err = .overflowError ∧ MeetsInfinity a b))) := by
  cases hpin : objectPin a with
  | error err =>
    have hmerge : mergeUsableCovers g a b.carrier = .error err := by
      rw [mergeUsableCovers, hpin]
      rfl
    refine .inr ⟨fun hmerges => ?_, err, hmerge, ?_⟩
    · obtain ⟨_, _, _, hpin', _⟩ := hmerges
      cases hpin.symm.trans hpin'
    rcases objectPin_error hpin with hdebris | rfl
    · refine .inl ⟨hdebris, fun h => ?_⟩
      rcases h with hinf | ⟨_, _, hpin', _⟩
      · cases hpin.symm.trans (objectPin_overflow.mpr hinf)
        exact not_debris_overflow hdebris
      · cases hpin.symm.trans hpin'
    · exact .inr ⟨rfl, .inl (objectPin_overflow.mp hpin)⟩
  | ok pin =>
    cases hshards : coverShards a with
    | error err =>
      have hmerge : mergeUsableCovers g a b.carrier = .error .typeError := by
        rw [mergeUsableCovers]
        simp only [bind, Except.bind, hpin, b.pin_eq, hshards, coverShards_error hshards]
      refine .inr ⟨fun hmerges => ?_, .typeError, hmerge, .inl ⟨rfl, fun h => ?_⟩⟩
      · obtain ⟨_, _, _, _, hshards', _⟩ := hmerges
        cases hshards.symm.trans hshards'
      rcases h with hinf | ⟨_, _, _, hshards', _⟩
      · cases hpin.symm.trans (objectPin_overflow.mpr hinf)
      · cases hshards.symm.trans hshards'
    | ok shardsA =>
      cases hmap : (sortedKeys shardsA b.shards).mapM (mergeCoverShard g shardsA b.shards pin b.pin) with
      | error err =>
        obtain ⟨hnot, hkind⟩ := shards_error hpin hshards hmap
        refine .inr ⟨hnot, err, ?_, hkind⟩
        rw [mergeUsableCovers]
        simp only [bind, Except.bind, hpin, b.pin_eq, hshards, b.shards_eq]
        rw [hmap]
      | ok shards =>
        refine (merge_of_shards hpin hshards hmap).imp id fun hfails => ?_
        exact ⟨hfails.1, .typeError, hfails.2,
          .inl ⟨rfl, not_meetsInfinity hpin hshards (mergesBlock_of_mapM hmap)⟩⟩

end Merge

/-! ## The two seams -/

theorem shardItems_ok_iff {carrier : Fields} : (∃ items, shardItems carrier = .ok items) ↔
    ∃ items, (Json.field carrier "shards").orEmpty = .obj items := by
  rw [shardItems]
  cases (Json.field carrier "shards").orEmpty with
  | obj items => exact iff_of_true ⟨items, rfl⟩ ⟨items, rfl⟩
  | _ => exact iff_of_false (fun hex => by cases hex.choose_spec) fun hex => by cases hex.choose_spec

theorem sortedFields_ok_iff {carrier : Fields} : (∃ fields, sortedFields carrier = .ok fields) ↔
    (Json.field carrier "fields").truthy = false ∨
      ∃ items, (Json.field carrier "fields").items = .ok items ∧
        items.Pairwise fun a b => a.comparable b := by
  rw [sortedFields]
  cases htruthy : (Json.field carrier "fields").truthy with
  | false => exact iff_of_true ⟨[], rfl⟩ (.inl rfl)
  | true =>
    simp only [if_true, exists_bind_ok, Json.sort_ok_iff]
    exact ⟨.inr, fun h => h.resolve_left (fun h => by cases h)⟩

theorem coverContent_ok_iff {carrier : Fields} :
    (∃ content, coverContent (some carrier) = .ok content) ↔ ContentReadable carrier := by
  rw [coverContent]
  simp only [exists_bind_ok]
  constructor
  · rintro ⟨items, hitems, fields, hfields, _⟩
    exact ⟨shardItems_ok_iff.mp ⟨items, hitems⟩, sortedFields_ok_iff.mp ⟨fields, hfields⟩⟩
  · intro h
    obtain ⟨items, hitems⟩ := shardItems_ok_iff.mpr h.shards
    obtain ⟨fields, hfields⟩ := sortedFields_ok_iff.mpr h.fields
    exact ⟨items, hitems, fields, hfields, _, rfl⟩

theorem Cover.contentReadable (b : Cover g n) : ContentReadable b.carrier := by
  constructor
  · have hshards := b.shards_eq
    rw [coverShards] at hshards
    split at hshards
    · exact ⟨_, ‹_›⟩
    · cases hshards
  · have hnames := b.names_eq
    rw [fieldSet] at hnames
    cases htruthy : (Json.field b.carrier "fields").truthy with
    | false => exact .inl rfl
    | true =>
      rw [htruthy, if_pos rfl] at hnames
      obtain ⟨items, hitems, hrest⟩ := bind_ok hnames
      split_ifs at hrest
      cases hrest
      exact .inr ⟨_, hitems, List.pairwise_map.mpr (List.pairwise_of_forall fun _ _ => rfl)⟩

/-- A preserved revision, the incoming cover, or the merge of both. -/
def LeftStanding (existing : Json) (b : Cover g n) (written : Fields) : Prop :=
  coverPreserved existing = some written ∨ written = b.carrier ∨
    ∃ a, coverUsable existing = some a ∧ LegalMerge a b written

/-- Neither arm of the write nor the skip test raises. -/
structure Survives (standing : Standing) (b : Cover g n) : Prop where
  write : ∀ replace, ∃ written, writeCover g standing (some b.carrier) replace = .ok (some written) ∧
    LeftStanding (readCover standing) b written
  skip : ∃ unchanged, coverUnchanged g (readCover standing) (.obj b.carrier) = .ok unchanged

theorem coverUsable_eq {v : Json} {carrier : Fields} (h : coverUsable v = some carrier) :
    v = .obj carrier := by
  cases v with
  | obj fields =>
    rw [coverUsable] at h
    split_ifs at h
    rw [Option.some.inj h]
  | _ => cases h

theorem coverPreserved_eq {v : Json} {carrier : Fields} (h : coverPreserved v = some carrier) :
    v = .obj carrier := by
  cases v with
  | obj fields =>
    rw [coverPreserved] at h
    split at h
    · split_ifs at h
      rw [Option.some.inj h]
    · cases h
  | _ => cases h

section Seams
variable {b : Cover g n} {existing : Json}

theorem exists_compare (x y : Except PyError Json) :
    (∃ r, (do let content ← x; let standing ← y; return content.pyEq standing) = Except.ok r) ↔
      (∃ content, x = .ok content) ∧ ∃ standing, y = .ok standing := by
  cases x with
  | error err => exact iff_of_false (fun ⟨_, h⟩ => nomatch h) fun ⟨⟨_, h⟩, _⟩ => nomatch h
  | ok content =>
    cases y with
    | error err => exact iff_of_false (fun ⟨_, h⟩ => nomatch h) fun ⟨_, _, h⟩ => nomatch h
    | ok standing => exact iff_of_true ⟨_, rfl⟩ ⟨⟨_, rfl⟩, _, rfl⟩

/-- A merge that returns leaves the comparison to read both contents. -/
theorem coverUnchanged_of_merged {merged : Fields}
    (h : mergeCoverSections g existing (.obj b.carrier) = .ok (some merged)) :
    (∃ unchanged, coverUnchanged g existing (.obj b.carrier) = .ok unchanged) ↔
      ContentReadable merged ∧ ∀ a, existing = .obj a → ContentReadable a := by
  unfold coverUnchanged
  rw [h]
  refine (exists_compare _ _).trans (and_congr coverContent_ok_iff ?_)
  cases existing with
  | obj a =>
    refine coverContent_ok_iff.trans ⟨fun hread a' ha' => ?_, fun hall => hall a rfl⟩
    cases ha'
    exact hread
  | _ => exact iff_of_true ⟨_, rfl⟩ nofun

theorem leftStanding_replace (b : Cover g n) (existing : Json) :
    LeftStanding existing b ((coverPreserved existing).getD b.carrier) := by
  cases hpre : coverPreserved existing with
  | none => exact .inr (.inl rfl)
  | some carrier => exact .inl hpre

/-- The three ways a merge ends, by what stands. -/
theorem mergeCoverSections_none (h : coverUsable existing = none) :
    mergeCoverSections g existing (.obj b.carrier) =
      .ok (some ((coverPreserved existing).getD b.carrier)) := by
  rw [mergeCoverSections, h, usable_cover]

theorem mergeCoverSections_order {a : Fields} (h : coverUsable existing = some a)
    (horder : ¬(Json.field a "order").pyEq (Json.field b.carrier "order") = true) :
    mergeCoverSections g existing (.obj b.carrier) = .ok (some b.carrier) := by
  rw [mergeCoverSections, h, usable_cover]
  exact if_neg horder

theorem mergeCoverSections_usable {a : Fields} (h : coverUsable existing = some a)
    (horder : (Json.field a "order").pyEq (Json.field b.carrier "order") = true) :
    mergeCoverSections g existing (.obj b.carrier) = (mergeUsableCovers g a b.carrier).map some := by
  rw [mergeCoverSections, h, usable_cover]
  exact if_pos horder

/-- A merge that returns a cover is what both arms of the write install or a replacement. -/
theorem write_of_merged {standing : Standing} {merged : Fields}
    (h : mergeCoverSections g (readCover standing) (.obj b.carrier) = .ok (some merged))
    (hleft : LeftStanding (readCover standing) b merged) (replace : Bool) :
    ∃ written, writeCover g standing (some b.carrier) replace = .ok (some written) ∧
      LeftStanding (readCover standing) b written := by
  cases replace with
  | true => exact ⟨_, rfl, leftStanding_replace b _⟩
  | false =>
    refine ⟨merged, ?_, hleft⟩
    show (match mergeCoverSections g (readCover standing) (.obj b.carrier) with
      | .ok merged => Except.ok merged
      | .error err => if isDebris err then .ok (some b.carrier) else .error err) = _
    rw [h]

/-- Over debris both arms install the incoming cover, and the test reports a change. -/
theorem survives_of_debris {standing : Standing} {err : PyError}
    (h : mergeCoverSections g (readCover standing) (.obj b.carrier) = .error err)
    (herr : isDebris err = true) : Survives standing b := by
  constructor
  · intro replace
    cases replace with
    | true => exact ⟨_, rfl, leftStanding_replace b _⟩
    | false =>
      refine ⟨b.carrier, ?_, .inr (.inl rfl)⟩
      show (match mergeCoverSections g (readCover standing) (.obj b.carrier) with
        | .ok merged => Except.ok merged
        | .error err => if isDebris err then .ok (some b.carrier) else .error err) = _
      rw [h]
      exact if_pos herr
  · refine ⟨false, ?_⟩
    unfold coverUnchanged
    rw [h]
    exact if_pos (isDebris_iff.mp herr)

theorem not_survives_overflow {standing : Standing}
    (h : mergeCoverSections g (readCover standing) (.obj b.carrier) = .error .overflowError) :
    ¬Survives standing b := by
  intro hs
  obtain ⟨unchanged, hunchanged⟩ := hs.skip
  unfold coverUnchanged at hunchanged
  rw [h] at hunchanged
  cases hunchanged

end Seams

/-- Without a merge to run, what stands must have a content to compare. -/
theorem survives_iff_of_merged {standing : Standing} {b : Cover g n} {merged : Fields}
    (h : mergeCoverSections g (readCover standing) (.obj b.carrier) = .ok (some merged))
    (hleft : LeftStanding (readCover standing) b merged)
    (hread : (∀ a, readCover standing = .obj a → ContentReadable a) → ContentReadable merged) :
    Survives standing b ↔ ∀ a, readCover standing = .obj a → ContentReadable a := by
  constructor
  · exact fun hs => ((coverUnchanged_of_merged h).mp hs.skip).2
  · exact fun hall => ⟨write_of_merged h hleft, (coverUnchanged_of_merged h).mpr ⟨hread hall, hall⟩⟩

/-- Writes and the skip test survive exactly the tolerable standing values. -/
theorem survives_iff_tolerable (standing : Standing) (b : BuiltCover g n) :
    Survives standing b.toCover ↔ Tolerable (readCover standing) b.toCover := by
  cases husable : coverUsable (readCover standing) with
  | none =>
    have hmerged := mergeCoverSections_none (b := b.toCover) husable
    rw [survives_iff_of_merged hmerged (leftStanding_replace _ _) ?_]
    · constructor
      · exact fun hall => ⟨fun a ha => (nomatch husable.symm.trans ha), fun a ha _ => hall a ha⟩
      · exact fun ht a ha => ht.content a ha fun husable' => nomatch husable.symm.trans husable'
    · intro hall
      cases hpre : coverPreserved (readCover standing) with
      | none => exact b.contentReadable
      | some carrier => exact hall carrier (coverPreserved_eq hpre)
  | some a =>
    have hobj := coverUsable_eq husable
    have hself : ∀ a', readCover standing = .obj a' → a' = a :=
      fun a' ha' => Json.obj.inj (ha'.symm.trans hobj)
    by_cases horder : (Json.field a "order").pyEq (Json.field b.carrier "order") = true
    · have hmerge := mergeCoverSections_usable (b := b.toCover) husable horder
      rcases mergeUsableCovers_cases a b.toCover with ⟨hmerges, written, hlegal, hread⟩ |
        ⟨hnot, err, herr, hkind⟩
      · rw [hlegal.composed] at hmerge
        rw [survives_iff_of_merged hmerge (.inr (.inr ⟨a, husable, hlegal⟩)) fun _ => hread]
        have hfinite : ¬MeetsInfinity a b.toCover := by
          obtain ⟨pin, shards, _, hpin, hshards, hall, -⟩ := hmerges
          exact not_meetsInfinity hpin hshards hall
        constructor
        · intro hall
          refine ⟨fun a' ha' _ => ?_, fun a' ha' _ => hall a' ha'⟩
          exact (Option.some.inj (husable.symm.trans ha')) ▸ hfinite
        · intro ht a' ha'
          exact ht.content a' ha' fun _ _ => (hself a' ha').symm ▸ hmerges
      · rw [herr] at hmerge
        rcases hkind with ⟨hdebris, hfinite⟩ | ⟨rfl, hinf⟩
        · refine iff_of_true (survives_of_debris hmerge hdebris) ⟨fun a' ha' _ => ?_, fun a' ha' h => ?_⟩
          · exact (Option.some.inj (husable.symm.trans ha')) ▸ hfinite
          · obtain rfl := hself a' ha'
            exact absurd (h husable horder) hnot
        · exact iff_of_false (not_survives_overflow hmerge) fun ht => ht.finite a husable horder hinf
    · have hmerge := mergeCoverSections_order (b := b.toCover) husable horder
      rw [survives_iff_of_merged hmerge (.inr (.inl rfl)) fun _ => b.contentReadable]
      constructor
      · intro hall
        refine ⟨fun a' ha' horder' => ?_, fun a' ha' _ => hall a' ha'⟩
        exact absurd (Option.some.inj (husable.symm.trans ha') ▸ horder') horder
      · intro ht a' ha'
        exact ht.content a' ha' fun _ horder' => absurd (hself a' ha' ▸ horder') horder

def builtBody : BuiltCover packedToc 8 where
  toCover := standingBody
  shards_ne := List.cons_ne_nil _ _

/-- A cover at the incoming shard order whose pin is `Infinity`. -/
def infiniteCover : Json :=
  .obj [("spec", .str coverSpec), ("order", .num 8), ("temporal_order", .inf false)]

/-- An object of no revision that lists its shards in an array. -/
def listedCover : Json := .obj [("shards", .arr [.str "11"])]

/-- The write raises over an infinite pin, and the skip test over a list of shards. -/
theorem corrupt_cover_raises :
    writeCover packedToc (.json infiniteCover) (some builtBody.carrier) false = .error .overflowError ∧
      coverUnchanged packedToc listedCover (.obj builtBody.carrier) = .error .attributeError ∧
      ¬Survives (.json infiniteCover) builtBody.toCover := by
  have hwrite : writeCover packedToc (.json infiniteCover) (some builtBody.carrier) false =
      .error .overflowError := rfl
  refine ⟨hwrite, rfl, fun h => ?_⟩
  obtain ⟨written, hok, -⟩ := h.write false
  exact nomatch hwrite.symm.trans hok

end Zagg.Hive
