import Zagg.Processing.SameContent

/-!
# What a cell holds

Names and cells tell the assignments of a chunk apart, so that a cell holds the bytes of its own
payload and a sibling the words of its own channel. Bytes decode by the declared element to what
was encoded.
-/
namespace Zagg.Processing.Write

open Zagg.Lib
open Zagg.Spill (readInto readInto_encode)
open BoxIndex (Inside size ravel unravel)

section Decode
variable {ι : Type}

/-- `np.frombuffer(raw, dtype).reshape(-1, *inner_shape)`. -/
def decodeCell (sig : RaggedSig ι) (raw : Bytes) : Option (NdValues ι) :=
  if raw.length % sig.element.itemsize ≠ 0 then none
  else
    (readInto sig.element.itemsize (raw.length / sig.element.itemsize) raw).bind fun read =>
      let items := read.1.map sig.element.decode
      if h : sig.innerShape.prod ∣ items.length ∧ sig.innerShape.prod ≠ 0 then
        some ⟨items.length / sig.innerShape.prod :: sig.innerShape, items, (Nat.div_mul_cancel h.1).symm⟩
      else none

variable {sig : RaggedSig ι} {value : NdValues ι}

/-- A payload tiles its field's inner shape. -/
def Tiles (sig : RaggedSig ι) (value : NdValues ι) : Prop :=
  sig.innerShape.prod ≠ 0 ∧ value.items.length % sig.innerShape.prod = 0

def payloadBytes (sig : RaggedSig ι) (value : NdValues ι) : Bytes := value.items.flatMap sig.element.encode

theorem length_payloadBytes : (payloadBytes sig value).length = value.items.length * sig.element.itemsize := by
  rw [payloadBytes, List.length_flatMap]
  have hlen : value.items.map (fun x => (sig.element.encode x).length) =
      value.items.map fun _ => sig.element.itemsize :=
    List.map_congr_left fun x _ => sig.element.length_encode x
  rw [hlen, List.map_const', List.sum_replicate_nat]

/-- A cell decodes to its payload, row by row. -/
theorem decodeCell_payloadBytes (htiles : Tiles sig value) (hholds : ∀ x ∈ value.items, sig.element.Holds x) :
    ∃ v, decodeCell sig (payloadBytes sig value) = some v ∧ v.items = value.items ∧
      v.shape = value.items.length / sig.innerShape.prod :: sig.innerShape := by
  have hpos := sig.element.itemsize_pos
  have hread := readInto_encode sig.element.encode value.items (fun x _ => sig.element.length_encode x) []
  rw [List.append_nil] at hread
  have hitems : (value.items.map sig.element.encode).map sig.element.decode = value.items := by
    rw [List.map_map]
    exact (List.map_congr_left fun x hx => sig.element.decode_encode x (hholds x hx)).trans (List.map_id _)
  have hdvd : sig.innerShape.prod ∣ value.items.length := Nat.dvd_of_mod_eq_zero htiles.2
  have hdecode : decodeCell sig (payloadBytes sig value) =
      some ⟨value.items.length / sig.innerShape.prod :: sig.innerShape, value.items,
        (Nat.div_mul_cancel hdvd).symm⟩ := by
    rw [decodeCell, length_payloadBytes, if_neg (not_not.mpr (Nat.mul_mod_left _ _)), Nat.mul_div_cancel _ hpos,
      payloadBytes, hread]
    simp only [Option.bind_some, hitems, hdvd, htiles.1, ne_eq, not_false_eq_true, and_self, dite_true]
  exact ⟨_, hdecode, rfl, rfl⟩

theorem NdValues.ext_items {v v' : NdValues ι} (hshape : v.shape = v'.shape) (hitems : v.items = v'.items) :
    v = v' := by
  cases v
  cases v'
  cases hshape
  cases hitems
  rfl

/-- The words of a cell in a channel, as its sibling stores them. -/
def wordsBytes (words : Option (NdValues Nat)) : Bytes := words.elim [] (payloadBytes wordSig)

/-- Words decode to themselves. -/
theorem decodeCell_words {words : NdValues Nat} {n : Nat} (hshape : words.shape = [n])
    (hholds : ∀ x ∈ words.items, x < 2 ^ 64) : decodeCell wordSig (wordsBytes (some words)) = some words := by
  have htiles : Tiles wordSig words := ⟨Nat.one_ne_zero, Nat.mod_one _⟩
  obtain ⟨v, hdecode, hitems, hv⟩ := decodeCell_payloadBytes htiles hholds
  have hlen : words.items.length = n := by
    rw [words.sized, hshape, List.prod_singleton]
  have heq : v = words := by
    apply NdValues.ext_items _ hitems
    rw [hv, hshape, hlen]
    exact congrArg (fun k => [k]) (Nat.div_one n)
  exact heq ▸ hdecode

end Decode

section Entries
variable {P ι : Type} [BoxIndex P] {shape : P} {sigOf : Name → RaggedSig ι} {chunkRes : List Name}
  {e : Name × RaggedEntry ι} {parts : RaggedParts ι} {sig : RaggedSig ι} {value : NdValues ι}

theorem mem_channelsOf {name : Name} {c : Companion} : c ∈ channelsOf name parts ↔
    (∃ l, parts.locations = some l ∧ c = ⟨"locations", raggedLocationsName name, l⟩) ∨
      ∃ l, parts.times = some l ∧ c = ⟨"times", raggedTimesName name, l⟩ := by
  rw [channelsOf, List.mem_append]
  cases parts.locations <;> cases parts.times <;> simp

/-- The names of the two siblings end differently. -/
theorem locationsName_ne_timesName (name name' : Name) : raggedLocationsName name ≠ raggedTimesName name' := by
  intro h
  have hsecond := congrArg (fun l : Name => l.reverse[1]?) h
  simp [raggedLocationsName, raggedTimesName] at hsecond

/-- A sibling belongs to one channel of one field. -/
theorem sibling_inj {parts' : RaggedParts ι} {name name' : Name} {c c' : Companion} (h : c ∈ channelsOf name parts)
    (h' : c' ∈ channelsOf name' parts') (heq : c.sibling = c'.sibling) : name = name' ∧ c.label = c'.label := by
  rcases mem_channelsOf.mp h with ⟨l, -, rfl⟩ | ⟨l, -, rfl⟩
  · rcases mem_channelsOf.mp h' with ⟨l', -, rfl⟩ | ⟨l', -, rfl⟩
    · exact ⟨List.append_cancel_right heq, rfl⟩
    · exact absurd heq (locationsName_ne_timesName _ _)
  · rcases mem_channelsOf.mp h' with ⟨l', -, rfl⟩ | ⟨l', -, rfl⟩
    · exact absurd heq.symm (locationsName_ne_timesName _ _)
    · exact ⟨List.append_cancel_right heq, rfl⟩

theorem companion_inj {name : Name} {c c' : Companion} (h : c ∈ channelsOf name parts)
    (h' : c' ∈ channelsOf name parts) (heq : c.sibling = c'.sibling) : c = c' := by
  rcases mem_channelsOf.mp h with ⟨l, hl, rfl⟩ | ⟨l, hl, rfl⟩
  · rcases mem_channelsOf.mp h' with ⟨l', hl', rfl⟩ | ⟨l', hl', rfl⟩
    · rw [Option.some.inj (hl.symm.trans hl')]
    · exact absurd heq (locationsName_ne_timesName _ _)
  · rcases mem_channelsOf.mp h' with ⟨l', hl', rfl⟩ | ⟨l', hl', rfl⟩
    · exact absurd heq.symm (locationsName_ne_timesName _ _)
    · rw [Option.some.inj (hl.symm.trans hl')]

theorem raggedPayloadBytes_eq {name : Name} {bytes : Bytes} :
    raggedPayloadBytes name value sig = .ok bytes ↔ Tiles sig value ∧ bytes = payloadBytes sig value := by
  rw [raggedPayloadBytes, Tiles, payloadBytes]
  by_cases hwidth : sig.innerShape.prod = 0
  · rw [if_pos hwidth]
    constructor
    · intro h
      cases h
    · intro h
      exact absurd hwidth h.1.1
  · rw [if_neg hwidth]
    by_cases hmod : value.items.length % sig.innerShape.prod = 0
    · rw [if_neg (not_not.mpr hmod)]
      constructor
      · intro h
        exact ⟨⟨hwidth, hmod⟩, (Except.ok.inj h).symm⟩
      · intro h
        rw [h.2]
    · rw [if_pos hmod]
      constructor
      · intro h
        cases h
      · intro h
        exact absurd h.1.2 hmod

variable (sig value) in
/-- The words of a row are one to a payload row. -/
def WordsFit (words : Option (NdValues Nat)) : Prop :=
  ∀ w, words = some w → w.shape = [value.items.length / sig.innerShape.prod]

/-- What a row leaves in a sibling. -/
theorem companionBytes_eq {name : Name} {cell : Int} {row : Nat} {c : Companion} {b : Option Bytes} :
    companionBytes name sig cell value row c = .ok b ↔ WordsFit sig value (c.channel.getD row none) ∧
      b = if wordsBytes (c.channel.getD row none) = [] then none else some (wordsBytes (c.channel.getD row none)) := by
  rw [companionBytes]
  cases hwords : c.channel.getD row none with
  | none =>
    constructor
    · intro h
      cases h
      refine ⟨?_, rfl⟩
      intro w hw
      cases hw
    · intro h
      rw [h.2]
      rfl
  | some words =>
    dsimp only
    by_cases hshape : words.shape = [value.items.length / sig.innerShape.prod]
    · rw [if_neg (not_not.mpr hshape)]
      have hfit : WordsFit sig value (some words) := fun w hw => Option.some.inj hw ▸ hshape
      have hlen : words.items.length = value.items.length / sig.innerShape.prod := by
        rw [words.sized, hshape, List.prod_singleton]
      have hbytes : wordsBytes (some words) = [] ↔ value.items.length / sig.innerShape.prod = 0 := by
        have height : (wordsBytes (some words)).length = words.items.length * 8 := length_payloadBytes
        rw [← hlen, ← List.length_eq_zero_iff, height]
        omega
      simp only [hbytes]
      by_cases hzero : value.items.length / sig.innerShape.prod = 0
      · rw [if_pos hzero, if_pos hzero]
        exact ⟨fun h => ⟨hfit, (Except.ok.inj h).symm⟩, fun h => by rw [h.2]⟩
      · rw [if_neg hzero, if_neg hzero]
        have hok : raggedPayloadBytes c.sibling words wordSig = .ok (wordsBytes (some words)) :=
          raggedPayloadBytes_eq.mpr ⟨⟨Nat.one_ne_zero, Nat.mod_one _⟩, rfl⟩
        rw [hok]
        exact ⟨fun h => ⟨hfit, (Except.ok.inj h).symm⟩, fun h => by rw [h.2]; rfl⟩
    · rw [if_pos hshape]
      constructor
      · intro h
        cases h
      · intro h
        exact absurd (h.1 words rfl) hshape

theorem unravelIndex_eq {cell : Int} {pos : P} :
    unravelIndex shape cell = .ok pos ↔ (0 ≤ cell ∧ cell < size shape) ∧ pos = unravel shape cell.toNat := by
  rw [unravelIndex]
  split_ifs with hcell
  · exact ⟨fun h => ⟨hcell, (Except.ok.inj h).symm⟩, fun h => by rw [h.2]⟩
  · constructor
    · intro h
      cases h
    · intro h
      exact absurd h.1 hcell

/-- Cells of a chunk have places of their own. -/
theorem cell_inj {cell cell' : Int} {pos : P} (h : unravelIndex shape cell = .ok pos)
    (h' : unravelIndex shape cell' = .ok pos) : cell = cell' := by
  obtain ⟨hcell, hpos⟩ := unravelIndex_eq.mp h
  obtain ⟨hcell', hpos'⟩ := unravelIndex_eq.mp h'
  have hsame : cell.toNat = cell'.toNat := by
    have hk : cell.toNat < size shape := by omega
    have hk' : cell'.toNat < size shape := by omega
    rw [← BoxIndex.ravel_unravel hk, ← hpos, hpos', BoxIndex.ravel_unravel hk']
  omega

/-- The cells and payloads of an entry, and where they stand in its lists. -/
def rowsOf (e : Name × RaggedEntry ι) : List ((Int × NdValues ι) × Nat) :=
  ((raggedEntry e.2).cellIds.zip (raggedEntry e.2).values).zipIdx

theorem mem_rowsOf {row : (Int × NdValues ι) × Nat} : row ∈ rowsOf e ↔
    (raggedEntry e.2).cellIds[row.2]? = some row.1.1 ∧ (raggedEntry e.2).values[row.2]? = some row.1.2 := by
  rw [rowsOf, List.mem_zipIdx_iff_getElem?, List.getElem?_zip_eq_some]

/-- No two rows of an entry have the same cell. -/
theorem row_inj (hcells : (raggedEntry e.2).cellIds.Nodup) {row row' : (Int × NdValues ι) × Nat} {pos : P}
    (h : row ∈ rowsOf e) (h' : row' ∈ rowsOf e) (hpos : unravelIndex shape row.1.1 = .ok pos)
    (hpos' : unravelIndex shape row'.1.1 = .ok pos) : row = row' := by
  obtain ⟨hcell, hvalue⟩ := mem_rowsOf.mp h
  obtain ⟨hcell', hvalue'⟩ := mem_rowsOf.mp h'
  have hsame := cell_inj hpos hpos'
  have hlt : row.2 < (raggedEntry e.2).cellIds.length := (List.getElem?_eq_some_iff.mp hcell).1
  have hindex : row.2 = row'.2 := by
    apply (List.getElem?_inj hlt hcells).mp
    rw [hcell, hcell', hsame]
  rw [← hindex] at hvalue'
  exact Prod.ext (Prod.ext hsame (Option.some.inj (hvalue.symm.trans hvalue'))) hindex

variable (sigOf) in
/-- A row's words are one to a payload row, in every channel. -/
def RowFits (e : Name × RaggedEntry ι) (row : (Int × NdValues ι) × Nat) : Prop :=
  Tiles (sigOf e.1) row.1.2 ∧ ∀ c ∈ channelsOf e.1 (raggedEntry e.2),
    WordsFit (sigOf e.1) row.1.2 (c.channel.getD row.2 none)

variable (shape) (sigOf) in
/-- An entry whose lists, cells and words fit each other and the chunk. -/
structure Aligned (e : Name × RaggedEntry ι) : Prop where
  values : (raggedEntry e.2).values.length = (raggedEntry e.2).cellIds.length
  channels : ∀ c ∈ channelsOf e.1 (raggedEntry e.2), c.channel.length = (raggedEntry e.2).values.length
  cells : ∀ row ∈ rowsOf e, ∃ pos, unravelIndex shape row.1.1 = .ok pos
  rows : ∀ row ∈ rowsOf e, RowFits sigOf e row

variable (sigOf) in
/-- What a row assigns at its cell. -/
def IsWrite (e : Name × RaggedEntry ι) (row : (Int × NdValues ι) × Nat) (x : (Name × P) × Bytes) : Prop :=
  x.2 ≠ [] ∧ (x.1.1 = e.1 ∧ x.2 = payloadBytes (sigOf e.1) row.1.2 ∨
    ∃ c ∈ channelsOf e.1 (raggedEntry e.2), x.1.1 = c.sibling ∧ x.2 = wordsBytes (c.channel.getD row.2 none))

theorem rowWrites_spec {row : (Int × NdValues ι) × Nat} {ws : List ((Name × P) × Bytes)}
    (h : rowWrites shape sigOf e.1 (channelsOf e.1 (raggedEntry e.2)) row = .ok ws) :
    RowFits sigOf e row ∧ ∃ pos, unravelIndex shape row.1.1 = .ok pos ∧
      ∀ x, x ∈ ws ↔ x.1.2 = pos ∧ IsWrite sigOf e row x := by
  rw [rowWrites] at h
  obtain ⟨payload, hpayload, h⟩ := bind_ok h
  obtain ⟨pos, hpos, h⟩ := bind_ok h
  obtain ⟨found, hfound, rfl⟩ := map_ok h
  obtain ⟨htiles, rfl⟩ := raggedPayloadBytes_eq.mp hpayload
  have hbytes : ∀ c ∈ channelsOf e.1 (raggedEntry e.2),
      ∃ b, companionBytes e.1 (sigOf e.1) row.1.1 row.1.2 row.2 c = .ok b := by
    intro c hc
    obtain ⟨l, -, hl⟩ := ok_of_mapM hfound hc
    obtain ⟨b, hb, -⟩ := map_ok hl
    exact ⟨b, hb⟩
  refine ⟨⟨htiles, ?_⟩, pos, hpos, ?_⟩
  · intro c hc
    obtain ⟨b, hb⟩ := hbytes c hc
    exact (companionBytes_eq.mp hb).1
  · intro x
    have hcompanions : x ∈ found.flatten ↔ x.1.2 = pos ∧ x.2 ≠ [] ∧
        ∃ c ∈ channelsOf e.1 (raggedEntry e.2), x.1.1 = c.sibling ∧ x.2 = wordsBytes (c.channel.getD row.2 none) := by
      rw [mem_flatten_of_mapM hfound]
      constructor
      · intro hx
        obtain ⟨c, hc, l, hl, hmem⟩ := hx
        obtain ⟨b, hb, rfl⟩ := map_ok hl
        obtain ⟨-, rfl⟩ := companionBytes_eq.mp hb
        split_ifs at hmem with hempty
        · cases hmem
        · rw [Option.toList_some, List.map_singleton, List.mem_singleton] at hmem
          rw [hmem]
          exact ⟨rfl, hempty, c, hc, rfl, rfl⟩
      · intro hx
        obtain ⟨hplace, hne, c, hc, hname, hvalue⟩ := hx
        obtain ⟨b, hb⟩ := hbytes c hc
        have hsome := (companionBytes_eq.mp hb).2
        rw [if_neg (hvalue ▸ hne)] at hsome
        refine ⟨c, hc, [((c.sibling, pos), wordsBytes (c.channel.getD row.2 none))], ?_, ?_⟩
        · rw [companionWrites, hb, hsome]
          rfl
        · rw [List.mem_singleton]
          exact Prod.ext (Prod.ext hname hplace) hvalue
    have hown : x ∈ (if payloadBytes (sigOf e.1) row.1.2 = [] then []
        else [((e.1, pos), payloadBytes (sigOf e.1) row.1.2)]) ↔
          x.1.2 = pos ∧ x.2 ≠ [] ∧ x.1.1 = e.1 ∧ x.2 = payloadBytes (sigOf e.1) row.1.2 := by
      split_ifs with hempty
      · constructor
        · intro hx
          cases hx
        · intro hx
          exact absurd (hx.2.2.2.trans hempty) hx.2.1
      · rw [List.mem_singleton]
        constructor
        · intro hx
          rw [hx]
          exact ⟨rfl, hempty, rfl, rfl⟩
        · intro hx
          exact Prod.ext (Prod.ext hx.2.2.1 hx.1) hx.2.2.2
    rw [List.mem_append, hcompanions, hown, IsWrite, or_comm, ← and_or_left, ← and_or_left]

theorem exists_rowWrites {row : (Int × NdValues ι) × Nat} {pos : P} (hfits : RowFits sigOf e row)
    (hpos : unravelIndex shape row.1.1 = .ok pos) :
    ∃ ws, rowWrites shape sigOf e.1 (channelsOf e.1 (raggedEntry e.2)) row = .ok ws := by
  have hfound : ∃ found, (channelsOf e.1 (raggedEntry e.2)).mapM (companionWrites sigOf e.1 row pos) = .ok found := by
    apply exists_mapM
    intro c hc
    rw [companionWrites, companionBytes_eq.mpr ⟨hfits.2 c hc, rfl⟩]
    exact ⟨_, rfl⟩
  obtain ⟨found, hfound⟩ := hfound
  rw [rowWrites, raggedPayloadBytes_eq.mpr ⟨hfits.1, rfl⟩]
  show ∃ ws, (unravelIndex _ _).bind _ = _
  rw [hpos]
  show ∃ ws, Except.map _ (List.mapM (companionWrites sigOf e.1 row pos) _) = _
  rw [hfound]
  exact ⟨_, rfl⟩

theorem checkChannels_ok {n : Nat} {l companions : List Companion} (h : l.mapM (checkChannel n) = .ok companions) :
    companions = l ∧ ∀ c ∈ l, c.channel.length = n := by
  have hstep : ∀ c c', checkChannel n c = .ok c' → c' = c ∧ c.channel.length = n := by
    intro c c' hc
    rw [checkChannel] at hc
    split_ifs at hc with hlen
    exact ⟨(Except.ok.inj hc).symm, not_not.mp hlen⟩
  constructor
  · have hrel := forall₂_mapM h
    clear h
    induction hrel with
    | nil => rfl
    | cons hc _ ih => rw [ih, (hstep _ _ hc).1]
  · intro c hc
    obtain ⟨c', -, hok⟩ := ok_of_mapM h hc
    exact (hstep c c' hok).2

/-- An entry is accepted exactly when it is aligned, and assigns what its rows assign. -/
theorem entryWrites_spec (hres : e.1 ∉ chunkRes) {ws : List ((Name × P) × Bytes)}
    (h : entryWrites shape sigOf chunkRes e = .ok ws) : Aligned shape sigOf e ∧
      ∀ x, x ∈ ws ↔ ∃ row ∈ rowsOf e, unravelIndex shape row.1.1 = .ok x.1.2 ∧ IsWrite sigOf e row x := by
  rw [entryWrites, if_neg hres] at h
  dsimp only at h
  split_ifs at h with hlen
  obtain ⟨companions, hcompanions, h⟩ := bind_ok h
  obtain ⟨rfl, hchannels⟩ := checkChannels_ok hcompanions
  obtain ⟨wss, hwss, rfl⟩ := map_ok h
  refine ⟨⟨not_not.mp hlen, hchannels, ?_, ?_⟩, ?_⟩
  · intro row hrow
    obtain ⟨ws, -, hws⟩ := ok_of_mapM hwss hrow
    obtain ⟨-, pos, hpos, -⟩ := rowWrites_spec hws
    exact ⟨pos, hpos⟩
  · intro row hrow
    obtain ⟨ws, -, hws⟩ := ok_of_mapM hwss hrow
    exact (rowWrites_spec hws).1
  · intro x
    rw [mem_flatten_of_mapM hwss]
    constructor
    · intro hx
      obtain ⟨row, hrow, ws, hws, hmem⟩ := hx
      obtain ⟨-, pos, hpos, hiff⟩ := rowWrites_spec hws
      obtain ⟨hplace, hwrite⟩ := (hiff x).mp hmem
      exact ⟨row, hrow, hplace ▸ hpos, hwrite⟩
    · intro hx
      obtain ⟨row, hrow, hplace, hwrite⟩ := hx
      obtain ⟨ws, -, hws⟩ := ok_of_mapM hwss hrow
      obtain ⟨-, pos, hpos, hiff⟩ := rowWrites_spec hws
      cases hplace.symm.trans hpos
      exact ⟨row, hrow, ws, hws, (hiff x).mpr ⟨rfl, hwrite⟩⟩

theorem exists_entryWrites (h : e.1 ∉ chunkRes → Aligned shape sigOf e) :
    ∃ ws, entryWrites shape sigOf chunkRes e = .ok ws := by
  rw [entryWrites]
  by_cases hres : e.1 ∈ chunkRes
  · rw [if_pos hres]
    exact ⟨[], rfl⟩
  · have haligned := h hres
    have hchannels : (channelsOf e.1 (raggedEntry e.2)).mapM (checkChannel (raggedEntry e.2).values.length) =
        .ok ((channelsOf e.1 (raggedEntry e.2)).map id) := by
      apply mapM_ok
      intro c hc
      rw [checkChannel, if_neg (not_not.mpr (haligned.channels c hc))]
      rfl
    rw [List.map_id] at hchannels
    have hrows : ∃ wss, (rowsOf e).mapM (rowWrites shape sigOf e.1 (channelsOf e.1 (raggedEntry e.2))) = .ok wss := by
      apply exists_mapM
      intro row hrow
      obtain ⟨pos, hpos⟩ := haligned.cells row hrow
      exact exists_rowWrites (haligned.rows row hrow) hpos
    obtain ⟨wss, hwss⟩ := hrows
    rw [if_neg hres]
    dsimp only
    rw [if_neg (not_not.mpr haligned.values), hchannels]
    show ∃ ws, Except.map _ ((rowsOf e).mapM _) = _
    rw [hwss]
    exact ⟨_, rfl⟩

end Entries

section Chunks
variable {P S V ι : Type} [BoxIndex P] [DecidableEq P] (w : WriterGrid P S) (fields : Fields V ι)

/-- A chunk whose fields of one value have one, and whose entries are aligned. -/
structure Sound (r : ChunkResult P V ι) : Prop where
  columns : ∀ col ∈ r.carrier.columns, col.name ∈ fields.chunkRes →
    ∃ v, chunkUniformValue fields col.name col.rows = .ok v
  payloads : ∀ e ∈ r.ragged, e.1 ∈ fields.chunkRes → ∃ b, chunkPayload fields e.1 e.2 = .ok b
  entries : ∀ e ∈ r.ragged, e.1 ∉ fields.chunkRes → Aligned w.chunkShape fields.sigOf e

/-- The names of a chunk are keys, no sibling takes another's name, and no cell comes twice. -/
structure Named (r : ChunkResult P V ι) : Prop where
  columns : (r.carrier.columns.map Column.name).Nodup
  entries : (r.ragged.map Prod.fst).Nodup
  siblings : ∀ e ∈ r.ragged, ∀ c ∈ channelsOf e.1 (raggedEntry e.2), c.sibling ∉ r.ragged.map Prod.fst
  cells : ∀ e ∈ r.ragged, (raggedEntry e.2).cellIds.Nodup

variable {w} {fields} {r : ChunkResult P V ι}

omit [DecidableEq P] in
theorem accepted_iff : Accepted w fields r ↔ Sound w fields r := by
  constructor
  · intro h
    obtain ⟨vs, hvs⟩ := h.values
    obtain ⟨bs, hbs⟩ := h.payloads
    obtain ⟨ws, hws⟩ := h.cells
    obtain ⟨vss, hvss, -⟩ := map_ok hvs
    obtain ⟨bss, hbss, -⟩ := map_ok hbs
    obtain ⟨wss, hwss, -⟩ := map_ok hws
    constructor
    · intro col hcol hres
      obtain ⟨v, -, hv⟩ := ok_of_mapM hvss hcol
      rw [columnValue, if_neg (not_not.mpr hres)] at hv
      obtain ⟨v, hv, -⟩ := map_ok hv
      exact ⟨v, hv⟩
    · intro e he hres
      obtain ⟨b, -, hb⟩ := ok_of_mapM hbss he
      rw [entryPayload, if_neg (not_not.mpr hres)] at hb
      obtain ⟨b, hb, -⟩ := map_ok hb
      exact ⟨b, hb⟩
    · intro e he hres
      obtain ⟨ws, -, hws⟩ := ok_of_mapM hwss he
      exact (entryWrites_spec hres hws).1
  · intro h
    constructor
    · have hvss : ∃ vss, r.carrier.columns.mapM (columnValue fields) = .ok vss := by
        apply exists_mapM
        intro col hcol
        rw [columnValue]
        by_cases hres : col.name ∈ fields.chunkRes
        · obtain ⟨v, hv⟩ := h.columns col hcol hres
          rw [if_neg (not_not.mpr hres), hv]
          exact ⟨_, rfl⟩
        · rw [if_pos hres]
          exact ⟨_, rfl⟩
      obtain ⟨vss, hvss⟩ := hvss
      exact ⟨vss.flatten, by rw [companionValues, hvss]; rfl⟩
    · have hbss : ∃ bss, r.ragged.mapM (entryPayload fields) = .ok bss := by
        apply exists_mapM
        intro e he
        rw [entryPayload]
        by_cases hres : e.1 ∈ fields.chunkRes
        · obtain ⟨b, hb⟩ := h.payloads e he hres
          rw [if_neg (not_not.mpr hres), hb]
          exact ⟨_, rfl⟩
        · rw [if_pos hres]
          exact ⟨_, rfl⟩
      obtain ⟨bss, hbss⟩ := hbss
      exact ⟨bss.flatten, by rw [companionPayloads, hbss]; rfl⟩
    · have hwss : ∃ wss, r.ragged.mapM (entryWrites w.chunkShape fields.sigOf fields.chunkRes) = .ok wss :=
        exists_mapM fun e he => exists_entryWrites (h.entries e he)
      obtain ⟨wss, hwss⟩ := hwss
      exact ⟨wss.flatten, by rw [cellWrites, raggedWrites, hwss]; rfl⟩

omit [DecidableEq P] in
/-- The ragged assignments of a chunk are those of its rows. -/
theorem mem_cellWrites {ws : List ((Name × P) × Bytes)} (hws : cellWrites w fields r.ragged = .ok ws)
    {x : (Name × P) × Bytes} : x ∈ ws ↔ ∃ e ∈ r.ragged, e.1 ∉ fields.chunkRes ∧ ∃ row ∈ rowsOf e,
      unravelIndex w.chunkShape row.1.1 = .ok x.1.2 ∧ IsWrite fields.sigOf e row x := by
  obtain ⟨wss, hwss, rfl⟩ := map_ok hws
  rw [mem_flatten_of_mapM hwss]
  constructor
  · intro hx
    obtain ⟨e, he, ws, hok, hmem⟩ := hx
    by_cases hres : e.1 ∈ fields.chunkRes
    · rw [entryWrites, if_pos hres] at hok
      cases hok
      cases hmem
    · exact ⟨e, he, hres, ((entryWrites_spec hres hok).2 x).mp hmem⟩
  · intro hx
    obtain ⟨e, he, hres, hrow⟩ := hx
    obtain ⟨ws, -, hok⟩ := ok_of_mapM hwss he
    exact ⟨e, he, ws, hok, ((entryWrites_spec hres hok).2 x).mpr hrow⟩

omit [BoxIndex P] [DecidableEq P] in
theorem entry_inj (hnamed : Named r) {e e' : Name × RaggedEntry ι} (he : e ∈ r.ragged) (he' : e' ∈ r.ragged)
    (h : e.1 = e'.1) : e = e' := List.inj_on_of_nodup_map hnamed.entries he he' h

/-- A cell that one row only assigns holds what this row assigns. -/
theorem raggedCells_at (hsound : Sound w fields r) {e : Name × RaggedEntry ι} (he : e ∈ r.ragged)
    (hres : e.1 ∉ fields.chunkRes) {row : (Int × NdValues ι) × Nat} (hrow : row ∈ rowsOf e) {name : Name} {pos : P}
    (hpos : unravelIndex w.chunkShape row.1.1 = .ok pos) {bytes : Bytes}
    (hwrite : bytes ≠ [] → IsWrite fields.sigOf e row ((name, pos), bytes))
    (honly : ∀ e' ∈ r.ragged, ∀ row' ∈ rowsOf e', unravelIndex w.chunkShape row'.1.1 = .ok pos →
      ∀ bytes', IsWrite fields.sigOf e' row' ((name, pos), bytes') → bytes' = bytes) :
    raggedCells w fields r (name, pos) = bytes := by
  obtain ⟨ws, hws⟩ := (accepted_iff.mpr hsound).cells
  rw [raggedCells_eq hws]
  apply assignAll_eq
  · intro x hx hkey
    obtain ⟨e', he', -, row', hrow', hplace, hw⟩ := (mem_cellWrites hws).mp hx
    obtain ⟨key, bytes'⟩ := x
    cases hkey
    exact honly e' he' row' hrow' hplace bytes' hw
  · by_cases hempty : bytes = []
    · exact .inr hempty.symm
    · left
      refine ⟨((name, pos), bytes), ?_, rfl⟩
      exact (mem_cellWrites hws).mpr ⟨e, he, hres, row, hrow, hpos, hwrite hempty⟩

/-- A cell of a field holds its payload. -/
theorem raggedCells_payload (hsound : Sound w fields r) (hnamed : Named r) {e : Name × RaggedEntry ι}
    (he : e ∈ r.ragged) (hres : e.1 ∉ fields.chunkRes) {row : (Int × NdValues ι) × Nat} (hrow : row ∈ rowsOf e)
    {pos : P} (hpos : unravelIndex w.chunkShape row.1.1 = .ok pos) :
    raggedCells w fields r (e.1, pos) = payloadBytes (fields.sigOf e.1) row.1.2 := by
  apply raggedCells_at hsound he hres hrow hpos
  · intro hne
    exact ⟨hne, .inl ⟨rfl, rfl⟩⟩
  · intro e' he' row' hrow' hpos' bytes' hw
    cases hw.2 with
    | inl hown =>
      obtain ⟨hname, hbytes⟩ := hown
      cases entry_inj hnamed he he' hname
      cases row_inj (hnamed.cells e he) hrow hrow' hpos hpos'
      exact hbytes
    | inr hwords =>
      obtain ⟨c, hc, hname, -⟩ := hwords
      have hmem : c.sibling ∈ r.ragged.map Prod.fst := hname ▸ List.mem_map_of_mem he
      exact absurd hmem (hnamed.siblings e' he' c hc)

/-- A cell of a sibling holds the words of its own channel. -/
theorem raggedCells_words (hsound : Sound w fields r) (hnamed : Named r) {e : Name × RaggedEntry ι}
    (he : e ∈ r.ragged) (hres : e.1 ∉ fields.chunkRes) {row : (Int × NdValues ι) × Nat} (hrow : row ∈ rowsOf e)
    {pos : P} (hpos : unravelIndex w.chunkShape row.1.1 = .ok pos) {c : Companion}
    (hc : c ∈ channelsOf e.1 (raggedEntry e.2)) :
    raggedCells w fields r (c.sibling, pos) = wordsBytes (c.channel.getD row.2 none) := by
  apply raggedCells_at hsound he hres hrow hpos
  · intro hne
    exact ⟨hne, .inr ⟨c, hc, rfl, rfl⟩⟩
  · intro e' he' row' hrow' hpos' bytes' hw
    cases hw.2 with
    | inl hown =>
      obtain ⟨hname, -⟩ := hown
      have hname : c.sibling = e'.1 := hname
      exact absurd (hname ▸ List.mem_map_of_mem he') (hnamed.siblings e he c hc)
    | inr hwords =>
      obtain ⟨c', hc', hname, hbytes⟩ := hwords
      cases entry_inj hnamed he he' (sibling_inj hc hc' hname).1
      cases row_inj (hnamed.cells e he) hrow hrow' hpos hpos'
      cases companion_inj hc hc' hname
      exact hbytes

/-- Only cells of the entries hold anything. -/
theorem exists_row (hsound : Sound w fields r) {name : Name} {pos : P} (h : raggedCells w fields r (name, pos) ≠ []) :
    ∃ e ∈ r.ragged, e.1 ∉ fields.chunkRes ∧ ∃ row ∈ rowsOf e, unravelIndex w.chunkShape row.1.1 = .ok pos ∧
      (name = e.1 ∨ ∃ c ∈ channelsOf e.1 (raggedEntry e.2), name = c.sibling) := by
  obtain ⟨ws, hws⟩ := (accepted_iff.mpr hsound).cells
  rw [raggedCells_eq hws] at h
  have hmem : (name, pos) ∈ ws.map Prod.fst := by
    by_contra hnot
    exact h (assignAll_of_notMem hnot)
  obtain ⟨x, hx, hkey⟩ := List.mem_map.mp hmem
  obtain ⟨e, he, hres, row, hrow, hplace, hw⟩ := (mem_cellWrites hws).mp hx
  rw [hkey] at hplace
  refine ⟨e, he, hres, row, hrow, hplace, ?_⟩
  have hname : x.1.1 = name := congrArg Prod.fst hkey
  cases hw.2 with
  | inl hown => exact .inl (hname ▸ hown.1)
  | inr hwords =>
    obtain ⟨c, hc, hsibling, -⟩ := hwords
    exact .inr ⟨c, hc, hname ▸ hsibling⟩

omit [DecidableEq P] in
theorem mem_denseWrites {x : (Name × P) × V} : x ∈ denseWrites w fields r.carrier ↔
    ∃ col ∈ r.carrier.columns, col.name ∉ fields.chunkRes ∧ ∃ o, Inside o w.chunkShape ∧
      x = ((col.name, o), reshape w.chunkShape col.rows (fields.fill col.name) o) := by
  rw [denseWrites, List.mem_flatMap]
  have hcol : ∀ col : Column V, x ∈ columnWrites w fields col ↔ col.name ∉ fields.chunkRes ∧
      ∃ o, Inside o w.chunkShape ∧ x = ((col.name, o), reshape w.chunkShape col.rows (fields.fill col.name) o) := by
    intro col
    rw [columnWrites]
    split_ifs with hres
    · exact iff_of_false (fun h => by cases h) fun h => h.1 hres
    · rw [and_iff_right hres]
      constructor
      · intro hx
        obtain ⟨y, hy, rfl⟩ := List.mem_map.mp hx
        obtain ⟨k, hk, rfl⟩ := List.mem_map.mp hy
        refine ⟨_, BoxIndex.inside_unravel (List.mem_range.mp hk), ?_⟩
        dsimp only
        rw [zero_add]
      · intro hx
        obtain ⟨o, ho, rfl⟩ := hx
        have hmem : (0 + o, reshape w.chunkShape col.rows (fields.fill col.name) o) ∈
            blockWrites w.chunkShape 0 (reshape w.chunkShape col.rows (fields.fill col.name)) := mem_blockWrites 0 ho
        rw [zero_add] at hmem
        exact List.mem_map.mpr ⟨_, hmem, rfl⟩
  simp only [hcol]

/-- A cell of a column holds the row of its number. -/
theorem denseCells_eq (hfits : Fits w fields r) (hnamed : Named r) {col : Column V} (hcol : col ∈ r.carrier.columns)
    (hres : col.name ∉ fields.chunkRes) {o : P} (ho : Inside o w.chunkShape) :
    col.rows[ravel w.chunkShape o]? = some (denseCells w fields r (col.name, o)) := by
  have hcell : denseCells w fields r (col.name, o) = reshape w.chunkShape col.rows (fields.fill col.name) o := by
    apply assignAll_eq
    · intro x hx hkey
      obtain ⟨col', hcol', -, o', -, rfl⟩ := mem_denseWrites.mp hx
      obtain ⟨hname, rfl⟩ := Prod.mk.inj hkey
      cases List.inj_on_of_nodup_map hnamed.columns hcol' hcol hname
      rfl
    · left
      exact ⟨_, mem_denseWrites.mpr ⟨col, hcol, hres, o, ho, rfl⟩, rfl⟩
  have hlt : ravel w.chunkShape o < col.rows.length := by
    rw [r.carrier.sized col hcol, hfits.rows.resolve_left (List.ne_nil_of_mem hcol)]
    exact BoxIndex.ravel_lt ho
  rw [hcell, reshape, List.getD_eq_getElem?_getD, List.getElem?_eq_getElem hlt]
  rfl

/-- Only the columns of the cell grid hold anything. -/
theorem denseCells_fill {name : Name} {o : P}
    (h : ∀ col ∈ r.carrier.columns, col.name ∉ fields.chunkRes → col.name ≠ name) :
    denseCells w fields r (name, o) = fields.fill name := by
  apply assignAll_of_notMem
  intro hmem
  obtain ⟨x, hx, hkey⟩ := List.mem_map.mp hmem
  obtain ⟨col, hcol, hres, o', -, rfl⟩ := mem_denseWrites.mp hx
  exact h col hcol hres (congrArg Prod.fst hkey)

omit [BoxIndex P] [DecidableEq P] in
/-- A column of the chunk grid holds the one value of its rows. -/
theorem denseChunk_eq (hnamed : Named r) {vs : List (Name × V)} (hvs : companionValues fields r.carrier = .ok vs)
    {col : Column V} (hcol : col ∈ r.carrier.columns) (hres : col.name ∈ fields.chunkRes) :
    chunkUniformValue fields col.name col.rows = .ok (denseChunk fields r col.name) := by
  obtain ⟨vss, hvss, hflat⟩ := map_ok hvs
  have hvalue : ∀ (col' : Column V) (l : List (Name × V)) x, columnValue fields col' = .ok l → x ∈ l →
      x.1 = col'.name ∧ chunkUniformValue fields col'.name col'.rows = .ok x.2 := by
    intro col' l x hl hx
    rw [columnValue] at hl
    split_ifs at hl
    · obtain ⟨v, hv, rfl⟩ := map_ok hl
      rw [List.mem_singleton.mp hx]
      exact ⟨rfl, hv⟩
    · cases hl
      cases hx
  obtain ⟨l, -, hl⟩ := ok_of_mapM hvss hcol
  have hl' := hl
  rw [columnValue, if_neg (not_not.mpr hres)] at hl'
  obtain ⟨v, hv, rfl⟩ := map_ok hl'
  have hchunk : denseChunk fields r col.name = v := by
    rw [denseChunk, hvs]
    apply assignAll_eq
    · intro x hx hkey
      have hx : x ∈ vss.flatten := hflat ▸ hx
      obtain ⟨col', hcol', l', hl', hmem⟩ := (mem_flatten_of_mapM hvss).mp hx
      obtain ⟨hname, hok⟩ := hvalue col' l' x hl' hmem
      cases List.inj_on_of_nodup_map hnamed.columns hcol' hcol (hname.symm.trans hkey)
      exact Except.ok.inj (hok.symm.trans hv)
    · left
      refine ⟨(col.name, v), ?_, rfl⟩
      show (col.name, v) ∈ vs
      rw [← hflat]
      exact (mem_flatten_of_mapM hvss).mpr ⟨col, hcol, _, hl, .head _⟩
  rw [hv, hchunk]

omit [BoxIndex P] [DecidableEq P] in
/-- A ragged field of the chunk grid holds the bytes of its one payload, or none. -/
theorem raggedChunk_eq (hnamed : Named r) {bs : List (Name × Bytes)}
    (hbs : companionPayloads fields r.ragged = .ok bs) {e : Name × RaggedEntry ι} (he : e ∈ r.ragged)
    (hres : e.1 ∈ fields.chunkRes) :
    ∃ b, chunkPayload fields e.1 e.2 = .ok b ∧ raggedChunk fields r e.1 = b.getD [] := by
  obtain ⟨bss, hbss, hflat⟩ := map_ok hbs
  have hvalue : ∀ (e' : Name × RaggedEntry ι) (l : List (Name × Bytes)) x, entryPayload fields e' = .ok l → x ∈ l →
      x.1 = e'.1 ∧ chunkPayload fields e'.1 e'.2 = .ok (some x.2) := by
    intro e' l x hl hx
    rw [entryPayload] at hl
    split_ifs at hl
    · obtain ⟨b, hb, rfl⟩ := map_ok hl
      obtain ⟨bytes, hbytes, rfl⟩ := List.mem_map.mp hx
      rw [Option.mem_toList] at hbytes
      rw [hb, hbytes]
      exact ⟨rfl, rfl⟩
    · cases hl
      cases hx
  obtain ⟨l, -, hl⟩ := ok_of_mapM hbss he
  have hl' := hl
  rw [entryPayload, if_neg (not_not.mpr hres)] at hl'
  obtain ⟨b, hb, hlist⟩ := map_ok hl'
  refine ⟨b, hb, ?_⟩
  rw [raggedChunk, hbs]
  apply assignAll_eq
  · intro x hx hkey
    have hx : x ∈ bss.flatten := hflat ▸ hx
    obtain ⟨e', he', l', hl', hmem⟩ := (mem_flatten_of_mapM hbss).mp hx
    obtain ⟨hname, hok⟩ := hvalue e' l' x hl' hmem
    cases entry_inj hnamed he' he (hname.symm.trans hkey)
    rw [Except.ok.inj (hb.symm.trans hok)]
    rfl
  · cases b with
    | none => exact .inr rfl
    | some bytes =>
      left
      refine ⟨(e.1, bytes), ?_, rfl⟩
      show (e.1, bytes) ∈ bs
      rw [← hflat]
      exact (mem_flatten_of_mapM hbss).mpr ⟨e, he, _, hl, hlist ▸ .head _⟩

end Chunks

end Zagg.Processing.Write
