import Zagg.Hive.StandingRanges
import Zagg.Lib.Masks

/-!
# The coverage bitmap

The leaf sidecar is one bit for each cell of the shard's subtree at the cell order, in the
order of the packed words, packed eight to a byte and compressed. The encoder takes the
shard's own cells only; the decoder takes payloads of the subtree's exact size only.
-/
namespace Zagg.Hive

open Zagg.Lib
open Zagg.Catalog (Word unique mem_unique eq_unique)
open Zagg.Sweep (Decimal Base)

/-- The compressor; decoding raises on what it did not write. -/
structure Zstd where
  encode : List UInt8 → List UInt8
  decode : List UInt8 → Except PyError (List UInt8)

def Zstd.Lossless (z : Zstd) : Prop := ∀ raw, z.decode (z.encode raw) = .ok raw

/-- The bit of one cell: the base-4 value of its digits below the shard's. -/
def cellRank (shard : Text) (depth : Int) (dec : Text) : Except PyError Int :=
  let tail := dec.drop shard.length
  if shard.isPrefixOf dec ∧ (tail.length : Int) = depth then tail.foldlM rankStep 0
  else .error .valueError

def cellRanks (m : Mortie) (shard : Text) (cells : List Word) (cellOrder : Int) :
    Except PyError (List Int) := do
  let decs ← cells.mapM fun w => orValueError (m.decimalRepr w)
  decs.mapM (cellRank shard (cellOrder - decimalOrder shard))

/-- `bits[rank] = 1`; a negative index counts from the end. -/
def setBit (bits : List Bool) (rank : Int) : Except PyError (List Bool) :=
  let i := if rank < 0 then rank + bits.length else rank
  if 0 ≤ i ∧ i < bits.length then .ok (bits.set i.toNat true) else .error .indexError

def encodeCoverageBitmap (m : Mortie) (z : Zstd) (shardKey : Word) (occupied : List Word)
    (cellOrder : Int) : Except PyError (List UInt8) := do
  let shard ← orValueError (m.decimalRepr shardKey)
  let depth := cellOrder - decimalOrder shard
  if depth ≤ 0 then throw .valueError
  let ranks ← cellRanks m shard occupied cellOrder
  let bits ← ranks.foldlM setBit (List.replicate (4 ^ depth.toNat) false)
  return z.encode (packBits bits)

/-- The bytes of a bitmap; above the shard's order the power is a float below 1. -/
def expectedBytes (depth : Int) : Nat := if depth < 0 then 1 else (4 ^ depth.toNat + 7) / 8

/-- The cells whose bits are set. -/
def bitmapWords (m : Mortie) (shard : Text) (depth : Nat) (bits : List Bool) :
    Except PyError (List Word) := do
  let decimals := (flatnonzero bits).map fun rank : Nat => shard ++ rankTail rank depth
  let words ← decimals.mapM fun d => orValueError (m.decimalToWord d)
  return words.insertionSort (· ≤ ·)

def decodeCoverageBitmap (m : Mortie) (z : Zstd) (payload : List UInt8) (shardKey : Word)
    (cellOrder : Int) : Except PyError (List Word) := do
  let shard ← orValueError (m.decimalRepr shardKey)
  let depth := cellOrder - decimalOrder shard
  let raw ← z.decode payload
  if raw.length ≠ expectedBytes depth then throw .valueError
  -- the count of bits is a float here
  if depth < 0 then throw .typeError
  bitmapWords m shard depth.toNat (unpackBits raw (4 ^ depth.toNat))

/-! ## Bits -/

theorem setBit_ok {bits : List Bool} {rank : Nat} (h : rank < bits.length) :
    setBit bits rank = .ok (bits.set rank true) := by
  have hi : (if (rank : Int) < 0 then (rank : Int) + bits.length else rank) = rank := if_neg (by omega)
  rw [setBit, hi, if_pos (by omega), Int.toNat_natCast]

/-- A bit is set exactly if it was, or its rank is among the ones given. -/
theorem setBits_spec {ranks : List Nat} {bits : List Bool} (h : ∀ r ∈ ranks, r < bits.length) :
    ∃ bits', (ranks.map fun r : Nat => (r : Int)).foldlM setBit bits = .ok bits' ∧
      bits'.length = bits.length ∧
      ∀ i, bits'[i]? = some true ↔ bits[i]? = some true ∨ i ∈ ranks := by
  induction ranks generalizing bits with
  | nil => exact ⟨bits, rfl, rfl, fun i => by simp⟩
  | cons r ranks ih =>
    have hr := h r (.head _)
    have hrest : ∀ s ∈ ranks, s < (bits.set r true).length := by
      intro s hs
      rw [List.length_set]
      exact h s (.tail _ hs)
    obtain ⟨bits', hok, hlen, hmem⟩ := ih hrest
    refine ⟨bits', ?_, by rw [hlen, List.length_set], fun i => ?_⟩
    · rw [List.map_cons, List.foldlM_cons, setBit_ok hr]
      exact hok
    · rw [hmem, List.getElem?_set, List.mem_cons]
      by_cases hi : r = i
      · subst hi
        simp [hr]
      · have hne : ¬i = r := fun heq => hi heq.symm
        simp [hi, hne]

/-! ## Cells under a shard -/

variable {so co : Nat}

/-- The rank of a cell among those of its order under the shard. -/
def rankUnder (so : Nat) (c : Cell co) : Nat := Digits.rank (c.1.digits.drop so)

section
variable {shard : Cell so} {c : Cell co} (h : c.1.startsWith shard.1 = true)

include h

/-- A cell under the shard is the shard and the digits below it. -/
theorem under_extend : c.1 = shard.1.extend (c.1.digits.drop so) ∧
    (c.1.digits.drop so).length = co - so ∧ so ≤ co := by
  obtain ⟨t, ht⟩ := Decimal.startsWith_iff.mp h
  have hdrop : c.1.digits.drop so = t := by
    rw [ht]
    exact List.drop_left' shard.2
  have horder := c.2
  rw [ht, Decimal.order_extend, shard.2] at horder
  rw [hdrop]
  exact ⟨ht, by omega, by omega⟩

theorem under_chars : c.1.chars = shard.1.chars ++ (c.1.digits.drop so).map Decimal.digitChar := by
  obtain ⟨hext, -⟩ := under_extend h
  rw [chars_eq, chars_eq, List.append_assoc, ← List.map_append]
  have hbase := congrArg Decimal.base hext
  have hdigits := congrArg Decimal.digits hext
  rw [← show c.1.digits = shard.1.digits ++ c.1.digits.drop so from hdigits,
    show c.1.base = shard.1.base from hbase]

theorem rankUnder_lt : rankUnder so c < 4 ^ (co - so) := by
  have hlt := Digits.rank_lt (c.1.digits.drop so)
  rwa [(under_extend h).2.1] at hlt

theorem cellRank_under : cellRank shard.1.chars (co - so : Nat) c.1.chars = .ok (rankUnder so c) := by
  obtain ⟨-, hlen, -⟩ := under_extend h
  have hstarts : shard.1.chars.isPrefixOf c.1.chars = true := by
    rw [List.isPrefixOf_iff_prefix, under_chars h]
    exact List.prefix_append _ _
  have htail : c.1.chars.drop shard.1.chars.length = (c.1.digits.drop so).map Decimal.digitChar := by
    rw [under_chars h, List.drop_left]
  rw [cellRank, htail, List.length_map, hlen, if_pos ⟨hstarts, rfl⟩, foldlM_rankStep, Int.zero_mul,
    Int.zero_add, rankUnder]

/-- The decoder prints a cell back from its rank. -/
theorem chars_rankUnder : shard.1.chars ++ rankTail (rankUnder so c) (co - so) = c.1.chars := by
  obtain ⟨-, hlen, -⟩ := under_extend h
  have htail := rankTail_rank (c.1.digits.drop so)
  rw [hlen] at htail
  rw [rankUnder, htail, under_chars h]

theorem decimalRank_under :
    c.1.decimalRank = shard.1.decimalRank * 4 ^ (co - so) + rankUnder so c := by
  obtain ⟨hext, hlen, -⟩ := under_extend h
  have hdigits : c.1.digits = shard.1.digits ++ c.1.digits.drop so := congrArg Decimal.digits hext
  rw [Decimal.decimalRank, hdigits, Digits.rank_append, hlen]
  rfl

theorem base_under : c.1.base = shard.1.base := by
  have hbase := congrArg Decimal.base (under_extend h).1
  exact hbase

end

/-- Under one shard the words ascend with the ranks. -/
theorem word_lt_under {m : Mortie} (p : m.Packing co) {shard : Cell so} {c d : Cell co}
    (hc : c.1.startsWith shard.1 = true) (hd : d.1.startsWith shard.1 = true) :
    p.word c < p.word d ↔ rankUnder so c < rankUnder so d := by
  rw [p.word_lt, base_under hc, base_under hd, decimalRank_under hc, decimalRank_under hd]
  simp

theorem cell_eq_under {shard : Cell so} {c d : Cell co} (hc : c.1.startsWith shard.1 = true)
    (hd : d.1.startsWith shard.1 = true) (h : rankUnder so c = rankUnder so d) : c = d := by
  apply Cell.ext
  · rw [base_under hc, base_under hd]
  · rw [decimalRank_under hc, decimalRank_under hd, h]

theorem digitChar_inj : Function.Injective (Decimal.digitChar (n := 4)) := by
  unfold Function.Injective
  decide

/-- A decimal begins with another's exactly if its cell lies under the other's. -/
theorem chars_prefix {a d : Decimal} (h : a.chars <+: d.chars) : d.startsWith a = true := by
  obtain ⟨rest, hrest⟩ := h
  have hbase := congrArg decimalBase hrest
  rw [chars_eq a, List.append_assoc, decimalBase_append, decimalBase_chars, baseText_eq_iff] at hbase
  rw [chars_eq, chars_eq, hbase, List.append_assoc, List.append_cancel_left_eq] at hrest
  obtain ⟨l, t, hdigits, hl, -⟩ := List.map_eq_append_iff.mp hrest.symm
  obtain rfl := (List.map_injective_iff.mpr digitChar_inj) hl
  rw [Decimal.startsWith_iff]
  refine ⟨t, ?_⟩
  rw [Decimal.extend, ← hdigits]
  exact Decimal.mk.injEq .. ▸ ⟨hbase.symm, rfl⟩

/-- A cell outside the subtree or at another order has no bit. -/
theorem cellRank_foreign {shard : Cell so} {d : Decimal} (hlt : so < co)
    (h : ¬(d.order = co ∧ d.startsWith shard.1 = true)) :
    cellRank shard.1.chars (co - so : Nat) d.chars = .error .valueError := by
  rw [cellRank]
  apply if_neg
  rintro ⟨hstarts, hlen⟩
  have hunder := chars_prefix (List.isPrefixOf_iff_prefix.mp hstarts)
  obtain ⟨t, rfl⟩ := Decimal.startsWith_iff.mp hunder
  apply h
  refine ⟨?_, hunder⟩
  have hdrop : (shard.1.extend t).chars.drop shard.1.chars.length = t.map Decimal.digitChar := by
    rw [chars_eq, chars_eq, Decimal.extend, List.map_append, ← List.append_assoc, List.drop_left]
  rw [hdrop, List.length_map] at hlen
  rw [Decimal.order_extend, shard.2]
  omega

theorem cellRank_error {shard : Text} {depth : Int} {dec : Text} {err : PyError}
    (h : cellRank shard depth dec = .error err) : err = .valueError := by
  rw [cellRank] at h
  split_ifs at h
  · exact foldlM_rankStep_error h
  · exact (Except.error.inj h).symm

/-! ## Encoding and decoding -/

section
variable {m : Mortie} {z : Zstd} (ps : m.Packing so) (pc : m.Packing co) (hlt : so < co)
  (shard : Cell so)

include hlt

theorem depth_eq : (co : Int) - decimalOrder shard.1.chars = (co - so : Nat) := by
  rw [decimalOrder_chars, shard.2]
  omega

theorem cellRanks_under {cells : List (Cell co)}
    (h : ∀ c ∈ cells, c.1.startsWith shard.1 = true) :
    cellRanks m shard.1.chars (cells.map pc.word) co =
      .ok ((cells.map (rankUnder so)).map fun r : Nat => (r : Int)) := by
  have hdecs : (cells.map pc.word).mapM (fun w => orValueError (m.decimalRepr w)) =
      .ok (cells.map fun c => c.1.chars) := by
    rw [List.mapM_map]
    exact mapM_ok fun c _ => by rw [Function.comp_apply, pc.repr_word, orValueError]
  have hranks : (cells.map fun c => c.1.chars).mapM (cellRank shard.1.chars (co - so : Nat)) =
      .ok (cells.map fun c => (rankUnder so c : Int)) := by
    rw [List.mapM_map]
    exact mapM_ok fun c hc => cellRank_under (h c hc)
  rw [cellRanks, hdecs, depth_eq hlt, List.map_map]
  exact hranks

theorem encode_under {cells : List (Cell co)} (h : ∀ c ∈ cells, c.1.startsWith shard.1 = true) :
    ∃ bits, encodeCoverageBitmap m z (ps.word shard) (cells.map pc.word) co =
        .ok (z.encode (packBits bits)) ∧ bits.length = 4 ^ (co - so) ∧
      ∀ i, bits[i]? = some true ↔ ∃ c ∈ cells, rankUnder so c = i := by
  have hbound : ∀ r ∈ cells.map (rankUnder so), r < (List.replicate (4 ^ (co - so)) false).length := by
    intro r hr
    obtain ⟨c, hc, rfl⟩ := List.mem_map.mp hr
    rw [List.length_replicate]
    exact rankUnder_lt (h c hc)
  obtain ⟨bits, hok, hlen, hmem⟩ := setBits_spec hbound
  rw [List.length_replicate] at hlen
  refine ⟨bits, ?_, hlen, fun i => ?_⟩
  · have hpos : ¬((co - so : Nat) : Int) ≤ 0 := by omega
    rw [encodeCoverageBitmap, ps.repr_word]
    simp only [orValueError, bind, Except.bind, depth_eq hlt, if_neg hpos, pure, Except.pure,
      cellRanks_under pc hlt shard h, Int.toNat_natCast, hok]
  · rw [hmem, List.getElem?_replicate, List.mem_map]
    split_ifs <;> simp

theorem encode_foreign {occupied : List Word} {w : Word} {d : Decimal} (hw : w ∈ occupied)
    (hrepr : m.decimalRepr w = some d.chars) (h : ¬(d.order = co ∧ d.startsWith shard.1 = true)) :
    encodeCoverageBitmap m z (ps.word shard) occupied co = .error .valueError := by
  have hranks : cellRanks m shard.1.chars occupied co = .error .valueError := by
    rw [cellRanks, depth_eq hlt]
    cases hdecs : occupied.mapM fun w => orValueError (m.decimalRepr w) with
    | error err =>
      obtain ⟨w', -, herr⟩ := mapM_error hdecs
      rw [orValueError_error herr]
      rfl
    | ok decs =>
      obtain ⟨dec, hdec, hok⟩ := ok_of_mapM hdecs hw
      rw [hrepr] at hok
      obtain rfl := Except.ok.inj hok
      change decs.mapM (cellRank shard.1.chars (co - so : Nat)) = _
      cases hall : decs.mapM (cellRank shard.1.chars (co - so : Nat)) with
      | error err =>
        obtain ⟨dec', -, herr⟩ := mapM_error hall
        rw [cellRank_error herr]
      | ok ranks =>
        obtain ⟨r, -, hr⟩ := ok_of_mapM hall hdec
        exact nomatch (cellRank_foreign hlt h).symm.trans hr
  have hpos : ¬((co - so : Nat) : Int) ≤ 0 := by omega
  rw [encodeCoverageBitmap, ps.repr_word]
  simp only [orValueError, bind, Except.bind, depth_eq hlt, if_neg hpos, hranks]

/-- Past the test of its size a payload is read bit by bit. -/
theorem decode_eq {payload raw : List UInt8} (hraw : z.decode payload = .ok raw) :
    decodeCoverageBitmap m z payload (ps.word shard) co =
      if raw.length ≠ (4 ^ (co - so) + 7) / 8 then .error .valueError
      else bitmapWords m shard.1.chars (co - so) (unpackBits raw (4 ^ (co - so))) := by
  have hpos : ¬((co - so : Nat) : Int) < 0 := by omega
  rw [decodeCoverageBitmap, ps.repr_word]
  simp only [orValueError, bind, Except.bind, depth_eq hlt, expectedBytes, if_neg hpos, hraw,
    Int.toNat_natCast, throw, throwThe, MonadExceptOf.throw]

theorem decode_bits (hz : z.Lossless) {bits : List Bool} {cells : List (Cell co)}
    (h : ∀ c ∈ cells, c.1.startsWith shard.1 = true) (hlen : bits.length = 4 ^ (co - so))
    (hbits : ∀ i, bits[i]? = some true ↔ ∃ c ∈ cells, rankUnder so c = i) :
    decodeCoverageBitmap m z (z.encode (packBits bits)) (ps.word shard) co =
      .ok (unique (cells.map pc.word)) := by
  -- the set bits are the ranks of cells of the list, in increasing order
  have hrange : flatnonzero bits ∈ Set.range (List.map fun c : { c // c ∈ cells } => rankUnder so c.1) := by
    rw [Set.range_list_map]
    intro i hi
    obtain ⟨c, hc, hrank⟩ := (hbits i).mp (mem_flatnonzero.mp hi)
    exact ⟨⟨c, hc⟩, hrank⟩
  obtain ⟨sorted, hsorted⟩ := hrange
  have hunder : ∀ c : { c // c ∈ cells }, c.1.1.startsWith shard.1 = true := fun c => h c.1 c.2
  have hwords : ((flatnonzero bits).map fun rank : Nat => shard.1.chars ++ rankTail rank (co - so)).mapM
      (fun d => orValueError (m.decimalToWord d)) = .ok (sorted.map fun c => pc.word c.1) := by
    rw [← hsorted, List.map_map, List.mapM_map]
    exact mapM_ok fun c _ => by
      rw [Function.comp_apply, Function.comp_apply, chars_rankUnder (hunder c), pc.word_repr, orValueError]
  have hincreasing : (sorted.map fun c => pc.word c.1).Pairwise (· < ·) := by
    have hpair := pairwise_flatnonzero bits
    rw [← hsorted, List.pairwise_map] at hpair
    exact List.pairwise_map.mpr (hpair.imp fun {c d} hcd =>
      (word_lt_under pc (hunder c) (hunder d)).mpr hcd)
  have hmem : ∀ w, w ∈ (sorted.map fun c => pc.word c.1) ↔ w ∈ cells.map pc.word := by
    intro w
    rw [List.mem_map, List.mem_map]
    constructor
    · rintro ⟨c, -, rfl⟩
      exact ⟨c.1, c.2, rfl⟩
    · rintro ⟨c, hc, rfl⟩
      have hrank : rankUnder so c ∈ flatnonzero bits :=
        mem_flatnonzero.mpr ((hbits _).mpr ⟨c, hc, rfl⟩)
      rw [← hsorted, List.mem_map] at hrank
      obtain ⟨d, hd, heq⟩ := hrank
      exact ⟨d, hd, by rw [cell_eq_under (hunder d) (h c hc) heq]⟩
  have hsort : (sorted.map fun c => pc.word c.1).insertionSort (· ≤ ·) =
      sorted.map fun c => pc.word c.1 :=
    (hincreasing.imp fun hab => Nat.le_of_lt hab).insertionSort_eq
  have hsize : (packBits bits).length = (4 ^ (co - so) + 7) / 8 := by rw [length_packBits, hlen]
  have hunpack := unpackBits_packBits bits
  rw [hlen] at hunpack
  rw [decode_eq ps hlt shard (hz _), if_neg (not_not.mpr hsize), hunpack, bitmapWords]
  simp only [hwords, bind, Except.bind, pure, Except.pure]
  rw [hsort, eq_unique hincreasing hmem]

end

/-- The bitmap of a shard's cells decodes to them, sorted and once each; a cell of another
subtree or order is refused, and so is a payload of another size. -/
theorem coverage_bitmap_round_trip {m : Mortie} {z : Zstd} (hz : z.Lossless) (ps : m.Packing so)
    (pc : m.Packing co) (hlt : so < co) (shard : Cell so) :
    (∀ cells : List (Cell co), (∀ c ∈ cells, c.1.startsWith shard.1 = true) →
      ∃ payload, encodeCoverageBitmap m z (ps.word shard) (cells.map pc.word) co = .ok payload ∧
        decodeCoverageBitmap m z payload (ps.word shard) co = .ok (unique (cells.map pc.word))) ∧
    (∀ occupied w (d : Decimal), w ∈ occupied → m.decimalRepr w = some d.chars →
      ¬(d.order = co ∧ d.startsWith shard.1 = true) →
      encodeCoverageBitmap m z (ps.word shard) occupied co = .error .valueError) ∧
    ∀ payload raw, z.decode payload = .ok raw → raw.length ≠ (4 ^ (co - so) + 7) / 8 →
      decodeCoverageBitmap m z payload (ps.word shard) co = .error .valueError := by
  refine ⟨fun cells hcells => ?_, fun occupied w d hw hrepr hforeign => ?_, fun payload raw hraw hsize => ?_⟩
  · obtain ⟨bits, hencode, hlen, hbits⟩ := encode_under ps pc hlt shard (z := z) hcells
    exact ⟨_, hencode, decode_bits ps pc hlt shard hz hcells hlen hbits⟩
  · exact encode_foreign ps hlt shard hw hrepr hforeign
  · rw [decode_eq ps hlt shard hraw, if_pos hsize]

/-- Uncompressed frames behind the magic number. -/
def storedZstd : Zstd where
  encode raw := [0x28, 0xb5, 0x2f, 0xfd] ++ raw
  decode payload :=
    if payload.take 4 = [0x28, 0xb5, 0x2f, 0xfd] then .ok (payload.drop 4) else .error .valueError

theorem storedZstd_lossless : storedZstd.Lossless := fun _ => rfl

/-- The first and the last cell of a southern shard. -/
theorem coverage_bitmap_round_trip_corners :
    ∃ payload, encodeCoverageBitmap packedMortie storedZstd
        ((packing (by decide : 1 ≤ 27)).word ⟨⟨⟨true, 0⟩, [2]⟩, rfl⟩)
        ([⟨⟨⟨true, 0⟩, [2, 3]⟩, rfl⟩, ⟨⟨⟨true, 0⟩, [2, 0]⟩, rfl⟩].map
          (packing (by decide : 2 ≤ 27)).word) 2 = .ok payload ∧
      decodeCoverageBitmap packedMortie storedZstd payload
        ((packing (by decide : 1 ≤ 27)).word ⟨⟨⟨true, 0⟩, [2]⟩, rfl⟩) 2 =
        .ok (unique ([⟨⟨⟨true, 0⟩, [2, 3]⟩, rfl⟩, ⟨⟨⟨true, 0⟩, [2, 0]⟩, rfl⟩].map
          (packing (by decide : 2 ≤ 27)).word)) :=
  (coverage_bitmap_round_trip storedZstd_lossless (packing (by decide)) (packing (by decide))
    (by decide) ⟨⟨⟨true, 0⟩, [2]⟩, rfl⟩).1 [⟨⟨⟨true, 0⟩, [2, 3]⟩, rfl⟩, ⟨⟨⟨true, 0⟩, [2, 0]⟩, rfl⟩]
    (by decide)

end Zagg.Hive
