import Zagg.Hive.CoverQuantize
import Zagg.Hive.SectionMerge
import Zagg.Lib.JsonEq

/-!
# Merging covers

Two well-formed covers compose to a well-formed one that covers what either does, within
the cap; its blocks are coarser than both sides', which makes the incoming side a fixed
point of the composition.
-/
namespace Zagg.Hive

open Zagg.Lib
open Zagg.Catalog (Word)

variable {g : Toc} {shardsA shardsB : Fields} {pinA pinB : Int} {decimal : String}
  {side r : List Word × Int}

/-- A side's block of a shard, read against the side's pin. -/
def Listed (shards : Fields) (pin : Int) (decimal : String) (side : List Word × Int) : Prop :=
  ∃ block, shards.lookup decimal = some block ∧ decodeCoverBlock block pin = .ok side

/-- Every block decodes, to words quantized at the order it records. -/
def BlocksWf (g : Toc) (shards : Fields) (pin : Int) : Prop :=
  ∀ decimal block, shards.lookup decimal = some block →
    ∃ side, decodeCoverBlock block pin = .ok side ∧ Quantized g side.2 side.1

/-- The cover `r` keeps every instant of `side`, at an order no finer. -/
structure TakesIn (g : Toc) (r side : List Word × Int) : Prop where
  coarser : r.2 ≤ side.2
  covers : ∀ t, g.Covered side.1 t → g.Covered r.1 t

theorem TakesIn.refl (r : List Word × Int) : TakesIn g r r := ⟨le_rfl, fun _ ht => ht⟩

theorem TakesIn.trans {r' : List Word × Int} (h : TakesIn g r r') (h' : TakesIn g r' side) :
    TakesIn g r side := ⟨h.coarser.trans h'.coarser, fun t ht => h.covers t (h'.covers t ht)⟩

theorem Listed.unique {shards : Fields} {pin : Int} {side' : List Word × Int}
    (h : Listed shards pin decimal side) (h' : Listed shards pin decimal side') : side = side' := by
  obtain ⟨block, hlook, hdec⟩ := h
  obtain ⟨block', hlook', hdec'⟩ := h'
  cases hlook.symm.trans hlook'
  exact Except.ok.inj (hdec.symm.trans hdec')

/-- A decoded block's order stays at or below the pin. -/
theorem order_le_pin {block : Json} {pin : Int} (h : decodeCoverBlock block pin = .ok side) :
    side.2 ≤ pin := by
  cases block with
  | obj fields =>
    rw [decodeCoverBlock] at h
    obtain ⟨value, -, h⟩ := bind_ok h
    obtain ⟨words, -, h⟩ := bind_ok h
    split_ifs at h
    obtain ⟨order, -, h⟩ := bind_ok h
    split_ifs at h with hgt
    cases h
    exact Int.not_lt.mp hgt
  | _ => cases h

theorem decodeWords_encode {ws : List Word} (h : ∀ w ∈ ws, w < 2 ^ 64) :
    decodeWords (.str (encodeWords ws)) = .ok ws := by
  have hbytes : ∀ x ∈ ws.flatMap Base64.wordBytes, x < 256 := by
    intro x hx
    obtain ⟨w, -, hx⟩ := List.mem_flatMap.mp hx
    exact Base64.wordBytes_lt hx
  have hascii : (Base64.encode (ws.flatMap Base64.wordBytes)).all (fun ch => ch.toNat < 128) = true :=
    List.all_eq_true.mpr fun ch hch => decide_eq_true (Base64.encode_ascii hbytes ch hch)
  rw [decodeWords, encodeWords, String.toList_ofList, if_pos hascii, Base64.decode_words h]

theorem decodeCoverBlock_encode (hg : g.Lawful) {pin : Int} (hr : Quantized g r.2 r.1) (hpin : r.2 ≤ pin) :
    decodeCoverBlock (encodeCoverBlock r.1 r.2 pin) pin = .ok r := by
  have hwords := decodeWords_encode (hr.word_lt hg)
  have hcount : (Json.num r.1.length).pyEq (.num r.1.length) = true :=
    (Json.pyEq_of_number rfl).mpr rfl
  rw [encodeCoverBlock, decodeCoverBlock]
  by_cases hcoarse : r.2 = pin
  · simp [hcoarse, Json.item, Json.field, getDefault, hwords, hcount, Json.toInt_num, bind, Except.bind,
      pure, Except.pure, List.lookup_cons, List.lookup_nil]
    rw [← hcoarse]
  · simp [hcoarse, Json.item, Json.field, getDefault, hwords, hcount, Json.toInt_num, bind, Except.bind,
      pure, Except.pure, List.lookup_cons, Int.not_lt.mpr hpin]

theorem mergeCoverShard_of_sides {sides : List (List Word × Int)} {joined : List Word × Int}
    (hsides : coverSides shardsA shardsB pinA pinB decimal = .ok sides)
    (hjoined : joinSides g sides = .ok joined) (hcap : capCover g joined.1 joined.2 = .ok r) :
    mergeCoverShard g shardsA shardsB pinA pinB decimal =
      .ok (decimal, encodeCoverBlock r.1 r.2 (max pinA pinB)) := by
  rw [mergeCoverShard, hsides]
  simp only [bind, Except.bind, hjoined]
  rw [hcap]
  rfl

section Shard
variable (hg : g.Lawful) (ha : BlocksWf g shardsA pinA) (hb : BlocksWf g shardsB pinB)
include hg ha hb

/-- The sides of a listed shard, and their union at the coarser order. -/
theorem exists_joinSides
    (hkey : decimal ∈ shardsA.map Prod.fst ∨ decimal ∈ shardsB.map Prod.fst) :
    ∃ sides joined, coverSides shardsA shardsB pinA pinB decimal = .ok sides ∧
      joinSides g sides = .ok joined ∧ Quantized g joined.2 joined.1 ∧
      (∀ side, Listed shardsA pinA decimal side → TakesIn g joined side) ∧
      ∀ side, Listed shardsB pinB decimal side → TakesIn g joined side := by
  cases hla : shardsA.lookup decimal with
  | some blockA =>
    obtain ⟨sideA, hdecA, hqA⟩ := ha decimal blockA hla
    cases hlb : shardsB.lookup decimal with
    | some blockB =>
      obtain ⟨sideB, hdecB, hqB⟩ := hb decimal blockB hlb
      have hrange : 0 ≤ min sideA.2 sideB.2 ∧ min sideA.2 sideB.2 ≤ 31 := by
        have hA := (quantized_iff.mp hqA).1
        have hB := (quantized_iff.mp hqB).1
        omega
      obtain ⟨r, hr, hqr, hsub⟩ := exists_quantizeWords hg
        ((hqA.encodable hg).append (hqB.encodable hg)) hrange
      refine ⟨[sideA, sideB], (r, min sideA.2 sideB.2), ?_, ?_, hqr, ?_, ?_⟩
      · simp [coverSides, hla, hlb, hdecA, hdecB, Except.map, bind, Except.bind, pure, Except.pure]
      · simp [joinSides, hr, bind, Except.bind, pure, Except.pure]
      · intro side hside
        obtain rfl := hside.unique ⟨blockA, hla, hdecA⟩
        exact ⟨min_le_left _ _, fun t ht => hsub t (Toc.covered_append.mpr (.inl ht))⟩
      · intro side hside
        obtain rfl := hside.unique ⟨blockB, hlb, hdecB⟩
        exact ⟨min_le_right _ _, fun t ht => hsub t (Toc.covered_append.mpr (.inr ht))⟩
    | none =>
      refine ⟨[sideA], sideA, ?_, rfl, hqA, ?_, ?_⟩
      · simp [coverSides, hla, hlb, hdecA, Except.map, bind, Except.bind, pure, Except.pure]
      · intro side hside
        obtain rfl := hside.unique ⟨blockA, hla, hdecA⟩
        exact .refl side
      · intro side ⟨block, hblock, _⟩
        exact nomatch hlb.symm.trans hblock
  | none =>
    have hnotA := lookup_eq_none.mp hla
    obtain ⟨blockB, hlb⟩ : ∃ block, shardsB.lookup decimal = some block := by
      rw [← Option.ne_none_iff_exists']
      exact fun hlb => lookup_eq_none.mp hlb (hkey.resolve_left hnotA)
    obtain ⟨sideB, hdecB, hqB⟩ := hb decimal blockB hlb
    refine ⟨[sideB], sideB, ?_, rfl, hqB, ?_, ?_⟩
    · simp [coverSides, hla, hlb, hdecB, Except.map, bind, Except.bind, pure, Except.pure]
    · intro side ⟨block, hblock, _⟩
      exact nomatch hla.symm.trans hblock
    · intro side hside
      obtain rfl := hside.unique ⟨blockB, hlb, hdecB⟩
      exact .refl side

theorem exists_mergeCoverShard
    (hkey : decimal ∈ shardsA.map Prod.fst ∨ decimal ∈ shardsB.map Prod.fst) :
    ∃ r : List Word × Int, mergeCoverShard g shardsA shardsB pinA pinB decimal =
        .ok (decimal, encodeCoverBlock r.1 r.2 (max pinA pinB)) ∧
      Quantized g r.2 r.1 ∧ r.1.length ≤ coverCap ∧
      (∀ side, Listed shardsA pinA decimal side → TakesIn g r side) ∧
      ∀ side, Listed shardsB pinB decimal side → TakesIn g r side := by
  obtain ⟨sides, joined, hsides, hjoined, hquant, hA, hB⟩ := exists_joinSides hg ha hb hkey
  have hpos := (quantized_iff.mp hquant).1
  obtain ⟨r, order', hr, hqr, hle, hlen, hsub⟩ := exists_capFrom hg (by decide : 1 ≤ coverCap)
    joined.2.toNat hquant (by omega)
  have hin : TakesIn g (r, order') joined := ⟨hle, hsub⟩
  refine ⟨(r, order'), mergeCoverShard_of_sides hsides hjoined hr, hqr, hlen, ?_, ?_⟩
  · exact fun side hside => hin.trans (hA side hside)
  · exact fun side hside => hin.trans (hB side hside)

end Shard

/-- A capped block that has taken the incoming side in is merged with it unchanged. -/
theorem mergeCoverShard_fixed (hg : g.Lawful) (hlist : Listed shardsA pinA decimal r)
    (hb : BlocksWf g shardsB pinB) (hr : Quantized g r.2 r.1) (hlen : r.1.length ≤ coverCap)
    (hin : ∀ side, Listed shardsB pinB decimal side → TakesIn g r side) :
    mergeCoverShard g shardsA shardsB pinA pinB decimal =
      .ok (decimal, encodeCoverBlock r.1 r.2 (max pinA pinB)) := by
  obtain ⟨blockA, hla, hdecA⟩ := hlist
  have hcap : capCover g r.1 r.2 = .ok r := capFrom_of_le _ hlen
  cases hlb : shardsB.lookup decimal with
  | none =>
    have hsides : coverSides shardsA shardsB pinA pinB decimal = .ok [r] := by
      simp [coverSides, hla, hlb, hdecA, Except.map, bind, Except.bind, pure, Except.pure]
    exact mergeCoverShard_of_sides hsides rfl hcap
  | some blockB =>
    obtain ⟨side, hdecB, hqB⟩ := hb decimal blockB hlb
    have htakes := hin side ⟨blockB, hlb, hdecB⟩
    have habsorb := hr.absorb hg (hqB.encodable hg) htakes.covers
    have hsides : coverSides shardsA shardsB pinA pinB decimal = .ok [r, side] := by
      simp [coverSides, hla, hlb, hdecA, hdecB, Except.map, bind, Except.bind, pure, Except.pure]
    have hjoined : joinSides g [r, side] = .ok r := by
      simp [joinSides, min_eq_left htakes.coarser, habsorb, bind, Except.bind, pure, Except.pure]
    exact mergeCoverShard_of_sides hsides hjoined hcap

end Zagg.Hive
