import Mathlib.Data.Prod.Lex
import Zagg.Lib.SortedSet
import Zagg.Lib.Json
import Zagg.Lib.Pointwise
import Zagg.Windows.Labels

/-!
# The union of time ranges

The root summary caches the least start and the greatest end of the ranges of its leaves. An
entry is unpacked, its start is read and kept, and then its end: what fails on the way is
dropped with a warning, but a start that was kept stays. The canonical text of an instant reads
back as the instant to the second, so a union takes part in the next one.
-/
namespace Zagg.Windows

open Zagg.Lib Zagg.Lib.DecimalText

namespace Instant

/-- A number in the order of the instants. -/
def ticks (t : Instant) : Nat := t.date.rank * 86400000000 + t.time

theorem ticks_injective : Function.Injective ticks := by
  intro a b h
  have ha := a.inDay
  have hb := b.inDay
  simp only [ticks] at h
  obtain ⟨da, ta, _⟩ := a
  obtain ⟨db, tb, _⟩ := b
  dsimp only at h ha hb
  obtain rfl : ta = tb := by omega
  obtain rfl : da = db := Date.rank_inj (by omega)
  rfl

instance : LinearOrder Instant := LinearOrder.lift' ticks ticks_injective

theorem le_iff {a b : Instant} : a ≤ b ↔ a.ticks ≤ b.ticks := Iff.rfl

/-- The whole second an instant lies in. -/
def second (t : Instant) : Instant :=
  ⟨t.date, t.time - t.time % 1000000, (Nat.sub_le _ _).trans_lt t.inDay⟩

theorem second_monotone : Monotone second := by
  intro a b h
  have ha := a.inDay
  have hb := b.inDay
  rw [le_iff] at h ⊢
  simp only [ticks, second] at h ⊢
  omega

theorem second_second (t : Instant) : t.second.second = t.second := by
  apply ticks_injective
  simp only [ticks, second]
  omega

/-- The instant of a day at a time of the day. -/
def onDay (d : Date) (t : Int) : Instant := ⟨d, (t % 86400000000).toNat, by omega⟩

end Instant

/-- What `datetime.fromisoformat` reads: the wall clock, and its offset from UTC if it has one. -/
structure Stamp where
  wall : Instant
  offset : Option Int

/-- `parse_utc` of a `datetime`: a naive one is UTC, and an aware one is converted. -/
def Stamp.utc (s : Stamp) : Except PyError Instant :=
  match s.offset with
  | none => .ok s.wall
  | some offset =>
    let t := (s.wall.time : Int) - offset
    let date := if t < 0 then s.wall.date.prevDay
      else if t < 86400000000 then some s.wall.date else s.wall.date.nextDay
    match date with
    | none => .error .overflowError
    | some d => .ok (.onDay d t)

/-- The offset of UTC. -/
def zeroOffset : List Char := ['+', '0', '0', ':', '0', '0']

/-- `%Y-%m-%dT%H:%M:%S+00:00`. -/
def isoChars (t : Instant) : List Char :=
  padded 4 t.date.year ++ '-' :: (padded 2 t.date.month ++ '-' :: (padded 2 t.date.day ++
    'T' :: (padded 2 (t.time / 3600000000) ++ ':' :: (padded 2 (t.time / 60000000 % 60) ++
      ':' :: (padded 2 (t.time / 1000000 % 60) ++ zeroOffset)))))

/-- `iso_utc`. -/
def isoUtc (t : Instant) : String := String.ofList (isoChars t)

/-- `text.replace("Z", "+00:00")`. -/
def replaceZulu (text : String) : String :=
  String.ofList (text.toList.flatMap fun ch => if ch = 'Z' then zeroOffset else [ch])

section Code
variable (str : Json → String) (fromisoformat : String → Option Stamp)

/-- `parse_utc`. -/
def parseUtc (value : Json) : Except PyError Instant :=
  match fromisoformat (replaceZulu (str value)) with
  | none => .error .valueError
  | some stamp => stamp.utc

/-- The two lists of `union_time_range`. -/
structure Endpoints where
  starts : List Instant
  ends : List Instant

/-- `except (TypeError, ValueError)`: the entry is dropped, what it appended stays. -/
def dropEntry (s : Endpoints) (e : PyError) : Except PyError Endpoints :=
  if e = .typeError ∨ e = .valueError then .ok s else .error e

/-- One round of the loop. -/
def addEntry (s : Endpoints) (r : Json) : Except PyError Endpoints :=
  match r with
  | .null => .ok s
  | r =>
    match r.pair with
    | .error e => dropEntry s e
    | .ok (lo, hi) =>
      match parseUtc str fromisoformat lo with
      | .error e => dropEntry s e
      | .ok start =>
        let s := { s with starts := s.starts ++ [start] }
        match parseUtc str fromisoformat hi with
        | .error e => dropEntry s e
        | .ok stop => .ok { s with ends := s.ends ++ [stop] }

/-- A range as it is stored. -/
def rangeJson (range : Instant × Instant) : Json :=
  .arr [.str (isoUtc range.1), .str (isoUtc range.2)]

/-- `min` or `max` of an empty list is a `ValueError`. -/
def unionTimeRange (ranges : List Json) : Except PyError Json := do
  let s ← ranges.foldlM (addEntry str fromisoformat) ⟨[], []⟩
  if s.starts = [] then return .null
  match s.starts.min?, s.ends.max? with
  | some start, some stop => return rangeJson (start, stop)
  | _, _ => throw .valueError

end Code

section Texts

theorem isoUtc_second (t : Instant) : isoUtc t.second = isoUtc t := by
  have h1 : (t.time - t.time % 1000000) / 3600000000 = t.time / 3600000000 := by omega
  have h2 : (t.time - t.time % 1000000) / 60000000 = t.time / 60000000 := by omega
  have h3 : (t.time - t.time % 1000000) / 1000000 = t.time / 1000000 := by omega
  rw [isoUtc, isoUtc, isoChars, isoChars]
  simp only [Instant.second, h1, h2, h3]

theorem padded_ne_zulu {width n : Nat} {ch : Char} (h : ch ∈ padded width n) : ch ≠ 'Z' := by
  obtain ⟨ds, hds, -⟩ := exists_pyStr n
  have hdigit : isAsciiDigit ch = true := by
    rw [padded, hds] at h
    rcases List.mem_append.mp h with h | h
    · rw [List.eq_of_mem_replicate h]
      decide
    · obtain ⟨d, -, rfl⟩ := List.mem_map.mp h
      exact isAsciiDigit_digitChar d
  rintro rfl
  exact absurd hdigit (by decide)

theorem replaceZulu_ofList {text : List Char} (h : ∀ ch ∈ text, ch ≠ 'Z') :
    replaceZulu (String.ofList text) = String.ofList text := by
  rw [replaceZulu, String.toList_ofList]
  congr 1
  induction text with
  | nil => rfl
  | cons ch text ih =>
    rw [List.flatMap_cons, if_neg (h ch (.head _)), ih fun ch hch => h ch (.tail _ hch)]
    rfl

/-- The canonical text has no `Z`. -/
theorem replaceZulu_isoUtc (t : Instant) : replaceZulu (isoUtc t) = isoUtc t := by
  apply replaceZulu_ofList
  rw [isoChars]
  simp only [List.forall_mem_append, List.forall_mem_cons]
  have hpadded : ∀ width n, ∀ ch ∈ padded width n, ch ≠ 'Z' := fun _ _ _ => padded_ne_zulu
  have hoffset : ∀ ch ∈ zeroOffset, ch ≠ 'Z' := by simp [zeroOffset]
  exact ⟨hpadded _ _, by decide, hpadded _ _, by decide, hpadded _ _, by decide, hpadded _ _, by decide,
    hpadded _ _, by decide, hpadded _ _, hoffset⟩

end Texts

/-- What the code relies on: a text is its own `str`, and `fromisoformat` inverts `isoformat`. -/
structure Reads (str : Json → String) (fromisoformat : String → Option Stamp) : Prop where
  text : ∀ s, str (.str s) = s
  iso : ∀ t : Instant, ∃ stamp, fromisoformat (isoUtc t) = some stamp ∧ stamp.utc = .ok t.second

section Entries
variable (str : Json → String) (fromisoformat : String → Option Stamp)

/-- A well-formed pair, as its instants. -/
def goodRange : Json → Option (Instant × Instant)
  | .arr [lo, hi] =>
    match parseUtc str fromisoformat lo, parseUtc str fromisoformat hi with
    | .ok start, .ok stop => some (start, stop)
    | _, _ => none
  | _ => none

/-- The start the loop reads off an entry. -/
def startsOf (r : Json) : List Instant :=
  match r.pair with
  | .ok (lo, _) => (parseUtc str fromisoformat lo).toOption.toList
  | .error _ => []

/-- The end the loop reads off an entry. -/
def endsOf (r : Json) : List Instant :=
  match r.pair with
  | .ok (lo, hi) =>
    match parseUtc str fromisoformat lo with
    | .ok _ => (parseUtc str fromisoformat hi).toOption.toList
    | .error _ => []
  | .error _ => []

/-- The loop reads an instant outside the calendar. -/
def Overflows (r : Json) : Prop :=
  ∃ lo hi, r.pair = .ok (lo, hi) ∧
    (parseUtc str fromisoformat lo = .error .overflowError ∨
      (∃ start, parseUtc str fromisoformat lo = .ok start) ∧
        parseUtc str fromisoformat hi = .error .overflowError)

/-- The least start and the greatest end. -/
def join (ranges : List (Instant × Instant)) : Option (Instant × Instant) :=
  match (ranges.map Prod.fst).min?, (ranges.map Prod.snd).max? with
  | some start, some stop => some (start, stop)
  | _, _ => none

def optionJson (range : Option (Instant × Instant)) : Json := range.elim .null rangeJson

/-- The union of the well-formed pairs alone. -/
def goodUnion (ranges : List Json) : Option (Instant × Instant) :=
  join (ranges.filterMap (goodRange str fromisoformat))

/-- Nothing the loop reads overflows, and what it reads off the other entries lies, to the
second, within well-formed pairs. -/
structure Harmless (ranges : List Json) : Prop where
  noOverflow : ∀ r ∈ ranges, ¬Overflows str fromisoformat r
  starts : ∀ r ∈ ranges, ∀ t ∈ startsOf str fromisoformat r,
    ∃ good ∈ ranges.filterMap (goodRange str fromisoformat), good.1.second ≤ t.second
  ends : ∀ r ∈ ranges, ∀ t ∈ endsOf str fromisoformat r,
    ∃ good ∈ ranges.filterMap (goodRange str fromisoformat), t.second ≤ good.2.second

end Entries

section Loop
variable {str : Json → String} {fromisoformat : String → Option Stamp}

theorem parseUtc_error {value : Json} {e : PyError} (h : parseUtc str fromisoformat value = .error e) :
    e = .valueError ∨ e = .overflowError := by
  rw [parseUtc] at h
  split at h
  · exact .inl (Except.error.inj h).symm
  · next stamp _ =>
    rw [Stamp.utc] at h
    split at h
    · cases h
    · dsimp only at h
      split at h
      · exact .inr (Except.error.inj h).symm
      · cases h

theorem addEntry_eq (s : Endpoints) (r : Json) : addEntry str fromisoformat s r =
    match r.pair with
    | .error e => dropEntry s e
    | .ok (lo, hi) =>
      match parseUtc str fromisoformat lo with
      | .error e => dropEntry s e
      | .ok start =>
        match parseUtc str fromisoformat hi with
        | .error e => dropEntry ⟨s.starts ++ [start], s.ends⟩ e
        | .ok stop => .ok ⟨s.starts ++ [start], s.ends ++ [stop]⟩ := by
  cases r <;> rfl

variable (str fromisoformat) in
/-- One entry: it overflows, or the loop keeps the endpoints it read. -/
theorem addEntry_spec (s : Endpoints) (r : Json) :
    (Overflows str fromisoformat r ∧ addEntry str fromisoformat s r = .error .overflowError) ∨
      (¬Overflows str fromisoformat r ∧ addEntry str fromisoformat s r =
        .ok ⟨s.starts ++ startsOf str fromisoformat r, s.ends ++ endsOf str fromisoformat r⟩) := by
  rw [addEntry_eq]
  unfold startsOf endsOf
  cases hpair : r.pair with
  | error e =>
    right
    refine ⟨?_, ?_⟩
    · rintro ⟨lo, hi, h, -⟩
      rw [hpair] at h
      cases h
    · dsimp only
      rw [dropEntry, if_pos (Json.pair_error hpair), List.append_nil, List.append_nil]
  | ok p =>
    obtain ⟨lo, hi⟩ := p
    have hover : Overflows str fromisoformat r ↔ parseUtc str fromisoformat lo = .error .overflowError ∨
        (∃ start, parseUtc str fromisoformat lo = .ok start) ∧
          parseUtc str fromisoformat hi = .error .overflowError := by
      constructor
      · rintro ⟨lo', hi', h, hover⟩
        obtain ⟨rfl, rfl⟩ := Prod.mk.inj (Except.ok.inj (hpair.symm.trans h))
        exact hover
      · exact fun hover => ⟨lo, hi, hpair, hover⟩
    rw [hover]
    dsimp only
    cases hlo : parseUtc str fromisoformat lo with
    | error e =>
      rcases parseUtc_error hlo with rfl | rfl
      · right
        refine ⟨by simp, ?_⟩
        simp [dropEntry, Except.toOption]
      · exact .inl ⟨.inl rfl, rfl⟩
    | ok start =>
      cases hhi : parseUtc str fromisoformat hi with
      | error e =>
        rcases parseUtc_error hhi with rfl | rfl
        · right
          refine ⟨by simp, ?_⟩
          simp [dropEntry, Except.toOption]
        · exact .inl ⟨.inr ⟨⟨start, rfl⟩, rfl⟩, rfl⟩
      | ok stop =>
        right
        refine ⟨by simp, ?_⟩
        simp [Except.toOption]

/-- The loop over entries none of which overflows. -/
theorem foldlM_addEntry {ranges : List Json} (h : ∀ r ∈ ranges, ¬Overflows str fromisoformat r)
    (s : Endpoints) : ranges.foldlM (addEntry str fromisoformat) s =
      .ok ⟨s.starts ++ ranges.flatMap (startsOf str fromisoformat),
        s.ends ++ ranges.flatMap (endsOf str fromisoformat)⟩ := by
  induction ranges generalizing s with
  | nil =>
    rw [List.flatMap_nil, List.flatMap_nil, List.append_nil, List.append_nil]
    rfl
  | cons r ranges ih =>
    rcases addEntry_spec str fromisoformat s r with ⟨hover, -⟩ | ⟨-, hadd⟩
    · exact absurd hover (h r (.head _))
    · rw [List.foldlM_cons, hadd]
      show ranges.foldlM (addEntry str fromisoformat) _ = _
      rw [ih (fun r hr => h r (.tail _ hr)), List.flatMap_cons, List.flatMap_cons, List.append_assoc,
        List.append_assoc]

/-- An entry that overflows ends the loop. -/
theorem foldlM_overflow {ranges : List Json} (h : ∃ r ∈ ranges, Overflows str fromisoformat r)
    (s : Endpoints) : ∃ e, ranges.foldlM (addEntry str fromisoformat) s = .error e := by
  induction ranges generalizing s with
  | nil =>
    obtain ⟨r, hr, -⟩ := h
    cases hr
  | cons r ranges ih =>
    rw [List.foldlM_cons]
    rcases addEntry_spec str fromisoformat s r with ⟨-, hadd⟩ | ⟨hnot, hadd⟩
    · rw [hadd]
      exact ⟨_, rfl⟩
    · rw [hadd]
      obtain ⟨r', hr', hover⟩ := h
      rcases List.mem_cons.mp hr' with rfl | hr'
      · exact absurd hover hnot
      · exact ih ⟨r', hr', hover⟩ _

/-- How a run of the union ends when nothing overflows. -/
theorem unionTimeRange_cases {ranges : List Json} (h : ∀ r ∈ ranges, ¬Overflows str fromisoformat r) :
    (ranges.flatMap (startsOf str fromisoformat) = [] ∧
        unionTimeRange str fromisoformat ranges = .ok .null) ∨
      (ranges.flatMap (startsOf str fromisoformat) ≠ [] ∧
        ranges.flatMap (endsOf str fromisoformat) = [] ∧
        unionTimeRange str fromisoformat ranges = .error .valueError) ∨
      ∃ start stop, (ranges.flatMap (startsOf str fromisoformat)).min? = some start ∧
        (ranges.flatMap (endsOf str fromisoformat)).max? = some stop ∧
        unionTimeRange str fromisoformat ranges = .ok (rangeJson (start, stop)) := by
  rw [unionTimeRange, foldlM_addEntry h]
  dsimp only [bind, Except.bind, pure, Except.pure]
  rw [List.nil_append, List.nil_append]
  by_cases hnil : ranges.flatMap (startsOf str fromisoformat) = []
  · rw [if_pos hnil]
    exact .inl ⟨hnil, rfl⟩
  · rw [if_neg hnil]
    right
    obtain ⟨start, hstart⟩ := Option.isSome_iff_exists.mp (List.isSome_min?_of_ne_nil hnil)
    rw [hstart]
    cases hstop : (ranges.flatMap (endsOf str fromisoformat)).max? with
    | none => exact .inl ⟨hnil, List.max?_eq_none_iff.mp hstop, rfl⟩
    | some stop => exact .inr ⟨start, stop, rfl, rfl, rfl⟩

end Loop

section Join

theorem join_parts (ranges : List (Instant × Instant)) :
    (join ranges).map Prod.fst = (ranges.map Prod.fst).min? ∧
      (join ranges).map Prod.snd = (ranges.map Prod.snd).max? := by
  cases ranges with
  | nil => exact ⟨rfl, rfl⟩
  | cons r ranges =>
    obtain ⟨start, hstart⟩ := Option.isSome_iff_exists.mp
      (List.isSome_min?_of_ne_nil (List.cons_ne_nil r.1 (ranges.map Prod.fst)))
    obtain ⟨stop, hstop⟩ := Option.isSome_iff_exists.mp
      (List.isSome_max?_of_ne_nil (List.cons_ne_nil r.2 (ranges.map Prod.snd)))
    rw [join, List.map_cons, List.map_cons, hstart, hstop]
    exact ⟨rfl, rfl⟩

theorem option_ext {r r' : Option (Instant × Instant)} (h1 : r.map Prod.fst = r'.map Prod.fst)
    (h2 : r.map Prod.snd = r'.map Prod.snd) : r = r' := by
  cases r with
  | none =>
    cases r' with
    | none => rfl
    | some r' => cases h1
  | some r =>
    cases r' with
    | none => cases h1
    | some r' => exact congrArg some (Prod.ext (Option.some.inj h1) (Option.some.inj h2))

/-- The joined ranges may come in any order, any number of times. -/
theorem join_congr {ranges ranges' : List (Instant × Instant)} (h : ∀ r, r ∈ ranges ↔ r ∈ ranges') :
    join ranges = join ranges' := by
  have hmap : ∀ {β : Type} (f : Instant × Instant → β) b, b ∈ ranges.map f ↔ b ∈ ranges'.map f := by
    intro β f b
    rw [List.mem_map, List.mem_map]
    exact exists_congr fun r => and_congr_left fun _ => h r
  apply option_ext
  · rw [(join_parts _).1, (join_parts _).1, min?_congr (hmap Prod.fst)]
  · rw [(join_parts _).2, (join_parts _).2, max?_congr (hmap Prod.snd)]

/-- A range to the second. -/
def seconds (range : Instant × Instant) : Instant × Instant := (range.1.second, range.2.second)

/-- Joining joins of groups, each cut to the second. -/
theorem join_groups (groups : List (List (Instant × Instant))) :
    join ((groups.filterMap join).map seconds) = (join groups.flatten).map seconds := by
  have hfst : (groups.filterMap join).map Prod.fst = (groups.map (List.map Prod.fst)).filterMap List.min? := by
    rw [List.map_filterMap, List.filterMap_map]
    exact List.filterMap_congr fun g _ => (join_parts g).1
  have hsnd : (groups.filterMap join).map Prod.snd = (groups.map (List.map Prod.snd)).filterMap List.max? := by
    rw [List.map_filterMap, List.filterMap_map]
    exact List.filterMap_congr fun g _ => (join_parts g).2
  apply option_ext
  · calc (join ((groups.filterMap join).map seconds)).map Prod.fst
        = (((groups.filterMap join).map seconds).map Prod.fst).min? := (join_parts _).1
      _ = (((groups.filterMap join).map Prod.fst).map Instant.second).min? := by
        rw [List.map_map, List.map_map]
        rfl
      _ = ((groups.flatten.map Prod.fst).min?).map Instant.second := by
        rw [min?_map Instant.second_monotone, hfst, min?_groups, List.map_flatten]
      _ = ((join groups.flatten).map seconds).map Prod.fst := by
        rw [← (join_parts _).1, Option.map_map, Option.map_map]
        rfl
  · calc (join ((groups.filterMap join).map seconds)).map Prod.snd
        = (((groups.filterMap join).map seconds).map Prod.snd).max? := (join_parts _).2
      _ = (((groups.filterMap join).map Prod.snd).map Instant.second).max? := by
        rw [List.map_map, List.map_map]
        rfl
      _ = ((groups.flatten.map Prod.snd).max?).map Instant.second := by
        rw [max?_map Instant.second_monotone, hsnd, max?_groups, List.map_flatten]
      _ = ((join groups.flatten).map seconds).map Prod.snd := by
        rw [← (join_parts _).2, Option.map_map, Option.map_map]
        rfl

end Join

section Good
variable {str : Json → String} {fromisoformat : String → Option Stamp}

/-- A well-formed pair is what the loop reads. -/
theorem reads_of_goodRange {r : Json} {range : Instant × Instant}
    (h : goodRange str fromisoformat r = some range) :
    startsOf str fromisoformat r = [range.1] ∧ endsOf str fromisoformat r = [range.2] ∧
      ¬Overflows str fromisoformat r := by
  unfold goodRange at h
  split at h
  · next lo hi =>
    split at h
    · next start stop hlo hhi =>
      obtain rfl := Option.some.inj h
      have hpair : (Json.arr [lo, hi]).pair = .ok (lo, hi) := rfl
      refine ⟨?_, ?_, ?_⟩
      · rw [startsOf, hpair]
        dsimp only
        rw [hlo]
        rfl
      · rw [endsOf, hpair]
        dsimp only
        rw [hlo, hhi]
        rfl
      · rintro ⟨lo', hi', h', hover⟩
        obtain ⟨rfl, rfl⟩ := Prod.mk.inj (Except.ok.inj (hpair.symm.trans h'))
        rw [hlo, hhi] at hover
        rcases hover with hover | ⟨-, hover⟩
        · cases hover
        · cases hover
    · cases h
  · cases h

theorem mem_starts_of_good {ranges : List Json} {good : Instant × Instant}
    (h : good ∈ ranges.filterMap (goodRange str fromisoformat)) :
    good.1 ∈ ranges.flatMap (startsOf str fromisoformat) ∧
      good.2 ∈ ranges.flatMap (endsOf str fromisoformat) := by
  obtain ⟨r, hr, hgood⟩ := List.mem_filterMap.mp h
  obtain ⟨hstarts, hends, -⟩ := reads_of_goodRange hgood
  refine ⟨List.mem_flatMap.mpr ⟨r, hr, ?_⟩, List.mem_flatMap.mpr ⟨r, hr, ?_⟩⟩
  · rw [hstarts]
    exact .head _
  · rw [hends]
    exact .head _

/-- An end is read only after a start. -/
theorem starts_ne_nil {ranges : List Json} (h : ranges.flatMap (endsOf str fromisoformat) ≠ []) :
    ranges.flatMap (startsOf str fromisoformat) ≠ [] := by
  obtain ⟨stop, hstop⟩ := List.exists_mem_of_ne_nil _ h
  obtain ⟨r, hr, hmem⟩ := List.mem_flatMap.mp hstop
  have hstarts : startsOf str fromisoformat r ≠ [] := by
    unfold endsOf at hmem
    unfold startsOf
    cases hpair : r.pair with
    | error e => rw [hpair] at hmem; cases hmem
    | ok p =>
      rw [hpair] at hmem
      dsimp only at hmem ⊢
      cases hlo : parseUtc str fromisoformat p.1 with
      | error e => rw [hlo] at hmem; cases hmem
      | ok start => exact List.cons_ne_nil _ _
  obtain ⟨start, hstart⟩ := List.exists_mem_of_ne_nil _ hstarts
  exact List.ne_nil_of_mem (List.mem_flatMap.mpr ⟨r, hr, hstart⟩)

variable (hreads : Reads str fromisoformat)
include hreads

theorem parseUtc_isoUtc (t : Instant) : parseUtc str fromisoformat (.str (isoUtc t)) = .ok t.second := by
  obtain ⟨stamp, hstamp, hutc⟩ := hreads.iso t
  rw [parseUtc, hreads.text, replaceZulu_isoUtc, hstamp]
  exact hutc

/-- Two instants have one text when they lie in one second. -/
theorem isoUtc_inj {a b : Instant} : isoUtc a = isoUtc b ↔ a.second = b.second := by
  constructor
  · intro h
    have ha := parseUtc_isoUtc hreads a
    rw [h, parseUtc_isoUtc hreads b] at ha
    exact (Except.ok.inj ha).symm
  · intro h
    rw [← isoUtc_second a, h, isoUtc_second]

theorem goodRange_optionJson (range : Option (Instant × Instant)) :
    goodRange str fromisoformat (optionJson range) = range.map seconds := by
  cases range with
  | none => rfl
  | some range =>
    show goodRange str fromisoformat (.arr [.str (isoUtc range.1), .str (isoUtc range.2)]) = _
    rw [goodRange, parseUtc_isoUtc hreads, parseUtc_isoUtc hreads]
    rfl

omit hreads in
theorem optionJson_seconds (range : Option (Instant × Instant)) :
    optionJson (range.map seconds) = optionJson range := by
  cases range with
  | none => rfl
  | some range =>
    show rangeJson (range.1.second, range.2.second) = rangeJson range
    rw [rangeJson, rangeJson, isoUtc_second, isoUtc_second]

end Good

section Union
variable {str : Json → String} {fromisoformat : String → Option Stamp}
  (hreads : Reads str fromisoformat)
include hreads

theorem rangeJson_inj {a b : Instant × Instant} (h : rangeJson a = rangeJson b) :
    seconds a = seconds b := by
  obtain ⟨h1, h2⟩ : isoUtc a.1 = isoUtc b.1 ∧ isoUtc a.2 = isoUtc b.2 := by
    rw [rangeJson, rangeJson] at h
    simp only [Json.arr.injEq, List.cons.injEq, Json.str.injEq, and_true] at h
    exact h
  exact Prod.ext ((isoUtc_inj hreads).mp h1) ((isoUtc_inj hreads).mp h2)

omit hreads in
theorem join_some {ranges : List (Instant × Instant)} {range : Instant × Instant}
    (h : join ranges = some range) :
    (∃ good ∈ ranges, good.1 = range.1 ∧ ∀ r ∈ ranges, range.1 ≤ r.1) ∧
      ∃ good ∈ ranges, good.2 = range.2 ∧ ∀ r ∈ ranges, r.2 ≤ range.2 := by
  obtain ⟨hmin, hmax⟩ := join_parts ranges
  rw [h] at hmin hmax
  obtain ⟨hmem, hle⟩ := List.min?_eq_some_iff.mp hmin.symm
  obtain ⟨hmem', hge⟩ := List.max?_eq_some_iff.mp hmax.symm
  obtain ⟨good, hgood, hfst⟩ := List.mem_map.mp hmem
  obtain ⟨good', hgood', hsnd⟩ := List.mem_map.mp hmem'
  exact ⟨⟨good, hgood, hfst, fun r hr => hle r.1 (List.mem_map_of_mem hr)⟩,
    ⟨good', hgood', hsnd, fun r hr => hge r.2 (List.mem_map_of_mem hr)⟩⟩

omit hreads in
theorem join_eq_none {ranges : List (Instant × Instant)} : join ranges = none ↔ ranges = [] := by
  have hmin := (join_parts ranges).1
  constructor
  · intro h
    rw [h] at hmin
    exact List.map_eq_nil_iff.mp (List.min?_eq_none_iff.mp hmin.symm)
  · intro h
    rw [h]
    rfl

/-- A union that is the one of the well-formed pairs read nothing that widens it. -/
theorem harmless_of_union {ranges : List Json}
    (h : unionTimeRange str fromisoformat ranges = .ok (optionJson (goodUnion str fromisoformat ranges))) :
    Harmless str fromisoformat ranges := by
  have hover : ∀ r ∈ ranges, ¬Overflows str fromisoformat r := by
    by_contra hsome
    push Not at hsome
    obtain ⟨e, he⟩ := foldlM_overflow hsome ⟨[], []⟩
    rw [unionTimeRange, he] at h
    cases h
  have hwithin : ∀ start stop, (ranges.flatMap (startsOf str fromisoformat)).min? = some start →
      (ranges.flatMap (endsOf str fromisoformat)).max? = some stop →
      unionTimeRange str fromisoformat ranges = .ok (rangeJson (start, stop)) →
      (∃ good ∈ ranges.filterMap (goodRange str fromisoformat), good.1.second = start.second) ∧
        ∃ good ∈ ranges.filterMap (goodRange str fromisoformat), good.2.second = stop.second := by
    intro start stop _ _ hunion
    have heq := Except.ok.inj (hunion.symm.trans h)
    cases hgood : goodUnion str fromisoformat ranges with
    | none =>
      rw [hgood] at heq
      cases heq
    | some range =>
      rw [hgood] at heq
      have hseconds := rangeJson_inj hreads heq
      obtain ⟨⟨g, hg, hfst, -⟩, g', hg', hsnd, -⟩ := join_some hgood
      refine ⟨⟨g, hg, ?_⟩, ⟨g', hg', ?_⟩⟩
      · rw [hfst]
        exact (congrArg Prod.fst hseconds).symm
      · rw [hsnd]
        exact (congrArg Prod.snd hseconds).symm
  rcases unionTimeRange_cases hover with ⟨hnil, -⟩ | ⟨-, -, herror⟩ | ⟨start, stop, hmin, hmax, hunion⟩
  · have hends : ranges.flatMap (endsOf str fromisoformat) = [] := by
      by_contra hne
      exact starts_ne_nil hne hnil
    refine ⟨hover, fun r hr t ht => ?_, fun r hr t ht => ?_⟩
    · have hmem := List.mem_flatMap.mpr ⟨r, hr, ht⟩
      rw [hnil] at hmem
      cases hmem
    · have hmem := List.mem_flatMap.mpr ⟨r, hr, ht⟩
      rw [hends] at hmem
      cases hmem
  · rw [herror] at h
    cases h
  · obtain ⟨⟨g, hg, hstart⟩, g', hg', hstop⟩ := hwithin start stop hmin hmax hunion
    have hle := (List.min?_eq_some_iff.mp hmin).2
    have hge := (List.max?_eq_some_iff.mp hmax).2
    refine ⟨hover, fun r hr t ht => ⟨g, hg, ?_⟩, fun r hr t ht => ⟨g', hg', ?_⟩⟩
    · rw [hstart]
      exact Instant.second_monotone (hle t (List.mem_flatMap.mpr ⟨r, hr, ht⟩))
    · rw [hstop]
      exact Instant.second_monotone (hge t (List.mem_flatMap.mpr ⟨r, hr, ht⟩))

/-- Entries that read nothing that widens the union leave the one of the well-formed pairs. -/
theorem union_of_harmless {ranges : List Json} (h : Harmless str fromisoformat ranges) :
    unionTimeRange str fromisoformat ranges = .ok (optionJson (goodUnion str fromisoformat ranges)) := by
  cases hgood : goodUnion str fromisoformat ranges with
  | none =>
    have hnone := join_eq_none.mp hgood
    have hnil : ranges.flatMap (startsOf str fromisoformat) = [] := by
      by_contra hne
      obtain ⟨start, hstart⟩ := List.exists_mem_of_ne_nil _ hne
      obtain ⟨r, hr, hmem⟩ := List.mem_flatMap.mp hstart
      obtain ⟨g, hg, -⟩ := h.starts r hr start hmem
      rw [hnone] at hg
      cases hg
    rcases unionTimeRange_cases h.noOverflow with ⟨-, hunion⟩ | ⟨hne, -⟩ | ⟨start, stop, hmin, -⟩
    · exact hunion
    · exact absurd hnil hne
    · rw [hnil] at hmin
      cases hmin
  | some range =>
    obtain ⟨⟨g, hg, hfst, hleast⟩, g', hg', hsnd, hgreatest⟩ := join_some hgood
    have hmemStart := (mem_starts_of_good hg).1
    have hmemEnd := (mem_starts_of_good hg').2
    rcases unionTimeRange_cases h.noOverflow with ⟨hnil, -⟩ | ⟨-, hnil, -⟩ | ⟨start, stop, hmin, hmax, hunion⟩
    · rw [hnil] at hmemStart
      cases hmemStart
    · rw [hnil] at hmemEnd
      cases hmemEnd
    · obtain ⟨hstartMem, hle⟩ := List.min?_eq_some_iff.mp hmin
      obtain ⟨hstopMem, hge⟩ := List.max?_eq_some_iff.mp hmax
      obtain ⟨r, hr, hstart⟩ := List.mem_flatMap.mp hstartMem
      obtain ⟨r', hr', hstop⟩ := List.mem_flatMap.mp hstopMem
      obtain ⟨low, hlow, hlowLe⟩ := h.starts r hr start hstart
      obtain ⟨high, hhigh, hhighGe⟩ := h.ends r' hr' stop hstop
      have hsame : start.second = range.1.second := by
        apply le_antisymm
        · exact Instant.second_monotone (hfst ▸ hle _ hmemStart)
        · exact (Instant.second_monotone (hleast low hlow)).trans hlowLe
      have hsame' : stop.second = range.2.second := by
        apply le_antisymm
        · exact hhighGe.trans (Instant.second_monotone (hgreatest high hhigh))
        · exact Instant.second_monotone (hsnd ▸ hge _ hmemEnd)
      rw [hunion]
      show Except.ok (rangeJson (start, stop)) = .ok (rangeJson range)
      rw [rangeJson, rangeJson, (isoUtc_inj hreads).mpr hsame, (isoUtc_inj hreads).mpr hsame']

omit hreads in
/-- Well-formed pairs and missing ranges widen nothing else. -/
theorem harmless_of_good {ranges : List Json}
    (h : ∀ r ∈ ranges, r = .null ∨ (goodRange str fromisoformat r).isSome) :
    Harmless str fromisoformat ranges := by
  have hcases : ∀ r ∈ ranges, (startsOf str fromisoformat r = [] ∧ endsOf str fromisoformat r = [] ∧
      ¬Overflows str fromisoformat r) ∨
      ∃ range, goodRange str fromisoformat r = some range := by
    intro r hr
    rcases h r hr with rfl | hsome
    · refine .inl ⟨rfl, rfl, ?_⟩
      rintro ⟨lo, hi, hpair, -⟩
      cases hpair
    · exact .inr (Option.isSome_iff_exists.mp hsome)
  refine ⟨fun r hr => ?_, fun r hr t ht => ?_, fun r hr t ht => ?_⟩
  · rcases hcases r hr with ⟨-, -, hnot⟩ | ⟨range, hgood⟩
    · exact hnot
    · exact (reads_of_goodRange hgood).2.2
  · rcases hcases r hr with ⟨hnil, -⟩ | ⟨range, hgood⟩
    · rw [hnil] at ht
      cases ht
    · rw [(reads_of_goodRange hgood).1] at ht
      refine ⟨range, List.mem_filterMap.mpr ⟨r, hr, hgood⟩, ?_⟩
      rw [List.mem_singleton.mp ht]
  · rcases hcases r hr with ⟨-, hnil, -⟩ | ⟨range, hgood⟩
    · rw [hnil] at ht
      cases ht
    · rw [(reads_of_goodRange hgood).2.1] at ht
      refine ⟨range, List.mem_filterMap.mpr ⟨r, hr, hgood⟩, ?_⟩
      rw [List.mem_singleton.mp ht]

/-- The unions of groups of entries, joined once more. -/
theorem goodUnion_groups (groups : List (List Json)) :
    goodUnion str fromisoformat (groups.map fun g => optionJson (goodUnion str fromisoformat g)) =
      (goodUnion str fromisoformat groups.flatten).map seconds := by
  have hranges : (groups.map fun g => optionJson (goodUnion str fromisoformat g)).filterMap
      (goodRange str fromisoformat) =
      ((groups.map (List.filterMap (goodRange str fromisoformat))).filterMap join).map seconds := by
    rw [List.filterMap_map, List.filterMap_map, List.map_filterMap]
    exact List.filterMap_congr fun g _ => goodRange_optionJson hreads _
  rw [goodUnion, hranges, join_groups, goodUnion, List.filterMap_flatten]

end Union

section Sample

/-- A number of fixed width and the separator after it. -/
def readField (width : Nat) (sep : Char) (cs : List Char) : Option (Nat × List Char) :=
  match cs.drop width with
  | [] => none
  | ch :: rest => if ch = sep then (PyText.pyInt (cs.take width)).map fun n => (n.toNat, rest) else none

/-- The fields of a canonical text as a stamp, if its rest is the offset of UTC. -/
def stampOf (year month day hour minute sec : Nat) (rest : List Char) : Option Stamp :=
  if rest ≠ zeroOffset.tail ∨ 24 ≤ hour ∨ 60 ≤ minute ∨ 60 ≤ sec then none
  else (Date.make year month day).map fun date =>
    ⟨.onDay date (((hour * 60 + minute) * 60 + sec) * 1000000 : Nat), some 0⟩

/-- The canonical texts, read back. -/
def readIso (text : String) : Option Stamp :=
  (readField 4 '-' text.toList).bind fun year =>
  (readField 2 '-' year.2).bind fun month =>
  (readField 2 'T' month.2).bind fun day =>
  (readField 2 ':' day.2).bind fun hour =>
  (readField 2 ':' hour.2).bind fun minute =>
  (readField 2 '+' minute.2).bind fun sec =>
  stampOf year.1 month.1 day.1 hour.1 minute.1 sec.1 sec.2

def readStr : Json → String
  | .str s => s
  | _ => ""

theorem readField_padded {width n : Nat} (hw : 0 < width) (hwidth : width ≤ 4300)
    (h : n < 10 ^ width) (sep : Char) (rest : List Char) :
    readField width sep (padded width n ++ sep :: rest) = some (n, rest) := by
  obtain ⟨ds, hds, hrank, hlen⟩ := exists_padded hw h
  have hpadded : (padded width n).length = width := by rw [hds, length_text, hlen]
  have hne : ds ≠ [] := by
    rintro rfl
    exact hw.ne hlen
  rw [readField, List.drop_left' hpadded, List.take_left' hpadded]
  dsimp only
  rw [if_pos rfl, hds, pyInt_text hne (hlen.trans_le hwidth), hrank]
  rfl

theorem stampOf_date (d : Date) {hour minute sec : Nat} (hhour : hour < 24) (hminute : minute < 60)
    (hsec : sec < 60) : stampOf d.year d.month d.day hour minute sec zeroOffset.tail =
      some ⟨.onDay d (((hour * 60 + minute) * 60 + sec) * 1000000 : Nat), some 0⟩ := by
  have hmake : Date.make d.year d.month d.day = some d := Date.make_eq_some.mpr ⟨rfl, rfl, rfl⟩
  rw [stampOf, if_neg, hmake]
  · rfl
  · rintro (h | h | h | h)
    · exact h rfl
    · omega
    · omega
    · omega

theorem readField_bind {α : Type} {width n : Nat} (hw : 0 < width) (hwidth : width ≤ 4300)
    (h : n < 10 ^ width) (sep : Char) (rest : List Char) (f : Nat × List Char → Option α) :
    (readField width sep (padded width n ++ sep :: rest)).bind f = f (n, rest) := by
  rw [readField_padded hw hwidth h]
  rfl

theorem readIso_fields (d : Date) {hour minute sec : Nat} (hhour : hour < 24) (hminute : minute < 60)
    (hsec : sec < 60) :
    readIso (String.ofList (padded 4 d.year ++ '-' :: (padded 2 d.month ++ '-' :: (padded 2 d.day ++
      'T' :: (padded 2 hour ++ ':' :: (padded 2 minute ++ ':' :: (padded 2 sec ++
        '+' :: zeroOffset.tail))))))) =
      some ⟨.onDay d (((hour * 60 + minute) * 60 + sec) * 1000000 : Nat), some 0⟩ := by
  have hdate := d.bounds
  rw [readIso, String.toList_ofList, readField_bind (by decide) (by decide) (by omega),
    readField_bind (by decide) (by decide) (by omega), readField_bind (by decide) (by decide) (by omega),
    readField_bind (by decide) (by decide) (by omega), readField_bind (by decide) (by decide) (by omega),
    readField_bind (by decide) (by decide) (by omega)]
  exact stampOf_date d hhour hminute hsec

theorem seconds_of_clock (t : Nat) :
    (t / 3600000000 * 60 + t / 60000000 % 60) * 60 + t / 1000000 % 60 = t / 1000000 := by
  have hminute : t / 60000000 = t / 1000000 / 60 := by rw [Nat.div_div_eq_div_mul]
  have hhour : t / 3600000000 = t / 1000000 / 60 / 60 := by
    rw [Nat.div_div_eq_div_mul, Nat.div_div_eq_div_mul]
  rw [hminute, hhour]
  generalize t / 1000000 = s
  omega

theorem onDay_natCast (d : Date) {n : Nat} (h : n < 86400000000) : Instant.onDay d n = ⟨d, n, h⟩ := by
  have hn : ((n : Int) % 86400000000).toNat = n := by
    rw [Int.emod_eq_of_lt (Int.natCast_nonneg n) (by exact_mod_cast h), Int.toNat_natCast]
  apply Instant.ticks_injective
  exact congrArg (d.rank * 86400000000 + ·) hn

theorem readIso_isoUtc (t : Instant) : readIso (isoUtc t) = some ⟨t.second, some 0⟩ := by
  have hin := t.inDay
  have hhour : t.time / 3600000000 < 24 := by omega
  have hwhole : t.time / 1000000 * 1000000 = t.time - t.time % 1000000 := by omega
  have hsecond : Instant.onDay t.date (((t.time / 3600000000 * 60 + t.time / 60000000 % 60) * 60 +
      t.time / 1000000 % 60) * 1000000 : Nat) = t.second := by
    rw [seconds_of_clock, hwhole]
    exact onDay_natCast t.date t.second.inDay
  rw [← hsecond]
  exact readIso_fields t.date hhour (Nat.mod_lt _ (by decide)) (Nat.mod_lt _ (by decide))

theorem onDay_time (t : Instant) : Instant.onDay t.date t.time = t :=
  onDay_natCast t.date t.inDay

/-- A stamp whose offset stays within its day. -/
theorem utc_of_day {wall : Instant} {offset t : Int} (h : (wall.time : Int) - offset = t) (hstay : ¬t < 0)
    (hlt : t < 86400000000) : (Stamp.mk wall (some offset)).utc = .ok (.onDay wall.date t) := by
  subst h
  rw [Stamp.utc]
  dsimp only
  rw [if_neg hstay, if_pos hlt]

/-- A stamp at offset zero is its wall clock. -/
theorem utc_zero (t : Instant) : (Stamp.mk t (some 0)).utc = .ok t := by
  have hin := t.inDay
  have hutc : (Stamp.mk t (some 0)).utc = .ok (.onDay t.date t.time) :=
    utc_of_day (Int.sub_zero t.time) (by omega) (by omega)
  rw [onDay_time] at hutc
  exact hutc

theorem readIso_reads : Reads readStr readIso :=
  ⟨fun _ => rfl, fun t => ⟨_, readIso_isoUtc t, utc_zero t.second⟩⟩

end Sample

/-- The union of time ranges is the one of the well-formed pairs exactly when the loop overflows
nowhere and reads nothing off the other entries that widens it. On well-formed pairs it does not
depend on the order, on repetitions or on the grouping of the entries. -/
theorem union_time_range_iff {str : Json → String} {fromisoformat : String → Option Stamp}
    (hreads : Reads str fromisoformat) :
    (∀ ranges, unionTimeRange str fromisoformat ranges =
        .ok (optionJson (goodUnion str fromisoformat ranges)) ↔ Harmless str fromisoformat ranges) ∧
    (∀ ranges ranges', (∀ r ∈ ranges, r = .null ∨ (goodRange str fromisoformat r).isSome) →
      (∀ r, r ∈ ranges ↔ r ∈ ranges') →
      unionTimeRange str fromisoformat ranges' = unionTimeRange str fromisoformat ranges) ∧
    ∀ groups : List (List Json),
      (∀ r ∈ groups.flatten, r = .null ∨ (goodRange str fromisoformat r).isSome) →
      ∃ unions, groups.mapM (unionTimeRange str fromisoformat) = .ok unions ∧
        unionTimeRange str fromisoformat unions = unionTimeRange str fromisoformat groups.flatten := by
  refine ⟨fun ranges => ⟨harmless_of_union hreads, union_of_harmless hreads⟩, ?_, ?_⟩
  · intro ranges ranges' hgood hsame
    have hgood' : ∀ r ∈ ranges', r = .null ∨ (goodRange str fromisoformat r).isSome :=
      fun r hr => hgood r ((hsame r).mpr hr)
    rw [union_of_harmless hreads (harmless_of_good hgood),
      union_of_harmless hreads (harmless_of_good hgood'), goodUnion, goodUnion]
    congr 2
    apply join_congr
    intro range
    rw [List.mem_filterMap, List.mem_filterMap]
    exact exists_congr fun r => and_congr_left fun _ => (hsame r).symm
  · intro groups hgood
    have hgroup : ∀ g ∈ groups, unionTimeRange str fromisoformat g =
        .ok (optionJson (goodUnion str fromisoformat g)) := fun g hg =>
      union_of_harmless hreads (harmless_of_good fun r hr => hgood r (List.mem_flatten.mpr ⟨g, hg, hr⟩))
    refine ⟨_, mapM_ok hgroup, ?_⟩
    have hunions : ∀ r ∈ groups.map fun g => optionJson (goodUnion str fromisoformat g),
        r = .null ∨ (goodRange str fromisoformat r).isSome := by
      intro r hr
      obtain ⟨g, -, rfl⟩ := List.mem_map.mp hr
      rw [goodRange_optionJson hreads]
      cases goodUnion str fromisoformat g with
      | none => exact .inl rfl
      | some range => exact .inr rfl
    rw [union_of_harmless hreads (harmless_of_good hunions), goodUnion_groups hreads,
      optionJson_seconds, union_of_harmless hreads (harmless_of_good hgood)]

/-- An entry whose end does not parse. -/
def halfEntry : Json := .arr [.str "2020-01-01T00:00:00+00:00", .str "garbage"]

def dayEntry : Json := .arr [.str "2020-01-02T00:00:00+00:00", .str "2020-01-03T00:00:00+00:00"]

theorem union_time_range_iff_entries :
    (unionTimeRange readStr readIso [halfEntry, dayEntry] =
        .ok (optionJson (goodUnion readStr readIso [halfEntry, dayEntry])) ↔
      Harmless readStr readIso [halfEntry, dayEntry]) ∧
    unionTimeRange readStr readIso [dayEntry] = unionTimeRange readStr readIso [dayEntry, dayEntry] ∧
    ∃ unions, [[dayEntry], [.null], [dayEntry]].mapM (unionTimeRange readStr readIso) = .ok unions ∧
      unionTimeRange readStr readIso unions =
        unionTimeRange readStr readIso [[dayEntry], [.null], [dayEntry]].flatten := by
  have hday : (goodRange readStr readIso dayEntry).isSome := by decide +kernel
  obtain ⟨hiff, hsame, hgroups⟩ := union_time_range_iff readIso_reads
  refine ⟨hiff _, hsame _ _ ?_ ?_, hgroups _ ?_⟩
  · simp [hday]
  · simp
  · simp [hday]

/-- A start without its end makes the union raise, and widens it when another entry has an end. -/
theorem union_time_range_half :
    unionTimeRange readStr readIso [halfEntry] = .error .valueError ∧
    goodUnion readStr readIso [halfEntry] = none ∧
    unionTimeRange readStr readIso [halfEntry, dayEntry] =
      .ok (.arr [.str "2020-01-01T00:00:00+00:00", .str "2020-01-03T00:00:00+00:00"]) ∧
    unionTimeRange readStr readIso [dayEntry] = .ok dayEntry := by
  refine ⟨rfl, by decide +kernel, rfl, rfl⟩

end Zagg.Windows
