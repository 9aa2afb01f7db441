import Zagg.Hive.RootRoundTrip

/-!
# Decoding a standing object

Any JSON value may stand at `coverage.moc`. How the decoder of its ranges fails is read off
the value: a walk to the first fault tells the one failure the writer does not catch, an
endpoint that is not a string.
-/
namespace Zagg.Hive

open Zagg.Lib
open Zagg.Catalog (Word unique mem_unique)

variable {o : Nat}

/-- An endpoint that is not a string stands before any other fault of the ranges. -/
def nonStringEndpoint (order : Int) : List Json → Bool
  | [] => false
  | range :: ranges =>
    match range.pair with
    | .ok (.str lo, hi) =>
      match decimalRank lo.toList with
      | .error _ => false
      | .ok _ =>
        match hi with
        | .str _ =>
          match rangeDecimals order range with
          | .ok _ => nonStringEndpoint order ranges
          | .error _ => false
        | _ => true
    | .ok _ => true
    | .error _ => false

theorem rankStep_error {rank : Int} {ch : Char} {err : PyError} (h : rankStep rank ch = .error err) :
    err = .valueError := by
  unfold rankStep at h
  split at h
  · cases h
  · exact (Except.error.inj h).symm

theorem foldlM_rankStep_error {cs : Text} {rank : Int} {err : PyError}
    (h : cs.foldlM rankStep rank = .error err) : err = .valueError := by
  induction cs generalizing rank with
  | nil => exact nomatch h
  | cons ch cs ih =>
    rw [List.foldlM_cons] at h
    cases hstep : rankStep rank ch with
    | error e =>
      rw [hstep] at h
      cases h
      exact rankStep_error hstep
    | ok r =>
      rw [hstep] at h
      exact ih h

theorem decimalRank_error {t : Text} {err : PyError} (h : decimalRank t = .error err) :
    err = .valueError := foldlM_rankStep_error h

theorem text_error {v : Json} {err : PyError} (h : v.text = .error err) :
    err = .attributeError ∧ ∀ s, v ≠ .str s := by
  cases v with
  | str s => cases h
  | _ => exact ⟨(Except.error.inj h).symm, nofun⟩

theorem toInt_of_number {v : Json} {n : Int} (h : v.number = some (n : ℚ)) : v.toInt = .ok n := by
  cases v with
  | num q =>
    obtain rfl := Option.some.inj h
    exact Json.toInt_num n
  | bool b =>
    have hb := Option.some.inj h
    cases b with
    | true => rw [Json.toInt, show n = 1 by exact_mod_cast hb.symm]; rfl
    | false => rw [Json.toInt, show n = 0 by exact_mod_cast hb.symm]; rfl
  | _ => cases h

theorem number_of_pyEq {v : Json} {q : ℚ} (h : v.pyEq (.num q) = true) : v.number = some q := by
  cases v with
  | num r =>
    rw [Json.pyEq] at h
    have hq : some q = some r := of_decide_eq_true h
    rw [Json.number, ← hq]
  | bool b =>
    rw [Json.pyEq] at h
    have hq : some q = some (if b then 1 else 0) := of_decide_eq_true h
    rw [Json.number, ← hq]
  | _ => exact absurd h (by simp [Json.pyEq])

theorem pair_ne {v : Json} {err : PyError} (h : v.pair = .error err) : err ≠ .attributeError := by
  rcases Json.pair_error h with rfl | rfl <;> exact nofun

/-- One range either decodes, or fails as the walk says. -/
theorem nonStringEndpoint_cons (order : Int) (range : Json) (ranges : List Json) :
    nonStringEndpoint order (range :: ranges) =
      match rangeDecimals order range with
      | .ok _ => nonStringEndpoint order ranges
      | .error err => decide (err = .attributeError) := by
  rw [nonStringEndpoint]
  cases hpair : range.pair with
  | error err =>
    have hne := pair_ne hpair
    simp [rangeDecimals, hpair, bind, Except.bind, hne]
  | ok ends =>
    obtain ⟨lo, hi⟩ := ends
    cases lo with
    | str s =>
      cases hlo : decimalRank s.toList with
      | error err =>
        obtain rfl := decimalRank_error hlo
        simp [rangeDecimals, hpair, hlo, Json.text, bind, Except.bind]
      | ok loRank =>
        cases hi with
        | str t =>
          cases hrange : rangeDecimals order range with
          | ok cells => simp only [hlo]
          | error err =>
            have herr : err = .valueError := by
              rw [rangeDecimals, hpair] at hrange
              simp only [Json.text, hlo, bind, Except.bind, pure, Except.pure, throw, throwThe,
                MonadExceptOf.throw] at hrange
              split at hrange
              · next hhi => exact (Except.error.inj hrange) ▸ decimalRank_error hhi
              · split_ifs at hrange
                exact (Except.error.inj hrange).symm
            simp only [hlo, herr, reduceCtorEq, decide_false]
        | _ => simp [rangeDecimals, hpair, hlo, Json.text, bind, Except.bind]
    | _ => simp [rangeDecimals, hpair, Json.text, bind, Except.bind]

theorem rangeDecimals_error {order : Int} {range : Json} {err : PyError}
    (h : rangeDecimals order range = .error err) :
    err = .attributeError ∨ err = .typeError ∨ err = .valueError := by
  rw [rangeDecimals] at h
  cases hpair : range.pair with
  | error e =>
    rw [hpair] at h
    cases h
    exact .inr (Json.pair_error hpair)
  | ok ends =>
    simp only [hpair, bind, Except.bind, pure, Except.pure, throw, throwThe,
      MonadExceptOf.throw] at h
    split at h
    · next hlo =>
      cases h
      exact .inl (text_error hlo).1
    · split at h
      · next hrank =>
        cases h
        exact .inr (.inr (decimalRank_error hrank))
      · split at h
        · next hhi =>
          cases h
          exact .inl (text_error hhi).1
        · split at h
          · next hrank =>
            cases h
            exact .inr (.inr (decimalRank_error hrank))
          · split_ifs at h
            cases h
            exact .inr (.inr rfl)

theorem mapM_rangeDecimals_attribute (order : Int) (ranges : List Json) :
    ranges.mapM (rangeDecimals order) = .error .attributeError ↔
      nonStringEndpoint order ranges = true := by
  induction ranges with
  | nil => simp [nonStringEndpoint, pure, Except.pure]
  | cons range ranges ih =>
    rw [nonStringEndpoint_cons, List.mapM_cons]
    cases hrange : rangeDecimals order range with
    | error err => simp [bind, Except.bind]
    | ok cells =>
      simp only [bind, Except.bind]
      rw [← ih]
      cases hl : ranges.mapM (rangeDecimals order) <;> simp [pure, Except.pure]

/-- The ranges of a standing object, where they can be iterated. -/
def rangesOf (existing : List (String × Json)) : Except PyError (List Json) := do (← Json.item existing "ranges").items

theorem rangesOf_error {existing : List (String × Json)} {err : PyError} (h : rangesOf existing = .error err) :
    err = .keyError ∨ err = .typeError := by
  rw [rangesOf, Json.item] at h
  split at h
  · exact .inr (Json.items_error h)
  · exact .inl (Except.error.inj h).symm

theorem orValueError_error {α : Type} {x : Option α} {err : PyError} (h : orValueError x = .error err) :
    err = .valueError := by
  cases x with
  | none => exact (Except.error.inj h).symm
  | some a => cases h

/-- The decoder on an object whose order reads as `n`. -/
theorem rootCoverageWords_eq {m : Mortie} {existing : List (String × Json)} {n : Int} {v : Json}
    (horder : Json.item existing "order" = .ok v) (hint : v.toInt = .ok n) :
    rootCoverageWords m existing = (do
      let decimals ← (← rangesOf existing).mapM (rangeDecimals n)
      let words ← decimals.flatten.mapM fun d => orValueError (m.decimalToWord d)
      return unique words) := by
  rw [rootCoverageWords, horder]
  simp only [bind, Except.bind, hint, rangesOf]
  cases Json.item existing "ranges" <;> rfl

section
variable {m : Mortie} {existing : List (String × Json)} {n : Int} {v : Json}
  (horder : Json.item existing "order" = .ok v) (hint : v.toInt = .ok n)

include horder hint

theorem rootCoverageWords_error {err : PyError} (h : rootCoverageWords m existing = .error err) :
    err = .attributeError ∨ err = .keyError ∨ err = .typeError ∨ err = .valueError := by
  rw [rootCoverageWords_eq horder hint] at h
  cases hranges : rangesOf existing with
  | error e =>
    rw [hranges] at h
    cases h
    rcases rangesOf_error hranges with rfl | rfl
    · exact .inr (.inl rfl)
    · exact .inr (.inr (.inl rfl))
  | ok ranges =>
    simp only [hranges, bind, Except.bind] at h
    split at h
    · next hcells =>
      cases h
      obtain ⟨range, -, hrange⟩ := mapM_error hcells
      rcases rangeDecimals_error hrange with rfl | rfl | rfl
      · exact .inl rfl
      · exact .inr (.inr (.inl rfl))
      · exact .inr (.inr (.inr rfl))
    · split at h
      · next hwords =>
        cases h
        obtain ⟨d, -, hd⟩ := mapM_error hwords
        exact .inr (.inr (.inr (orValueError_error hd)))
      · cases h

theorem rootCoverageWords_attribute : rootCoverageWords m existing = .error .attributeError ↔
    ∃ ranges, rangesOf existing = .ok ranges ∧ nonStringEndpoint n ranges = true := by
  rw [rootCoverageWords_eq horder hint]
  cases hranges : rangesOf existing with
  | error e =>
    have he := rangesOf_error hranges
    simp only [bind, Except.bind, Except.error.injEq, reduceCtorEq, false_and, exists_false, iff_false]
    rintro rfl
    exact nomatch he
  | ok ranges =>
    simp only [bind, Except.bind, Except.ok.injEq, exists_eq_left']
    rw [← mapM_rangeDecimals_attribute]
    cases hcells : ranges.mapM (rangeDecimals n) with
    | error e => simp only [Except.error.injEq]
    | ok cells =>
      refine iff_of_false (fun h => ?_) nofun
      simp only at h
      split at h
      · next hwords =>
        cases h
        obtain ⟨d, -, hd⟩ := mapM_error hwords
        exact nomatch orValueError_error hd
      · cases h

theorem nonStringEndpoint_eq_false (h : rootCoverageWords m existing ≠ .error .attributeError) :
    ∀ ranges, rangesOf existing = .ok ranges → nonStringEndpoint n ranges = false := by
  intro ranges hranges
  rw [Bool.eq_false_iff]
  intro hwalk
  exact h ((rootCoverageWords_attribute horder hint).mpr ⟨ranges, hranges, hwalk⟩)

/-- Decoded words are parsed from decimals of the envelope's order. -/
theorem mem_rootCoverageWords {old : List Word} (h : rootCoverageWords m existing = .ok old) {w : Word}
    (hw : w ∈ old) : ∃ ranges range cells t, rangesOf existing = .ok ranges ∧ range ∈ ranges ∧
      rangeDecimals n range = .ok cells ∧ t ∈ cells ∧ m.decimalToWord t = some w := by
  rw [rootCoverageWords_eq horder hint] at h
  cases hranges : rangesOf existing with
  | error e =>
    rw [hranges] at h
    cases h
  | ok ranges =>
    simp only [hranges, bind, Except.bind] at h
    split at h
    · cases h
    · next cells hcells =>
      split at h
      · cases h
      · next words hwords =>
        obtain rfl := Except.ok.inj h
        obtain ⟨t, ht, htw⟩ := forall₂_exists_of_mem_right (forall₂_mapM hwords) (mem_unique.mp hw)
        obtain ⟨cs, hcs, htcs⟩ := List.mem_flatten.mp ht
        obtain ⟨range, hrange, hok⟩ := forall₂_exists_of_mem_right (forall₂_mapM hcells) hcs
        refine ⟨ranges, range, cs, t, rfl, hrange, hok, htcs, ?_⟩
        cases hword : m.decimalToWord t with
        | none => rw [hword] at htw; cases htw
        | some w' => rw [hword] at htw; exact congrArg some (Except.ok.inj htw)

end

/-- The cells of a range are printed at the envelope's order. -/
theorem order_of_mem_rangeDecimals {range : Json} {cells : List Text}
    (h : rangeDecimals o range = .ok cells) {t : Text} (ht : t ∈ cells) : decimalOrder t = o := by
  rw [rangeDecimals] at h
  cases hpair : range.pair with
  | error e =>
    rw [hpair] at h
    cases h
  | ok ends =>
    simp only [hpair, bind, Except.bind, pure, Except.pure, throw, throwThe,
      MonadExceptOf.throw] at h
    split at h
    · cases h
    · next lo hlo =>
      split at h
      · cases h
      · split at h
        · cases h
        · split at h
          · cases h
          · split_ifs at h with hok
            obtain rfl := Except.ok.inj h
            obtain ⟨k, -, rfl⟩ := List.mem_map.mp ht
            have hlength : ∀ r : Int, ∀ d, (rankTail r d).length = d := by
              intro r d
              rw [rankTail, List.length_reverse]
              induction d generalizing r with
              | zero => rfl
              | succ d ih => rw [rankDigits, List.length_cons, ih]
            have horder := hok.2.2.1
            rw [Int.toNat_natCast]
            -- an order of at least 0 leaves the base its full width
            cases lo with
            | nil => exact absurd horder (by rw [decimalOrder]; simp)
            | cons ch cs =>
              by_cases hsign : ch = '-'
              · subst hsign
                cases cs with
                | nil => exact absurd horder (by rw [decimalOrder]; simp)
                | cons d ds =>
                  simp [decimalBase, decimalOrder, hlength]
                  omega
              · simp [decimalBase, decimalOrder, hlength, hsign]

end Zagg.Hive
