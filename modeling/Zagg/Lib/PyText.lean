import Mathlib.Data.Nat.Digits.Lemmas

/-!
# Integers in text

What `int(text)` reads: blanks around an optional sign and decimal digits, of any script,
with single underscores between digits and at most 4300 of them.
-/
namespace Zagg.Lib.PyText

/-- The zeros of the scripts that have decimal digits. -/
def digitZeros : List Nat :=
  [0x30, 0x660, 0x6f0, 0x7c0, 0x966, 0x9e6, 0xa66, 0xae6, 0xb66, 0xbe6, 0xc66, 0xce6, 0xd66, 0xde6,
    0xe50, 0xed0, 0xf20, 0x1040, 0x1090, 0x17e0, 0x1810, 0x1946, 0x19d0, 0x1a80, 0x1a90, 0x1b50,
    0x1bb0, 0x1c40, 0x1c50, 0xa620, 0xa8d0, 0xa900, 0xa9d0, 0xa9f0, 0xaa50, 0xabf0, 0xff10, 0x104a0,
    0x10d30, 0x11066, 0x110f0, 0x11136, 0x111d0, 0x112f0, 0x11450, 0x114d0, 0x11650, 0x116c0,
    0x11730, 0x118e0, 0x11950, 0x11c50, 0x11d50, 0x11da0, 0x11f50, 0x16a60, 0x16ac0, 0x16b50,
    0x1d7ce, 0x1d7d8, 0x1d7e2, 0x1d7ec, 0x1d7f6, 0x1e140, 0x1e2f0, 0x1e4f0, 0x1e950, 0x1fbf0]

/-- The value of a decimal digit; a single character is an integer exactly when it is one. -/
def digitValue (ch : Char) : Option Nat :=
  (digitZeros.find? fun z => z ≤ ch.toNat && ch.toNat < z + 10).map (ch.toNat - ·)

def isBlank (ch : Char) : Bool :=
  let n := ch.toNat
  (9 ≤ n && n ≤ 13) || (0x2000 ≤ n && n ≤ 0x200a) ||
    n ∈ [0x20, 0x85, 0xa0, 0x1680, 0x2028, 0x2029, 0x202f, 0x205f, 0x3000]

def strip (text : List Char) : List Char :=
  ((text.dropWhile isBlank).reverse.dropWhile isBlank).reverse

def sign : List Char → Int × List Char
  | '-' :: rest => (-1, rest)
  | '+' :: rest => (1, rest)
  | rest => (1, rest)

/-- Digits in groups of at least one, an underscore between two groups. -/
def digitValues (text : List Char) : Option (List Nat) :=
  let groups := text.splitOn '_'
  if groups.any List.isEmpty || 4300 < groups.flatten.length then none
  else groups.flatten.mapM digitValue

/-- `int(text)`; `none` is its `ValueError`. -/
def pyInt (text : List Char) : Option Int :=
  let (s, digits) := sign (strip text)
  (digitValues digits).map fun values => s * (values.foldl (fun n v => n * 10 + v) 0 : Nat)

def digitChar (v : Nat) : Char := Char.ofNat (48 + v)

/-- `str(n)`. -/
def pyStr (n : Int) : List Char :=
  (if n < 0 then ['-'] else []) ++
    if n = 0 then ['0'] else (Nat.digits 10 n.natAbs).reverse.map digitChar

example : pyInt " -1_0 ".toList = some (-10) := by decide +kernel

theorem plain_digitChar {v : Nat} (h : v < 10) : isBlank (digitChar v) = false ∧
    digitChar v ≠ '-' ∧ digitChar v ≠ '+' ∧ digitChar v ≠ '_' ∧ digitValue (digitChar v) = some v := by
  revert v
  decide +kernel

theorem mapM_digitValue {vs : List Nat} (h : ∀ v ∈ vs, v < 10) :
    (vs.map digitChar).mapM digitValue = some vs := by
  induction vs with
  | nil => rfl
  | cons v vs ih =>
    rw [List.map_cons, List.mapM_cons, (plain_digitChar (h v (.head _))).2.2.2.2,
      ih fun u hu => h u (.tail _ hu)]
    rfl

theorem dropWhile_digits {vs : List Nat} (h : ∀ v ∈ vs, v < 10) :
    (vs.map digitChar).dropWhile isBlank = vs.map digitChar := by
  cases vs with
  | nil => rfl
  | cons v vs => rw [List.map_cons, List.dropWhile_cons, (plain_digitChar (h v (.head _))).1]; rfl

theorem sign_digits {vs : List Nat} (h : ∀ v ∈ vs, v < 10) :
    sign (vs.map digitChar) = (1, vs.map digitChar) := by
  cases vs with
  | nil => rfl
  | cons v vs =>
    obtain ⟨-, hminus, hplus, -⟩ := plain_digitChar (h v (.head _))
    rw [List.map_cons, sign]
    · exact fun _ h => hminus (List.cons.inj h).1
    · exact fun _ h => hplus (List.cons.inj h).1

/-- Plain decimal digits read as the number they write. -/
theorem pyInt_digits {vs : List Nat} (h : ∀ v ∈ vs, v < 10) (hne : vs ≠ []) (hlen : vs.length ≤ 4300) :
    pyInt (vs.map digitChar) = some ((vs.foldl (fun n v => n * 10 + v) 0 : Nat) : Int) := by
  have hstrip : strip (vs.map digitChar) = vs.map digitChar := by
    have hrev : ∀ v ∈ vs.reverse, v < 10 := fun v hv => h v (List.mem_reverse.mp hv)
    rw [strip, dropWhile_digits h, ← List.map_reverse, dropWhile_digits hrev, List.map_reverse,
      List.reverse_reverse]
  have hsplit : (vs.map digitChar).splitOn '_' = [vs.map digitChar] := by
    refine List.splitOnP_eq_singleton fun ch hch => ?_
    obtain ⟨v, hv, rfl⟩ := List.mem_map.mp hch
    exact beq_false_of_ne (plain_digitChar (h v hv)).2.2.2.1
  have hvalues : digitValues (vs.map digitChar) = some vs := by
    have hnil : (vs.map digitChar).isEmpty = false := by simpa using hne
    rw [digitValues, hsplit]
    simp only [List.any_cons, List.any_nil, hnil, List.flatten_singleton, List.length_map,
      Bool.false_or, mapM_digitValue h, decide_eq_true_eq]
    exact if_neg (by omega)
  rw [pyInt, hstrip, sign_digits h]
  simp only [hvalues, Option.map_some, Int.one_mul]

/-- `int(str(n))`, below the limit on digits. -/
theorem pyInt_pyStr {n : Int} (hn : 0 ≤ n) (hlt : n < 2 ^ 64) : pyInt (pyStr n) = some n := by
  obtain ⟨k, rfl⟩ := Int.eq_ofNat_of_zero_le hn
  rw [pyStr, if_neg (by omega), List.nil_append]
  split_ifs with hzero
  · rw [hzero]
    decide +kernel
  · have hk : k ≠ 0 := by omega
    have hdigits : ∀ v ∈ (Nat.digits 10 k).reverse, v < 10 := fun v hv =>
      Nat.digits_lt_base (by decide) (List.mem_reverse.mp hv)
    have hlen : (Nat.digits 10 k).length ≤ 4300 := by
      have hshort := (Nat.digits_length_le_iff (b := 10) (k := 20) (by decide) k).mpr (by omega)
      omega
    rw [Int.natAbs_natCast, pyInt_digits hdigits, List.foldl_reverse]
    · have hof := Nat.ofDigits_digits 10 k
      rw [Nat.ofDigits_eq_foldr] at hof
      have hfold : (Nat.digits 10 k).foldr (fun v n => n * 10 + v) 0 = k := by
        refine Eq.trans ?_ hof
        congr 1
        funext v n
        rw [Nat.cast_id]
        omega
      rw [hfold]
    · rwa [Ne, List.reverse_eq_nil_iff, Nat.digits_eq_nil_iff_eq_zero]
    · rwa [List.length_reverse]

end Zagg.Lib.PyText
