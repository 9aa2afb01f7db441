import Zagg.Lib.Digits
import Zagg.Lib.PyText

/-!
# Decimal texts of fixed width

The ASCII texts of decimal digits: they read as the rank of their digits, numbers below a power
of ten are written at its width by filling up with zeros, and at one width the texts are in the
order of the numbers.
-/
namespace Zagg.Lib.DecimalText

open Zagg.Lib.PyText Zagg.Lib.Digits

/-- A digit of `[0-9]`. -/
def isAsciiDigit (ch : Char) : Bool := 48 ≤ ch.toNat && ch.toNat ≤ 57

def text (ds : List (Fin 10)) : List Char := ds.map fun d => digitChar d.val

/-- `f"{n:0{width}d}"` of a natural number. -/
def padded (width n : Nat) : List Char :=
  List.replicate (width - (pyStr n).length) '0' ++ pyStr n

@[simp] theorem length_text (ds : List (Fin 10)) : (text ds).length = ds.length := List.length_map _

theorem text_append (ds es : List (Fin 10)) : text (ds ++ es) = text ds ++ text es :=
  List.map_append

theorem toNat_digitChar {v : Nat} (h : v < 10) : (digitChar v).toNat = 48 + v := by
  revert v
  decide

theorem isAsciiDigit_digitChar (d : Fin 10) : isAsciiDigit (digitChar d.val) = true := by
  have hd := toNat_digitChar d.isLt
  have hlt := d.isLt
  rw [isAsciiDigit, Bool.and_eq_true, decide_eq_true_eq, decide_eq_true_eq]
  omega

theorem exists_digit {ch : Char} (h : isAsciiDigit ch = true) : ∃ d : Fin 10, digitChar d.val = ch := by
  rw [isAsciiDigit, Bool.and_eq_true, decide_eq_true_eq, decide_eq_true_eq] at h
  refine ⟨⟨ch.toNat - 48, by omega⟩, ?_⟩
  apply Char.toNat_inj.mp
  rw [toNat_digitChar (by show ch.toNat - 48 < 10; omega)]
  show 48 + (ch.toNat - 48) = ch.toNat
  omega

/-- The texts of digits are the texts that the pattern `[0-9]*` matches whole. -/
theorem exists_text {s : List Char} : s.all isAsciiDigit = true ↔ ∃ ds, text ds = s := by
  constructor
  · intro h
    induction s with
    | nil => exact ⟨[], rfl⟩
    | cons ch s ih =>
      rw [List.all_cons, Bool.and_eq_true] at h
      obtain ⟨d, hd⟩ := exists_digit h.1
      obtain ⟨ds, hds⟩ := ih h.2
      exact ⟨d :: ds, by rw [← hd, ← hds]; rfl⟩
  · intro ⟨ds, hds⟩
    rw [← hds, text, List.all_map, List.all_eq_true]
    intro d _
    exact isAsciiDigit_digitChar d

/-- `int` of a text of digits. -/
theorem pyInt_text {ds : List (Fin 10)} (hne : ds ≠ []) (hlen : ds.length ≤ 4300) :
    pyInt (text ds) = some ((rank ds : Nat) : Int) := by
  have hmap : text ds = (ds.map Fin.val).map digitChar := by
    rw [List.map_map]
    rfl
  have hlt : ∀ v ∈ ds.map Fin.val, v < 10 := by
    intro v hv
    obtain ⟨d, -, rfl⟩ := List.mem_map.mp hv
    exact d.isLt
  rw [hmap, pyInt_digits hlt (by simpa using hne) (by simpa using hlen), List.foldl_map]
  rfl

/-- Below a power of ten, `str` and its filling are digits of that rank. -/
theorem exists_pyStr (n : Nat) : ∃ ds : List (Fin 10), pyStr n = text ds ∧ rank ds = n ∧
    ∀ width, 0 < width → n < 10 ^ width → ds.length ≤ width := by
  by_cases hzero : n = 0
  · subst hzero
    exact ⟨[0], by decide, rfl, fun _ h _ => h⟩
  · have hfin : ∀ vs : List Nat, (∀ v ∈ vs, v < 10) → ∃ ds : List (Fin 10), ds.map Fin.val = vs := by
      intro vs h
      induction vs with
      | nil => exact ⟨[], rfl⟩
      | cons v vs ih =>
        obtain ⟨ds, hds⟩ := ih fun u hu => h u (.tail _ hu)
        exact ⟨⟨v, h v (.head _)⟩ :: ds, congrArg (v :: ·) hds⟩
    obtain ⟨ds, hds⟩ := hfin (Nat.digits 10 n).reverse fun v hv =>
      Nat.digits_lt_base (by decide) (List.mem_reverse.mp hv)
    have hlength : ds.length = (Nat.digits 10 n).length := by
      rw [← List.length_map Fin.val, hds, List.length_reverse]
    refine ⟨ds, ?_, ?_, fun width _ hlt => ?_⟩
    · have hne : (n : Int) ≠ 0 := by omega
      rw [pyStr, if_neg (by omega), List.nil_append, if_neg hne, Int.natAbs_natCast, ← hds,
        List.map_map]
      rfl
    · have hfold : rank ds = (ds.map Fin.val).foldl (fun r v => r * 10 + v) 0 :=
        (List.foldl_map ..).symm
      have hof := Nat.ofDigits_digits 10 n
      rw [Nat.ofDigits_eq_foldr] at hof
      rw [hfold, hds, List.foldl_reverse]
      refine Eq.trans ?_ hof
      congr 1
      funext v r
      rw [Nat.cast_id]
      omega
    · rw [hlength]
      exact (Nat.digits_length_le_iff (by decide) n).mpr hlt

theorem rank_zeros (k : Nat) (ds : List (Fin 10)) : rank (List.replicate k 0 ++ ds) = rank ds := by
  have hzero : rank (List.replicate k (0 : Fin 10)) = 0 := by
    induction k with
    | zero => rfl
    | succ k ih => rw [List.replicate_succ, rank_cons, ih]; simp
  rw [rank_append, hzero, Nat.zero_mul, Nat.zero_add]

theorem exists_padded {width n : Nat} (hw : 0 < width) (h : n < 10 ^ width) :
    ∃ ds : List (Fin 10), padded width n = text ds ∧ rank ds = n ∧ ds.length = width := by
  obtain ⟨ds, htext, hrank, hlen⟩ := exists_pyStr n
  have hle := hlen width hw h
  refine ⟨List.replicate (width - ds.length) 0 ++ ds, ?_, ?_, ?_⟩
  · rw [padded, htext, length_text, text_append]
    congr 1
    rw [text, List.map_replicate]
    rfl
  · rw [rank_zeros, hrank]
  · rw [List.length_append, List.length_replicate]
    omega

/-- At one width the texts are in the order of the numbers. -/
theorem text_lt {ds es : List (Fin 10)} (hlen : ds.length = es.length) (h : rank ds < rank es) :
    text ds < text es := by
  induction ds generalizing es with
  | nil =>
    obtain rfl := List.length_eq_zero_iff.mp hlen.symm
    exact absurd h (Nat.lt_irrefl _)
  | cons d ds ih =>
    cases es with
    | nil => simp at hlen
    | cons e es =>
      have hlen' : ds.length = es.length := by simpa using hlen
      rw [rank_cons, rank_cons, hlen'] at h
      have hds := rank_lt ds
      have hes := rank_lt es
      rw [hlen'] at hds
      by_cases hde : d = e
      · subst hde
        exact List.Lex.cons (ih hlen' (by omega))
      · refine List.Lex.rel ?_
        have hlt : d.val < e.val := by
          by_contra hge
          have hne : d.val ≠ e.val := fun heq => hde (Fin.ext heq)
          have hmul : (e.val + 1) * 10 ^ es.length ≤ d.val * 10 ^ es.length :=
            Nat.mul_le_mul_right _ (by omega)
          rw [Nat.succ_mul] at hmul
          omega
        show (digitChar d.val) < digitChar e.val
        have hd := toNat_digitChar d.isLt
        have he := toNat_digitChar e.isLt
        rw [Char.lt_def, UInt32.lt_iff_toNat_lt]
        show (digitChar d.val).toNat < (digitChar e.val).toNat
        omega

end Zagg.Lib.DecimalText
