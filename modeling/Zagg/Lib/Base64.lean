import Mathlib.Algebra.Group.Nat.Defs
import Mathlib.Tactic.Common

/-!
# Base64 text and little-endian words

`base64.b64encode` and `base64.b64decode`. The decoder skips characters outside the alphabet,
stops at a complete padding and fails on a group left open. A word array is its words' eight
bytes each, lowest first.
-/
namespace Zagg.Lib.Base64

def symbol (v : Nat) : Char :=
  if v < 26 then Char.ofNat (65 + v)
  else if v < 52 then Char.ofNat (71 + v)
  else if v < 62 then Char.ofNat (v - 4)
  else if v = 62 then '+' else '/'

def value (ch : Char) : Option Nat :=
  let n := ch.toNat
  if 65 ≤ n ∧ n ≤ 90 then some (n - 65)
  else if 97 ≤ n ∧ n ≤ 122 then some (n - 71)
  else if 48 ≤ n ∧ n ≤ 57 then some (n + 4)
  else if ch = '+' then some 62
  else if ch = '/' then some 63 else none

def encode : List Nat → List Char
  | [] => []
  | [x] => [symbol (x / 4), symbol (x % 4 * 16), '=', '=']
  | [x, y] => [symbol (x / 4), symbol (x % 4 * 16 + y / 16), symbol (y % 16 * 4), '=']
  | x :: y :: z :: rest => symbol (x / 4) :: symbol (x % 4 * 16 + y / 16) ::
      symbol (y % 16 * 4 + z / 64) :: symbol (z % 64) :: encode rest

/-- The decoder at a place of a group of four, with the bits left over and the pads seen. -/
def decodeFrom (place left pads : Nat) : List Char → Option (List Nat)
  | [] => if place = 0 then some [] else none
  | ch :: rest =>
    if ch = '=' then
      if place < 2 then decodeFrom place left pads rest
      else if 4 ≤ place + (pads + 1) then some []
      else decodeFrom place left (pads + 1) rest
    else
      match value ch with
      | none => decodeFrom place left pads rest
      | some v =>
        match place with
        | 0 => decodeFrom 1 v 0 rest
        | 1 => (decodeFrom 2 (v % 16) 0 rest).map ((left * 4 + v / 16) :: ·)
        | 2 => (decodeFrom 3 (v % 4) 0 rest).map ((left * 16 + v / 4) :: ·)
        | _ => (decodeFrom 0 0 0 rest).map ((left * 64 + v) :: ·)

def decode (text : List Char) : Option (List Nat) := decodeFrom 0 0 0 text

example : decode (encode [77, 97]) = some [77, 97] := by decide

theorem value_symbol {v : Nat} (h : v < 64) : value (symbol v) = some v ∧ symbol v ≠ '=' := by
  revert v
  decide

section Steps
variable {v left pads : Nat} {rest : List Char} (h : v < 64)
include h

/-- A symbol is neither a pad nor skipped, at any place. -/
theorem decodeFrom_symbol (place : Nat) : decodeFrom place left pads (symbol v :: rest) =
    match place with
    | 0 => decodeFrom 1 v 0 rest
    | 1 => (decodeFrom 2 (v % 16) 0 rest).map ((left * 4 + v / 16) :: ·)
    | 2 => (decodeFrom 3 (v % 4) 0 rest).map ((left * 16 + v / 4) :: ·)
    | _ => (decodeFrom 0 0 0 rest).map ((left * 64 + v) :: ·) := by
  rw [decodeFrom, if_neg (value_symbol h).2, (value_symbol h).1]

theorem decodeFrom_zero : decodeFrom 0 left pads (symbol v :: rest) = decodeFrom 1 v 0 rest :=
  decodeFrom_symbol h 0

theorem decodeFrom_one : decodeFrom 1 left pads (symbol v :: rest) =
    (decodeFrom 2 (v % 16) 0 rest).map ((left * 4 + v / 16) :: ·) :=
  decodeFrom_symbol h 1

theorem decodeFrom_two : decodeFrom 2 left pads (symbol v :: rest) =
    (decodeFrom 3 (v % 4) 0 rest).map ((left * 16 + v / 4) :: ·) :=
  decodeFrom_symbol h 2

theorem decodeFrom_three : decodeFrom 3 left pads (symbol v :: rest) =
    (decodeFrom 0 0 0 rest).map ((left * 64 + v) :: ·) :=
  decodeFrom_symbol h 3

end Steps

theorem decode_encode : ∀ {bytes : List Nat}, (∀ x ∈ bytes, x < 256) →
    decode (encode bytes) = some bytes
  | [], _ => rfl
  | [x], h => by
    have hx := h x (.head _)
    rw [decode, encode, decodeFrom_zero (by omega), decodeFrom_one (by omega)]
    have hbyte : x / 4 * 4 + x % 4 * 16 / 16 = x := by omega
    rw [hbyte]
    rfl
  | [x, y], h => by
    have hx := h x (.head _)
    have hy := h y (.tail _ (.head _))
    rw [decode, encode, decodeFrom_zero (by omega), decodeFrom_one (by omega),
      decodeFrom_two (by omega)]
    have hfirst : x / 4 * 4 + (x % 4 * 16 + y / 16) / 16 = x := by omega
    have hsecond : (x % 4 * 16 + y / 16) % 16 * 16 + y % 16 * 4 / 4 = y := by omega
    rw [hfirst, hsecond]
    rfl
  | x :: y :: z :: rest, h => by
    have hx := h x (.head _)
    have hy := h y (.tail _ (.head _))
    have hz := h z (.tail _ (.tail _ (.head _)))
    have hrest : decodeFrom 0 0 0 (encode rest) = some rest :=
      decode_encode fun w hw => h w (.tail _ (.tail _ (.tail _ hw)))
    rw [decode, encode, decodeFrom_zero (by omega), decodeFrom_one (by omega),
      decodeFrom_two (by omega), decodeFrom_three (by omega), hrest]
    have hfirst : x / 4 * 4 + (x % 4 * 16 + y / 16) / 16 = x := by omega
    have hsecond : (x % 4 * 16 + y / 16) % 16 * 16 + (y % 16 * 4 + z / 64) / 4 = y := by omega
    have hthird : (y % 16 * 4 + z / 64) % 4 * 64 + z % 64 = z := by omega
    rw [hfirst, hsecond, hthird]
    rfl

/-- The eight bytes of a word. -/
def wordBytes (w : Nat) : List Nat :=
  [w % 256, w / 256 % 256, w / 256 ^ 2 % 256, w / 256 ^ 3 % 256, w / 256 ^ 4 % 256,
    w / 256 ^ 5 % 256, w / 256 ^ 6 % 256, w / 256 ^ 7 % 256]

def bytesWords : List Nat → Option (List Nat)
  | [] => some []
  | b₀ :: b₁ :: b₂ :: b₃ :: b₄ :: b₅ :: b₆ :: b₇ :: rest =>
    (bytesWords rest).map ((b₀ + 256 * b₁ + 256 ^ 2 * b₂ + 256 ^ 3 * b₃ + 256 ^ 4 * b₄ + 256 ^ 5 * b₅ +
      256 ^ 6 * b₆ + 256 ^ 7 * b₇) :: ·)
  | _ => none

theorem wordBytes_lt {w x : Nat} (h : x ∈ wordBytes w) : x < 256 := by
  simp only [wordBytes, List.mem_cons, List.not_mem_nil, or_false] at h
  omega

theorem bytesWords_flatMap {ws : List Nat} (h : ∀ w ∈ ws, w < 2 ^ 64) :
    bytesWords (ws.flatMap wordBytes) = some ws := by
  induction ws with
  | nil => rfl
  | cons w ws ih =>
    have hw := h w (.head _)
    rw [List.flatMap_cons, wordBytes]
    simp only [List.cons_append, List.nil_append]
    rw [bytesWords, ih fun v hv => h v (.tail _ hv), Option.map_some]
    refine congrArg (fun v => some (v :: ws)) ?_
    omega

theorem decode_words {ws : List Nat} (h : ∀ w ∈ ws, w < 2 ^ 64) :
    (decode (encode (ws.flatMap wordBytes))).bind bytesWords = some ws := by
  have hbytes : ∀ x ∈ ws.flatMap wordBytes, x < 256 := by
    intro x hx
    obtain ⟨w, -, hx⟩ := List.mem_flatMap.mp hx
    exact wordBytes_lt hx
  rw [decode_encode hbytes, Option.bind_some, bytesWords_flatMap h]

theorem symbol_ascii {v : Nat} (h : v < 64) : (symbol v).toNat < 128 := by
  revert v
  decide

theorem encode_ascii : ∀ {bytes : List Nat}, (∀ x ∈ bytes, x < 256) →
    ∀ ch ∈ encode bytes, ch.toNat < 128
  | [], _ => nofun
  | [x], h => by
    have hx := h x (.head _)
    simp only [encode, List.forall_mem_cons]
    exact ⟨symbol_ascii (by omega), symbol_ascii (by omega), by decide, by decide, nofun⟩
  | [x, y], h => by
    have hx := h x (.head _)
    have hy := h y (.tail _ (.head _))
    simp only [encode, List.forall_mem_cons]
    exact ⟨symbol_ascii (by omega), symbol_ascii (by omega), symbol_ascii (by omega), by decide, nofun⟩
  | x :: y :: z :: rest, h => by
    have hx := h x (.head _)
    have hy := h y (.tail _ (.head _))
    have hz := h z (.tail _ (.tail _ (.head _)))
    simp only [encode, List.forall_mem_cons]
    exact ⟨symbol_ascii (by omega), symbol_ascii (by omega), symbol_ascii (by omega),
      symbol_ascii (by omega), encode_ascii fun w hw => h w (.tail _ (.tail _ (.tail _ hw)))⟩

end Zagg.Lib.Base64
