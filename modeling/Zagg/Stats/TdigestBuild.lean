import Zagg.Stats.Weight

/-!
# Digests with checked words

Every entry point that builds or merges digests checks its words before the arithmetic: one
word a row, and none of them the reserved 0. A fold tree runs the entry points over the
observations of its leaves.
-/
namespace Zagg.Stats

/-- `_check_words`: one channel's input, aligned with `n` rows and without the reserved word. -/
def checkWords (label : String) (words : Words) (n : Nat) : Except String Words :=
  if words.length ≠ n then
    .error s!"{label} shape ({words.length},) does not match the expected ({n},)"
  else if 0 ∈ words then
    .error (s!"{label} contains the reserved 0 word (spec §8.2's unobserved marker for a " ++
      "toc word, and no valid morton word); pass encoded words, not a fill value")
  else .ok words

theorem getD_map_zipIdx {α β : Type} (l : List α) (f : α × Nat → β) (d : β) {c : α × Nat}
    (hc : c ∈ l.zipIdx) : (l.zipIdx.map f).getD c.2 d = f c := by
  obtain ⟨a, i⟩ := c
  have hi := List.mem_zipIdx' hc
  simp [List.getD_eq_getElem?_getD, hi.1, ← hi.2]

section
variable (num : Numerics)

def buildTdigestChecked (delta : Nat) (declared : List Channel) (values : List Value)
    (words : List Words) : Except String Part := do
  let channels ← declared.zipIdx.mapM fun c =>
    checkWords (toString c.1) (words.getD c.2 []) values.length
  return buildTdigest num delta declared values channels

def mergeTdigestsChecked (delta : Nat) (declared : List Channel) (a b : Part) :
    Except String Part := do
  let _ ← declared.zipIdx.mapM fun c => do
    let left ← checkWords s!"{c.1}1" (a.words.getD c.2 []) a.digest.length
    let right ← checkWords s!"{c.1}2" (b.words.getD c.2 []) b.digest.length
    return (left, right)
  return mergeTdigests num delta declared a b

/-- Only the nonempty digests' words are checked. -/
def mergeTdigestsKwayChecked (delta : Nat) (declared : List Channel) (parts : List Part) :
    Except String Part := do
  let _ ← (parts.zipIdx.filter fun p => p.1.digest ≠ []).mapM fun p =>
    declared.zipIdx.mapM fun c =>
      checkWords s!"{c.1}[{p.2}]" (p.1.words.getD c.2 []) p.1.digest.length
  return mergeTdigestsKway num delta declared parts

end

structure Obs where
  value : Value
  words : List Nat

def Obs.word (i : Nat) (o : Obs) : Nat := o.words.getD i 0

/-- The observations' words, channel by channel. -/
def channelsOf (declared : List Channel) (obs : List Obs) : List Words :=
  declared.zipIdx.map fun c => obs.map (Obs.word c.2)

/-- A fold tree over observations, with the compression of each node. -/
inductive MergeTree where
  | build (delta : Nat) (obs : List Obs)
  | pair (delta : Nat) (left right : MergeTree)
  | kway (delta : Nat) (trees : List MergeTree)

namespace MergeTree

mutual

def observations : MergeTree → List Obs
  | build _ obs => obs
  | pair _ left right => left.observations ++ right.observations
  | kway _ trees => allObservations trees

def allObservations : List MergeTree → List Obs
  | [] => []
  | t :: ts => t.observations ++ allObservations ts

end

variable (num : Numerics) (declared : List Channel)

mutual

def eval : MergeTree → Except String Part
  | build delta obs =>
    buildTdigestChecked num delta declared (obs.map Obs.value) (channelsOf declared obs)
  | pair delta left right => do
    mergeTdigestsChecked num delta declared (← left.eval) (← right.eval)
  | kway delta trees => do mergeTdigestsKwayChecked num delta declared (← evalAll trees)

def evalAll : List MergeTree → Except String (List Part)
  | [] => .ok []
  | t :: ts => do return (← t.eval) :: (← evalAll ts)

end

end MergeTree
end Zagg.Stats
