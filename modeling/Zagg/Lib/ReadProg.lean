import Mathlib.Tactic.Common

/-!
# Programs that read a store

A program is a tree of reads: it asks a query, continues on the answer, and ends with
a result or an error. `run` answers every read from one fixed store. `exec` threads a
state through the reads, so that the answers can change while the program runs, and
`exec_run` says that a handler which always answers from one store is that store.
`Reads p qs` says that `p` asks exactly `qs`, whatever it is answered.
-/
namespace Zagg.Lib

inductive ReadProg (Q : Type) (A : Q → Type) (β : Type)
  | pure (b : β)
  | fail (msg : String)
  | read (q : Q) (k : A q → ReadProg Q A β)

namespace ReadProg

variable {Q : Type} {A : Q → Type} {α β γ σ : Type}

def bind : ReadProg Q A α → (α → ReadProg Q A β) → ReadProg Q A β
  | .pure a, g => g a
  | .fail msg, _ => .fail msg
  | .read q k, g => .read q fun a => (k a).bind g

instance : Monad (ReadProg Q A) where
  pure := .pure
  bind := bind

theorem bind_pure (p : ReadProg Q A α) : p.bind .pure = p := by
  induction p with
  | pure a => rfl
  | fail msg => rfl
  | read q k ih => exact congrArg (ReadProg.read q) (funext ih)

theorem bind_assoc (p : ReadProg Q A α) (g : α → ReadProg Q A β) (e : β → ReadProg Q A γ) :
    (p.bind g).bind e = p.bind fun a => (g a).bind e := by
  induction p with
  | pure a => rfl
  | fail msg => rfl
  | read q k ih => exact congrArg (ReadProg.read q) (funext ih)

instance : LawfulMonad (ReadProg Q A) :=
  LawfulMonad.mk' (ReadProg Q A) (fun p => bind_pure p) (fun _ _ => rfl) bind_assoc

def ask (q : Q) : ReadProg Q A (A q) := .read q .pure

def ofExcept : Except String α → ReadProg Q A α
  | .ok a => .pure a
  | .error msg => .fail msg

/-- Every read is answered by the same store. -/
def run (f : (q : Q) → A q) : ReadProg Q A β → Except String β
  | .pure b => .ok b
  | .fail msg => .error msg
  | .read q k => run f (k (f q))

/-- Every read is answered by a handler that may change the state. -/
def exec (h : (q : Q) → σ → A q × σ) : ReadProg Q A β → σ → Except String β × σ
  | .pure b, s => (.ok b, s)
  | .fail msg, s => (.error msg, s)
  | .read q k, s => exec h (k (h q s).1) (h q s).2

section Run

variable (f : (q : Q) → A q)

@[simp] theorem run_pure (b : β) : run f (Pure.pure b : ReadProg Q A β) = .ok b := rfl

@[simp] theorem run_ask (q : Q) : run f (ask q) = .ok (f q) := rfl

@[simp] theorem run_ofExcept (x : Except String β) : run f (ofExcept x) = x := by
  cases x <;> rfl

@[simp] theorem run_bind (p : ReadProg Q A α) (g : α → ReadProg Q A β) :
    run f (p >>= g) = run f p >>= fun a => run f (g a) := by
  induction p with
  | pure a => rfl
  | fail msg => rfl
  | read q k ih => exact ih (f q)

@[simp] theorem run_foldlM (g : β → α → ReadProg Q A β) (l : List α) (b : β) :
    run f (l.foldlM g b) = l.foldlM (fun b a => run f (g b a)) b := by
  induction l generalizing b with
  | nil => rfl
  | cons a l ih =>
    rw [List.foldlM_cons, List.foldlM_cons, run_bind]
    simp only [ih]

@[simp] theorem run_mapM (g : α → ReadProg Q A β) (l : List α) :
    run f (l.mapM g) = l.mapM fun a => run f (g a) := by
  induction l with
  | nil => rfl
  | cons a l ih => simp only [List.mapM_cons, run_bind, ih, run_pure]; rfl

end Run

section Loops

@[simp] theorem ok_bind (a : α) (g : α → Except String β) : (Except.ok a >>= g) = g a := rfl

@[simp] theorem error_bind (msg : String) (g : α → Except String β) :
    (Except.error msg >>= g) = Except.error msg := rfl

/-- A loop that never fails is a fold. -/
theorem foldlM_ok (g : β → α → β) (l : List α) (b : β) :
    l.foldlM (fun b a => (.ok (g b a) : Except String β)) b = .ok (l.foldl g b) := by
  induction l generalizing b with
  | nil => rfl
  | cons a l ih => exact ih (g b a)

theorem mapM_ok (g : α → β) (l : List α) :
    l.mapM (fun a => (.ok (g a) : Except String β)) = .ok (l.map g) := by
  induction l with
  | nil => rfl
  | cons a l ih => rw [List.mapM_cons, ih]; rfl

/-- What a loop that ends well preserves, from one prefix of its list to the next. -/
theorem foldlM_prefix {g : β → α → Except String β} {P : List α → β → Prop}
    (hs : ∀ pre a b b', P pre b → g b a = .ok b' → P (pre ++ [a]) b') (l : List α) :
    ∀ pre b b', P pre b → l.foldlM g b = .ok b' → P (pre ++ l) b' := by
  induction l with
  | nil =>
    intro pre b b' hb h
    obtain rfl := Except.ok.inj h
    rwa [List.append_nil]
  | cons a l ih =>
    intro pre b b' hb h
    rw [List.foldlM_cons] at h
    cases ha : g b a with
    | error msg => rw [ha] at h; cases h
    | ok c =>
      rw [ha] at h
      rw [← List.singleton_append, ← List.append_assoc]
      exact ih _ c b' (hs pre a b c hb ha) h

/-- A loop whose every step ends well, on the prefixes it goes through. -/
theorem foldlM_total {g : β → α → Except String β} {P : List α → β → Prop} {l₀ : List α}
    (hs : ∀ pre a post b, l₀ = pre ++ a :: post → P pre b →
      ∃ b', g b a = .ok b' ∧ P (pre ++ [a]) b') (l : List α) :
    ∀ pre b, l₀ = pre ++ l → P pre b → ∃ b', l.foldlM g b = .ok b' ∧ P l₀ b' := by
  induction l with
  | nil =>
    intro pre b hl hb
    rw [List.append_nil] at hl
    exact ⟨b, rfl, hl ▸ hb⟩
  | cons a l ih =>
    intro pre b hl hb
    obtain ⟨c, hc, hp⟩ := hs pre a l b hl hb
    obtain ⟨b', hb', hp'⟩ := ih (pre ++ [a]) c (by rw [hl, List.append_assoc]; rfl) hp
    refine ⟨b', ?_, hp'⟩
    rw [List.foldlM_cons, hc]
    exact hb'

end Loops

/-- The program asks `qs` in order, unless an error ends it before. -/
inductive Reads : ReadProg Q A β → List Q → Prop
  | pure (b : β) : Reads (.pure b) []
  | fail (msg : String) (qs : List Q) : Reads (.fail msg) qs
  | read {q : Q} {k : A q → ReadProg Q A β} {qs : List Q} :
      (∀ a, Reads (k a) qs) → Reads (.read q k) (q :: qs)

theorem Reads.ask (q : Q) : Reads (ReadProg.ask q : ReadProg Q A (A q)) [q] :=
  .read fun a => .pure a

theorem Reads.ofExcept (x : Except String β) : Reads (ReadProg.ofExcept x : ReadProg Q A β) [] := by
  cases x with
  | ok b => exact .pure b
  | error msg => exact .fail msg []

theorem Reads.bind {p : ReadProg Q A α} {g : α → ReadProg Q A β} {qs qs' : List Q}
    (hp : Reads p qs) (hg : ∀ a, Reads (g a) qs') : Reads (p >>= g) (qs ++ qs') := by
  induction hp with
  | pure b => exact hg b
  | fail msg qs => exact .fail msg _
  | read _ ih => exact .read fun a => ih a

/-- A program followed by one that reads nothing. -/
theorem Reads.last {p : ReadProg Q A α} {g : α → ReadProg Q A β} {qs : List Q}
    (hp : Reads p qs) (hg : ∀ a, Reads (g a) []) : Reads (p >>= g) qs := by
  rw [← List.append_nil qs]
  exact hp.bind hg

theorem Reads.foldlM {g : β → α → ReadProg Q A β} {qf : α → List Q}
    (hg : ∀ b a, Reads (g b a) (qf a)) (l : List α) (b : β) :
    Reads (l.foldlM g b) (l.flatMap qf) := by
  induction l generalizing b with
  | nil => exact .pure b
  | cons a l ih =>
    rw [List.foldlM_cons, List.flatMap_cons]
    exact (hg b a).bind fun b' => ih b'

theorem Reads.mapM {g : α → ReadProg Q A β} {qf : α → List Q}
    (hg : ∀ a, Reads (g a) (qf a)) (l : List α) : Reads (l.mapM g) (l.flatMap qf) := by
  induction l with
  | nil => exact .pure []
  | cons a l ih =>
    rw [List.mapM_cons, List.flatMap_cons]
    exact (hg a).bind fun b => ih.last fun bs => .pure _

/-- The states along a run that ends well, one after each query of the list. -/
theorem Reads.exec_ok {h : (q : Q) → σ → A q × σ} {p : ReadProg Q A β} {qs : List Q}
    (hp : Reads p qs) : ∀ {s : σ} {b : β}, (exec h p s).1 = .ok b →
      (exec h p s).2 = qs.foldl (fun s q => (h q s).2) s := by
  induction hp with
  | pure b => intros; rfl
  | fail msg qs => intro s b hb; cases hb
  | read _ ih => exact fun hb => ih _ hb

/-- A handler that answers as the store does along the reads; `I i` holds before read `i`. -/
theorem Reads.exec_run {h : (q : Q) → σ → A q × σ} {f : (q : Q) → A q} {p : ReadProg Q A β}
    {qs : List Q} (hp : Reads p qs) : ∀ {I : Nat → σ → Prop} {s : σ},
    (∀ i q s, qs[i]? = some q → I i s → (h q s).1 = f q ∧ I (i + 1) (h q s).2) → I 0 s →
    (exec h p s).1 = run f p := by
  induction hp with
  | pure b => intros; rfl
  | fail msg qs => intros; rfl
  | read _ ih =>
    intro I s hI hs
    obtain ⟨ha, hs'⟩ := hI 0 _ s rfl hs
    rw [exec, run, ha]
    refine ih _ (I := fun i => I (i + 1)) (fun i q s hq hi => hI (i + 1) q s ?_ hi) hs'
    rw [List.getElem?_cons_succ]
    exact hq

end ReadProg

end Zagg.Lib
