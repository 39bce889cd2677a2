/-
# Programs over atomic operations

A procedure that runs beside others is modelled as a tree of REQUESTS.  Each node asks for
one atomic operation and branches on its reply; nothing between two nodes is atomic.  The
procedures are written with `do`, so they read like the code they model, and the scheduler
of `Taihu.Lib.Machine` may interleave any number of them node by node.

Two things can be said of a program without knowing what runs beside it:

* `exec`: what it does when it runs alone, against a given meaning of the operations;
* `Keeps`: that along every path, whatever the replies, it meets a CONTRACT.  A contract
  gives for every operation a precondition on the caller's local state and the possible
  (reply, next local state) pairs.  `keeps_bind` composes proofs of sub-procedures.
-/
import Mathlib

namespace Concur

/-- The atomic operations, and the type of the reply to each. -/
structure Signature where
  Op : Type
  Reply : Op → Type

/-- A program: return a value, or request an operation and continue with its reply. -/
inductive Program (S : Signature) (α : Type) : Type where
  | pure (a : α) : Program S α
  | request (o : S.Op) (next : S.Reply o → Program S α) : Program S α

namespace Program

variable {S : Signature} {α β γ σ ℓ : Type}

/-! ## 1. The monad -/

def bind : Program S α → (α → Program S β) → Program S β
  | pure a, f => f a
  | request o next, f => request o (fun r => bind (next r) f)

instance : Monad (Program S) where
  pure := Program.pure
  bind := Program.bind

/-- The program that requests one operation and returns its reply. -/
def perform (o : S.Op) : Program S (S.Reply o) := request o Program.pure

@[simp] theorem pure_bind (a : α) (f : α → Program S β) :
    (Pure.pure a : Program S α) >>= f = f a := rfl

@[simp] theorem request_bind (o : S.Op) (next : S.Reply o → Program S α)
    (f : α → Program S β) : request o next >>= f = request o (fun r => next r >>= f) := rfl

@[simp] theorem perform_bind (o : S.Op) (f : S.Reply o → Program S β) :
    perform o >>= f = request o f := rfl

theorem bind_pure (p : Program S α) : p >>= Pure.pure = p := by
  induction p with
  | pure a => rfl
  | request o next ih => exact congrArg (request o) (funext ih)

theorem bind_assoc (p : Program S α) (f : α → Program S β) (g : β → Program S γ) :
    (p >>= f) >>= g = p >>= fun a => f a >>= g := by
  induction p with
  | pure a => rfl
  | request o next ih => exact congrArg (request o) (funext ih)

/-- The program has returned. -/
def isDone : Program S α → Bool
  | pure _ => true
  | request _ _ => false

/-- The value of a program that has returned. -/
def value? : Program S α → Option α
  | pure a => some a
  | request _ _ => none

/-! ## 2. Running alone -/

/-- Run a program by itself.  `none` when an operation is not enabled: with no other program
running nothing will ever enable it. -/
def exec (step : σ → ℓ → (o : S.Op) → Option (σ × ℓ × S.Reply o)) :
    Program S α → σ → ℓ → Option (σ × ℓ × α)
  | pure a, s, l => some (s, l, a)
  | request o next, s, l =>
    (step s l o).bind (fun x => exec step (next x.2.2) x.1 x.2.1)

theorem exec_bind (step : σ → ℓ → (o : S.Op) → Option (σ × ℓ × S.Reply o))
    (p : Program S α) (f : α → Program S β) (s : σ) (l : ℓ) :
    (p >>= f).exec step s l
      = (p.exec step s l).bind (fun x => (f x.2.2).exec step x.1 x.2.1) := by
  induction p generalizing s l with
  | pure a => rfl
  | request o next ih =>
    simp only [request_bind, exec, ih, Option.bind_assoc]

theorem exec_bind_eq_some {step : σ → ℓ → (o : S.Op) → Option (σ × ℓ × S.Reply o)}
    {p : Program S α} {f : α → Program S β} {s s' : σ} {l l' : ℓ} {b : β} :
    (p >>= f).exec step s l = some (s', l', b) ↔
      ∃ s1 l1 a, p.exec step s l = some (s1, l1, a) ∧ (f a).exec step s1 l1 = some (s', l', b) := by
  rw [exec_bind, Option.bind_eq_some_iff]
  constructor
  · rintro ⟨⟨s1, l1, a⟩, hp, hf⟩
    exact ⟨s1, l1, a, hp, hf⟩
  · rintro ⟨s1, l1, a, hp, hf⟩
    exact ⟨(s1, l1, a), hp, hf⟩

@[simp] theorem exec_perform (step : σ → ℓ → (o : S.Op) → Option (σ × ℓ × S.Reply o)) (o : S.Op)
    (s : σ) (l : ℓ) : (perform o).exec step s l = step s l o := by
  simp [perform, exec]

theorem exec_pure_eq_some {step : σ → ℓ → (o : S.Op) → Option (σ × ℓ × S.Reply o)} {a b : α}
    {s s' : σ} {l l' : ℓ} :
    (Pure.pure a : Program S α).exec step s l = some (s', l', b) ↔ s' = s ∧ l' = l ∧ b = a := by
  constructor
  · intro h
    cases h
    exact ⟨rfl, rfl, rfl⟩
  · rintro ⟨rfl, rfl, rfl⟩
    rfl

/-- Every operation the program requests when it runs alone satisfies `φ`, a relation between
the state before it, the operation and the state after it. -/
def Always (step : σ → ℓ → (o : S.Op) → Option (σ × ℓ × S.Reply o))
    (φ : σ → ℓ → S.Op → σ → Prop) : Program S α → σ → ℓ → Prop
  | pure _, _, _ => True
  | request o next, s, l =>
    ∀ x, step s l o = some x → φ s l o x.1 ∧ Always step φ (next x.2.2) x.1 x.2.1

/-! ## 3. Contracts -/

/-- A contract for the operations, seen from the caller's side: what the caller owes, and
which replies and which changes of its own local state it may get. -/
structure Contract (S : Signature) (ℓ : Type) where
  pre : S.Op → ℓ → Prop
  gives : (o : S.Op) → ℓ → S.Reply o → ℓ → Prop

/-- The program meets the contract from `l` on every path, and ends in `post`. -/
def Keeps (C : Contract S ℓ) (post : α → ℓ → Prop) : Program S α → ℓ → Prop
  | pure a, l => post a l
  | request o next, l =>
    C.pre o l ∧ ∀ r l', C.gives o l r l' → Keeps C post (next r) l'

variable {C : Contract S ℓ} {post : α → ℓ → Prop} {l : ℓ}

@[simp] theorem keeps_pure {a : α} :
    Keeps C post (Pure.pure a : Program S α) l ↔ post a l := Iff.rfl

@[simp] theorem keeps_done {a : α} : Keeps C post (Program.pure a : Program S α) l ↔ post a l :=
  Iff.rfl

@[simp] theorem keeps_request {o : S.Op} {next : S.Reply o → Program S α} :
    Keeps C post (request o next) l ↔
      C.pre o l ∧ ∀ r l', C.gives o l r l' → Keeps C post (next r) l' := Iff.rfl

@[simp] theorem keeps_perform {o : S.Op} {post : S.Reply o → ℓ → Prop} :
    Keeps C post (perform o) l ↔ C.pre o l ∧ ∀ r l', C.gives o l r l' → post r l' := Iff.rfl

/-- **Sequencing.**  A composed program keeps the contract exactly when its first part does,
up to a point from which the second part does. -/
theorem keeps_bind {p : Program S α} {f : α → Program S β} {post : β → ℓ → Prop} :
    Keeps C post (p >>= f) l ↔ Keeps C (fun a l' => Keeps C post (f a) l') p l := by
  induction p generalizing l with
  | pure a => rfl
  | request o next ih =>
    exact and_congr Iff.rfl (forall_congr' fun r => forall_congr' fun l' =>
      imp_congr Iff.rfl (ih r))

/-- A weaker conclusion. -/
theorem Keeps.mono {post' : α → ℓ → Prop} {p : Program S α} (h : Keeps C post p l)
    (himp : ∀ a l', post a l' → post' a l') : Keeps C post' p l := by
  induction p generalizing l with
  | pure a => exact himp a l h
  | request o next ih => exact ⟨h.1, fun r l' hg => ih r (h.2 r l' hg)⟩

/-- What every promise keeps holds at the end as well. -/
theorem Keeps.carry {I : ℓ → Prop} {p : Program S α} (h : Keeps C post p l) (hl : I l)
    (hI : ∀ o l r l', I l → C.gives o l r l' → I l') : Keeps C (fun a l' => post a l' ∧ I l') p l := by
  induction p generalizing l with
  | pure a => exact ⟨h, hl⟩
  | request o next ih => exact ⟨h.1, fun r l' hg => ih r (h.2 r l' hg) (hI o l r l' hl hg)⟩

/-- Sequencing, from a specification of the first part. -/
theorem Keeps.bind {p : Program S α} {f : α → Program S β} {m : α → ℓ → Prop}
    {post : β → ℓ → Prop} (h : Keeps C m p l)
    (hf : ∀ a l', m a l' → Keeps C post (f a) l') : Keeps C post (p >>= f) l :=
  keeps_bind.mpr (h.mono hf)

theorem Keeps.ite {c : Prop} [Decidable c] {p q : Program S α} (hp : c → Keeps C post p l)
    (hq : ¬ c → Keeps C post q l) : Keeps C post (if c then p else q) l := by
  split
  · rename_i h
    exact hp h
  · rename_i h
    exact hq h

/-- The contract that asks for what two contracts ask, and promises what both promise. -/
def Contract.both (C D : Contract S ℓ) : Contract S ℓ where
  pre := fun o l => C.pre o l ∧ D.pre o l
  gives := fun o l r l' => C.gives o l r l' ∧ D.gives o l r l'

/-- Two contracts can be checked one after the other. -/
theorem Keeps.both {D : Contract S ℓ} {post' : α → ℓ → Prop} {p : Program S α}
    (h : Keeps C post p l) (h' : Keeps D post' p l) :
    Keeps (C.both D) (fun a l' => post a l' ∧ post' a l') p l := by
  induction p generalizing l with
  | pure a => exact ⟨h, h'⟩
  | request o next ih =>
    exact ⟨⟨h.1, h'.1⟩, fun r l' hg => ih r (h.2 r l' hg.1) (h'.2 r l' hg.2)⟩

/-! ## 4. Which operations a program uses -/

/-- Every operation the program may request, on any path, satisfies `P`. -/
def Uses (P : S.Op → Prop) : Program S α → Prop
  | pure _ => True
  | request o next => P o ∧ ∀ r, Uses P (next r)

variable {P : S.Op → Prop}

@[simp] theorem uses_pure {a : α} : Uses P (Pure.pure a : Program S α) ↔ True := Iff.rfl

@[simp] theorem uses_done {a : α} : Uses P (Program.pure a : Program S α) ↔ True := Iff.rfl

@[simp] theorem uses_request {o : S.Op} {next : S.Reply o → Program S α} :
    Uses P (request o next) ↔ P o ∧ ∀ r, Uses P (next r) := Iff.rfl

theorem uses_perform {o : S.Op} (h : P o) : Uses P (perform o) := ⟨h, fun _ => True.intro⟩

theorem Uses.step {o : S.Op} {f : S.Reply o → Program S β} (h : P o) (hf : ∀ r, Uses P (f r)) :
    Uses P (perform o >>= f) := ⟨h, hf⟩

theorem Uses.ite {c : Prop} [Decidable c] {p q : Program S α} (hp : Uses P p) (hq : Uses P q) :
    Uses P (if c then p else q) := by
  split
  · exact hp
  · exact hq

theorem Uses.mono {Q : S.Op → Prop} {p : Program S α} (h : Uses P p) (himp : ∀ o, P o → Q o) :
    Uses Q p := by
  induction p with
  | pure a => exact True.intro
  | request o next ih => exact ⟨himp o h.1, fun r => ih r (h.2 r)⟩

theorem Uses.bind {p : Program S α} {f : α → Program S β} (h : Uses P p)
    (hf : ∀ a, Uses P (f a)) : Uses P (p >>= f) := by
  induction p with
  | pure a => exact hf a
  | request o next ih => exact ⟨h.1, fun r => ih r (h.2 r)⟩

/-- A program keeps whatever each of its operations keeps. -/
theorem Uses.keeps {I : ℓ → Prop} {p : Program S α} (h : Uses P p) (hl : I l)
    (hop : ∀ o l, P o → I l → C.pre o l ∧ ∀ r l', C.gives o l r l' → I l') :
    Keeps C (fun _ l' => I l') p l := by
  induction p generalizing l with
  | pure a => exact hl
  | request o next ih =>
    obtain ⟨hpre, hgives⟩ := hop o l h.1 hl
    exact ⟨hpre, fun r l' hg => ih r (h.2 r) (hgives r l' hg)⟩

end Program

end Concur
