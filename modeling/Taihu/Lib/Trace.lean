/-
# Traces of programs

What a program has requested, and the replies it has got.  The replies come from a function of
the number of the request, so they may be anything that the programs beside it can bring about:
what is shown of every such function holds under every interleaving.

`interp` replaces the operations of a program by programs over finer ones.
-/
import Taihu.Lib.Program

namespace Concur

/-- An operation with its reply. -/
abbrev Event (S : Signature) : Type := (o : S.Op) × S.Reply o

namespace Program

variable {S T : Signature} {α β : Type}

/-! ## 1. Traces -/

/-- Run the program from its `n`-th request on: the events, and what it returns. -/
def play (f : Nat → (o : S.Op) → S.Reply o) : Program S α → Nat → List (Event S) × α
  | pure a, _ => ([], a)
  | request o next, n =>
    let r := play f (next (f n o)) (n + 1)
    (⟨o, f n o⟩ :: r.1, r.2)

variable {f : Nat → (o : S.Op) → S.Reply o}

@[simp] theorem play_pure (a : α) (n : Nat) :
    play f (Pure.pure a : Program S α) n = ([], a) := rfl

theorem play_request (o : S.Op) (next : S.Reply o → Program S α) (n : Nat) :
    play f (request o next) n =
      (⟨o, f n o⟩ :: (play f (next (f n o)) (n + 1)).1, (play f (next (f n o)) (n + 1)).2) := rfl

@[simp] theorem play_perform (o : S.Op) (n : Nat) :
    play f (perform o) n = ([⟨o, f n o⟩], f n o) := rfl

/-- **Sequencing.** -/
theorem play_bind (p : Program S α) (g : α → Program S β) (n : Nat) :
    play f (p >>= g) n =
      ((play f p n).1 ++ (play f (g (play f p n).2) (n + (play f p n).1.length)).1,
        (play f (g (play f p n).2) (n + (play f p n).1.length)).2) := by
  induction p generalizing n with
  | pure a => rfl
  | request o next ih =>
    have hlen : n + ((play f (next (f n o)) (n + 1)).1.length + 1) =
        n + 1 + (play f (next (f n o)) (n + 1)).1.length := by omega
    rw [request_bind, play_request, play_request, ih]
    simp only [List.length_cons, hlen, List.cons_append]

/-! ## 2. Replacing the operations -/

/-- The program with each operation replaced by a program that computes its reply. -/
def interp (m : (o : S.Op) → Program T (S.Reply o)) : Program S α → Program T α
  | pure a => Pure.pure a
  | request o next => m o >>= fun r => interp m (next r)

variable {m : (o : S.Op) → Program T (S.Reply o)}

@[simp] theorem interp_pure (a : α) : interp m (Pure.pure a : Program S α) = Pure.pure a := rfl

theorem interp_request (o : S.Op) (next : S.Reply o → Program S α) :
    interp m (request o next) = m o >>= fun r => interp m (next r) := rfl

@[simp] theorem interp_perform (o : S.Op) : interp m (perform o) = m o := bind_pure (m o)

theorem interp_bind (p : Program S α) (g : α → Program S β) :
    interp m (p >>= g) = interp m p >>= fun a => interp m (g a) := by
  induction p with
  | pure a => rfl
  | request o next ih =>
    rw [request_bind, interp_request, interp_request, bind_assoc]
    exact congrArg (m o >>= ·) (funext ih)

end Program

end Concur
