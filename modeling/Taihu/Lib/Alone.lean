/-
# A program that runs alone

Every operation is answered at once, from a state that it may change.  `alone` runs a program
against such answers, and it always comes to an end.  A contract that the answers follow is a Hoare
logic for these runs: what a program keeps under the contract holds when the run is over
(`Keeps.alone`).
-/
import Taihu.Lib.Program

namespace Concur.Program

variable {S : Signature} {σ α β : Type}

/-- The final state, and what the program returns. -/
def alone (f : σ → (o : S.Op) → σ × S.Reply o) : Program S α → σ → σ × α
  | pure a, s => (s, a)
  | request o next, s => alone f (next (f s o).2) (f s o).1

variable {f : σ → (o : S.Op) → σ × S.Reply o}

@[simp] theorem alone_pure (a : α) (s : σ) : (Pure.pure a : Program S α).alone f s = (s, a) := rfl

@[simp] theorem alone_request (o : S.Op) (next : S.Reply o → Program S α) (s : σ) :
    (request o next).alone f s = (next (f s o).2).alone f (f s o).1 := rfl

@[simp] theorem alone_perform (o : S.Op) (s : σ) : (perform o).alone f s = f s o := rfl

/-- **Sequencing.** -/
theorem alone_bind (p : Program S α) (g : α → Program S β) (s : σ) :
    (p >>= g).alone f s = (g (p.alone f s).2).alone f (p.alone f s).1 := by
  induction p generalizing s with
  | pure a => rfl
  | request o next ih => exact ih (f s o).2 (f s o).1

/-- Sequencing, when it is known how the first part ends. -/
theorem alone_bind_of {p : Program S α} {g : α → Program S β} {s s' : σ} {a : α}
    (h : p.alone f s = (s', a)) : (p >>= g).alone f s = (g a).alone f s' := by
  rw [alone_bind, h]

/-- The contract whose promises are what some of the answers can be. -/
def contractOf {ι : Type} (f : ι → σ → (o : S.Op) → σ × S.Reply o) : Contract S σ where
  pre := fun _ _ => True
  gives := fun o s r s' => ∃ i, f i s o = (s', r)

/-- **What a program keeps holds at the end of its run.** -/
theorem Keeps.alone {ι : Type} {g : ι → σ → (o : S.Op) → σ × S.Reply o} {post : α → σ → Prop}
    {p : Program S α} {s : σ} (h : Keeps (contractOf g) post p s) (i : ι) :
    post (p.alone (g i) s).2 (p.alone (g i) s).1 := by
  induction p generalizing s with
  | pure a => exact h
  | request o next ih => exact ih _ (h.2 _ _ ⟨i, rfl⟩)

end Concur.Program
