/-
# One program in two states

A program that runs alone is deterministic, so two related states give the same result if every
operation gives the same reply in both and leaves them related.  `exec_sim` says this with an
exception: in the first state an operation may also give a BAD reply, after which the program
cannot return anything GOOD (`Aborts`).  A good result of the first run is then a result of the
second.
-/
import Taihu.Lib.Program

namespace Concur

namespace Program

variable {S : Signature} {α β σ ℓ : Type}

/-- Whatever the replies are, the value returned satisfies `φ`. -/
def Returns (φ : α → Prop) : Program S α → Prop
  | pure a => φ a
  | request _ next => ∀ r, Returns φ (next r)

/-- After a bad reply the value returned is not good. -/
def Aborts (bad : (o : S.Op) → S.Reply o → Prop) (good : α → Prop) : Program S α → Prop
  | pure _ => True
  | request o next =>
    ∀ r, (bad o r → Returns (fun a => ¬ good a) (next r)) ∧ Aborts bad good (next r)

variable {step : σ → ℓ → (o : S.Op) → Option (σ × ℓ × S.Reply o)}
  {bad : (o : S.Op) → S.Reply o → Prop} {good : α → Prop} {φ : α → Prop}
  {p : Program S α} {s s' t : σ} {l l' m : ℓ} {a : α}

@[simp] theorem returns_pure : Returns φ (Pure.pure a : Program S α) ↔ φ a := Iff.rfl

@[simp] theorem aborts_pure : Aborts bad good (Pure.pure a : Program S α) ↔ True := Iff.rfl

theorem Returns.exec (h : Returns φ p) (hx : p.exec step s l = some (s', l', a)) : φ a := by
  induction p generalizing s l with
  | pure b =>
    cases hx
    exact h
  | request o next ih =>
    obtain ⟨x, -, hx⟩ := Option.bind_eq_some_iff.mp hx
    exact ih _ (h _) hx

theorem Returns.bind {f : α → Program S β} {ψ : β → Prop} (h : Returns φ p)
    (hf : ∀ a, φ a → Returns ψ (f a)) : Returns ψ (p >>= f) := by
  induction p with
  | pure b => exact hf b h
  | request o next ih => exact fun r => ih r (h r)

/-- **Sequencing.** -/
theorem Aborts.bind {f : α → Program S β} {good' : β → Prop} (h : Aborts bad good p)
    (hbad : ∀ a, ¬ good a → Returns (fun b => ¬ good' b) (f a))
    (hf : ∀ a, Aborts bad good' (f a)) : Aborts bad good' (p >>= f) := by
  induction p with
  | pure b => exact hf b
  | request o next ih =>
    intro r
    refine ⟨fun hr => ?_, ih r (h r).2⟩
    exact ((h r).1 hr).bind fun a ha => hbad a ha

theorem aborts_perform {o : S.Op} {good : S.Reply o → Prop} (h : ∀ r, bad o r → ¬ good r) :
    Aborts bad good (perform o) := fun r => ⟨h r, trivial⟩

theorem aborts_of_never (p : Program S α) : Aborts (fun _ _ => False) good p := by
  induction p with
  | pure b => trivial
  | request o next ih => exact fun r => ⟨False.elim, ih r⟩

/-- **A good result of one run is a result of the other.** -/
theorem exec_sim {P : S.Op → Prop} {R : σ → σ → Prop} (hu : Uses P p) (ha : Aborts bad good p)
    (hop : ∀ o s l t m s' l' r, P o → R s t → step s l o = some (s', l', r) →
      bad o r ∨ ∃ t' m', step t m o = some (t', m', r) ∧ R s' t')
    (hR : R s t) (hx : p.exec step s l = some (s', l', a)) (hg : good a) :
    ∃ t' m', p.exec step t m = some (t', m', a) ∧ R s' t' := by
  induction p generalizing s l t m with
  | pure b =>
    cases hx
    exact ⟨t, m, rfl, hR⟩
  | request o next ih =>
    obtain ⟨⟨s1, l1, r⟩, hstep, hx⟩ := Option.bind_eq_some_iff.mp hx
    rcases hop o s l t m s1 l1 r hu.1 hR hstep with hbad | ⟨t1, m1, ht1, hR1⟩
    · exact absurd hg (((ha r).1 hbad).exec hx)
    · obtain ⟨t', m', ht', hR'⟩ := ih r (hu.2 r) (ha r).2 hR1 hx
      refine ⟨t', m', ?_, hR'⟩
      rw [exec, ht1]
      exact ht'

end Program

end Concur
