/-
# Runs of a partial step function

A system is a function from a state and an action to the next state, or to nothing when the
action is not possible there.  A run is a list of actions; what every possible action keeps
holds after every run.
-/
import Mathlib

namespace Transition

variable {σ α : Type*} (step : σ → α → Option σ)

/-- The state after a list of actions, if all of them are possible. -/
def run : σ → List α → Option σ
  | s, [] => some s
  | s, a :: as => (step s a).bind (fun s' => run s' as)

/-- Every action of the run meets `ok` in the state before it. -/
def Along (ok : σ → α → Prop) : σ → List α → Prop
  | _, [] => True
  | s, a :: as => ok s a ∧ ∀ s', step s a = some s' → Along ok s' as

instance along_decidable {ok : σ → α → Prop} [∀ s a, Decidable (ok s a)] :
    ∀ (as : List α) (s : σ), Decidable (Along step ok s as)
  | [], _ => .isTrue trivial
  | a :: as, s =>
    match h : step s a with
    | none => decidable_of_iff (ok s a)
        ⟨fun ho => ⟨ho, fun _ he => absurd (h.symm.trans he) (by simp)⟩, And.left⟩
    | some d =>
      have : Decidable (Along step ok d as) := along_decidable as d
      decidable_of_iff (ok s a ∧ Along step ok d as)
        ⟨fun ho => ⟨ho.1, fun _ he => Option.some.inj (h.symm.trans he) ▸ ho.2⟩,
          fun ho => ⟨ho.1, ho.2 d h⟩⟩

variable {step}

@[simp] theorem run_nil (s : σ) : run step s [] = some s := rfl

theorem run_cons (s : σ) (a : α) (as : List α) :
    run step s (a :: as) = (step s a).bind (fun s' => run step s' as) := rfl

theorem run_cons_of {s s' : σ} {a : α} (h : step s a = some s') (as : List α) :
    run step s (a :: as) = run step s' as := by
  rw [run_cons, h]
  rfl

theorem run_append (s : σ) (as bs : List α) :
    run step s (as ++ bs) = (run step s as).bind (fun s' => run step s' bs) := by
  induction as generalizing s with
  | nil => rfl
  | cons a as ih =>
    rw [List.cons_append, run_cons, run_cons, Option.bind_assoc]
    exact congrArg _ (funext fun s' => ih s')

/-- **What every admitted step keeps holds after every admitted run.** -/
theorem run_invariant {ok : σ → α → Prop} {I : σ → Prop}
    (hstep : ∀ s a s', I s → ok s a → step s a = some s' → I s') {s s' : σ} {as : List α}
    (h : I s) (hok : Along step ok s as) (hrun : run step s as = some s') : I s' := by
  induction as generalizing s with
  | nil =>
    cases hrun
    exact h
  | cons a as ih =>
    obtain ⟨s₁, hs₁, hrest⟩ := Option.bind_eq_some_iff.mp hrun
    exact ih (hstep s a s₁ h hok.1 hs₁) (hok.2 s₁ hs₁) hrest

/-- The same for what is said of the state and of the actions that have led to it. -/
theorem run_history {ok : σ → α → Prop} {I : List α → σ → Prop}
    (hstep : ∀ as s a s', I as s → ok s a → step s a = some s' → I (as ++ [a]) s')
    {s s' : σ} {pre as : List α} (h : I pre s) (hok : Along step ok s as)
    (hrun : run step s as = some s') : I (pre ++ as) s' := by
  induction as generalizing s pre with
  | nil =>
    cases hrun
    rwa [List.append_nil]
  | cons a as ih =>
    obtain ⟨s₁, hs₁, hrest⟩ := Option.bind_eq_some_iff.mp hrun
    have := ih (hstep pre s a s₁ h hok.1 hs₁) (hok.2 s₁ hs₁) hrest
    rwa [List.append_assoc] at this

/-- A run of steps that are always possible. -/
theorem run_some (f : σ → α → σ) (s : σ) (as : List α) :
    run (fun s a => some (f s a)) s as = some (as.foldl f s) := by
  induction as generalizing s with
  | nil => rfl
  | cons a as ih => exact ih (f s a)

theorem along_append {ok : σ → α → Prop} {s s' : σ} {as bs : List α}
    (h : Along step ok s (as ++ bs)) (hrun : run step s as = some s') :
    Along step ok s as ∧ Along step ok s' bs := by
  induction as generalizing s with
  | nil =>
    cases hrun
    exact ⟨trivial, h⟩
  | cons a as ih =>
    obtain ⟨s₁, hs₁, hrest⟩ := Option.bind_eq_some_iff.mp hrun
    obtain ⟨has, hbs⟩ := ih (h.2 s₁ hs₁) hrest
    refine ⟨⟨h.1, fun s₂ hs₂ => ?_⟩, hbs⟩
    obtain rfl : s₁ = s₂ := Option.some.inj (hs₁.symm.trans hs₂)
    exact has

/-- A condition on the actions alone. -/
theorem along_of_forall_mem {ok : α → Prop} {as : List α} (h : ∀ a ∈ as, ok a) (s : σ) :
    Along step (fun _ a => ok a) s as := by
  induction as generalizing s with
  | nil => trivial
  | cons a as ih =>
    exact ⟨h a List.mem_cons_self, fun s' _ => ih (fun b hb => h b (List.mem_cons_of_mem a hb)) s'⟩

/-- Two conditions at once. -/
theorem Along.and {ok ok' : σ → α → Prop} {s : σ} {as : List α} (h : Along step ok s as)
    (h' : Along step ok' s as) : Along step (fun s a => ok s a ∧ ok' s a) s as := by
  induction as generalizing s with
  | nil => trivial
  | cons a as ih => exact ⟨⟨h.1, h'.1⟩, fun s' hs => ih (h.2 s' hs) (h'.2 s' hs)⟩

end Transition
