/-
# Moments of a run

What a call returns is often about a state that has gone by: a read returns what was there when it
looked, an update says that it has been made.  To state that, a thread is given a MEMORY: the facts
that held of the shared state before or after one of its steps.  The memory is not part of the
machine; it is a second component of the local state in contracts only, and a program says in its
postcondition which facts it remembers (`recalling`).

`run_recalls` is the rule.  Every fact that a thread remembers held at a moment of the run at which
the thread had been started: `During`.
-/
import Taihu.Lib.Machine

namespace Concur

open Program

variable {S : Signature} {σ ℓ C α τ : Type}

namespace Machine

variable (M : Machine S σ ℓ C α)

/-! ## 1. Moments -/

/-- At a moment of the run at which thread `t` had been started, and since which the system has not
restarted, `P` was so. -/
def During (c : Conf S σ ℓ α) (as : List (Act C)) (t : Nat) (P : Conf S σ ℓ α → Prop) : Prop :=
  ∃ before after c', as = before ++ after ∧ M.run c before = some c' ∧ t < c'.threads.length ∧
    (∀ a ∈ after, a ≠ .restart) ∧ P c'

variable {M} {c c' : Conf S σ ℓ α} {as : List (Act C)} {t : Nat} {P Q : Conf S σ ℓ α → Prop}

/-- What is so at every moment may be used at that one. -/
theorem During.imp (h : M.During c as t P)
    (hPQ : ∀ before after c', as = before ++ after → M.run c before = some c' → P c' → Q c') :
    M.During c as t Q := by
  obtain ⟨before, after, c', heq, hrun, ht, hno, hP⟩ := h
  exact ⟨before, after, c', heq, hrun, ht, hno, hPQ before after c' heq hrun hP⟩

/-- One more action. -/
theorem During.more (h : M.During c as t P) {a : Act C} (ha : a ≠ .restart) :
    M.During c (as ++ [a]) t P := by
  obtain ⟨before, after, c', rfl, hrun, ht, hno, hP⟩ := h
  refine ⟨before, after ++ [a], c', List.append_assoc _ _ _, hrun, ht, fun b hb => ?_, hP⟩
  rcases List.mem_append.mp hb with hb | hb
  · exact hno b hb
  · rw [List.mem_singleton.mp hb]
    exact ha

/-- The present moment. -/
theorem during_now (hrun : M.run c as = some c') (ht : t < c'.threads.length) (hP : P c') :
    M.During c as t P :=
  ⟨as, [], c', (List.append_nil as).symm, hrun, ht, fun _ ha => absurd ha List.not_mem_nil, hP⟩

/-! ## 2. Memories -/

/-- The contract that asks nothing, promises what the machine can do, and remembers what held before
and after. -/
def recalling (M : Machine S σ ℓ C α) (W : σ → τ → Prop) : Contract S (ℓ × Set τ) where
  pre := fun _ _ => True
  gives := fun o x r y =>
    ∃ s s', M.exec s x.1 o = some (s', y.1, r) ∧ y.2 = {p | p ∈ x.2 ∨ W s p ∨ W s' p}

/-- The thread remembers facts of its past, and keeps the contract in the rest of its program. -/
structure Recalls (W : σ → τ → Prop) (post : α → ℓ × Set τ → Prop) (s₀ : σ) (as : List (Act C)) (t : Nat)
    (th : ℓ × Program S α) (K : Set τ) : Prop where
  past : ∀ p ∈ K, M.During ⟨s₀, []⟩ as t (fun c' => W c'.shared p)
  keeps : Keeps (M.recalling W) post th.2 (th.1, K)

variable {W : σ → τ → Prop} {post : α → ℓ × Set τ → Prop} {s₀ : σ} {th : ℓ × Program S α}

theorem Recalls.more {K : Set τ} (h : Recalls (M := M) W post s₀ as t th K) {a : Act C}
    (ha : a ≠ .restart) : Recalls (M := M) W post s₀ (as ++ [a]) t th K :=
  ⟨fun p hp => (h.past p hp).more ha, h.keeps⟩

/-- **What a thread remembers was so.** -/
theorem run_recalls (hstart : ∀ call, Keeps (M.recalling W) post (M.code call) (M.fresh call, ∅))
    (hretire : ∀ a l K, post a (l, K) → post a (M.retire l, K)) :
    ∀ {c : Conf S σ ℓ α}, M.run ⟨s₀, []⟩ as = some c → ∀ {t : Nat} {th : ℓ × Program S α},
      c.threads[t]? = some th → ∃ K, Recalls (M := M) W post s₀ as t th K := by
  induction as using List.reverseRecOn with
  | nil =>
    intro c hrun t th hth
    cases hrun
    exact absurd hth (by simp)
  | append_singleton as a ih =>
    intro c hrun t th hth
    have hrun' := hrun
    rw [run_append] at hrun
    obtain ⟨d, hd, hlast⟩ := Option.bind_eq_some_iff.mp hrun
    obtain ⟨c', hact, he⟩ := Option.bind_eq_some_iff.mp hlast
    obtain rfl : c' = c := Option.some.inj he
    cases a with
    | restart =>
      cases hact
      exact absurd hth (by simp)
    | spawn call =>
      cases hact
      rcases Nat.lt_or_ge t d.threads.length with ht | ht
      · rw [List.getElem?_append_left ht] at hth
        obtain ⟨K, hK⟩ := ih hd hth
        exact ⟨K, hK.more (by simp)⟩
      · rw [List.getElem?_append_right ht] at hth
        rw [List.mem_singleton.mp (List.mem_of_getElem? hth)]
        exact ⟨∅, fun _ hp => hp.elim, hstart call⟩
    | step u =>
      obtain ⟨l, o, next, s', l', r, hu, hx, rfl⟩ := M.step_eq_some hact
      by_cases htu : u = t
      · subst htu
        have hlt : u < d.threads.length := (List.getElem?_eq_some_iff.mp hu).1
        obtain ⟨K, hK⟩ := ih hd hu
        obtain ⟨K', hK'⟩ : ∃ K', K' = {p | p ∈ K ∨ W d.shared p ∨ W s' p} := ⟨_, rfl⟩
        have hnext : Keeps (M.recalling W) post (next r) (l', K') :=
          hK.keeps.2 r (l', K') ⟨d.shared, s', hx, hK'⟩
        refine ⟨K', fun p hp => ?_, ?_⟩
        · subst hK'
          rcases hp with hp | hp | hp
          · exact (hK.past p hp).more (by simp)
          · exact (during_now hd hlt hp).more (by simp)
          · refine during_now hrun' ?_ hp
            rw [List.length_set]
            exact hlt
        · rw [List.getElem?_set_self hlt] at hth
          rw [← Option.some.inj hth]
          generalize next r = p at hnext
          cases p with
          | pure a => exact hretire a l' K' hnext
          | request o next => exact hnext
      · rw [List.getElem?_set_ne htu] at hth
        obtain ⟨K, hK⟩ := ih hd hth
        exact ⟨K, hK.more (by simp)⟩

/-- A thread that has returned. -/
theorem Recalls.returned {K : Set τ} (h : Recalls (M := M) W post s₀ as t th K) {a : α}
    (ha : th.2.value? = some a) : post a (th.1, K) := by
  obtain ⟨l, p⟩ := th
  cases p with
  | pure b =>
    have hab : b = a := Option.some.inj ha
    exact hab ▸ h.keeps
  | request o next => exact absurd ha (by simp [value?])

end Machine

end Concur
