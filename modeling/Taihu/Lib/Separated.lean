/-
# Things kept apart in several places

Things lie in places, each of which is a list, and a symmetric relation says of two things that
they are apart.  The places are separated when any two things are apart, in one place or in two.
A thing that is taken out is apart from all that stays (`Separated.take`), and a thing that is
apart from all there is can be put anywhere (`Separated.give`); so what is moved, or cut smaller
while it is moved, leaves the places separated.
-/
import Mathlib

variable {ι α : Type} [DecidableEq ι] {R : α → α → Prop} {f : ι → List α}

/-- Any two things are apart. -/
def Separated (R : α → α → Prop) (f : ι → List α) : Prop :=
  (∀ i, (f i).Pairwise R) ∧ ∀ i j, i ≠ j → ∀ x ∈ f i, ∀ y ∈ f j, R x y

namespace Separated

variable {i : ι} {x : α} {rest : List α}

omit [DecidableEq ι] in
theorem of_nil (h : ∀ i, f i = []) : Separated R f := by
  constructor
  · intro i
    rw [h i]
    exact List.Pairwise.nil
  · intro i j _ x hx
    rw [h i] at hx
    exact absurd hx List.not_mem_nil

/-- **A thing taken out is apart from what stays.** -/
theorem take (hs : ∀ {a b}, R a b → R b a) (h : Separated R f) (hp : (f i).Perm (x :: rest)) :
    Separated R (Function.update f i rest) ∧ ∀ j, ∀ y ∈ Function.update f i rest j, R x y := by
  have hpair : (x :: rest).Pairwise R := (hp.pairwise_iff hs).mp (h.1 i)
  obtain ⟨hx, hrest⟩ := List.pairwise_cons.mp hpair
  have hin : ∀ y ∈ rest, y ∈ f i := fun y hy => hp.symm.subset (List.mem_cons_of_mem x hy)
  have hxi : x ∈ f i := hp.symm.subset List.mem_cons_self
  refine ⟨⟨fun j => ?_, fun j k hjk y hy z hz => ?_⟩, fun j y hy => ?_⟩
  · by_cases hj : j = i
    · rw [hj, Function.update_self]
      exact hrest
    · rw [Function.update_of_ne hj]
      exact h.1 j
  · have hback : ∀ {l : ι} {w : α}, w ∈ Function.update f i rest l → w ∈ f l := by
      intro l w hw
      by_cases hl : l = i
      · rw [hl, Function.update_self] at hw
        exact hl ▸ hin w hw
      · rwa [Function.update_of_ne hl] at hw
    exact h.2 j k hjk y (hback hy) z (hback hz)
  · by_cases hj : j = i
    · rw [hj, Function.update_self] at hy
      exact hx y hy
    · rw [Function.update_of_ne hj] at hy
      exact h.2 i j (Ne.symm hj) x hxi y hy

/-- **A thing apart from all there is can be put anywhere.** -/
theorem give (hs : ∀ {a b}, R a b → R b a) (h : Separated R f) (hx : ∀ j, ∀ y ∈ f j, R x y) (i : ι) :
    Separated R (Function.update f i (x :: f i)) := by
  have hcases : ∀ {l : ι} {w : α}, w ∈ Function.update f i (x :: f i) l →
      (l = i ∧ w = x) ∨ w ∈ f l := by
    intro l w hw
    by_cases hl : l = i
    · rw [hl, Function.update_self] at hw
      rcases List.mem_cons.mp hw with rfl | hw
      · exact Or.inl ⟨hl, rfl⟩
      · exact Or.inr (hl ▸ hw)
    · rw [Function.update_of_ne hl] at hw
      exact Or.inr hw
  refine ⟨fun j => ?_, fun j k hjk y hy z hz => ?_⟩
  · by_cases hj : j = i
    · rw [hj, Function.update_self]
      exact List.pairwise_cons.mpr ⟨hx i, h.1 i⟩
    · rw [Function.update_of_ne hj]
      exact h.1 j
  · rcases hcases hy with ⟨hj, hyx⟩ | hyf
    · rcases hcases hz with ⟨hk, -⟩ | hzf
      · exact absurd (hj.trans hk.symm) hjk
      · exact hyx ▸ hx k z hzf
    · rcases hcases hz with ⟨-, hzx⟩ | hzf
      · exact hzx ▸ hs (hx j y hyf)
      · exact h.2 j k hjk y hyf z hzf

end Separated
