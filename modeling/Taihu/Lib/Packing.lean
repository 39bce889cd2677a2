/-
# Cutting a list into pieces

A loop that takes some items off the front of a list, hands them on, and goes on with the rest.
How many it takes is a function of what is left.  The loop ends when it always takes an item
(`pack_ends`); the pieces are then the list (`flatten_of_pack`).
-/
import Mathlib

namespace Packing

variable {α : Type}

/-- The pieces that are cut off; `none` when `fuel` rounds were not enough. -/
def pack (count : List α → Nat) : Nat → List α → Option (List (List α))
  | _, [] => some []
  | 0, _ :: _ => none
  | fuel + 1, x :: xs =>
    (pack count fuel ((x :: xs).drop (count (x :: xs)))).map
      (fun pieces => (x :: xs).take (count (x :: xs)) :: pieces)

variable {count : List α → Nat} {fuel : Nat} {l : List α} {pieces : List (List α)}

@[simp] theorem pack_nil (fuel : Nat) : pack count fuel [] = some [] := by
  cases fuel <;> rfl

variable (count) in
/-- **The loop ends**, after no more rounds than there are items, if it takes an item wherever
the first one is in `P`. -/
theorem pack_ends {P : α → Prop} (hpos : ∀ x xs, P x → 0 < count (x :: xs)) :
    ∀ fuel (l : List α), (∀ x ∈ l, P x) → l.length ≤ fuel → ∃ pieces, pack count fuel l = some pieces := by
  intro fuel
  induction fuel with
  | zero =>
    intro l _ hl
    rw [List.length_eq_zero_iff.mp (Nat.le_zero.mp hl)]
    exact ⟨[], rfl⟩
  | succ fuel ih =>
    intro l hP hl
    cases l with
    | nil => exact ⟨[], rfl⟩
    | cons x xs =>
      have hlt : ((x :: xs).drop (count (x :: xs))).length ≤ fuel := by
        have := hpos x xs (hP x List.mem_cons_self)
        rw [List.length_drop]
        omega
      obtain ⟨pieces, hp⟩ := ih _ (fun y hy => hP y (List.mem_of_mem_drop hy)) hlt
      exact ⟨_, by rw [pack, hp, Option.map_some]⟩

/-- More rounds make no difference. -/
theorem pack_mono (h : pack count fuel l = some pieces) {fuel' : Nat} (hle : fuel ≤ fuel') :
    pack count fuel' l = some pieces := by
  induction fuel generalizing l pieces fuel' with
  | zero =>
    cases l with
    | nil => rw [pack_nil] at h ⊢; exact h
    | cons x xs => cases h
  | succ fuel ih =>
    cases l with
    | nil => rw [pack_nil] at h ⊢; exact h
    | cons x xs =>
      obtain ⟨fuel', rfl⟩ : ∃ k, fuel' = k + 1 := ⟨fuel' - 1, by omega⟩
      rw [pack] at h
      obtain ⟨rest, hrest, rfl⟩ := Option.map_eq_some_iff.mp h
      rw [pack, ih hrest (Nat.le_of_succ_le_succ hle), Option.map_some]

/-- **Nothing is lost or repeated.** -/
theorem flatten_of_pack (h : pack count fuel l = some pieces) : pieces.flatten = l := by
  induction fuel generalizing l pieces with
  | zero =>
    cases l with
    | nil =>
      cases h
      rfl
    | cons x xs => cases h
  | succ fuel ih =>
    cases l with
    | nil =>
      cases h
      rfl
    | cons x xs =>
      rw [pack] at h
      obtain ⟨rest, hrest, rfl⟩ := Option.map_eq_some_iff.mp h
      rw [List.flatten_cons, ih hrest, List.take_append_drop]

/-- What holds of the items that are taken from any list holds of every piece. -/
theorem forall_mem_pack {P : List α → Prop} (hP : ∀ l : List α, P (l.take (count l)))
    (h : pack count fuel l = some pieces) : ∀ piece ∈ pieces, P piece := by
  induction fuel generalizing l pieces with
  | zero =>
    cases l with
    | nil =>
      cases h
      exact fun piece hp => absurd hp List.not_mem_nil
    | cons x xs => cases h
  | succ fuel ih =>
    cases l with
    | nil =>
      cases h
      exact fun piece hp => absurd hp List.not_mem_nil
    | cons x xs =>
      rw [pack] at h
      obtain ⟨rest, hrest, rfl⟩ := Option.map_eq_some_iff.mp h
      intro piece hp
      rcases List.mem_cons.mp hp with rfl | hp
      · exact hP _
      · exact ih hrest piece hp

end Packing
