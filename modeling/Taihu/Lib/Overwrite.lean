/-
# Writes over a medium

A medium is a function from addresses to values, and a write is a partial function: where it is
defined it replaces the value.  Writes that are undefined at an address leave it alone
(`applyAll_of_none`), so what a list of writes does at an address depends only on those of them
that reach it (`applyAll_between`).  Where no two writes of a list reach the same address the order
does not matter: each leaves its value (`Alone.applyAll_of_mem`).  A write covers what an earlier
write to the same addresses has left, also a part of it (`apply_apply_of_le`).
-/
import Mathlib

namespace Overwrite

variable {A V : Type}

/-- The medium after a write. -/
def apply (f : A → V) (w : A → Option V) : A → V := fun p => (w p).getD (f p)

/-- The medium after a list of writes. -/
def applyAll (f : A → V) (ws : List (A → Option V)) : A → V := ws.foldl apply f

@[simp] theorem applyAll_nil (f : A → V) : applyAll f [] = f := rfl

@[simp] theorem applyAll_cons (f : A → V) (w : A → Option V) (ws : List (A → Option V)) :
    applyAll f (w :: ws) = applyAll (apply f w) ws := rfl

theorem applyAll_append (f : A → V) (ws ws' : List (A → Option V)) :
    applyAll f (ws ++ ws') = applyAll (applyAll f ws) ws' := List.foldl_append

/-- Writes that do not reach an address leave it alone. -/
theorem applyAll_of_none (f : A → V) {ws : List (A → Option V)} {p : A}
    (h : ∀ w ∈ ws, w p = none) : applyAll f ws p = f p := by
  induction ws generalizing f with
  | nil => rfl
  | cons w ws ih =>
    rw [applyAll_cons, ih (apply f w) (fun w' hw' => h w' (List.mem_cons_of_mem w hw')), apply,
      h w List.mem_cons_self, Option.getD_none]

/-- What is at an address depends only on what was there before. -/
theorem applyAll_congr {f g : A → V} (ws : List (A → Option V)) {p : A} (h : f p = g p) :
    applyAll f ws p = applyAll g ws p := by
  induction ws generalizing f g with
  | nil => exact h
  | cons w ws ih =>
    rw [applyAll_cons, applyAll_cons]
    apply ih
    rw [apply, apply, h]

/-- Of a list of writes only those count that reach the address. -/
theorem applyAll_between (f : A → V) {before ws after : List (A → Option V)} {p : A}
    (hb : ∀ w ∈ before, w p = none) (ha : ∀ w ∈ after, w p = none) :
    applyAll f (before ++ (ws ++ after)) p = applyAll f ws p := by
  rw [applyAll_append, applyAll_append, applyAll_of_none _ ha]
  exact applyAll_congr ws (applyAll_of_none f hb)

/-- A write covers an earlier one that reaches no further. -/
theorem apply_apply_of_le (f : A → V) {v w : A → Option V} (h : ∀ p, w p = none → v p = none) :
    apply (apply f v) w = apply f w := by
  funext p
  unfold apply
  cases hw : w p with
  | some x => rfl
  | none => rw [h p hw]; rfl

/-- At most one write of the list reaches the address. -/
def Alone (ws : List (A → Option V)) (p : A) : Prop :=
  ws.Pairwise (fun v w => v p = none ∨ w p = none)

theorem Alone.perm {ws ws' : List (A → Option V)} {p : A} (h : Alone ws p) (hp : ws.Perm ws') :
    Alone ws' p := List.Pairwise.perm h hp (fun hvw => hvw.symm)

/-- Writes that are alone at an address leave their value, in whatever order they come. -/
theorem Alone.applyAll_of_mem {ws : List (A → Option V)} {w : A → Option V} {p : A} {x : V}
    (h : Alone ws p) (hw : w ∈ ws) (hx : w p = some x) (f : A → V) : applyAll f ws p = x := by
  induction ws generalizing f with
  | nil => exact absurd hw List.not_mem_nil
  | cons v ws ih =>
    obtain ⟨hv, hrest⟩ := List.pairwise_cons.mp h
    rw [applyAll_cons]
    rcases List.mem_cons.mp hw with rfl | hw
    · have hnone : ∀ u ∈ ws, u p = none := by
        intro u hu
        rcases hv u hu with h | h
        · rw [hx] at h
          cases h
        · exact h
      rw [applyAll_of_none _ hnone, apply, hx]
      rfl
    · exact ih hrest hw (apply f v)

end Overwrite
