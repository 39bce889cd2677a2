/-
# A ledger of things taken and given back

Things are taken one after the other, and each gets the number it was taken under; a thing that
is given back is crossed out under its number.  `Accounts` is the law of conservation: what has
been given back and what is in hand is, together, what has been taken, nothing twice.  A ledger is
settled when all that was taken is back (`Accounts.settled_iff`), and nothing can have come back
twice while the accounts hold (`Accounts.nodup_back`).
-/
import Mathlib

/-- What has been taken, in its order, and what has been given back, with its numbers. -/
structure Ledger (T : Type) where
  taken : List T
  back : List (T × Nat)
  deriving DecidableEq, Repr

namespace Ledger

variable {T : Type} {L : Ledger T} {hand hand' : List (T × Nat)} {x : T} {t : T × Nat}

def empty : Ledger T := ⟨[], []⟩

/-- The next thing that is taken, with its number. -/
def next (L : Ledger T) (x : T) : T × Nat := (x, L.taken.length)

def take (L : Ledger T) (x : T) : Ledger T := { L with taken := L.taken ++ [x] }

def give (L : Ledger T) (t : T × Nat) : Ledger T := { L with back := L.back ++ [t] }

/-- What is back and what is in hand is what has been taken. -/
def Accounts (L : Ledger T) (hand : List (T × Nat)) : Prop :=
  (L.back ++ hand).Perm L.taken.zipIdx

/-- Everything that was taken has been given back, once. -/
def Settled (L : Ledger T) : Prop := L.back.Perm L.taken.zipIdx

theorem accounts_empty : (empty : Ledger T).Accounts [] := List.Perm.refl _

theorem Accounts.perm (h : L.Accounts hand) (hp : hand.Perm hand') : L.Accounts hand' :=
  (hp.symm.append_left L.back).trans h

/-- What is taken is in hand. -/
theorem Accounts.take (h : L.Accounts hand) (x : T) :
    (L.take x).Accounts (L.next x :: hand) := by
  have hzip : (L.take x).taken.zipIdx = L.taken.zipIdx ++ [L.next x] := by
    show (L.taken ++ [x]).zipIdx = _
    rw [List.zipIdx_append, Nat.zero_add]
    rfl
  unfold Accounts
  rw [hzip]
  exact List.perm_middle.trans ((List.Perm.cons _ h).trans
    (List.perm_append_singleton (L.next x) _).symm)

/-- What is in hand can be given back. -/
theorem Accounts.give (h : L.Accounts (t :: hand)) : (L.give t).Accounts hand := by
  unfold Accounts
  show (L.back ++ [t] ++ hand).Perm _
  rw [List.append_assoc]
  exact h

theorem nodup_zipIdx (l : List T) : l.zipIdx.Nodup := by
  apply List.Nodup.of_map Prod.snd
  rw [List.zipIdx_map_snd]
  exact List.nodup_range'

/-- **Nothing comes back twice.** -/
theorem Accounts.nodup_back (h : L.Accounts hand) : L.back.Nodup :=
  (List.nodup_append.mp (h.nodup_iff.mpr (nodup_zipIdx L.taken))).1

/-- A ledger that accounts is settled exactly when nothing is in hand. -/
theorem Accounts.settled_iff (h : L.Accounts hand) : L.Settled ↔ hand = [] := by
  constructor
  · intro hs
    have hlen := (h.trans hs.symm).length_eq
    rw [List.length_append] at hlen
    exact List.length_eq_zero_iff.mp (by omega)
  · rintro rfl
    unfold Accounts at h
    rwa [List.append_nil] at h

end Ledger
