/-
# Counters that wrap, and rings indexed by them

A ring of `2 ^ order` slots is indexed by counters of 32 bits that are never reset: a counter is
masked to a slot, and the distance of two counters is their difference modulo `2 ^ 32`.  As long
as the true distance is below `2 ^ 32` it can be read off the counters (`toNat_distance`), and
positions that are less than a ring apart have different slots (`slot_injOn`), wherever the
counters wrap.
-/
import Mathlib

namespace Wrap

variable {α : Type} {order : Nat} {x : UInt32}

/-! ## 1. Distances -/

/-- **The distance of two counters.** -/
theorem toNat_distance {a b : Nat} (hab : a ≤ b) (h : b - a < 2 ^ 32) :
    (UInt32.ofNat b - UInt32.ofNat a).toNat = b - a := by
  rw [← UInt32.ofNat_sub hab]
  exact UInt32.toNat_ofNat_of_lt' h

theorem add_sub_self (x : UInt32) (n : Nat) : x + UInt32.ofNat n - x = UInt32.ofNat n := by
  rw [UInt32.add_comm, UInt32.add_sub_cancel]

theorem sub_sub_add (a b c : UInt32) : a - b - c = a - (b + c) := by grind

theorem sub_add_comm (a b c : UInt32) : a - b + c = a + c - b := by grind

/-! ## 2. Slots -/

/-- The slot of a position. -/
def slot (order : Nat) (x : UInt32) : Nat := (x &&& UInt32.ofNat (2 ^ order - 1)).toNat

theorem slot_eq (h : order ≤ 32) (x : UInt32) : slot order x = x.toNat % 2 ^ order := by
  have hle : 2 ^ order ≤ 2 ^ 32 := Nat.pow_le_pow_right (by decide) h
  have hpos := Nat.two_pow_pos order
  rw [slot, UInt32.toNat_and, UInt32.toNat_ofNat_of_lt' (by show 2 ^ order - 1 < 2 ^ 32; omega),
    Nat.and_two_pow_sub_one_eq_mod]

/-- **Positions less than a ring apart have different slots.** -/
theorem slot_injOn (h : order ≤ 32) {i j : Nat} (hi : i < 2 ^ order) (hj : j < 2 ^ order)
    (he : slot order (x + UInt32.ofNat i) = slot order (x + UInt32.ofNat j)) : i = j := by
  have hd : 2 ^ order ∣ 2 ^ 32 := Nat.pow_dvd_pow 2 h
  have hslot : ∀ k : Nat, slot order (x + UInt32.ofNat k) = (x.toNat + k) % 2 ^ order := by
    intro k
    rw [slot_eq h, UInt32.toNat_add, UInt32.toNat_ofNat', Nat.mod_mod_of_dvd _ hd, Nat.add_mod,
      Nat.mod_mod_of_dvd _ hd, ← Nat.add_mod]
  rw [hslot, hslot] at he
  have := Nat.ModEq.add_left_cancel' x.toNat he
  rw [Nat.ModEq, Nat.mod_eq_of_lt hi, Nat.mod_eq_of_lt hj] at this
  exact this

/-! ## 3. Runs of slots -/

/-- Write items into the slots from `x` on. -/
def writeFrom (order : Nat) (x : UInt32) : List α → (Nat → α) → Nat → α
  | [], mem => mem
  | a :: l, mem => writeFrom order (x + 1) l (Function.update mem (slot order x) a)

/-- The items in `n` slots from `x` on. -/
def readFrom (order : Nat) (mem : Nat → α) (x : UInt32) : Nat → List α
  | 0 => []
  | n + 1 => mem (slot order x) :: readFrom order mem (x + 1) n

theorem add_ofNat_zero (x : UInt32) : x + UInt32.ofNat 0 = x := UInt32.add_zero x

theorem succ_add_ofNat (x : UInt32) (n : Nat) :
    x + 1 + UInt32.ofNat n = x + UInt32.ofNat (n + 1) := by
  rw [Nat.add_comm n 1, UInt32.ofNat_add, ← UInt32.add_assoc]
  rfl

/-- A slot that none of the writes is for keeps what is in it. -/
theorem writeFrom_of_ne {i : Nat} : ∀ {l : List α} {x : UInt32} {mem : Nat → α},
    (∀ k < l.length, slot order (x + UInt32.ofNat k) ≠ i) → writeFrom order x l mem i = mem i
  | [], _, _, _ => rfl
  | a :: l, x, mem, h => by
    have h0 : slot order x ≠ i := by
      have := h 0 (Nat.succ_pos _)
      rwa [add_ofNat_zero] at this
    rw [writeFrom, writeFrom_of_ne fun k hk => ?_, Function.update_of_ne (Ne.symm h0)]
    rw [succ_add_ofNat]
    exact h (k + 1) (Nat.succ_lt_succ hk)

/-- **What is written is read**, if it fits into the ring; also a part of it. -/
theorem readFrom_writeFrom (h : order ≤ 32) : ∀ {l : List α} {x : UInt32} {mem : Nat → α} {n : Nat},
    l.length ≤ 2 ^ order → n ≤ l.length →
    readFrom order (writeFrom order x l mem) x n = l.take n
  | _, _, _, 0, _, _ => by rw [List.take_zero, readFrom]
  | [], _, _, n + 1, _, hn => absurd hn (by simp)
  | a :: l, x, mem, n + 1, hl, hn => by
    have hhead : writeFrom order x (a :: l) mem (slot order x) = a := by
      rw [writeFrom, writeFrom_of_ne fun k hk => ?_, Function.update_self]
      rw [succ_add_ofNat]
      intro he
      have h0 : slot order x = slot order (x + UInt32.ofNat 0) := by
        rw [add_ofNat_zero]
      rw [h0] at he
      have hlen : k + 1 < 2 ^ order := Nat.lt_of_lt_of_le (Nat.succ_lt_succ hk) hl
      exact absurd (slot_injOn h hlen (Nat.two_pow_pos order) he) (Nat.succ_ne_zero k)
    rw [readFrom, hhead, List.take_succ_cons, writeFrom,
      readFrom_writeFrom h (Nat.le_of_succ_le hl) (Nat.le_of_succ_le_succ hn)]

end Wrap
