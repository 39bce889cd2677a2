/-
# Responses that end themselves

A response is a sequence of items of which the last one, and no other, is *terminal*.  Such
responses need no length and no separator: whoever reads a concatenation of them item by item
knows where each one ends.  Nothing here depends on what the items are.
-/
import Mathlib

namespace Framing

variable {α β : Type*} (last : α → Prop)

/-- Items that are not terminal, then exactly one that is. -/
def Terminated : List α → Prop
  | [] => False
  | a :: l => (last a ∧ l = []) ∨ (¬ last a ∧ Terminated l)

instance decidableTerminated [DecidablePred last] : DecidablePred (Terminated last)
  | [] => inferInstanceAs (Decidable False)
  | a :: l =>
    have := decidableTerminated l
    inferInstanceAs (Decidable ((last a ∧ l = []) ∨ (¬ last a ∧ Terminated last l)))

variable {last}

@[simp] theorem not_terminated_nil : ¬ Terminated last [] := id

theorem terminated_cons_iff {a : α} {l : List α} :
    Terminated last (a :: l) ↔ (last a ∧ l = []) ∨ (¬ last a ∧ Terminated last l) := Iff.rfl

@[simp] theorem terminated_singleton {a : α} : Terminated last [a] ↔ last a := by
  simp [terminated_cons_iff]

/-- A terminated response has its terminal item at the end. -/
theorem Terminated.exists_mem {l : List α} (h : Terminated last l) : ∃ a ∈ l, last a := by
  induction l with
  | nil => exact h.elim
  | cons a l ih =>
    rcases h with ⟨ha, -⟩ | ⟨-, h⟩
    · exact ⟨a, List.mem_cons_self, ha⟩
    · obtain ⟨b, hb, hlast⟩ := ih h
      exact ⟨b, List.mem_cons_of_mem a hb, hlast⟩

/-- Items that are not terminal in front of a terminated response. -/
theorem Terminated.append_left {l r : List α} (hr : Terminated last r) (hl : ∀ b ∈ l, ¬ last b) :
    Terminated last (l ++ r) := by
  induction l with
  | nil => exact hr
  | cons b l ih =>
    exact Or.inr ⟨hl b List.mem_cons_self, ih (fun c hc => hl c (List.mem_cons_of_mem b hc))⟩

theorem terminated_append_last {l : List α} {a : α} (hl : ∀ b ∈ l, ¬ last b) (ha : last a) :
    Terminated last (l ++ [a]) :=
  (terminated_singleton.mpr ha).append_left hl

/-! ## 1. Cutting at the first terminal item -/

section UpTo

variable [DecidablePred last]

variable (last) in
/-- The items up to the first terminal one, that one included. -/
def upTo : List α → List α
  | [] => []
  | a :: l => if last a then [a] else a :: upTo l

@[simp] theorem upTo_nil : upTo last [] = [] := rfl

theorem upTo_cons_of_last {a : α} (h : last a) (l : List α) : upTo last (a :: l) = [a] :=
  if_pos h

theorem upTo_cons_of_not {a : α} (h : ¬ last a) (l : List α) :
    upTo last (a :: l) = a :: upTo last l := if_neg h

/-- Where a terminal item comes at all, the cut is a response. -/
theorem terminated_upTo {l : List α} (h : ∃ a ∈ l, last a) : Terminated last (upTo last l) := by
  induction l with
  | nil => obtain ⟨a, ha, -⟩ := h; exact absurd ha List.not_mem_nil
  | cons a l ih =>
    by_cases ha : last a
    · rw [upTo_cons_of_last ha]
      exact Or.inl ⟨ha, rfl⟩
    · rw [upTo_cons_of_not ha]
      obtain ⟨b, hb, hlast⟩ := h
      rcases List.mem_cons.mp hb with rfl | hb
      · exact absurd hlast ha
      · exact Or.inr ⟨ha, ih ⟨b, hb, hlast⟩⟩

/-- A cut keeps the beginning. -/
theorem prefix_of_upTo (l : List α) : upTo last l <+: l := by
  induction l with
  | nil => exact List.prefix_rfl
  | cons a l ih =>
    by_cases h : last a
    · rw [upTo_cons_of_last h]
      exact ⟨l, rfl⟩
    · rw [upTo_cons_of_not h]
      exact List.cons_prefix_cons.mpr ⟨rfl, ih⟩

/-- A response is not cut, whatever follows it. -/
theorem Terminated.upTo_append {l : List α} (h : Terminated last l) (r : List α) :
    upTo last (l ++ r) = l := by
  induction l with
  | nil => exact h.elim
  | cons a l ih =>
    rcases h with ⟨ha, rfl⟩ | ⟨ha, h⟩
    · exact upTo_cons_of_last ha _
    · rw [List.cons_append, upTo_cons_of_not ha, ih h]

theorem Terminated.upTo_eq {l : List α} (h : Terminated last l) : upTo last l = l := by
  have := h.upTo_append []
  rwa [List.append_nil] at this

end UpTo

/-! ## 2. Items tagged with the number of their response -/

/-- The items of response `i`. -/
def itemsOf (i : Nat) (l : List (Nat × α)) : List α :=
  l.filterMap (fun x => if x.1 = i then some x.2 else none)

/-- A response whose items carry the number `i`. -/
def tag (i : Nat) (l : List α) : List (Nat × α) := l.map (fun a => (i, a))

/-- The responses numbered from `n` on, one after another. -/
def tagged : Nat → List (List α) → List (Nat × α)
  | _, [] => []
  | n, b :: bs => tag n b ++ tagged (n + 1) bs

@[simp] theorem itemsOf_nil (i : Nat) : itemsOf i ([] : List (Nat × α)) = [] := rfl

@[simp] theorem itemsOf_append (i : Nat) (l r : List (Nat × α)) :
    itemsOf i (l ++ r) = itemsOf i l ++ itemsOf i r := List.filterMap_append

@[simp] theorem itemsOf_cons_self (i : Nat) (a : α) (l : List (Nat × α)) :
    itemsOf i ((i, a) :: l) = a :: itemsOf i l := by
  simp [itemsOf]

theorem itemsOf_cons_of_ne {i j : Nat} (h : j ≠ i) (a : α) (l : List (Nat × α)) :
    itemsOf i ((j, a) :: l) = itemsOf i l := by
  simp [itemsOf, h]

theorem tag_append (i : Nat) (l r : List α) : tag i (l ++ r) = tag i l ++ tag i r :=
  List.map_append

@[simp] theorem tag_nil (i : Nat) : tag i ([] : List α) = [] := rfl

theorem itemsOf_tag_self (i : Nat) (l : List α) : itemsOf i (tag i l) = l := by
  simp [itemsOf, tag]

theorem itemsOf_tag_of_ne {i j : Nat} (h : j ≠ i) (l : List α) : itemsOf i (tag j l) = [] := by
  simp [itemsOf, tag, h]

@[simp] theorem tagged_nil (n : Nat) : tagged n ([] : List (List α)) = [] := rfl

theorem tagged_append (n : Nat) (bs cs : List (List α)) :
    tagged n (bs ++ cs) = tagged n bs ++ tagged (n + bs.length) cs := by
  induction bs generalizing n with
  | nil => simp
  | cons b bs ih =>
    rw [List.cons_append, tagged, tagged, ih, List.append_assoc, List.length_cons]
    congr 3
    omega

theorem mem_tagged {n : Nat} {bs : List (List α)} {x : Nat × α} (h : x ∈ tagged n bs) :
    n ≤ x.1 ∧ x.1 < n + bs.length := by
  induction bs generalizing n with
  | nil => exact absurd h List.not_mem_nil
  | cons b bs ih =>
    rcases List.mem_append.mp h with h | h
    · obtain ⟨a, -, rfl⟩ := List.mem_map.mp h
      simp
    · have := ih h
      simp only [List.length_cons]
      omega

/-- The items of response `i` in the concatenation are response `i`. -/
theorem itemsOf_tagged {n i : Nat} {bs : List (List α)} {b : List α} (h : bs[i]? = some b) :
    itemsOf (n + i) (tagged n bs) = b := by
  induction bs generalizing n i with
  | nil => simp at h
  | cons c bs ih =>
    cases i with
    | zero =>
      obtain rfl : c = b := by simpa using h
      have hrest : itemsOf n (tagged (n + 1) bs) = [] := by
        refine List.filterMap_eq_nil_iff.mpr (fun x hx => if_neg ?_)
        have := mem_tagged hx
        omega
      rw [Nat.add_zero, tagged, itemsOf_append, itemsOf_tag_self, hrest, List.append_nil]
    | succ i =>
      rw [tagged, itemsOf_append, itemsOf_tag_of_ne (by omega), List.nil_append,
        show n + (i + 1) = n + 1 + i by omega]
      exact ih (by simpa using h)

/-- No item belongs to a response behind the last. -/
theorem itemsOf_tagged_of_le {n i : Nat} {bs : List (List α)} (h : n + bs.length ≤ i) :
    itemsOf i (tagged n bs) = [] := by
  refine List.filterMap_eq_nil_iff.mpr (fun x hx => if_neg ?_)
  have := mem_tagged hx
  omega

/-- A response that has begun, behind whole ones. -/
theorem tagged_concat (n : Nat) (bs : List (List α)) (b : List α) :
    tagged n (bs ++ [b]) = tagged n bs ++ tag (n + bs.length) b := by
  rw [tagged_append, tagged, tagged_nil, List.append_nil]

/-- The numbers never go down. -/
theorem tagged_pairwise (n : Nat) (bs : List (List α)) :
    (tagged n bs).Pairwise (fun x y => x.1 ≤ y.1) := by
  induction bs generalizing n with
  | nil => exact List.Pairwise.nil
  | cons b bs ih =>
    refine List.pairwise_append.mpr ⟨?_, ih (n + 1), ?_⟩
    · refine List.pairwise_map.mpr (List.pairwise_of_forall (fun _ _ => Nat.le_refl _))
    · intro x hx y hy
      obtain ⟨a, -, rfl⟩ := List.mem_map.mp hx
      have := mem_tagged hy
      show n ≤ y.1
      omega

/-- **What comes after a beginning of the concatenation** that stops inside response `k`: the
next item of that response, or, where it has none left, an item of a later one. -/
theorem next_of_tagged {bs : List (List α)} {k : Nat} {pre : List α} {x : Nat × α}
    (hk : k ≤ bs.length) (hpre : pre <+: (bs[k]?).getD [])
    (h : (tagged 0 (bs.take k) ++ tag k pre) ++ [x] <+: tagged 0 bs) :
    ∃ b, bs[k]? = some b ∧ ((x.1 = k ∧ pre ++ [x.2] <+: b) ∨
      (b = pre ∧ x ∈ tagged (k + 1) (bs.drop (k + 1)))) := by
  have hsplit : tagged 0 bs = tagged 0 (bs.take k) ++ tagged k (bs.drop k) := by
    have := tagged_append 0 (bs.take k) (bs.drop k)
    rwa [List.take_append_drop, List.length_take, Nat.min_eq_left hk, Nat.zero_add] at this
  rw [hsplit, List.append_assoc, List.prefix_append_right_inj] at h
  cases hdrop : bs.drop k with
  | nil =>
    rw [hdrop, tagged_nil, List.prefix_nil] at h
    simp at h
  | cons b rest =>
    have hb : bs[k]? = some b := by
      rw [← List.head?_drop, hdrop]
      rfl
    have hrest : bs.drop (k + 1) = rest := by
      rw [← List.tail_drop, hdrop]
      rfl
    refine ⟨b, hb, ?_⟩
    rw [hb, Option.getD_some] at hpre
    obtain ⟨r, rfl⟩ := hpre
    rw [hdrop, tagged, tag_append, List.append_assoc, List.prefix_append_right_inj] at h
    cases r with
    | nil =>
      rw [List.append_nil]
      exact .inr ⟨rfl, hrest ▸ h.subset (List.mem_singleton.mpr rfl)⟩
    | cons f r =>
      rw [tag, List.map_cons, List.cons_append, List.cons_prefix_cons] at h
      obtain ⟨rfl, -⟩ := h
      exact .inl ⟨rfl, (List.prefix_append_right_inj pre).mpr ⟨r, rfl⟩⟩

/-- An item of the concatenation belongs to one of the responses. -/
theorem exists_of_mem_tagged {n : Nat} {bs : List (List α)} {x : Nat × α} (h : x ∈ tagged n bs) :
    ∃ b ∈ bs, x.2 ∈ b := by
  induction bs generalizing n with
  | nil => exact absurd h List.not_mem_nil
  | cons b bs ih =>
    rcases List.mem_append.mp h with h | h
    · obtain ⟨a, ha, rfl⟩ := List.mem_map.mp h
      exact ⟨b, List.mem_cons_self, ha⟩
    · obtain ⟨c, hc, hx⟩ := ih h
      exact ⟨c, List.mem_cons_of_mem b hc, hx⟩

/-- One more whole response. -/
theorem tagged_take_succ {bs : List (List α)} {k : Nat} {b : List α} (h : bs[k]? = some b) :
    tagged 0 (bs.take (k + 1)) = tagged 0 (bs.take k) ++ tag k b := by
  obtain ⟨hk, rfl⟩ := List.getElem?_eq_some_iff.mp h
  rw [List.take_add_one, h, Option.toList_some, tagged_append, List.length_take,
    Nat.min_eq_left (Nat.le_of_lt hk), Nat.zero_add, tagged, tagged_nil, List.append_nil]

end Framing
