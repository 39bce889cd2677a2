/-
# Prefixes as ranges

Lists over a linear order, compared lexicographically.  The lists with prefix `p` are an interval
of that order, and a store that can only scan intervals is asked for `p ≤ k < p ++ [t]` to get
them.  `range_iff` says what it gets: the lists `p ++ r` with `r < [t]`.  With the greatest element
for `t` this leaves out exactly the lists that go on with `t` (`range_top_iff`).  A store that
takes the successor of the last element of the prefix for its bound gets all of them
(`range_succ_iff`).
-/
import Mathlib

namespace PrefixRange

variable {α : Type} [LinearOrder α]

theorem nil_le (k : List α) : [] ≤ k := not_lt.mp (List.not_lt_nil k)

theorem cons_le_cons_iff {a b : α} {p k : List α} :
    a :: p ≤ b :: k ↔ a < b ∨ a = b ∧ p ≤ k := by
  rw [← not_lt, List.cons_lt_cons_iff, not_or, not_lt, not_and, not_lt]
  constructor
  · rintro ⟨hab, hpk⟩
    rcases lt_or_eq_of_le hab with h | h
    · exact Or.inl h
    · exact Or.inr ⟨h, hpk h.symm⟩
  · rintro (h | ⟨rfl, h⟩)
    · exact ⟨le_of_lt h, fun he => absurd he.symm (ne_of_lt h)⟩
    · exact ⟨le_refl a, fun _ => h⟩

/-- A list comes after each of its prefixes. -/
theorem le_of_prefix : ∀ {p k : List α}, p <+: k → p ≤ k
  | [], k, _ => nil_le k
  | a :: p, [], h => absurd (List.eq_nil_of_prefix_nil h) (List.cons_ne_nil a p)
  | a :: p, b :: k, h => by
    obtain ⟨rfl, hp⟩ := List.cons_prefix_cons.mp h
    exact cons_le_cons_iff.mpr (Or.inr ⟨rfl, le_of_prefix hp⟩)

/-- **The range above `p` and below `p ++ [t]`.** -/
theorem range_iff {t : α} : ∀ {p k : List α},
    p ≤ k ∧ k < p ++ [t] ↔ ∃ r, k = p ++ r ∧ r < [t]
  | [], k => by
    constructor
    · rintro ⟨-, h⟩
      exact ⟨k, rfl, h⟩
    · rintro ⟨r, rfl, h⟩
      exact ⟨nil_le _, h⟩
  | a :: p, [] => by
    constructor
    · rintro ⟨h, -⟩
      exact absurd h (not_le_of_gt (List.nil_lt_cons a p))
    · rintro ⟨r, h, -⟩
      exact absurd h.symm (List.cons_ne_nil a _)
  | a :: p, b :: k => by
    rw [List.cons_append, cons_le_cons_iff, List.cons_lt_cons_iff]
    constructor
    · rintro ⟨hle, hlt⟩
      have hab : a = b := by
        rcases hle with h | ⟨h, -⟩
        · rcases hlt with h' | ⟨h', -⟩
          · exact absurd h' (lt_asymm h)
          · exact h'.symm
        · exact h
      subst hab
      obtain ⟨r, rfl, hr⟩ := range_iff.mp
        ⟨(hle.resolve_left (lt_irrefl a)).2, (hlt.resolve_left (lt_irrefl a)).2⟩
      exact ⟨r, rfl, hr⟩
    · rintro ⟨r, he, hr⟩
      obtain ⟨rfl, rfl⟩ := List.cons.inj he
      obtain ⟨hle, hlt⟩ := range_iff.mpr ⟨r, rfl, hr⟩
      exact ⟨Or.inr ⟨rfl, hle⟩, Or.inr ⟨rfl, hlt⟩⟩

/-- What lies below the one-element list of the greatest element. -/
theorem lt_singleton_top {t : α} (ht : ∀ a : α, a ≤ t) {r : List α} :
    r < [t] ↔ ¬ [t] <+: r := by
  cases r with
  | nil => simp
  | cons a r =>
    rw [List.cons_lt_cons_iff, List.cons_prefix_cons]
    constructor
    · rintro (h | ⟨-, h⟩) ⟨hta, -⟩
      · exact absurd hta.symm (ne_of_lt h)
      · exact absurd h (List.not_lt_nil r)
    · intro h
      refine Or.inl (lt_of_le_of_ne (ht a) fun hta => h ⟨hta.symm, List.nil_prefix⟩)

/-- **The range up to the greatest element** is that of the lists with the prefix, less those
that go on with that element. -/
theorem range_top_iff {t : α} (ht : ∀ a : α, a ≤ t) {p k : List α} :
    p ≤ k ∧ k < p ++ [t] ↔ p <+: k ∧ ¬ p ++ [t] <+: k := by
  rw [range_iff]
  constructor
  · rintro ⟨r, rfl, hr⟩
    refine ⟨List.prefix_append p r, fun h => (lt_singleton_top ht).mp hr ?_⟩
    exact (List.prefix_append_right_inj p).mp h
  · rintro ⟨⟨r, rfl⟩, h⟩
    refine ⟨r, rfl, (lt_singleton_top ht).mpr fun hr => h ?_⟩
    exact (List.prefix_append_right_inj p).mpr hr

/-- **The range up to the successor** of the last element is that of the lists with the prefix. -/
theorem range_succ_iff {a b : α} (hab : a ⋖ b) {p k : List α} :
    p ++ [a] ≤ k ∧ k < p ++ [b] ↔ p ++ [a] <+: k := by
  constructor
  · rintro ⟨hle, hlt⟩
    have hp : p ≤ k := le_trans ( le_of_prefix (List.prefix_append p [a])) hle
    obtain ⟨r, rfl, hr⟩ := range_iff.mp ⟨hp, hlt⟩
    have har : [a] ≤ r := not_lt.mp fun h => not_lt_of_ge hle (List.append_left_lt h)
    cases r with
    | nil => exact absurd (List.nil_lt_cons a []) (not_lt_of_ge har)
    | cons c r =>
      have hcb : c < b := by
        rcases List.cons_lt_cons_iff.mp hr with h | ⟨-, h⟩
        · exact h
        · exact absurd h (List.not_lt_nil r)
      obtain rfl : a = c := by
        rcases cons_le_cons_iff.mp har with h | ⟨h, -⟩
        · exact absurd hcb (hab.2 h)
        · exact h
      exact (List.prefix_append_right_inj p).mpr ⟨r, rfl⟩
  · rintro ⟨r, rfl⟩
    refine ⟨ le_of_prefix (List.prefix_append _ r), ?_⟩
    have hr : a :: r < [b] := List.cons_lt_cons_iff.mpr (Or.inl hab.1)
    rw [List.append_assoc]
    exact (range_iff.mpr ⟨a :: r, rfl, hr⟩).2

end PrefixRange
