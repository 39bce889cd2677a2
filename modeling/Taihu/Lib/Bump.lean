/-
# Bump allocation in regions that are used again

A bump allocator hands out the span behind its cursor and moves the cursor past it.  Where it wants
more room it goes to the beginning of another region, and that may be one it has filled before.

The spans IN USE are a multiset: a span that is in use twice counts twice.  `Bump` says that any
two of them are disjoint, and that those in the region of the cursor end there or before.  Giving
spans up keeps it (`Bump.mono`), and so does handing one out (`Bump.take`).  Going to another
region keeps it if no span in use touches that region (`Bump.move`); this is all an allocator has
to know of a region it uses again.
-/
import Taihu.Lib.Span

namespace Span

/-! ## 1. Multisets of disjoint spans -/

/-- Any two spans of the multiset are disjoint. -/
def Apart (T : Multiset Span) : Prop := ∀ a b, a ::ₘ {b} ≤ T → Disjoint a b

variable {T T' : Multiset Span} {a b : Span} {pos : Int × Int} {n r : Int}

theorem apart_zero : Apart 0 := fun a b h => by
  have hmem : a ∈ (0 : Multiset Span) := Multiset.mem_of_le h (Multiset.mem_cons_self a {b})
  exact absurd hmem (Multiset.notMem_zero a)

theorem Apart.mono (h : Apart T) (hle : T' ≤ T) : Apart T' :=
  fun a b hab => h a b (hab.trans hle)

/-- One more span, disjoint from all there are. -/
theorem Apart.cons (h : Apart T) (ha : ∀ b ∈ T, Disjoint a b) : Apart (a ::ₘ T) := by
  have hsingle : ∀ {c : Span} {S : Multiset Span}, {c} ≤ S → c ∈ S := Multiset.singleton_le.mp
  intro x y hxy
  by_cases hx : x = a
  · subst hx
    exact ha y (hsingle ((Multiset.cons_le_cons_iff x).mp hxy))
  by_cases hy : y = a
  · subst hy
    rw [← Multiset.singleton_add, add_comm, Multiset.singleton_add] at hxy
    exact (ha x (hsingle ((Multiset.cons_le_cons_iff y).mp hxy))).symm
  · refine h x y ((Multiset.le_cons_of_notMem ?_).mp hxy)
    simp [Ne.symm hx, Ne.symm hy]

/-- Of two records that name spans which are apart, either both are the same, or their spans are
disjoint. -/
theorem Apart.of_mem {β : Type} {W : Multiset (Span × β)} (h : Apart (W.map Prod.fst)) {p q : Span × β}
    (hp : p ∈ W) (hq : q ∈ W) : q = p ∨ Disjoint p.1 q.1 := by
  obtain ⟨W', rfl⟩ := Multiset.exists_cons_of_mem hp
  rcases Multiset.mem_cons.mp hq with rfl | hq
  · exact Or.inl rfl
  · refine Or.inr (h p.1 q.1 ?_)
    rw [Multiset.map_cons]
    exact (Multiset.cons_le_cons_iff _).mpr (Multiset.singleton_le.mpr (Multiset.mem_map_of_mem _ hq))

/-! ## 2. Spans behind a cursor -/

/-- The span is not in the region of the cursor, or it ends there or before. -/
def Behind (a : Span) (pos : Int × Int) : Prop := a.Touches pos.1 → a.stop ≤ pos.2

/-- What lies before the cursor is disjoint from what is handed out there. -/
theorem Behind.disjoint (h : a.Behind pos) : Disjoint ⟨pos.1, pos.2, n⟩ a := by
  refine disjoint_iff.mpr ?_
  rintro ⟨hr, -, hlen, hlt, -⟩
  exact absurd (h ⟨hr.symm, hlen⟩) (not_le.mpr hlt)

theorem Behind.advance (h : a.Behind pos) (hn : 0 ≤ n) : a.Behind (pos.1, pos.2 + n) :=
  fun ht => (h ht).trans (Int.le_add_of_nonneg_right hn)

theorem behind_of_not_touches (h : ¬ a.Touches r) : a.Behind (r, n) := fun ht => absurd ht h

/-! ## 3. The allocator -/

/-- The spans in use are disjoint, and the cursor is past those in its region. -/
structure Bump (T : Multiset Span) (pos : Int × Int) : Prop where
  apart : Apart T
  behind : ∀ a ∈ T, a.Behind pos

theorem bump_zero (pos : Int × Int) : Bump 0 pos :=
  ⟨apart_zero, fun a ha => absurd ha (Multiset.notMem_zero a)⟩

/-- Spans are given up. -/
theorem Bump.mono (h : Bump T pos) (hle : T' ≤ T) : Bump T' pos :=
  ⟨h.apart.mono hle, fun a ha => h.behind a (Multiset.mem_of_le hle ha)⟩

/-- **What is handed out is disjoint from all that is in use.** -/
theorem Bump.fresh (h : Bump T pos) (n : Int) : ∀ a ∈ T, Disjoint ⟨pos.1, pos.2, n⟩ a :=
  fun a ha => (h.behind a ha).disjoint

/-- A span is handed out. -/
theorem Bump.take (h : Bump T pos) (hn : 0 ≤ n) :
    Bump (⟨pos.1, pos.2, n⟩ ::ₘ T) (pos.1, pos.2 + n) where
  apart := h.apart.cons (h.fresh n)
  behind := by
    intro a ha
    rcases Multiset.mem_cons.mp ha with rfl | ha
    · exact fun _ => Int.le_refl _
    · exact (h.behind a ha).advance hn

/-- The cursor goes to another region. -/
theorem Bump.move (h : Bump T pos) (hr : ∀ a ∈ T, ¬ a.Touches r) (n : Int) : Bump T (r, n) :=
  ⟨h.apart, fun a ha => behind_of_not_touches (hr a ha)⟩

end Span
