/-
# The volume of spans in use

Spans that are pairwise disjoint, and lie in regions that are laid end to end, cannot be longer
together than the regions are: `total_len_le`.  Each span is counted by the addresses it occupies;
disjoint spans occupy different ones.
-/
import Taihu.Lib.Bump

namespace Span

variable {T : Multiset Span} {a b : Span} {size n : Int}

/-- The addresses that a span occupies. -/
noncomputable def addresses (size : Int) (a : Span) : Finset Int :=
  Finset.Ico (address size (a.region, a.start)) (address size (a.region, a.start) + a.len)

theorem len_le_card (size : Int) (a : Span) : a.len ≤ ((a.addresses size).card : Int) := by
  rw [addresses, Int.card_Ico, add_sub_cancel_left]
  exact Int.self_le_toNat a.len

theorem mem_addresses {x : Int} :
    x ∈ a.addresses size ↔ ∃ p, a.Covers p ∧ address size p = x := by
  rw [addresses, Finset.mem_Ico]
  unfold Covers stop address
  constructor
  · rintro ⟨hlo, hhi⟩
    exact ⟨(a.region, x - a.region * size), ⟨rfl, by dsimp only at *; omega, by dsimp only at *; omega⟩,
      by dsimp only; omega⟩
  · rintro ⟨⟨r, y⟩, ⟨hr, hlo, hhi⟩, rfl⟩
    dsimp only at *
    subst hr
    omega

theorem Disjoint.addresses (h : Disjoint a b) (ha : a.Fits size) (hb : b.Fits size) :
    ∀ ⦃x⦄, x ∈ a.addresses size → x ∉ b.addresses size := by
  intro x hxa hxb
  obtain ⟨p, hp, rfl⟩ := mem_addresses.mp hxa
  obtain ⟨q, hq, he⟩ := mem_addresses.mp hxb
  exact h.address_ne ha hb hp hq he.symm

/-- Disjoint spans occupy as many addresses as they are long together. -/
theorem card_of_apart (hT : Apart T) (hfit : ∀ a ∈ T, a.Fits size) :
    ∃ A : Finset Int, (T.map Span.len).sum ≤ A.card ∧ ∀ x ∈ A, ∃ a ∈ T, x ∈ a.addresses size := by
  induction T using Multiset.induction with
  | empty => exact ⟨∅, le_rfl, fun x hx => absurd hx (Finset.notMem_empty x)⟩
  | cons a T ih =>
    have hle : T ≤ a ::ₘ T := Multiset.le_cons_self T a
    obtain ⟨A, hcard, hA⟩ := ih (hT.mono hle) fun b hb => hfit b (Multiset.mem_of_le hle hb)
    have hfresh : ∀ ⦃x⦄, x ∈ a.addresses size → x ∉ A := by
      intro x hxa hxA
      obtain ⟨b, hb, hxb⟩ := hA x hxA
      have hdis : Disjoint a b := hT a b ((Multiset.cons_le_cons_iff a).mpr (Multiset.singleton_le.mpr hb))
      exact hdis.addresses (hfit a (Multiset.mem_cons_self a T)) (hfit b (Multiset.mem_of_le hle hb)) hxa hxb
    refine ⟨a.addresses size ∪ A, ?_, fun x hx => ?_⟩
    · rw [Finset.card_union_of_disjoint (Finset.disjoint_left.mpr hfresh), Multiset.map_cons, Multiset.sum_cons, Nat.cast_add]
      exact add_le_add (len_le_card size a) hcard
    · rcases Finset.mem_union.mp hx with hx | hx
      · exact ⟨a, Multiset.mem_cons_self a T, hx⟩
      · obtain ⟨b, hb, hxb⟩ := hA x hx
        exact ⟨b, Multiset.mem_of_le hle hb, hxb⟩

/-- **The volume of disjoint spans.**  In `n` regions of `size` there is room for `n * size`. -/
theorem total_len_le (hT : Apart T) (hfit : ∀ a ∈ T, a.Fits size)
    (hregion : ∀ a ∈ T, 0 ≤ a.region ∧ a.region < n) (hsize : 0 ≤ size) (hn : 0 ≤ n) :
    (T.map Span.len).sum ≤ n * size := by
  obtain ⟨A, hcard, hA⟩ := card_of_apart hT hfit
  have hsub : A ⊆ Finset.Ico 0 (n * size) := by
    intro x hx
    obtain ⟨a, ha, hxa⟩ := hA x hx
    obtain ⟨⟨r, y⟩, hp, rfl⟩ := mem_addresses.mp hxa
    obtain ⟨hlo, hhi⟩ := (hfit a ha).inRegion hp
    obtain ⟨h0, hlt⟩ := hregion a ha
    have hr : a.region = r := hp.1
    have hge : 0 ≤ r * size := mul_nonneg (hr ▸ h0) hsize
    have hle : (r + 1) * size ≤ n * size := mul_le_mul_of_nonneg_right (by omega) hsize
    have hexp : (r + 1) * size = r * size + size := by rw [add_mul, one_mul]
    rw [Finset.mem_Ico]
    unfold address
    dsimp only at *
    omega
  have hle := Finset.card_le_card hsub
  rw [Int.card_Ico, sub_zero] at hle
  have hnn : 0 ≤ n * size := mul_nonneg hn hsize
  omega

end Span
