/-
# Spans of numbered regions

An allocator hands out SPANS: half-open intervals of offsets inside a region.  A span is
identified with its set of positions (region, offset), so a span of length 0 (or less) is
disjoint from everything, itself included, and no side condition has to exclude it.

`address` lays regions of one size end to end.  It is injective on the positions that lie inside
their region (`address_inj`), which is all that connects disjointness of spans with disjointness
of the byte ranges they occupy.
-/
import Mathlib

/-- `len` offsets of a region, from `start` on. -/
structure Span where
  region : Int
  start : Int
  len : Int
  deriving DecidableEq, Repr

namespace Span

/-- The offset after the last. -/
def stop (a : Span) : Int := a.start + a.len

/-- Position `p` lies in the span. -/
def Covers (a : Span) (p : Int × Int) : Prop :=
  a.region = p.1 ∧ a.start ≤ p.2 ∧ p.2 < a.stop

instance (a : Span) (p : Int × Int) : Decidable (a.Covers p) :=
  inferInstanceAs (Decidable (a.region = p.1 ∧ a.start ≤ p.2 ∧ p.2 < a.stop))

/-- The span lies somewhere in the region: it has the region's number and is not empty. -/
def Touches (a : Span) (region : Int) : Prop := a.region = region ∧ 0 < a.len

instance (a : Span) (region : Int) : Decidable (a.Touches region) :=
  inferInstanceAs (Decidable (a.region = region ∧ 0 < a.len))

/-- No position lies in both. -/
def Disjoint (a b : Span) : Prop := ∀ p, a.Covers p → ¬ b.Covers p

theorem Disjoint.symm {a b : Span} (h : Disjoint a b) : Disjoint b a :=
  fun p hb ha => h p ha hb

/-- Two spans meet exactly when both are non-empty, in one region, and each starts before the
other stops. -/
theorem disjoint_iff {a b : Span} : Disjoint a b ↔
    ¬ (a.region = b.region ∧ 0 < a.len ∧ 0 < b.len ∧ a.start < b.stop ∧ b.start < a.stop) := by
  unfold Disjoint Covers stop
  constructor
  · rintro h ⟨hr, ha, hb, hab, hba⟩
    rcases le_total a.start b.start with hle | hle
    · exact h (a.region, b.start) (by omega) (by omega)
    · exact h (a.region, a.start) (by omega) (by omega)
  · rintro h ⟨r, x⟩ ha hb
    exact h (by simp only at ha hb; omega)

instance (a b : Span) : Decidable (Disjoint a b) := decidable_of_iff _ disjoint_iff.symm

/-! ## Regions laid end to end -/

/-- Where a position lies when every region has `size` offsets. -/
def address (size : Int) (p : Int × Int) : Int := p.1 * size + p.2

/-- The position lies inside its region. -/
def InRegion (size : Int) (p : Int × Int) : Prop := 0 ≤ p.2 ∧ p.2 < size

/-- Different positions inside their regions have different addresses. -/
theorem address_inj {size : Int} {p q : Int × Int} (hp : InRegion size p) (hq : InRegion size q)
    (h : address size p = address size q) : p = q := by
  obtain ⟨r, x⟩ := p
  obtain ⟨r', x'⟩ := q
  unfold InRegion at hp hq
  unfold address at h
  simp only at hp hq h
  have hr : r = r' := by
    rcases lt_trichotomy r r' with hlt | heq | hlt
    · have hmul : (r + 1) * size ≤ r' * size :=
        mul_le_mul_of_nonneg_right (by omega) (by omega)
      have hexp : (r + 1) * size = r * size + size := by rw [add_mul, one_mul]
      omega
    · exact heq
    · have hmul : (r' + 1) * size ≤ r * size :=
        mul_le_mul_of_nonneg_right (by omega) (by omega)
      have hexp : (r' + 1) * size = r' * size + size := by rw [add_mul, one_mul]
      omega
  subst hr
  have hx : x = x' := by omega
  rw [hx]

/-- The span starts at 0 or later and stops within a region of the given size. -/
def Fits (size : Int) (a : Span) : Prop := 0 ≤ a.start ∧ a.stop ≤ size

theorem Fits.inRegion {size : Int} {a : Span} (h : a.Fits size) {p : Int × Int}
    (hp : a.Covers p) : InRegion size p :=
  ⟨le_trans h.1 hp.2.1, lt_of_lt_of_le hp.2.2 h.2⟩

/-- Disjoint spans inside their regions occupy different addresses. -/
theorem Disjoint.address_ne {size : Int} {a b : Span} (h : Disjoint a b) (ha : a.Fits size)
    (hb : b.Fits size) {p q : Int × Int} (hp : a.Covers p) (hq : b.Covers q) :
    address size p ≠ address size q := by
  intro he
  exact h p hp (address_inj (ha.inRegion hp) (hb.inRegion hq) he ▸ hq)

end Span
