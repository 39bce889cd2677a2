/-
# The bytes of an extent

The device is one sequence of bytes, and an extent is a piece of it; `devPos` is where it begins.
`Dev.Shows` says what can be read from a position on.  A block that is written inside one extent
leaves what a disjoint extent shows (`Shows.apart`), if both lie in their segments: then the
positions of the two are different addresses.  In its own extent it leaves what is shown before it.
-/
import Taihu.Storage
import Taihu.Frame

namespace Taihu

/-! ## 1. What is shown from a position on -/

theorem length_bytesFrom (f : Int → Byte) (n : Nat) : ∀ pos, (bytesFrom f n pos).length = n := by
  induction n with
  | zero => exact fun _ => rfl
  | succ n ih =>
    intro pos
    rw [bytesFrom, List.length_cons, ih]

theorem getElem?_bytesFrom (f : Int → Byte) (n : Nat) : ∀ (pos : Int) (i : Nat), i < n →
    (bytesFrom f n pos)[i]? = some (f (pos + i)) := by
  induction n with
  | zero => exact fun _ i hi => absurd hi (Nat.not_lt_zero i)
  | succ n ih =>
    intro pos i hi
    cases i with
    | zero => simp [bytesFrom]
    | succ i =>
      rw [bytesFrom, List.getElem?_cons_succ, ih _ i (Nat.lt_of_succ_lt_succ hi)]
      refine congrArg (fun p => some (f p)) ?_
      rw [Int.natCast_succ]
      omega

/-- The device has the bytes `v` from `off` on in the segment. -/
def Dev.Shows (L : Layout) (d : Dev) (seg off : Int) (v : Bytes) : Prop :=
  bytesFrom d.bytes v.length (devPos L seg off) = v

instance (L : Layout) (d : Dev) (seg off : Int) (v : Bytes) : Decidable (d.Shows L seg off v) :=
  inferInstanceAs (Decidable (_ = v))

theorem devPos_add (L : Layout) (seg off n : Int) : devPos L seg (off + n) = devPos L seg off + n :=
  (Int.add_assoc _ _ _).symm

namespace Dev

variable {L : Layout} {d d' : Dev} {seg off : Int} {v w b : Bytes}

/-- Byte by byte. -/
theorem shows_iff : d.Shows L seg off v ↔
    ∀ i, i < v.length → v[i]? = some (d.bytes (devPos L seg (off + i))) := by
  unfold Shows
  constructor
  · intro h i hi
    have hget := getElem?_bytesFrom d.bytes v.length (devPos L seg off) i hi
    rwa [h, ← devPos_add] at hget
  · intro h
    refine List.ext_getElem? fun i => ?_
    by_cases hi : i < v.length
    · rw [h i hi, getElem?_bytesFrom _ _ _ _ hi, ← devPos_add]
    · have hle := Nat.not_lt.mp hi
      rw [List.getElem?_eq_none hle, List.getElem?_eq_none (by rwa [length_bytesFrom])]

theorem shows_nil (L : Layout) (d : Dev) (seg off : Int) : d.Shows L seg off [] := rfl

/-- The same bytes are shown where no position has changed. -/
theorem Shows.congr (h : d.Shows L seg off v)
    (hb : ∀ i, i < v.length → d'.bytes (devPos L seg (off + (i : Nat))) = d.bytes (devPos L seg (off + (i : Nat)))) :
    d'.Shows L seg off v := by
  rw [shows_iff] at h ⊢
  intro i hi
  rw [hb i hi]
  exact h i hi

/-- A beginning of what is shown. -/
theorem Shows.head (h : d.Shows L seg off w) (hv : v <+: w) : d.Shows L seg off v := by
  obtain ⟨t, rfl⟩ := hv
  rw [shows_iff] at h ⊢
  intro i hi
  have hget := h i (by rw [List.length_append]; omega)
  rwa [List.getElem?_append_left hi] at hget

/-- What is shown from `off` on, and what is shown behind it. -/
theorem Shows.append (h : d.Shows L seg off w) (hb : d.Shows L seg (off + w.length) b) :
    d.Shows L seg off (w ++ b) := by
  rw [shows_iff] at h hb ⊢
  intro i hi
  by_cases hw : i < w.length
  · rw [List.getElem?_append_left hw]
    exact h i hw
  · rw [List.length_append] at hi
    rw [List.getElem?_append_right (Nat.not_lt.mp hw), hb _ (by omega)]
    refine congrArg (fun p => some (d.bytes (devPos L seg p))) ?_
    omega

/-! ## 2. Writing a block -/

/-- The device after a block has been written. -/
def wrote (L : Layout) (d : Dev) (seg off : Int) (block : Bytes) : Int → Byte := fun p =>
  if devPos L seg off ≤ p ∧ p < devPos L seg off + blockSize then block.getD (p - devPos L seg off).toNat 0
  else d.bytes p

/-- The block is shown where it has been written. -/
theorem shows_wrote (hd : d'.bytes = d.wrote L seg off b) (hb : (b.length : Int) ≤ blockSize) :
    d'.Shows L seg off b := by
  rw [shows_iff]
  intro i hi
  have hin : devPos L seg off ≤ devPos L seg (off + i) ∧
      devPos L seg (off + i) < devPos L seg off + blockSize := by
    rw [devPos_add]
    omega
  have hpos : (devPos L seg (off + i) - devPos L seg off).toNat = i := by
    rw [devPos_add]
    omega
  rw [hd, wrote, if_pos hin, hpos, List.getD_eq_getElem?_getD]
  rw [List.getElem?_eq_getElem hi]
  rfl

/-- A block leaves what is shown before it. -/
theorem Shows.before (h : d.Shows L seg off w) (hd : d'.bytes = d.wrote L seg (off + w.length) b) :
    d'.Shows L seg off w := by
  refine h.congr fun i hi => ?_
  rw [hd, wrote, if_neg]
  rw [devPos_add, devPos_add]
  omega

/-- **A block written in one extent leaves what a disjoint extent shows.** -/
theorem Shows.apart {a c : Span} (h : d.Shows L a.region a.start w) (hdis : Span.Disjoint a c)
    (ha : a.Fits L.segmentSizeBytes) (hc : c.Fits L.segmentSizeBytes) (hw : (w.length : Int) ≤ a.len)
    (hd : d'.bytes = d.wrote L c.region off b) (hoff : c.start ≤ off ∧ off + blockSize ≤ c.stop) :
    d'.Shows L a.region a.start w := by
  refine h.congr fun i hi => ?_
  rw [hd, wrote, if_neg]
  rintro ⟨hlo, hhi⟩
  -- a common address would be a position of both extents
  obtain ⟨k, hk⟩ : ∃ k, k = devPos L a.region (a.start + i) - devPos L c.region off := ⟨_, rfl⟩
  have hcov : a.Covers (a.region, a.start + i) :=
    ⟨rfl, by show a.start ≤ a.start + i; omega, by show a.start + (i : Int) < a.start + a.len; omega⟩
  have hcov' : c.Covers (c.region, off + k) :=
    ⟨rfl, by show c.start ≤ off + k; omega, by show off + k < c.stop; omega⟩
  refine hdis.address_ne ha hc hcov hcov' ?_
  show devPos L a.region (a.start + i) = devPos L c.region (off + k)
  rw [devPos_add L c.region off k, hk]
  omega

end Dev

/-! ## 3. Objects on the device -/

/-- The object `v` is where the mapping says. -/
def Dev.Stores (L : Layout) (d : Dev) (md : ObjectMeta) (v : Bytes) : Prop :=
  (v.length : Int) = md.size ∧ d.Shows L md.segmentID md.offset v

instance (L : Layout) (d : Dev) (md : ObjectMeta) (v : Bytes) : Decidable (d.Stores L md v) :=
  inferInstanceAs (Decidable (_ ∧ _))

/-- A block transfer, as it is seen on the device. -/
theorem exec_devWrite {L : Layout} {s s' : Sys} {l l' : Local} {seg off : Int} {block : Bytes}
    {ok : Bool} (h : exec L s l (.dev (.write seg off block)) = some (s', l', ok)) :
    s'.dev.bytes = if ok then s.dev.wrote L seg off block else s.dev.bytes := by
  simp only [exec, DevOp.exec] at h
  split at h
  · cases h
    rfl
  · cases h
    rfl

theorem exec_devRead {L : Layout} {s s' : Sys} {l l' : Local} {seg off : Int} {r : Option Bytes}
    (h : exec L s l (.dev (.read seg off)) = some (s', l', r)) {b : Bytes} (hr : r = some b) :
    b = bytesFrom s.dev.bytes blockSize.toNat (devPos L seg off) := by
  subst hr
  simp only [exec, DevOp.exec] at h
  split at h
  · simp only [Option.some.injEq, Prod.mk.injEq] at h
    exact h.2.2.symm
  · simp at h

/-- Only a block write changes the bytes of the device. -/
theorem exec_bytes {L : Layout} {s s' : Sys} {l l' : Local} {o : Op} {r : o.Reply}
    (h : exec L s l o = some (s', l', r)) (ho : ∀ seg off block, o ≠ .dev (.write seg off block)) :
    s'.dev.bytes = s.dev.bytes := by
  cases o with
  | cache o => cases h; rfl
  | pebble o => cases o <;> cases h <;> rfl
  | segs o =>
    obtain ⟨b, hx, -⟩ := exec_segsOp h
    rw [(SegsOp.exec_rest hx).2.2.2.1]
  | alloc o =>
    obtain ⟨hx, -⟩ := exec_allocOp h
    cases o <;> simp only [AllocOp.exec] at hx
    case lock => split at hx <;> cases hx; rfl
    all_goals cases hx; rfl
  | dev o =>
    cases o with
    | write seg off block => exact absurd rfl (ho seg off block)
    | read seg off => cases h; rfl

end Taihu
