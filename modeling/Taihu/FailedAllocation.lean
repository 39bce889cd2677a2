/-
# Allocations that find no space

`AllocateSegment`, `AllocateSegmentReserve` and `AllocateSegmentBatch` return `ErrNoSpace` when
there is no segment to roll to.  By then `allocOneLocked` has marked the segment under the cursor
`Full`, the items of the batch before this one have moved the cursor in memory, and `popFree` may
have put a segment back that was not `Free`.

The call is alone here, in any state, reachable or not.  `rollSegment_cases` says what a roll
leaves; `allocation_untouched_iff` says from the state before the call exactly when a failed call
has left everything as it was.
-/
import Taihu.Reclamation

namespace Taihu

open Concur Program

/-! ## 1. What is compared -/

/-- The state and the number of objects of a segment. -/
def SegmentMeta.tally (md : SegmentMeta) : SegmentState × Int := (md.state, md.aliveCount)

def SegmentManager.tally? (m : SegmentManager) (id : Int) : Option (SegmentState × Int) :=
  (m.segs.find? id).map (fun e => e.md.tally)

def Disk.tally? (d : Disk) (id : Int) : Option (SegmentState × Int) :=
  (d.segment.find? id).map SegmentMeta.tally

/-- The cursor, the segments and the pool are the same in both states.  The cursor is where
allocation continues: loading it from pebble does not move it. -/
structure Untouched (s s' : Sys) : Prop where
  cursor : s'.cursor = s.cursor
  persisted : s'.db.disk.cursor = s.db.disk.cursor
  memory : ∀ id, s'.segs.tally? id = s.segs.tally? id
  durable : ∀ id, s'.db.disk.tally? id = s.db.disk.tally? id
  free : s'.segs.free = s.segs.free

/-- The sizes an allocation asks for, and whether it may use the reserve. -/
def Call.wanted? : Call → Option (List Int × Bool)
  | .allocateSegment size => some ([size], false)
  | .allocateSegmentReserve size => some ([size], true)
  | .allocateSegmentBatch sizes => some (sizes, false)
  | _ => none

/-! ## 2. When a failure leaves no trace -/

/-- The offset at which the first of `sizes` that does not fit into the segment is tried. -/
def misfit (segSize : Int) : Int → List Int → Option Int
  | _, [] => none
  | off, size :: sizes =>
    if off + align4k size > segSize then some off else misfit segSize (off + align4k size) sizes

namespace Sys

/-- A roll off the segment under the cursor marks it: something has been allocated there. -/
def marks (s : Sys) (id : Int) : Bool := 0 < s.cursor.offset && id == s.cursor.segmentID

/-- The mark is a write. -/
def markWrites (s : Sys) : Bool :=
  0 < s.cursor.offset && (s.segs.segs.find? s.cursor.segmentID).isSome

/-- The write by which `popFree` would take the head of the pool, behind that of the mark,
fails. -/
def popFails (s : Sys) : Prop :=
  (s.db.faults.drop (if s.markWrites then 1 else 0)).head? = some true

/-- The cursor can go on in the next segment. -/
def nextUsable (L : Layout) (s : Sys) (useReserve : Bool) : Prop :=
  s.cursor.segmentID + 1 < (if useReserve then L.segmentCount else L.segmentCount - reserveSegs) ∧
    s.segs.canUse (s.cursor.segmentID + 1) = true

/-- There is nothing to roll to. -/
structure Stuck (L : Layout) (s : Sys) (useReserve : Bool) : Prop where
  next : ¬ s.nextUsable L useReserve
  pool : s.segs.free = [] ∨ s.popFails

/-- What a roll that finds no segment leaves the table as: `popFree` puts the head of the pool
back as `Free`, the mark makes the segment under the cursor `Full`. -/
def afterRoll (s : Sys) (id : Int) (st : SegmentState) : SegmentState :=
  if s.segs.free.head? = some id then .free else if s.marks id then .full else st

/-- A failed allocation of `sizes` leaves no trace: the item that fails is the first that does
not fit, no item before it takes space, and neither the mark nor `popFree` changes a record. -/
structure Traceless (L : Layout) (s : Sys) (sizes : List Int) (useReserve : Bool) : Prop where
  first : misfit L.segmentSizeBytes s.cursor.offset sizes = some s.cursor.offset
  stuck : s.Stuck L useReserve
  memory : ∀ id st, s.segs.state? id = some st → s.afterRoll id st = st
  durable : ∀ id e, s.marks id = true → s.segs.segs.find? id = some e →
    s.db.disk.tally? id = some (.full, e.md.aliveCount)

end Sys

/-! ## 3. One roll -/

variable {L : Layout} {s s1 s' : Sys} {l l1 l' : Local} {useReserve : Bool}

theorem Sys.cursor_eq (h : s.alloc.cursorLoaded = true) :
    s.cursor = ⟨s.alloc.curSeg, s.alloc.curOff⟩ := by
  unfold Sys.cursor
  rw [if_pos h]

/-- What the mark of a roll leaves. -/
structure Marked (s s1 : Sys) : Prop where
  alloc : s1.alloc = s.alloc
  free : s1.segs.free = s.segs.free
  cursor : s1.db.disk.cursor = s.db.disk.cursor
  entry : ∀ id, s1.segs.segs.find? id =
    if s.marks id then (s.segs.segs.find? id).map (fun e => e.withState .full)
    else s.segs.segs.find? id
  record : ∀ id, s1.db.disk.tally? id =
    if s.marks id ∧ (s.segs.segs.find? id).isSome
      then (s.segs.tally? id).map (fun x => (SegmentState.full, x.2))
    else s.db.disk.tally? id
  faults : s1.db.faults = s.db.faults.drop (if s.markWrites then 1 else 0)

theorem Marked.skip (h : ¬ 0 < s.cursor.offset) : Marked s s := by
  have hm : ∀ id, s.marks id = false := fun id => by simp [Sys.marks, h]
  have hw : s.markWrites = false := by simp [Sys.markWrites, h]
  constructor
  · rfl
  · rfl
  · rfl
  · intro id
    simp [hm]
  · intro id
    simp [hm]
  · simp [hw]

/-- A write that succeeds. -/
theorem DB.write_true {db db' : DB} {f : Disk → Disk} (h : db.write f = (true, db')) :
    db'.disk = f db.disk ∧ db'.faults = db.faults.drop 1 := by
  obtain ⟨d, fs⟩ := db
  cases fs with
  | nil => cases h; exact ⟨rfl, rfl⟩
  | cons f fs => cases f <;> cases h; exact ⟨rfl, rfl⟩

/-- A write that fails. -/
theorem DB.write_false {db db' : DB} {f : Disk → Disk} (h : db.write f = (false, db')) :
    db'.disk = db.disk ∧ db.faults.head? = some true := by
  obtain ⟨d, fs⟩ := db
  cases fs with
  | nil => cases h
  | cons f fs => cases f <;> cases h; exact ⟨rfl, rfl⟩

theorem exec_markFull {id : Int} {ok : Bool}
    (h : exec L s l (.segs (.markFull id)) = some (s', l', ok)) :
    SegmentManager.markFull s.db s.segs id = (ok, s'.db, s'.segs) := by
  obtain ⟨b, hx, -⟩ := exec_segsOp h
  simp only [SegsOp.exec] at hx
  split at hx
  · cases hx
  · cases hx
    rfl

theorem marked_of_markFull (hload : s.alloc.cursorLoaded = true) (hoff : 0 < s.cursor.offset)
    (h : exec L s l (.segs (.markFull s.alloc.curSeg)) = some (s1, l1, true)) : Marked s s1 := by
  have halloc := (exec_alloc h (by simp)).1
  have hx := exec_markFull h
  have hseg : s.cursor.segmentID = s.alloc.curSeg := cursor_of_loaded hload
  have hmarks : ∀ id, s.marks id = decide (id = s.alloc.curSeg) := by
    intro id
    simp [Sys.marks, hoff, hseg, Bool.beq_eq_decide_eq]
  have hwrites : s.markWrites = (s.segs.segs.find? s.alloc.curSeg).isSome := by
    simp [Sys.markWrites, hoff, hseg]
  unfold SegmentManager.markFull at hx
  cases he : s.segs.segs.find? s.alloc.curSeg with
  | none =>
    rw [he] at hx hwrites
    simp only [Prod.mk.injEq, true_and] at hx
    obtain ⟨hdb, hm⟩ := hx
    constructor
    · exact halloc
    · rw [hm]
    · rw [hdb]
    · intro id
      rw [← hm, hmarks]
      by_cases hid : id = s.alloc.curSeg
      · simp [hid, he]
      · simp [hid]
    · intro id
      rw [← hdb, hmarks]
      by_cases hid : id = s.alloc.curSeg
      · simp [hid, he]
      · simp [hid]
    · rw [← hdb, hwrites]
      simp
  | some e =>
    rw [he] at hx hwrites
    rcases hp : SegmentManager.persist s.db s.alloc.curSeg (e.withState .full) with ⟨ok, db⟩
    simp only [hp, Prod.mk.injEq] at hx
    obtain ⟨rfl, hdb, hm⟩ := hx
    obtain ⟨hdisk, hfaults⟩ := DB.write_true hp
    constructor
    · exact halloc
    · rw [← hm, SegmentManager.free_setEntry]
    · rw [← hdb, hdisk]
      rfl
    · intro id
      rw [← hm, hmarks, SegmentManager.find?_setEntry]
      by_cases hid : id = s.alloc.curSeg
      · simp [hid, he]
      · simp [hid]
    · intro id
      rw [← hdb, hdisk, hmarks]
      unfold Disk.tally? SegmentManager.tally?
      simp only [Disk.applyOp, SortedMap.find?_insert]
      by_cases hid : id = s.alloc.curSeg
      · simp [hid, he, SegmentMeta.tally, SegEntry.withState]
      · simp [hid]
    · rw [← hdb, hfaults, hwrites]
      simp

/-- `popFree` that finds nothing. -/
theorem popFree_none {db db' : DB} {m m' : SegmentManager}
    (h : SegmentManager.popFree db m = some (none, db', m')) :
    db'.disk = db.disk ∧ m'.free = m.free ∧ (m.free = [] ∨ db.faults.head? = some true) ∧
      (∀ id, m'.segs.find? id = if m.free.head? = some id
        then (m.segs.find? id).map (fun e => e.withState .free) else m.segs.find? id) ∧
      ∀ id, m.free.head? = some id → (m.segs.find? id).isSome := by
  rcases SegmentManager.popFree_cases h with ⟨hfree, hx⟩ | ⟨i, rest, e, ok, db1, hfree, he, hp, hcase⟩
  · cases hx
    refine ⟨rfl, rfl, Or.inl hfree, fun id => ?_, fun id hid => ?_⟩
    · simp [hfree]
    · simp [hfree] at hid
  · rcases hcase with ⟨-, hx⟩ | ⟨rfl, hx⟩
    · cases hx
    cases hx
    obtain ⟨hdisk, hfaults⟩ := DB.write_false hp
    refine ⟨hdisk, rfl, Or.inr hfaults, fun id => ?_, fun id hid => ?_⟩
    · rw [SegmentManager.find?_setEntry, hfree]
      by_cases hid : id = i
      · simp [hid, he]
      · simp [hid, Ne.symm hid]
    · rw [hfree] at hid
      cases hid
      simp [he]

/-- `popFree` that takes a segment. -/
theorem popFree_some {db db' : DB} {m m' : SegmentManager} {id : Int}
    (h : SegmentManager.popFree db m = some (some id, db', m')) :
    m'.free.length < m.free.length ∧ db.faults.head? ≠ some true := by
  rcases SegmentManager.popFree_cases h with ⟨-, hx⟩ | ⟨i, rest, e, ok, db1, hfree, -, hp, hcase⟩
  · cases hx
  rcases hcase with ⟨rfl, hx⟩ | ⟨-, hx⟩
  · cases hx
    constructor
    · simp [hfree]
    · intro hf
      unfold SegmentManager.persist DB.write at hp
      obtain ⟨d, fs⟩ := db
      cases fs with
      | nil => cases hf
      | cons f fs =>
        cases hf
        cases hp
  · cases hx

/-- The pool has lost a segment, or the cursor is further on and the pool has none more. -/
def Ahead (s s' : Sys) : Prop :=
  s'.segs.free.length < s.segs.free.length ∨
    (s'.segs.free.length ≤ s.segs.free.length ∧ s.alloc.curSeg < s'.alloc.curSeg)

/-- The same, or nothing of it. -/
def NotBehind (s s' : Sys) : Prop :=
  s'.segs.free.length < s.segs.free.length ∨
    (s'.segs.free.length ≤ s.segs.free.length ∧ s.alloc.curSeg ≤ s'.alloc.curSeg)

theorem Ahead.notBehind (h : Ahead s s') : NotBehind s s' := by
  unfold Ahead at h
  unfold NotBehind
  omega

theorem Ahead.trans (h : Ahead s s1) (h' : NotBehind s1 s') : Ahead s s' := by
  unfold Ahead at *
  unfold NotBehind at h'
  omega

/-- What a roll that finds no segment leaves. -/
structure RollFailed (s s' : Sys) : Prop where
  alloc : s'.alloc = s.alloc
  cursor : s'.db.disk.cursor = s.db.disk.cursor
  free : s'.segs.free = s.segs.free
  memory : ∀ id, s'.segs.tally? id = (s.segs.tally? id).map (fun x => (s.afterRoll id x.1, x.2))
  durable : ∀ id, s'.db.disk.tally? id =
    if s.marks id ∧ (s.segs.segs.find? id).isSome
      then (s.segs.tally? id).map (fun x => (SegmentState.full, x.2))
    else s.db.disk.tally? id

/-- The outcome of a roll. -/
def Rolled (L : Layout) (useReserve : Bool) (s s' : Sys) : Res Unit → Prop
  | .ok () => s'.alloc.cursorLoaded = true ∧ Ahead s s' ∧ ¬ s.Stuck L useReserve
  | .error .noSpace => RollFailed s s' ∧ s.Stuck L useReserve
  | .error _ => True

theorem exec_popFree {x : Option Int}
    (h : exec L s l (.segs .popFree) = some (s', l', x)) :
    SegmentManager.popFree s.db s.segs = some (x, s'.db, s'.segs) := by
  obtain ⟨b, hx, -⟩ := exec_segsOp h
  simp only [SegsOp.exec] at hx
  split at hx
  · cases hx
  · obtain ⟨y, hy, he⟩ := Option.map_eq_some_iff.mp hx
    cases he
    exact hy

theorem exec_canUse {id : Int} {ok : Bool}
    (h : exec L s l (.segs (.canUse id)) = some (s', l', ok)) :
    s' = s ∧ ok = s.segs.canUse id := by
  obtain ⟨b, hx, -⟩ := exec_segsOp h
  simp only [SegsOp.exec] at hx
  split at hx
  · cases hx
  · cases hx
    exact ⟨rfl, rfl⟩

theorem exec_activate {id : Int} {ok : Bool}
    (h : exec L s l (.segs (.activate id)) = some (s', l', ok)) :
    s'.segs.free.length ≤ s.segs.free.length := by
  have hs := exec_segs h
  rw [hs]
  simp only [Op.segsAfter, SegsOp.after]
  rw [SegmentManager.activate_snd, SegmentManager.free_setEntry, SegmentManager.free_unpool]
  split
  · exact List.length_erase_le
  · exact le_rfl

/-- What the roll asks of the next segment does not depend on the mark. -/
theorem Marked.canUse_next (h : Marked s s1) (hload : s.alloc.cursorLoaded = true) :
    s1.segs.canUse (s.alloc.curSeg + 1) = s.segs.canUse (s.alloc.curSeg + 1) := by
  have hseg : s.cursor.segmentID = s.alloc.curSeg := cursor_of_loaded hload
  have hm : s.marks (s.alloc.curSeg + 1) = false := by
    simp [Sys.marks, hseg]
  unfold SegmentManager.canUse
  rw [h.entry, hm]
  rfl

/-- The roll that finds nothing in the pool either. -/
theorem Marked.failed {db : DB} {m : SegmentManager} (h : Marked s s1)
    (hx : SegmentManager.popFree s1.db s1.segs = some (none, db, m)) (ha : s'.alloc = s1.alloc)
    (hdb : s'.db = db) (hm : s'.segs = m) :
    RollFailed s s' ∧ (s.segs.free = [] ∨ s.popFails) := by
  subst hdb hm
  obtain ⟨hdisk, hfree, hpool, hentry, hsome⟩ := popFree_none hx
  refine ⟨⟨ha.trans h.alloc, ?_, hfree.trans h.free, fun id => ?_, fun id => ?_⟩, ?_⟩
  · rw [hdisk, h.cursor]
  · unfold SegmentManager.tally? Sys.afterRoll
    rw [hentry, h.entry, h.free]
    cases s.segs.segs.find? id with
    | none => by_cases hm : s.marks id = true <;> simp [hm]
    | some e =>
      by_cases hm : s.marks id = true <;> by_cases hh : s.segs.free.head? = some id <;>
        simp [hm, hh, SegmentMeta.tally, SegEntry.withState]
  · rw [← h.record]
    unfold Disk.tally?
    rw [hdisk]
  · rw [h.free, h.faults] at hpool
    exact hpool

/-- **One roll.**  It moves on, or it finds no segment; then the mark and the segment put back
are all it leaves. -/
theorem rollSegment_cases {r : Res Unit} (hload : s.alloc.cursorLoaded = true)
    (h : (rollSegment L s.alloc useReserve).exec (exec L) s l = some (s', l', r)) :
    Rolled L useReserve s s' r := by
  have hcur := Sys.cursor_eq hload
  unfold rollSegment at h
  obtain ⟨s1, l1, marked, hmark, h⟩ := exec_bind_eq_some.mp h
  cases marked with
  | false =>
    obtain ⟨-, -, rfl⟩ := exec_pure_eq_some.mp h
    exact True.intro
  | true =>
    have hm : Marked s s1 := by
      split at hmark
      · rename_i hoff
        rw [markFull, perform, exec_perform] at hmark
        exact marked_of_markFull hload (by rw [hcur]; exact hoff) hmark
      · rename_i hoff
        obtain ⟨rfl, -, -⟩ := exec_pure_eq_some.mp hmark
        exact .skip (by rw [hcur]; exact hoff)
    simp only [if_true] at h
    obtain ⟨s2, l2, next, hnext, h⟩ := exec_bind_eq_some.mp h
    -- the check of the next segment changes nothing
    have hcheck : s2 = s1 ∧ (next = true ↔ s.nextUsable L useReserve) := by
      unfold Sys.nextUsable
      rw [hcur, ← hm.canUse_next hload]
      generalize (if useReserve = true then L.segmentCount else L.segmentCount - reserveSegs) = upper
        at hnext ⊢
      split at hnext
      · rename_i hlt
        rw [canUse, perform, exec_perform] at hnext
        obtain ⟨rfl, rfl⟩ := exec_canUse hnext
        exact ⟨rfl, fun hn => ⟨hlt, hn⟩, fun hn => hn.2⟩
      · rename_i hlt
        obtain ⟨rfl, -, rfl⟩ := exec_pure_eq_some.mp hnext
        exact ⟨rfl, fun hn => absurd hn (by simp), fun hn => absurd hn.1 hlt⟩
    obtain ⟨rfl, husable⟩ := hcheck
    cases next with
    | true =>
      simp only [if_true] at h
      obtain ⟨s3, l3, u, hset, h⟩ := exec_bind_eq_some.mp h
      obtain ⟨s4, l4, ok, hact, h⟩ := exec_bind_eq_some.mp h
      rw [setCursor, perform, exec_perform] at hset
      rw [activate, perform, exec_perform] at hact
      cases ok with
      | false =>
        obtain ⟨-, -, rfl⟩ := exec_pure_eq_some.mp h
        exact True.intro
      | true =>
        obtain ⟨rfl, -, rfl⟩ := exec_pure_eq_some.mp h
        obtain ⟨hx, -⟩ := exec_allocOp hset
        cases hx
        have hlen := exec_activate hact
        have ha := (exec_alloc hact (by simp)).1
        refine ⟨?_, Or.inr ⟨?_, ?_⟩, fun hs => hs.next (husable.mp rfl)⟩
        · rw [ha, hm.alloc]
          exact hload
        · rw [← hm.free]
          exact hlen
        · rw [ha]
          exact lt_add_one _
    | false =>
      simp only [Bool.false_eq_true, if_false] at h
      obtain ⟨s3, l3, x, hpop, h⟩ := exec_bind_eq_some.mp h
      rw [popFree, perform, exec_perform] at hpop
      have hx := exec_popFree hpop
      have ha := (exec_alloc hpop (by simp)).1
      cases x with
      | none =>
        obtain ⟨rfl, -, rfl⟩ := exec_pure_eq_some.mp h
        obtain ⟨hfailed, hpool⟩ := hm.failed hx ha rfl rfl
        exact ⟨hfailed, fun hn => absurd (husable.mpr hn) (by simp), hpool⟩
      | some seg =>
        obtain ⟨s4, l4, u, hset, h⟩ := exec_bind_eq_some.mp h
        rw [setCursor, perform, exec_perform] at hset
        obtain ⟨rfl, -, rfl⟩ := exec_pure_eq_some.mp h
        obtain ⟨hy, -⟩ := exec_allocOp hset
        cases hy
        obtain ⟨hlen, hok⟩ := popFree_some hx
        rw [hm.free] at hlen
        rw [hm.faults] at hok
        refine ⟨?_, Or.inl hlen, fun hs => ?_⟩
        · rw [ha, hm.alloc]
          exact hload
        rcases hs.pool with hfree | hfails
        · rw [hfree] at hlen
          exact absurd hlen (Nat.not_lt_zero _)
        · exact hok hfails

/-! ## 4. One item, and the items of a batch -/

/-- The state with the cursor at another offset of its segment. -/
def Sys.atOffset (s : Sys) (off : Int) : Sys := { s with alloc := { s.alloc with curOff := off } }

/-- The outcome of an item that does not fit. -/
def Placed (L : Layout) (useReserve : Bool) (s s' : Sys) : Res (Int × Int) → Prop
  | .ok _ => s'.alloc.cursorLoaded = true ∧ Ahead s s' ∧ ¬ s.Stuck L useReserve
  | .error .noSpace => RollFailed s s' ∧ s.Stuck L useReserve
  | .error _ => True

theorem allocOneLocked_fits {size : Int} {r : Res (Int × Int)}
    (hfit : s.alloc.curOff + align4k size ≤ L.segmentSizeBytes)
    (h : (allocOneLocked L size useReserve).exec (exec L) s l = some (s', l', r)) :
    s' = s.atOffset (s.alloc.curOff + align4k size) ∧ ∃ x, r = .ok x := by
  unfold allocOneLocked at h
  obtain ⟨s1, l1, a, hread, h⟩ := exec_bind_eq_some.mp h
  rw [allocator, perform, exec_perform] at hread
  obtain ⟨hx, -⟩ := exec_allocOp hread
  cases hx
  rw [if_neg (by omega)] at h
  obtain ⟨s2, l2, u, hpure, h⟩ := exec_bind_eq_some.mp h
  obtain ⟨rfl, -, rfl⟩ := exec_pure_eq_some.mp hpure
  obtain ⟨s3, l3, x, htake, h⟩ := exec_bind_eq_some.mp h
  rw [takeExtent, perform, exec_perform] at htake
  obtain ⟨rfl, -, rfl⟩ := exec_pure_eq_some.mp h
  obtain ⟨hy, -⟩ := exec_allocOp htake
  cases hy
  exact ⟨rfl, _, rfl⟩

theorem allocOneLocked_rolls {size : Int} {r : Res (Int × Int)}
    (hload : s.alloc.cursorLoaded = true)
    (hfit : s.alloc.curOff + align4k size > L.segmentSizeBytes)
    (h : (allocOneLocked L size useReserve).exec (exec L) s l = some (s', l', r)) :
    Placed L useReserve s s' r := by
  unfold allocOneLocked at h
  obtain ⟨s1, l1, a, hread, h⟩ := exec_bind_eq_some.mp h
  rw [allocator, perform, exec_perform] at hread
  obtain ⟨hx, -⟩ := exec_allocOp hread
  cases hx
  rw [if_pos hfit] at h
  obtain ⟨s2, l2, rolled, hroll, h⟩ := exec_bind_eq_some.mp h
  have hcases := rollSegment_cases hload hroll
  cases rolled with
  | error e =>
    obtain ⟨rfl, -, rfl⟩ := exec_pure_eq_some.mp h
    cases e <;> exact hcases
  | ok u =>
    obtain ⟨s3, l3, x, htake, h⟩ := exec_bind_eq_some.mp h
    rw [takeExtent, perform, exec_perform] at htake
    obtain ⟨rfl, -, rfl⟩ := exec_pure_eq_some.mp h
    obtain ⟨hy, -⟩ := exec_allocOp htake
    cases hy
    exact hcases

/-- What a failed run over `sizes` leaves: at the first item that does not fit it moved on, or
it failed there. -/
structure Exhausted (L : Layout) (s : Sys) (sizes : List Int) (useReserve : Bool) (s' : Sys) :
    Prop where
  loaded : s'.alloc.cursorLoaded = true
  trace : ∃ off, misfit L.segmentSizeBytes s.alloc.curOff sizes = some off ∧
    (Ahead s s' ∧ ¬ (s.atOffset off).Stuck L useReserve ∨
      RollFailed (s.atOffset off) s' ∧ (s.atOffset off).Stuck L useReserve)

theorem RollFailed.notBehind {off : Int} (h : RollFailed (s.atOffset off) s') : NotBehind s s' := by
  refine Or.inr ⟨?_, ?_⟩
  · rw [h.free]
    exact le_rfl
  · rw [h.alloc]
    exact le_rfl

theorem Exhausted.notBehind {sizes : List Int} (h : Exhausted L s sizes useReserve s') :
    NotBehind s s' := by
  obtain ⟨-, off, -, ⟨hahead, -⟩ | ⟨hfailed, -⟩⟩ := h
  · exact hahead.notBehind
  · exact hfailed.notBehind

theorem exhausted_of_one {size : Int} (hload : s.alloc.cursorLoaded = true)
    (h : (allocOneLocked L size useReserve).exec (exec L) s l = some (s', l', .error .noSpace)) :
    Exhausted L s [size] useReserve s' := by
  by_cases hfit : s.alloc.curOff + align4k size > L.segmentSizeBytes
  · obtain ⟨hfailed, hstuck⟩ := allocOneLocked_rolls hload hfit h
    refine ⟨?_, s.alloc.curOff, if_pos hfit, Or.inr ⟨hfailed, hstuck⟩⟩
    rw [hfailed.alloc]
    exact hload
  · obtain ⟨-, x, hx⟩ := allocOneLocked_fits (by omega) h
    cases hx

theorem exhausted_of_loop (sizes : List Int) :
    ∀ (s : Sys) (l l' : Local), s.alloc.cursorLoaded = true →
      (allocBatchLoop L sizes).exec (exec L) s l = some (s', l', .error .noSpace) →
      Exhausted L s sizes false s' := by
  induction sizes with
  | nil =>
    intro s l l' hload h
    obtain ⟨-, -, hr⟩ := exec_pure_eq_some.mp h
    cases hr
  | cons size sizes ih =>
    intro s l l' hload h
    unfold allocBatchLoop at h
    obtain ⟨s1, l1, r, hone, h⟩ := exec_bind_eq_some.mp h
    by_cases hfit : s.alloc.curOff + align4k size > L.segmentSizeBytes
    · have hplaced := allocOneLocked_rolls hload hfit hone
      have hmis : misfit L.segmentSizeBytes s.alloc.curOff (size :: sizes) = some s.alloc.curOff :=
        if_pos hfit
      cases r with
      | error e =>
        obtain ⟨rfl, -, he⟩ := exec_pure_eq_some.mp h
        cases he
        obtain ⟨hfailed, hstuck⟩ := hplaced
        refine ⟨?_, s.alloc.curOff, hmis, Or.inr ⟨hfailed, hstuck⟩⟩
        rw [hfailed.alloc]
        exact hload
      | ok x =>
        obtain ⟨hload1, hahead, hstuck⟩ := hplaced
        obtain ⟨s2, l2, rs, hrest, h⟩ := exec_bind_eq_some.mp h
        cases rs with
        | ok xs =>
          obtain ⟨-, -, he⟩ := exec_pure_eq_some.mp h
          cases he
        | error e =>
          obtain ⟨rfl, -, he⟩ := exec_pure_eq_some.mp h
          cases he
          have hx := ih s1 l1 l2 hload1 hrest
          exact ⟨hx.loaded, s.alloc.curOff, hmis, Or.inl ⟨hahead.trans hx.notBehind, hstuck⟩⟩
    · obtain ⟨rfl, x, rfl⟩ := allocOneLocked_fits (by omega) hone
      obtain ⟨s2, l2, rs, hrest, h⟩ := exec_bind_eq_some.mp h
      cases rs with
      | ok xs =>
        obtain ⟨-, -, he⟩ := exec_pure_eq_some.mp h
        cases he
      | error e =>
        obtain ⟨rfl, -, he⟩ := exec_pure_eq_some.mp h
        cases he
        obtain ⟨hload', off, hmis, htrace⟩ :=
          ih (s.atOffset (s.alloc.curOff + align4k size)) l1 l2 hload hrest
        exact ⟨hload', off, (if_neg hfit).trans hmis, htrace⟩

/-! ## 5. The calls -/

theorem Ahead.touched (h : Ahead s s') (hload : s.alloc.cursorLoaded = true)
    (hload' : s'.alloc.cursorLoaded = true) : ¬ Untouched s s' := by
  intro hu
  have hc := hu.cursor
  rw [Sys.cursor_eq hload, Sys.cursor_eq hload'] at hc
  have hseg : s'.alloc.curSeg = s.alloc.curSeg := congrArg WriteCursor.segmentID hc
  unfold Ahead at h
  rw [hu.free, hseg] at h
  omega

/-- What the failed roll leaves is what was there, exactly when the mark and `popFree` find the
records as they would make them. -/
theorem RollFailed.untouched_iff (h : RollFailed s s') : Untouched s s' ↔
    (∀ id st, s.segs.state? id = some st → s.afterRoll id st = st) ∧
      ∀ id e, s.marks id = true → s.segs.segs.find? id = some e →
        s.db.disk.tally? id = some (.full, e.md.aliveCount) := by
  have hstate : ∀ id st, s.segs.state? id = some st →
      ∃ n, s.segs.tally? id = some (st, n) := by
    intro id st hst
    obtain ⟨e, he, rfl⟩ := SegmentManager.state?_eq_some.mp hst
    exact ⟨e.md.aliveCount, congrArg (Option.map (fun e : SegEntry => e.md.tally)) he⟩
  have htally : ∀ id e, s.segs.segs.find? id = some e →
      s.segs.tally? id = some (e.md.state, e.md.aliveCount) :=
    fun id e he => congrArg (Option.map (fun e : SegEntry => e.md.tally)) he
  constructor
  · intro hu
    constructor
    · intro id st hst
      obtain ⟨n, hn⟩ := hstate id st hst
      have hm := hu.memory id
      rw [h.memory, hn] at hm
      exact congrArg Prod.fst (Option.some.inj hm)
    · intro id e hmark he
      have hd := hu.durable id
      rw [h.durable, if_pos ⟨hmark, by rw [he]; rfl⟩, htally id e he] at hd
      exact hd.symm
  · rintro ⟨hmem, hdur⟩
    constructor
    · unfold Sys.cursor
      rw [h.alloc, h.cursor]
    · exact h.cursor
    · intro id
      rw [h.memory]
      cases he : s.segs.segs.find? id with
      | none =>
        have hnone : s.segs.tally? id = none := congrArg (Option.map _) he
        rw [hnone]
        rfl
      | some e =>
        have hst := hmem id e.md.state (SegmentManager.state?_of_find? he)
        rw [htally id e he, Option.map_some, hst]
    · intro id
      rw [h.durable]
      split
      · rename_i hmark
        obtain ⟨e, he⟩ := Option.isSome_iff_exists.mp hmark.2
        rw [htally id e he, hdur id e hmark.1 he]
        rfl
      · rfl
    · exact h.free

/-- The failed run over the items. -/
theorem Exhausted.untouched_iff {sizes : List Int} (h : Exhausted L s sizes useReserve s')
    (hload : s.alloc.cursorLoaded = true) :
    Untouched s s' ↔ s.Traceless L sizes useReserve := by
  have hcur := Sys.cursor_eq hload
  obtain ⟨hload', off, hmis, htrace⟩ := h
  have hat : (s.atOffset s.alloc.curOff) = s := rfl
  constructor
  · intro hu
    rcases htrace with ⟨hahead, -⟩ | ⟨hfailed, hstuck⟩
    · exact absurd hu (hahead.touched hload hload')
    · have hoff : off = s.alloc.curOff := by
        have hc := hu.cursor
        rw [hcur, Sys.cursor_eq hload', hfailed.alloc] at hc
        exact congrArg WriteCursor.offset hc
      subst hoff
      obtain ⟨hmem, hdur⟩ := hfailed.untouched_iff.mp hu
      refine ⟨?_, hstuck, hmem, hdur⟩
      rw [hcur]
      exact hmis
  · intro ht
    have hfirst := ht.first
    rw [hcur] at hfirst
    obtain rfl : s.alloc.curOff = off := Option.some.inj (hfirst.symm.trans hmis)
    rcases htrace with ⟨-, hstuck⟩ | ⟨hfailed, -⟩
    · exact absurd ht.stuck hstuck
    · exact hfailed.untouched_iff.mpr ⟨ht.memory, ht.durable⟩

/-- The state in which the items are allocated: the lock is taken and the cursor loaded. -/
def Sys.begun (s : Sys) : Sys :=
  { s with allocMu := true, alloc := ⟨s.cursor.segmentID, s.cursor.offset, true⟩ }

/-- The lock is given back. -/
def Sys.ended (s : Sys) : Sys := { s with allocMu := false }

theorem traceless_begun {sizes : List Int} :
    s.begun.Traceless L sizes useReserve ↔ s.Traceless L sizes useReserve := by
  constructor
  · intro h
    exact ⟨h.first, ⟨h.stuck.next, h.stuck.pool⟩, h.memory, h.durable⟩
  · intro h
    exact ⟨h.first, ⟨h.stuck.next, h.stuck.pool⟩, h.memory, h.durable⟩

theorem untouched_begun : Untouched s.begun s' ↔ Untouched s s'.ended := by
  constructor
  · intro h
    exact ⟨h.cursor, h.persisted, h.memory, h.durable, h.free⟩
  · intro h
    exact ⟨h.cursor, h.persisted, h.memory, h.durable, h.free⟩

/-- The head of both procedures. -/
theorem exec_begin {α : Type} {p : Proc α} {a : α}
    (h : (do allocLock; ensureLoaded; p : Proc α).exec (exec L) s l = some (s', l', a)) :
    ∃ l1, p.exec (exec L) s.begun l1 = some (s', l', a) := by
  obtain ⟨s1, l1, u, hlock, h⟩ := exec_bind_eq_some.mp h
  obtain ⟨s2, l2, u', hload, h⟩ := exec_bind_eq_some.mp h
  rw [allocLock, perform, exec_perform] at hlock
  rw [ensureLoaded, perform, exec_perform] at hload
  obtain ⟨hx, -⟩ := exec_allocOp hlock
  simp only [AllocOp.exec] at hx
  split at hx
  · cases hx
  · cases hx
    obtain ⟨hy, -⟩ := exec_allocOp hload
    cases hy
    exact ⟨l2, h⟩

/-- The end of both on an error. -/
theorem exec_fail {α : Type} {e e' : Err}
    (h : (do allocUnlock; Pure.pure (.error e) : Proc (Res α)).exec (exec L) s l
      = some (s', l', .error e')) : s' = s.ended ∧ e' = e := by
  obtain ⟨s1, l1, u, hunlock, h⟩ := exec_bind_eq_some.mp h
  rw [allocUnlock, perform, exec_perform] at hunlock
  obtain ⟨hx, -⟩ := exec_allocOp hunlock
  cases hx
  obtain ⟨rfl, -, he⟩ := exec_pure_eq_some.mp h
  exact ⟨rfl, Except.error.inj he⟩

/-- The end of both on success: no space is not what they report. -/
theorem exec_persisted {α : Type} {a : α} {seg off : Int}
    (h : (do
      let ok ← persistCursor seg off
      allocUnlock
      if ok then Pure.pure (.ok a) else Pure.pure (.error .io) : Proc (Res α)).exec (exec L) s l
        = some (s', l', .error .noSpace)) : False := by
  obtain ⟨s1, l1, ok, -, h⟩ := exec_bind_eq_some.mp h
  obtain ⟨s2, l2, u, -, h⟩ := exec_bind_eq_some.mp h
  split at h
  · obtain ⟨-, -, he⟩ := exec_pure_eq_some.mp h
    cases he
  · obtain ⟨-, -, he⟩ := exec_pure_eq_some.mp h
    cases he

theorem exhausted_of_allocate {size : Int}
    (h : (allocate L size useReserve).exec (exec L) s l = some (s', l', .error .noSpace)) :
    ∃ s1, Exhausted L s.begun [size] useReserve s1 ∧ s' = s1.ended := by
  unfold allocate at h
  obtain ⟨l1, h⟩ := exec_begin h
  obtain ⟨s2, l2, r, hone, h⟩ := exec_bind_eq_some.mp h
  cases r with
  | error e =>
    obtain ⟨rfl, rfl⟩ := exec_fail h
    exact ⟨s2, exhausted_of_one rfl hone, rfl⟩
  | ok x =>
    obtain ⟨s3, l3, a, -, h⟩ := exec_bind_eq_some.mp h
    exact (exec_persisted h).elim

theorem exhausted_of_batch {sizes : List Int}
    (h : (allocateSegmentBatch L sizes).exec (exec L) s l = some (s', l', .error .noSpace)) :
    ∃ s1, Exhausted L s.begun sizes false s1 ∧ s' = s1.ended := by
  unfold allocateSegmentBatch at h
  obtain ⟨l1, h⟩ := exec_begin h
  obtain ⟨s2, l2, r, hloop, h⟩ := exec_bind_eq_some.mp h
  cases r with
  | error e =>
    obtain ⟨rfl, rfl⟩ := exec_fail h
    exact ⟨s2, exhausted_of_loop sizes _ _ _ rfl hloop, rfl⟩
  | ok xs =>
    dsimp only at h
    split at h
    · obtain ⟨s3, l3, u, -, h⟩ := exec_bind_eq_some.mp h
      obtain ⟨-, -, he⟩ := exec_pure_eq_some.mp h
      cases he
    · obtain ⟨s3, l3, a, -, h⟩ := exec_bind_eq_some.mp h
      exact (exec_persisted h).elim

/-- A call that returns the result of a procedure under `f`. -/
theorem exec_mapped {α β : Type} {p : Proc (Res α)} {f : α → β} {e : Err}
    (h : (do return (← p).map f : Proc (Res β)).exec (exec L) s l = some (s', l', .error e)) :
    p.exec (exec L) s l = some (s', l', .error e) := by
  obtain ⟨s1, l1, r, hp, h⟩ := exec_bind_eq_some.mp h
  obtain ⟨rfl, rfl, hr⟩ := exec_pure_eq_some.mp h
  cases r with
  | error e' =>
    cases hr
    exact hp
  | ok a => cases hr

/-- **Failed allocations.**  A call that returns `ErrNoSpace` leaves the cursor, the segments and
the pool as they were exactly when the state before it is `Traceless` for its sizes. -/
theorem allocation_untouched_iff {call : Call} {sizes : List Int}
    (hw : call.wanted? = some (sizes, useReserve))
    (h : (code L call).exec (exec L) s l = some (s', l', .error .noSpace)) :
    Untouched s s' ↔ s.Traceless L sizes useReserve := by
  have key : ∃ s1, Exhausted L s.begun sizes useReserve s1 ∧ s' = s1.ended := by
    cases call <;> try cases hw
    case allocateSegment size => exact exhausted_of_allocate (exec_mapped h)
    case allocateSegmentReserve size => exact exhausted_of_allocate (exec_mapped h)
    case allocateSegmentBatch => exact exhausted_of_batch (exec_mapped h)
  obtain ⟨s1, hx, rfl⟩ := key
  rw [← untouched_begun, ← traceless_begun]
  exact hx.untouched_iff rfl

/-- The first allocation of a store with one segment for users, which asks for two: nothing has
been allocated in the segment, and nothing is left of the call. -/
theorem allocation_untouched_first : ∃ s' l',
    (code ⟨4096, 3⟩ (.allocateSegment 8192)).exec (exec ⟨4096, 3⟩) (.init (fun _ => 0) [] [])
      { hist := { call := .allocateSegment 8192 } } = some (s', l', .error .noSpace) ∧
    Untouched (.init (fun _ => 0) [] []) s' := by
  obtain ⟨⟨s', l', r⟩, hx, hr⟩ := Option.map_eq_some_iff.mp
    (show ((code ⟨4096, 3⟩ (.allocateSegment 8192)).exec (exec ⟨4096, 3⟩)
      (.init (fun _ => 0) [] []) { hist := { call := .allocateSegment 8192 } }).map
        (fun x => x.2.2) = some (.error .noSpace) by decide +kernel)
  cases hr
  refine ⟨s', l', hx, (allocation_untouched_iff rfl hx).mpr ?_⟩
  constructor
  · decide +kernel
  · constructor
    · rintro ⟨h, -⟩
      exact absurd h (by decide +kernel)
    · exact Or.inl rfl
  · intro id st h
    cases h
  · intro id e _ h
    cases h

/-- **A failure that is seen.**  An object of one block is put, which fills the only segment
for users.  The next allocation finds no space and leaves the segment `Full`, in memory and on
disk, although the cursor has not left it. -/
theorem failed_allocation_marks_full : ∃ (c : SysConf) (s' : Sys) (l' : Local),
    (machine ⟨4096, 3⟩).run (SysConf.init (fun _ => 0) [] []) (Act.calls (.put [1] 1 [7]) 0 15)
      = some c ∧ c.Quiescent ∧
    (code ⟨4096, 3⟩ (.allocateSegment 1)).exec (exec ⟨4096, 3⟩) c.shared
      { hist := { call := .allocateSegment 1 } } = some (s', l', .error .noSpace) ∧
    ¬ Untouched c.shared s' := by
  obtain ⟨c, hc, hview⟩ := Option.map_eq_some_iff.mp
    (show ((machine ⟨4096, 3⟩).run (SysConf.init (fun _ => 0) [] [])
      (Act.calls (.put [1] 1 [7]) 0 15)).map (fun c => decide (c.Quiescent ∧
        c.shared.segs.tally? 0 = some (.active, 1) ∧
        ((code ⟨4096, 3⟩ (.allocateSegment 1)).exec (exec ⟨4096, 3⟩) c.shared
          { hist := { call := .allocateSegment 1 } }).map
            (fun x => (x.2.2, x.1.segs.tally? 0)) = some (.error .noSpace, some (.full, 1))))
      = some true by decide +kernel)
  obtain ⟨hq, hbefore, hafter⟩ := of_decide_eq_true hview
  obtain ⟨⟨s', l', r⟩, hx, hr⟩ := Option.map_eq_some_iff.mp hafter
  simp only [Prod.mk.injEq] at hr
  obtain ⟨rfl, hfull⟩ := hr
  refine ⟨c, s', l', hc, hq, hx, fun hu => ?_⟩
  have hm := hu.memory 0
  rw [hbefore, hfull] at hm
  exact absurd hm (by decide)

end Taihu
