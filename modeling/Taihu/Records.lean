/-
# The metadata records and the pebble store that keeps them

`internal/metastore/metastore.go` and `model.go`.  Three kinds of record live in one pebble
store: `mapping` (user key to `ObjectMeta`), `segment` (segment id to `SegmentMeta`) and the
write cursor.  The model keeps them in three tables (`Disk`); a `Batch` is the list of writes
that one `Apply` commits atomically.

Every write to pebble may fail.  Whether it does is decided by `faults`, one entry for each
coming write, so that a result can speak of every pattern of failures; the empty list means
that pebble never fails.  Reads do not fail in this model, and stored values decode.
-/
import Taihu.Lib.SortedMap
import Taihu.Layout
import Mathlib

namespace Taihu

/-- A byte. -/
abbrev Byte := Fin 256

instance neZero_byte : NeZero 256 := ⟨by decide⟩

/-- A user key: a Go string, compared bytewise. -/
abbrev Key := List Byte

instance lawfulBEq_key : LawfulBEq Key := inferInstance

/-- The errors of `pkg/ierr` (and `io.EOF`) that the modelled code returns; `io` stands for an
error of pebble or of the device. -/
inductive Err where
  | notFound
  | invalidRange
  | tooLarge
  | noSpace
  | shortWrite
  | conflict
  | eof
  | io
  deriving DecidableEq, Repr

/-- `ObjectMeta`: the extent of an object. -/
structure ObjectMeta where
  segmentID : Int
  offset : Int
  size : Int
  deriving DecidableEq, Repr

/-- `SegmentState`. -/
inductive SegmentState where
  | free
  | active
  | full
  | reclaiming
  | compacting
  deriving DecidableEq, Repr

/-- `SegmentMeta`. -/
structure SegmentMeta where
  state : SegmentState
  aliveCount : Int
  reclaimSeq : Int
  deriving DecidableEq, Repr

/-- `writeCursor`: where the next object goes. -/
structure WriteCursor where
  segmentID : Int
  offset : Int
  deriving DecidableEq, Repr

/-- One write of a pebble batch. -/
inductive BatchOp where
  | setMapping (key : Key) (m : ObjectMeta)
  | delMapping (key : Key)
  | setSegment (id : Int) (m : SegmentMeta)
  deriving DecidableEq, Repr

abbrev Batch := List BatchOp

/-- What pebble has made durable. -/
structure Disk where
  mapping : SortedMap Key ObjectMeta
  segment : SortedMap Int SegmentMeta
  cursor : Option WriteCursor

namespace Disk

def empty : Disk := ⟨.empty, .empty, none⟩

def applyOp (d : Disk) : BatchOp → Disk
  | .setMapping key m => { d with mapping := d.mapping.insert key m }
  | .delMapping key => { d with mapping := d.mapping.erase key }
  | .setSegment id m => { d with segment := d.segment.insert id m }

/-- The writes of a batch, in order. -/
def apply (d : Disk) (b : Batch) : Disk := b.foldl applyOp d

def setCursor (d : Disk) (c : WriteCursor) : Disk := { d with cursor := some c }

/-- `binary.LittleEndian`: the `n` low bytes of a number, least significant first. -/
def leBytes : Nat → Nat → List Byte
  | 0, _ => []
  | n + 1, x => ⟨x % 256, Nat.mod_lt _ (by decide)⟩ :: leBytes n (x / 256)

/-- `segmentKey`, less its constant prefix: the id as eight little-endian bytes. -/
def segmentKey (id : Int) : List Byte := leBytes 8 (id % 2 ^ 64).toNat

/-- `segmentModel.iter`: the segment records in the byte order of their keys, which is not the
order of the ids. -/
def iterSegment (d : Disk) : List (Int × SegmentMeta) :=
  d.segment.entries.insertionSort (fun a b => segmentKey a.1 ≤ segmentKey b.1)

theorem iterSegment_perm (d : Disk) : d.iterSegment.Perm d.segment.entries :=
  List.perm_insertionSort _ _

@[simp] theorem apply_nil (d : Disk) : d.apply [] = d := rfl

@[simp] theorem apply_cons (d : Disk) (o : BatchOp) (b : Batch) :
    d.apply (o :: b) = (d.applyOp o).apply b := rfl

theorem apply_append (d : Disk) (b b' : Batch) : d.apply (b ++ b') = (d.apply b).apply b' :=
  List.foldl_append

@[simp] theorem apply_cursor (d : Disk) (b : Batch) : (d.apply b).cursor = d.cursor := by
  induction b generalizing d with
  | nil => rfl
  | cons o b ih => rw [apply_cons, ih]; cases o <;> rfl

/-- A batch never removes a segment record. -/
theorem apply_segment_isSome {d : Disk} {id : Int} (h : (d.segment.find? id).isSome)
    (b : Batch) : ((d.apply b).segment.find? id).isSome := by
  induction b generalizing d with
  | nil => exact h
  | cons o b ih =>
    refine ih ?_
    cases o with
    | setMapping key m => exact h
    | delMapping key => exact h
    | setSegment i m =>
      simp only [applyOp, SortedMap.find?_insert]
      split
      · rfl
      · exact h

end Disk

/-- The pebble handle: the durable tables, and the outcomes of the coming writes (`true` for a
write that fails; none left means every write succeeds). -/
structure DB where
  disk : Disk
  faults : List Bool

namespace DB

/-- One synchronous write.  Either all of `f` becomes durable or nothing does. -/
def write (db : DB) (f : Disk → Disk) : Bool × DB :=
  match db.faults with
  | [] => (true, { db with disk := f db.disk })
  | false :: fs => (true, ⟨f db.disk, fs⟩)
  | true :: fs => (false, ⟨db.disk, fs⟩)

/-- Without faults to come a write succeeds. -/
theorem write_of_no_faults {db : DB} (h : db.faults = []) (f : Disk → Disk) :
    db.write f = (true, ⟨f db.disk, []⟩) := by
  cases db
  simp only at h
  subst h
  rfl

/-- A write whose outcome is not a failure succeeds. -/
theorem write_succeeds {db : DB} (h : db.faults.head? ≠ some true) (f : Disk → Disk) :
    (db.write f).1 = true := by
  unfold write
  split
  · rfl
  · rfl
  · rename_i fs hfs
    rw [hfs] at h
    exact absurd rfl h

theorem write_disk (db : DB) (f : Disk → Disk) :
    (db.write f).2.disk = if (db.write f).1 then f db.disk else db.disk := by
  unfold write
  split <;> rfl

end DB

end Taihu
