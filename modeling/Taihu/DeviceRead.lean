/-
# Reading a window of an object

`internal/device/device.go` (`submitOpN`, `ReadAt`, `ReadAtInto`, `SubmitReadAsync`, `Await`,
`ReadAtIntoBatch`, `readJobsIndividually`) and `internal/storage/read.go` (`readWindow`,
`ReadAtMeta`, `ReadAtIntoMeta`, `SubmitReadAtIntoMeta`, `Await`, `BatchRead`).

The reads of `GetStream.lean` take from the device how a read ends.  Here a read is submitted,
completed and, after an error that passes, submitted again, into a buffer that holds what its
last user has left there; and a slice that Go refuses is a panic.  Sums are those of `int64`.

The device is given by what lies on it and by the results with which the submissions of an IO
complete, one after the other.  A submission is accepted in the end: while the queue of the ring
is full it is repeated, and a closed device is left out.
-/
import Taihu.BufPool
import Taihu.CompletionPump
import Taihu.GetStream

namespace Taihu.DeviceRead

open BufPool
open CompletionPump (retriableErrno complRetryMax)

/-! ## 1. One IO -/

/-- An IO: `size` bytes at offset `off` of a segment. -/
structure Extent where
  seg : Int
  off : Int
  size : Int
  deriving DecidableEq, Repr

/-- The device: its bytes, and `ev.Res` of the `k`-th submission of an IO. -/
structure Drive where
  byte : (seg off : Int) → Byte
  res : Extent → Nat → Int
  res_le : ∀ x k, 0 ≤ x.size → res x k ≤ x.size

namespace Drive

variable (d : Drive)

/-- The first `n` bytes of an IO. -/
def bytes (x : Extent) (n : Nat) : Bytes := (List.range n).map (fun (i : Nat) => d.byte x.seg (x.off + i))

/-- The buffer after a submission that has completed with `res`: so many bytes are delivered, and
behind them lies what was there before. -/
def fill (x : Extent) (res : Int) (buf : Bytes) : Bytes :=
  d.bytes x res.toNat ++ buf.drop res.toNat

/-- `submitOpN`, with so many repetitions left, when the IO has been submitted `k` times before:
the buffer and the result. -/
def submitOpN (x : Extent) : Nat → Nat → Bytes → Bytes × Int
  | 0, k, buf => (d.fill x (d.res x k) buf, d.res x k)
  | n + 1, k, buf =>
    if retriableErrno (d.res x k) then submitOpN x n (k + 1) (d.fill x (d.res x k) buf)
    else (d.fill x (d.res x k) buf, d.res x k)

/-- `submitRead`. -/
def submitRead (x : Extent) (buf : Bytes) : Bytes × Int := d.submitOpN x complRetryMax 0 buf

/-- A submission whose first completion somebody else waits for (`SubmitReadAsync`, or a batch),
and what its waiter does: the repetitions are those of a fresh `submitOpN`. -/
def await (x : Extent) (buf : Bytes) : Bytes × Int :=
  let buf' := d.fill x (d.res x 0) buf
  if retriableErrno (d.res x 0) then d.submitOpN x complRetryMax 1 buf' else (buf', d.res x 0)

end Drive

/-! ## 2. The reads of the device -/

/-- The errors of a read. -/
inductive ReadErr where
  | eof
  | invalidRange
  | offset (off : Int)
  | size (size : Int)
  | dst (len size : Int)
  | unaligned
  | errno (e : Int)
  deriving DecidableEq, Repr

/-- A destination, and whether it begins at a block (`bufAligned`; an empty one does not). -/
structure Dst where
  buf : Bytes
  aligned : Bool
  deriving DecidableEq, Repr

/-- `bufAligned`. -/
def Dst.bufAligned (t : Dst) : Bool := 0 < t.buf.length && t.aligned

/-- `dst[:n]`, which panics when `n` is negative or past the capacity. -/
def Dst.slice (t : Dst) (n : Int) : Option Dst :=
  if 0 ≤ n ∧ n ≤ t.buf.length then some ⟨t.buf.take n.toNat, t.aligned⟩ else none

namespace Drive

variable (d : Drive)

/-- `Device.ReadAt`: the buffer it has taken from the pool, and the length of the slice of it that
is returned. -/
def readAt (p : Pool) (x : Extent) : Except ReadErr (Bytes × Int) :=
  if x.off < 0 ∨ x.off % blockSize ≠ 0 then .error (.offset x.off)
  else if x.size < 0 ∨ x.size % blockSize ≠ 0 then .error (.size x.size)
  else if x.size = 0 then .ok ([], 0)
  else
    let ev := d.submitRead x (p.get x.size.toNat).1.bytes
    if ev.2 < 0 then .error (.errno (-ev.2))
    else if ev.2 = 0 then .error .eof
    else .ok ev

/-- `Device.ReadAtInto`: the destination and the number of bytes. -/
def readAtInto (x : Extent) (dst : Dst) : Except ReadErr Int × Bytes :=
  if x.off < 0 ∨ x.off % blockSize ≠ 0 then (.error (.offset x.off), dst.buf)
  else if x.size < 0 ∨ x.size % blockSize ≠ 0 then (.error (.size x.size), dst.buf)
  else if x.size = 0 then (.ok 0, dst.buf)
  else if (dst.buf.length : Int) < x.size then (.error (.dst dst.buf.length x.size), dst.buf)
  else if ¬ dst.bufAligned then (.error .unaligned, dst.buf)
  else
    let ev := d.submitRead x dst.buf
    if ev.2 < 0 then (.error (.errno (-ev.2)), ev.1)
    else if ev.2 = 0 then (.error .eof, ev.1)
    else (.ok ev.2, ev.1)

/-- The checks of `SubmitReadAsync`. -/
def checkReadAsync (x : Extent) (dst : Dst) : Except ReadErr Unit :=
  if x.off < 0 ∨ x.off % blockSize ≠ 0 then .error (.offset x.off)
  else if x.size ≤ 0 ∨ x.size % blockSize ≠ 0 then .error (.size x.size)
  else if (dst.buf.length : Int) < x.size then .error (.dst dst.buf.length x.size)
  else if ¬ dst.bufAligned then .error .unaligned
  else .ok ()

/-- `AsyncRead.Await`. -/
def awaitRead (x : Extent) (dst : Dst) : Except ReadErr Int × Bytes :=
  let ev := d.await x dst.buf
  if ev.2 < 0 then (.error (.errno (-ev.2)), ev.1)
  else if ev.2 = 0 then (.error .eof, ev.1)
  else (.ok ev.2, ev.1)

end Drive

/-- `ReadJob`. -/
structure ReadJob where
  extent : Extent
  dst : Dst
  deriving DecidableEq, Repr

/-- The jobs that `ReadAtIntoBatch` submits together. -/
def ReadJob.Direct (j : ReadJob) : Prop :=
  ¬ (j.extent.off < 0 ∨ j.extent.off % blockSize ≠ 0 ∨ j.extent.size ≤ 0 ∨
    j.extent.size % blockSize ≠ 0 ∨ (j.dst.buf.length : Int) < j.extent.size ∨ ¬ j.dst.bufAligned)

instance : DecidablePred ReadJob.Direct := fun _ => inferInstanceAs (Decidable (¬ _))

/-- `ns[j]`, and the buffer of job `j`. -/
structure Slot where
  n : Int
  buf : Bytes
  deriving DecidableEq, Repr

/-- A loop over jobs, each with its number, that returns at the first error. -/
def pass (f : ReadJob → Slot → Except ReadErr Slot) :
    List (ReadJob × Nat) → (Nat → Slot) → Option ReadErr × (Nat → Slot)
  | [], st => (none, st)
  | (j, i) :: js, st =>
    match f j (st i) with
    | .error e => (some e, st)
    | .ok s => pass f js (Function.update st i s)

namespace Drive

variable (d : Drive)

/-- One job of `readJobsIndividually`. -/
def readOne (j : ReadJob) (s : Slot) : Except ReadErr Slot :=
  if j.extent.size ≤ 0 then .ok { s with n := 0 }
  else
    match d.readAtInto j.extent ⟨s.buf, j.dst.aligned⟩ with
    | (.ok n, buf) => .ok ⟨n, buf⟩
    | (.error .eof, buf) => .ok ⟨0, buf⟩
    | (.error e, _) => .error e

/-- The event of a job that was submitted with the batch.  (Its errno and its zero are told
apart below: a result that is not zero and shorter than the request counts as the request.) -/
def completion (j : ReadJob) (s : Slot) : Except ReadErr Slot :=
  let ev := d.await j.extent s.buf
  if ev.2 < 0 then .error (.errno (-ev.2))
  else if ev.2 = 0 then .ok ⟨0, ev.1⟩
  else .ok ⟨if ev.2 < j.extent.size then j.extent.size else ev.2, ev.1⟩

/-- `ReadAtIntoBatch`; of the jobs it submits together the ring accepts `accepted` (none when it
returns an error). -/
def readAtIntoBatch (accepted : Nat) (jobs : List ReadJob) : Option ReadErr × (Nat → Slot) :=
  let st : Nat → Slot := fun i => ⟨0, ((jobs[i]?).map (·.dst.buf)).getD []⟩
  let numbered := jobs.zipIdx
  let specs := numbered.filter (·.1.Direct)
  if specs.take accepted = [] then pass d.readOne numbered st
  else
    match pass d.completion (specs.take accepted) st with
    | (some e, st) => (some e, st)
    | (none, st) =>
      -- the jobs that were not submitted with the batch, then those it did not take
      pass d.readOne (numbered.filter (fun x => ¬ x.1.Direct) ++ specs.drop accepted) st

end Drive

/-! ## 3. The window -/

/-- `Align4k`, on `int64`. -/
def align4k64 (n : Int) : Int :=
  if n ≤ 0 then 0
  else
    let m := int64 (n + blockSize - 1)
    m - m % blockSize

theorem align4k64_of_lt {n : Int} (h : n < 2 ^ 62) : align4k64 n = align4k n := by
  unfold align4k64 align4k blockSize
  split
  · rfl
  · simp only
    rw [int64_of_range (by omega) (by omega)]
    omega

/-- `readWindow`, on `int64`. -/
def readWindow64 (md : ObjectMeta) (off size : Int) (alignedOff : Bool) :
    Except ReadErr Window :=
  if off < 0 ∨ off > md.size ∨ (alignedOff ∧ off % blockSize ≠ 0) then .error .invalidRange
  else
    let remaining := int64 (md.size - off)
    let want := if size > remaining then remaining else size
    if want = 0 then .error .eof
    else
      let relStart := int64 (md.offset + off)
      let start := if alignedOff then relStart else relStart - relStart % blockSize
      .ok ⟨relStart, int64 (align4k64 (int64 (relStart + want)) - start), want,
        int64 (relStart - start)⟩

/-! ## 4. The reads of the storage -/

/-- What a read of the storage returns: it panics, or it returns the valid bytes and an error. -/
inductive Outcome where
  | panicked
  | returned (data : Bytes) (err : Option ReadErr)
  deriving DecidableEq, Repr

/-- `want`, when so many bytes have been read. -/
def clip (n want : Int) : Int := if n < want then n else want

/-- `io.EOF` when fewer bytes than asked for are returned. -/
def eofBelow (n size : Int) : Option ReadErr := if n < size then some .eof else none

/-- What is made of `want` bytes at the head of a destination. -/
def headOf (r : Except ReadErr Int × Bytes) (want size : Int) : Outcome :=
  match r with
  | (.error e, _) => .returned [] (some e)
  | (.ok n, buf) => .returned (buf.take (clip n want).toNat) (eofBelow (clip n want) size)

namespace Drive

variable (d : Drive)

/-- `ReadAtMeta`. -/
def readAtMeta (p : Pool) (md : ObjectMeta) (off size : Int) : Outcome :=
  match readWindow64 md off size false with
  | .error e => .returned [] (some e)
  | .ok w =>
    match d.readAt p ⟨md.segmentID, int64 (int64 (md.offset + off) - w.skip), w.dlen⟩ with
    | .error e => .returned [] (some e)
    | .ok (buf, n) =>
      let want := clip n w.want
      if w.skip > 0 ∨ want < n then
        -- `copy(data, data[skip:skip+want])`: the slice may reach past `n`, up to the capacity
        if 0 ≤ want ∧ w.skip + want ≤ buf.length then
          let data := ((buf.drop w.skip.toNat).take want.toNat).take n.toNat
          .returned data (eofBelow data.length size)
        else .panicked
      else
        let data := buf.take n.toNat
        .returned data (eofBelow data.length size)

/-- `ReadAtIntoMeta`. -/
def readAtIntoMeta (md : ObjectMeta) (off size : Int) (dst : Dst) : Outcome :=
  match readWindow64 md off size true with
  | .error e => .returned [] (some e)
  | .ok w =>
    if (dst.buf.length : Int) < w.dlen then
      .returned [] (some (.dst dst.buf.length w.dlen))
    else
      match dst.slice w.dlen with
      | none => .panicked
      | some dst => headOf (d.readAtInto ⟨md.segmentID, w.relStart, w.dlen⟩ dst) w.want size

/-- `SubmitReadAtIntoMeta`, and `Await` of what it has submitted. -/
def submitReadAtIntoMeta (md : ObjectMeta) (off size : Int) (dst : Dst) : Outcome :=
  match readWindow64 md off size true with
  | .error e => .returned [] (some e)
  | .ok w =>
    if (dst.buf.length : Int) < w.dlen then
      .returned [] (some (.dst dst.buf.length w.dlen))
    else
      match dst.slice w.dlen with
      | none => .panicked
      | some dst =>
        match checkReadAsync ⟨md.segmentID, w.relStart, w.dlen⟩ dst with
        | .error e => .returned [] (some e)
        | .ok () => headOf (d.awaitRead ⟨md.segmentID, w.relStart, w.dlen⟩ dst) w.want size

end Drive

/-- `BatchReadBlock`, with the mapping of its key. -/
structure BatchReadBlock where
  md : ObjectMeta
  off : Int
  size : Int
  dst : Dst
  deriving DecidableEq, Repr

/-- What phase 1 of `BatchRead` makes of a block: nothing to read, or a job and what is wanted. -/
inductive Plan where
  | failed (e : ReadErr)
  | panics
  | empty
  | job (j : ReadJob) (want : Int)

/-- Phase 1 of `BatchRead`, for one block. -/
def BatchReadBlock.plan (b : BatchReadBlock) : Plan :=
  match readWindow64 b.md b.off b.size true with
  | .error .eof => .empty
  | .error e => .failed e
  | .ok w =>
    if (b.dst.buf.length : Int) < w.dlen then .failed (.dst b.dst.buf.length w.dlen)
    else
      match b.dst.slice w.dlen with
      | none => .panics
      | some dst => .job ⟨⟨b.md.segmentID, w.relStart, w.dlen⟩, dst⟩ w.want

/-- The jobs of the device, one for each block; the job of an empty block reads nothing. -/
def Plan.devJob : Plan → ReadJob
  | .job j _ => j
  | _ => ⟨⟨0, 0, 0⟩, ⟨[], false⟩⟩

/-- Phase 1: the first block that fails ends it. -/
def planAll : List BatchReadBlock → Except Outcome (List Plan)
  | [] => .ok []
  | b :: bs =>
    match b.plan with
    | .failed e => .error (.returned [] (some e))
    | .panics => .error .panicked
    | p => (planAll bs).map (p :: ·)

/-- What a block is told of its slot. -/
def Plan.result (size : Int) : Plan → Slot → Outcome
  | .job _ want, s => .returned (s.buf.take (clip s.n want).toNat) (eofBelow (clip s.n want) size)
  | _, _ => .returned [] (some .eof)

/-- `BatchRead`: what its caller learns of block `i`.  An error of the call is that of every
block.  (The source does not ask the device when no block has anything to read.) -/
def Drive.batchRead (d : Drive) (accepted : Nat) (blocks : List BatchReadBlock) (i : Nat) :
    Outcome :=
  match planAll blocks with
  | .error o => o
  | .ok plans =>
    let size := ((blocks[i]?).map (·.size)).getD 0
    let plan := (plans[i]?).getD .empty
    match d.readAtIntoBatch accepted (plans.map Plan.devJob) with
    | (some e, _) => .returned [] (some e)
    | (none, st) => plan.result size (st i)

end Taihu.DeviceRead
