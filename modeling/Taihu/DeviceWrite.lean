/-
# Writing extents

`internal/device/device.go` (`submitOne`, `submitOpN`, `checkWrite`, `Append`, `AppendBatch`,
`batchWait`) over `internal/aio` (`SubmitWrite`, `SubmitWriteBatch`) and `internal/bufpool`.

`WriteTasks.lean` has a transfer that is made or fails.  Here it is an IO: from a slice of the
caller's data or from a buffer of the pool, submitted alone or in a batch of which the ring takes
a part, completed with any result, and after an error that passes submitted again.  A result that
is not the length of the IO says nothing of the medium: any part of the bytes may have reached it.
Addresses are those of the whole device; sums are those of `int64`.

The ring is given by its answers.  A single submission is repeated while the queue is full, and
what ends the repetition is the answer; an attempt to submit a batch is answered each time.  That
the completion of an IO finds the one who waits for it is `PumpSafety.lean`.
-/
import Taihu.BufPool
import Taihu.CompletionPump
import Taihu.DeviceRead
import Taihu.WriteTasks

namespace Taihu.DeviceWrite

open BufPool
open CompletionPump (retriableErrno complRetryMax)
open DeviceRead (align4k64)

/-! ## 1. The device and its ring -/

/-- The layout of a real device: its segments lie one behind the other, and the last address is
far from the end of `int64`. -/
structure Geometry extends Layout where
  seg_pos : 0 < segmentSizeBytes
  count_nonneg : 0 ≤ segmentCount
  cap_le : segmentSizeBytes * segmentCount ≤ 2 ^ 62

/-- `segmentBase`. -/
def Geometry.segmentBase (g : Geometry) (seg : Int) : Int := int64 (seg * g.segmentSizeBytes)

/-- The addresses of the device. -/
def Geometry.Address (g : Geometry) (p : Int) : Prop :=
  0 ≤ p ∧ p < g.segmentSizeBytes * g.segmentCount

/-- The segments of the device. -/
def Geometry.Segment (g : Geometry) (seg : Int) : Prop := 0 ≤ seg ∧ seg < g.segmentCount

/-- `aio.WriteSpec`: the bytes and their address. -/
structure WriteSpec where
  buf : Bytes
  off : Int
  deriving DecidableEq, Repr

/-- What the IO puts where, when all of it reaches the medium. -/
def WriteSpec.write (w : WriteSpec) : Int → Option Byte := fun p =>
  if w.off ≤ p ∧ p < w.off + w.buf.length then some (w.buf.getD (p - w.off).toNat 0) else none

/-- How an IO ends: `ev.Res`, and which of its bytes have reached the medium when the result is
not its length. -/
structure Transfer where
  res : Int
  hit : Nat → Bool

/-- What has been put where when the IO has ended. -/
def WriteSpec.landed (w : WriteSpec) (t : Transfer) : Int → Option Byte := fun p =>
  if t.res = w.buf.length ∨ t.hit (p - w.off).toNat = true then w.write p else none

/-- What ends the repetition of `SubmitWrite`. -/
inductive Single where
  | closed
  | failed (errno : Int)
  | taken (t : Transfer)

/-- What an attempt to submit a batch comes to: the device is closed; the queue is full
(`ErrFull`); or the ring has taken the first IOs of the batch, with or without an error, and they
have ended in the order of `prio`.  When the pump has stopped (`¬ pumped`) nobody learns of it. -/
inductive Attempt where
  | closed
  | full
  | answered (accepted : List Transfer) (prio : Nat → Nat) (err : Option Int) (pumped : Bool)

/-- The answers of the ring, one for each single submission and one for each attempt. -/
structure Ring where
  write : Nat → Single
  writeBatch : Nat → Attempt

/-- The errors of a write. -/
inductive WriteErr where
  | offset (off : Int)
  | tooLarge
  | short (size len : Int)
  | closed
  | submit (errno : Int)
  | errno (errno : Int)
  | shortWrite (got want : Int)
  deriving DecidableEq, Repr

/-- The bytes, `inSubmit`, the IOs the ring has taken and their results, how many submissions and
attempts it has answered, and the pool. -/
structure Device where
  bytes : Int → Byte
  inSubmit : Int
  log : List (WriteSpec × Int)
  writes : Nat
  attempts : Nat
  pool : Pool

/-! ## 2. One IO -/

section Submit

variable (r : Ring)

/-- `submitOne`, and the completion. -/
def submitOne (w : WriteSpec) (d : Device) : Except WriteErr Int × Device :=
  let d := { d with inSubmit := d.inSubmit + 1 }
  let answer := r.write d.writes
  let d := { d with inSubmit := d.inSubmit - 1, writes := d.writes + 1 }
  match answer with
  | .closed => (.error .closed, d)
  | .failed e => (.error (.submit e), d)
  | .taken t =>
    (.ok t.res, { d with
      bytes := Overwrite.apply d.bytes (w.landed t), log := d.log ++ [(w, t.res)] })

/-- `submitOpN`, with so many repetitions left. -/
def submitOpN (w : WriteSpec) : Nat → Device → Except WriteErr Int × Device
  | n, d =>
    match submitOne r w d with
    | (.error e, d) => (.error e, d)
    | (.ok res, d) =>
      if retriableErrno res then
        match n with
        | 0 => (.ok res, d)
        | n + 1 => submitOpN w n d
      else (.ok res, d)

/-- `submitWrite`. -/
def submitWrite (w : WriteSpec) (d : Device) : Except WriteErr Int × Device :=
  submitOpN r w complRetryMax d

end Submit

/-- `checkWrite`. -/
def checkWrite (res want : Int) : Option WriteErr :=
  if res < 0 then some (.errno (-res))
  else if res ≠ want then some (.shortWrite res want)
  else none

/-- A write and the check of its result. -/
def writeOut (r : Ring) (w : WriteSpec) (want : Int) (d : Device) : Option WriteErr × Device :=
  match submitWrite r w d with
  | (.error e, d) => (some e, d)
  | (.ok res, d) => (checkWrite res want, d)

/-! ## 3. `Append` -/

/-- A slice of data, and whether it begins at a block. -/
structure Source where
  bytes : Bytes
  aligned : Bool
  length_lt : bytes.length < 2 ^ 62

/-- `bufAligned`. -/
def Source.bufAligned (s : Source) : Bool := 0 < s.bytes.length && s.aligned

/-- `WriteJob`: what `Append` is called with. -/
structure Job where
  seg : Int
  off : Int
  size : Int
  data : Source

namespace Job

variable (g : Geometry) (j : Job)

/-- The job without the alignment of its data. -/
def toWriteJob : WriteJob := ⟨j.seg, j.off, j.data.bytes, j.size⟩

/-- The checks of `Append`. -/
def appendCheck : Option WriteErr :=
  if j.off < 0 ∨ j.off % blockSize ≠ 0 then some (.offset j.off)
  else if int64 (j.off + align4k64 j.size) > g.segmentSizeBytes then some .tooLarge
  else if (j.data.bytes.length : Int) < j.size then some (.short j.size j.data.bytes.length)
  else none

/-- The checks of `AppendBatch`: the same, in another order. -/
def batchCheck : Option WriteErr :=
  if j.off < 0 ∨ j.off % blockSize ≠ 0 then some (.offset j.off)
  else if (j.data.bytes.length : Int) < j.size then some (.short j.size j.data.bytes.length)
  else if int64 (j.off + align4k64 j.size) > g.segmentSizeBytes then some .tooLarge
  else none

/-- The address of the extent. -/
def pos : Int := int64 (g.segmentBase j.seg + j.off)

/-- `bulkEnd`: the whole blocks. -/
def bulkEnd : Int := j.size - j.size % blockSize

/-- `tailLen`. -/
def tailLen : Int := j.size - j.bulkEnd

/-- The whole blocks, straight from the data. -/
def bulk : WriteSpec := ⟨j.data.bytes.take j.bulkEnd.toNat, j.pos g⟩

/-- The buffer for the rest: one block, filled up with zeros. -/
def tailBuf (b : Buffer) : Buffer :=
  let rest := (j.data.bytes.take j.size.toNat).drop j.bulkEnd.toNat
  (b.copy rest).clear rest.length b.bytes.length

/-- The buffer for all of it (`bounce`). -/
def bounceBuf (b : Buffer) : Buffer :=
  (b.copy (j.data.bytes.take j.size.toNat)).clear j.size.toNat (align4k64 j.size).toNat

/-- The write of the rest, from a buffer that holds it. -/
def tail (b : Bytes) : WriteSpec := ⟨b, int64 (j.pos g + j.bulkEnd)⟩

/-- The whole blocks, from the buffer that holds all of it. -/
def bounceBulk (b : Buffer) : WriteSpec := ⟨b.bytes.take j.bulkEnd.toNat, j.pos g⟩

/-- The rest, from the buffer that holds all of it. -/
def bounceTail (b : Buffer) : WriteSpec :=
  j.tail g ((b.bytes.take (align4k64 j.size).toNat).drop j.bulkEnd.toNat)

end Job

section Append

variable (g : Geometry) (r : Ring) (j : Job)

/-- Path 1 of `Append`: the data begins at a block. -/
def appendDirect (d : Device) : Option WriteErr × Device :=
  match (if 0 < j.bulkEnd then writeOut r (j.bulk g) j.bulkEnd d else (none, d)) with
  | (some e, d) => (some e, d)
  | (none, d) =>
    if 0 < j.tailLen then
      let got := d.pool.get blockSize.toNat
      let tmp := j.tailBuf got.1
      let out := writeOut r (j.tail g tmp.bytes) blockSize { d with pool := got.2 }
      (out.1, { out.2 with pool := out.2.pool.put tmp })
    else (none, d)

/-- Path 2: all of it is copied. -/
def appendBounce (d : Device) : Option WriteErr × Device :=
  let aligned := align4k64 j.size
  let got := d.pool.get aligned.toNat
  let buf := j.bounceBuf got.1
  let d := { d with pool := got.2 }
  let out :=
    match (if 0 < j.bulkEnd then writeOut r (j.bounceBulk g buf) j.bulkEnd d else (none, d)) with
    | (some e, d) => (some e, d)
    | (none, d) =>
      if 0 < j.tailLen then writeOut r (j.bounceTail g buf) (aligned - j.bulkEnd) d else (none, d)
  (out.1, { out.2 with pool := out.2.pool.put buf })

/-- `Append`. -/
def append (d : Device) : Option WriteErr × Device :=
  match j.appendCheck g with
  | some e => (some e, d)
  | none =>
    if align4k64 j.size = 0 then (none, d)
    else if j.data.bufAligned then appendDirect g r j d
    else appendBounce g r j d

/-- `Append` on the jobs one by one, until one fails. -/
def appendEach : List Job → Device → Option WriteErr × Device
  | [], d => (none, d)
  | j :: js, d =>
    match append g r j d with
    | (some e, d) => (some e, d)
    | (none, d) => appendEach js d

end Append

/-! ## 4. `AppendBatch` -/

/-- What a job adds to `specs` and `tmps`, and the pool behind it. -/
def Job.prepare (g : Geometry) (j : Job) (p : Pool) : List WriteSpec × List Buffer × Pool :=
  if align4k64 j.size = 0 then ([], [], p)
  else if j.data.bufAligned then
    let bulk := if 0 < j.bulkEnd then [j.bulk g] else []
    if 0 < j.tailLen then
      let got := p.get blockSize.toNat
      let tmp := j.tailBuf got.1
      (bulk ++ [j.tail g tmp.bytes], [tmp], got.2)
    else (bulk, [], p)
  else
    let got := p.get (align4k64 j.size).toNat
    let buf := j.bounceBuf got.1
    ((if 0 < j.bulkEnd then [j.bounceBulk g buf] else []) ++
      (if 0 < j.tailLen then [j.bounceTail g buf] else []), [buf], got.2)

/-- The first loop of `AppendBatch`: the error, `specs`, `tmps` and the pool. -/
def prepareAll (g : Geometry) :
    List Job → Pool → Option WriteErr × List WriteSpec × List Buffer × Pool
  | [], p => (none, [], [], p)
  | j :: js, p =>
    match j.batchCheck g with
    | some e => (some e, [], [], p)
    | none =>
      let one := j.prepare g p
      let rest := prepareAll g js one.2.2
      (rest.1, one.1 ++ rest.2.1, one.2.1 ++ rest.2.2.1, rest.2.2.2)

/-- `inSubmit += n`. -/
def Device.enter (d : Device) (n : Nat) : Device := { d with inSubmit := d.inSubmit + n }

/-- `inSubmit -= n`. -/
def Device.leave (d : Device) (n : Nat) : Device := { d with inSubmit := d.inSubmit - n }

/-- The ring has taken these IOs, and they have ended in some order. -/
def Device.land (d : Device) (got : List (WriteSpec × Transfer)) (prio : Nat → Nat) : Device :=
  { d with
    bytes := Overwrite.applyAll d.bytes
      ((got.zipIdx.mergeSort (fun x y => prio x.2 ≤ prio y.2)).map (fun x => x.1.1.landed x.1.2))
    log := d.log ++ got.map (fun x => (x.1, x.2.res)) }

section Batch

variable (r : Ring)

/-- The loop over the events of an attempt.  An IO that has ended with an error that passes is
submitted again, alone; after the first error the events are only counted. -/
def settle : List (WriteSpec × Transfer) → Option WriteErr → Device → Option WriteErr × Device
  | [], firstErr, d => (firstErr, d)
  | _ :: got, some e, d => settle got (some e) d
  | (w, t) :: got, none, d =>
    if retriableErrno t.res then
      match submitOpN r w complRetryMax d with
      | (.error e, d) => settle got (some e) d
      | (.ok res, d) => settle got (checkWrite res w.buf.length) d
    else settle got (checkWrite t.res w.buf.length) d

/-- The second loop of `AppendBatch`, for so many attempts at most: `none` when they do not
suffice. -/
def submitLoop : Nat → List WriteSpec → Option WriteErr → Device →
    Option (Option WriteErr × Device)
  | _, [], firstErr, d => some (firstErr, d)
  | 0, _ :: _, _, _ => none
  | fuel + 1, w :: ws, firstErr, d =>
    let chunk := w :: ws
    let answer := r.writeBatch d.attempts
    let d := { d with attempts := d.attempts + 1 }
    match answer with
    | .closed => some (some .closed, d)
    | .full => submitLoop fuel chunk firstErr ((d.enter chunk.length).leave chunk.length)
    | .answered accepted prio err pumped =>
      let got := chunk.zip accepted
      -- `n == 0` is looked at before `err`
      if got = [] then
        submitLoop fuel chunk firstErr ((d.enter chunk.length).leave chunk.length)
      else
        let d := ((d.enter chunk.length).land got prio).leave chunk.length
        match err with
        | some e => some (some (.submit e), d)
        | none =>
          if pumped then
            let out := settle r got firstErr d
            submitLoop fuel (chunk.drop got.length) out.1 out.2
          else some (some .closed, d)

/-- `AppendBatch`, with so many attempts at most. -/
def appendBatch (g : Geometry) (fuel : Nat) (jobs : List Job) (d : Device) :
    Option (Option WriteErr × Device) :=
  match prepareAll g jobs d.pool with
  | (some e, _, tmps, p) => some (some e, { d with pool := tmps.foldl Pool.put p })
  | (none, specs, tmps, p) =>
    (submitLoop r fuel specs none { d with pool := p }).map
      (fun out => (out.1, { out.2 with pool := tmps.foldl Pool.put out.2.pool }))

end Batch

end Taihu.DeviceWrite
