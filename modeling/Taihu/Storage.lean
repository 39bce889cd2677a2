/-
# Device transfers and the storage layer

`internal/device/device.go` (a transfer is a loop over 4 KiB blocks; completions are full or
failed, never short), `internal/storage/write.go`, `read.go` and `compact.go`, and
`trySubmitAsyncGet` of the shm server.  The calls of `Call` get their code here, and with it the
machine whose runs the development is about.
-/
import Taihu.Store

namespace Taihu

open Concur

/-! ## 1. Device transfers -/

/-- A block filled up with zeros. -/
def padBlock (b : Bytes) : Bytes := b ++ List.replicate (blockSize.toNat - b.length) 0

/-- Write `n` blocks of `data` from `off` on. -/
def writeBlocks (seg : Int) : Nat → Int → Bytes → Proc Bool
  | 0, _, _ => pure true
  | n + 1, off, data => do
    if ← devWrite seg off (padBlock (data.take blockSize.toNat)) then
      writeBlocks seg n (off + blockSize) (data.drop blockSize.toNat)
    else pure false

/-- The checks of `Device.Append`. -/
def appendCheck (L : Layout) (off size : Int) (data : Bytes) : Option Err :=
  if off < 0 ∨ off % blockSize ≠ 0 then some .io
  else if off + align4k size > L.segmentSizeBytes then some .tooLarge
  else if (data.length : Int) < size then some .io
  else none

/-- How many blocks an object of `size` bytes takes. -/
def blocksOf (size : Int) : Nat := (align4k size / blockSize).toNat

/-- `Device.Append`. -/
def devAppend (L : Layout) (seg off size : Int) (data : Bytes) : Proc (Res Unit) := do
  match appendCheck L off size data with
  | some e => pure (.error e)
  | none =>
    if ← writeBlocks seg (blocksOf size) off (data.take size.toNat) then pure (.ok ())
    else pure (.error .io)

/-- `WriteJob`. -/
structure WriteJob where
  seg : Int
  off : Int
  data : Bytes
  size : Int

/-- The submissions of `Device.AppendBatch`: every job is written, whatever becomes of the
others. -/
def writeJobs : List WriteJob → Proc Bool
  | [] => pure true
  | j :: js => do
    let ok ← writeBlocks j.seg (blocksOf j.size) j.off (j.data.take j.size.toNat)
    let oks ← writeJobs js
    pure (ok && oks)

/-- The checks of `Device.AppendBatch`, which come in another order. -/
def appendBatchCheck (L : Layout) (j : WriteJob) : Option Err :=
  if j.off < 0 ∨ j.off % blockSize ≠ 0 then some .io
  else if (j.data.length : Int) < j.size then some .io
  else if j.off + align4k j.size > L.segmentSizeBytes then some .tooLarge
  else none

/-- `Device.AppendBatch`: all jobs are checked before the first is written. -/
def devAppendBatch (L : Layout) (jobs : List WriteJob) : Proc (Res Unit) := do
  match jobs.findSome? (appendBatchCheck L) with
  | some e => pure (.error e)
  | none => if ← writeJobs jobs then pure (.ok ()) else pure (.error .io)

/-- Read `n` blocks from `off` on; `none` when one of them fails. -/
def readBlocks (seg : Int) : Nat → Int → Proc (Option Bytes)
  | 0, _ => pure (some [])
  | n + 1, off => do
    match ← devRead seg off with
    | none => pure none
    | some b =>
      match ← readBlocks seg n (off + blockSize) with
      | none => pure none
      | some bs => pure (some (b ++ bs))

/-- `Device.ReadAt` and `Device.ReadAtInto`: `size` bytes from `off`. -/
def devReadAt (seg off size : Int) : Proc (Res Bytes) := do
  if off < 0 ∨ off % blockSize ≠ 0 then pure (.error .io)
  else if size < 0 ∨ size % blockSize ≠ 0 then pure (.error .io)
  else
    match ← readBlocks seg (size / blockSize).toNat off with
    | none => pure (.error .io)
    | some data => pure (.ok data)

/-! ## 2. Writing objects -/

/-- `PutBegin`. -/
def putBegin (L : Layout) (size : Int) : Proc (Res (Int × Int)) :=
  if size < 0 then pure (.error .invalidRange)
  else if size > L.segmentSizeBytes then pure (.error .tooLarge)
  else allocate L size false

/-- `PutAppend`. -/
def putAppend (L : Layout) (seg off size : Int) (data : Bytes) : Proc (Res Unit) :=
  if (data.length : Int) < size then pure (.error .shortWrite)
  else devAppend L seg off size data

/-- The bytes a put of `data` with logical size `size` stores. -/
def putValue (size : Int) (data : Bytes) : Bytes := data.take size.toNat

/-- `PutCommit`. -/
def putCommit (key : Key) (seg off size : Int) (value : Bytes) : Proc (Res Unit) :=
  putMapping key ⟨seg, off, size⟩ (some value)

/-- `Put`. -/
def put (L : Layout) (key : Key) (size : Int) (data : Bytes) : Proc (Res Unit) := do
  match ← putBegin L size with
  | .error e => pure (.error e)
  | .ok (seg, off) =>
    let appended ← (if 0 < size then putAppend L seg off size data else pure (.ok ()))
    match appended with
    | .error e => pure (.error e)
    | .ok () => putCommit key seg off size (putValue size data)

/-- The checks at the head of `batchPut`. -/
def batchPutCheck (L : Layout) (it : PutItem) : Option Err :=
  if it.size < 0 then some .invalidRange
  else if it.size > L.segmentSizeBytes then some .tooLarge
  else if (it.data.length : Int) < it.size then some .shortWrite
  else none

/-- The device jobs of a batch of puts with their extents: the items that have bytes. -/
def writeJobsOf (xs : List (PutItem × (Int × Int))) : List WriteJob :=
  (xs.filter (fun x => x.1.size ≠ 0)).map (fun x => ⟨x.2.1, x.2.2, x.1.data, x.1.size⟩)

/-- The mappings of a batch of puts with their extents. -/
def commitsOf (xs : List (PutItem × (Int × Int))) : List PutMappingItem :=
  xs.map (fun x => ⟨x.1.key, ⟨x.2.1, x.2.2, x.1.size⟩, some (putValue x.1.size x.1.data)⟩)

/-- Write the data of a batch of puts, then commit all of them. -/
def writeAndCommit (L : Layout) (xs : List (PutItem × (Int × Int))) : Proc (Res Unit) := do
  match ← devAppendBatch L (writeJobsOf xs) with
  | .error e => pure (.error e)
  | .ok () => batchPutMapping (commitsOf xs)

/-- `batchPut`. -/
def batchPut (L : Layout) (items : List PutItem) : Proc (Res Unit) := do
  if items = [] then pure (.ok ())
  else
    match items.findSome? (batchPutCheck L) with
    | some e => pure (.error e)
    | none =>
      match ← allocateSegmentBatch L (items.map PutItem.size) with
      | .error e => pure (.error e)
      | .ok exts => writeAndCommit L (items.zip exts)

/-- The allocations of the puts that a write pipeline gathers into one batch: one `PutBegin`
each. -/
def pipelineBegin (L : Layout) : List PutItem → Proc (Res (List (PutItem × (Int × Int))))
  | [] => pure (.ok [])
  | it :: items => do
    match ← putBegin L it.size with
    | .error e => pure (.error e)
    | .ok x =>
      match ← pipelineBegin L items with
      | .error e => pure (.error e)
      | .ok xs => pure (.ok ((it, x) :: xs))

/-- The write pipeline: `PutBegin` for each put, then one `BatchAppend` and one
`BatchPutCommit`. -/
def pipelinePut (L : Layout) (items : List PutItem) : Proc (Res Unit) := do
  match ← pipelineBegin L items with
  | .error e => pure (.error e)
  | .ok xs => writeAndCommit L xs

/-! ## 3. Reading objects -/

/-- What `readWindow` returns besides an error. -/
structure Window where
  relStart : Int
  dlen : Int
  want : Int
  skip : Int
  deriving DecidableEq, Repr

/-- `readWindow`. -/
def readWindow (md : ObjectMeta) (off size : Int) (alignedOff : Bool) : Res Window :=
  if off < 0 ∨ off > md.size ∨ (alignedOff ∧ off % blockSize ≠ 0) then .error .invalidRange
  else
    let remaining := md.size - off
    let want := if size > remaining then remaining else size
    if want = 0 then .error .eof
    else
      let relStart := md.offset + off
      let start := if alignedOff then relStart else relStart - relStart % blockSize
      .ok ⟨relStart, align4k (relStart + want) - start, want, relStart - start⟩

/-- `ReadAtMeta`: the bytes, and whether they came with `io.EOF`.  The callers ask for at least
one byte; for a negative `size` the source may panic on a slice. -/
def readAtMeta (md : ObjectMeta) (off size : Int) : Proc (Res (Bytes × Bool)) := do
  match readWindow md off size false with
  | .error e => pure (.error e)
  | .ok w =>
    refSegment md.segmentID none
    match ← devReadAt md.segmentID (md.offset + off - w.skip) w.dlen with
    | .error e =>
      unrefSegment md.segmentID
      pure (.error e)
    | .ok data =>
      let want := if (data.length : Int) < w.want then (data.length : Int) else w.want
      let data := if w.skip > 0 ∨ want < data.length
        then (data.drop w.skip.toNat).take want.toNat else data
      unrefSegment md.segmentID
      pure (.ok (data, decide ((data.length : Int) < size)))

/-- `ReadAt`. -/
def readAt (key : Key) (off size : Int) : Proc (Res (Bytes × Bool)) := do
  match ← getMappingRef key with
  | .error e => pure (.error e)
  | .ok md =>
    let r ← readAtMeta md off size
    unrefSegment md.segmentID
    pure r

/-- `Stat`. -/
def stat (key : Key) : Proc (Res Int) := do
  match ← getMapping key with
  | .error e => pure (.error e)
  | .ok md => pure (.ok md.size)

/-- What `ReadAtIntoMeta`, `Await` and `BatchRead` report for one window: the first `want` bytes,
with `io.EOF` when fewer than `size`. -/
def windowResult (w : Window) (size : Int) (data : Bytes) : Bytes × Bool :=
  (data.take w.want.toNat, decide (w.want < size))

/-- `SubmitReadAtIntoMeta` and `Await`, for a mapping the caller has looked up and a destination
of `dst` bytes. -/
def submitReadAtIntoMeta (key : Key) (md : ObjectMeta) (off size dst : Int) :
    Proc (Res (Bytes × Bool)) := do
  match readWindow md off size true with
  | .error e => pure (.error e)
  | .ok w =>
    if dst < w.dlen then pure (.error .io)
    else
      refSegment md.segmentID (some (key, md))
      let r ← devReadAt md.segmentID w.relStart w.dlen
      unrefSegment md.segmentID
      match r with
      | .error e => pure (.error e)
      | .ok data => pure (.ok (windowResult w size data))

/-- `ChunkSize`. -/
def chunkSize : Int := 4194304

/-- `trySubmitAsyncGet` and the drain of its handle, for one request of `chunkSize` bytes;
`none` when the request falls back to the synchronous path. -/
def asyncGet (key : Key) (off : Int) : Proc (Option (Res (Bytes × Bool))) := do
  if off % blockSize ≠ 0 then pure none
  else
    match ← getMapping key with
    | .error _ => pure none
    | .ok md =>
      if md.size - off < chunkSize then pure none
      else
        let r ← submitReadAtIntoMeta key md off chunkSize (align4k chunkSize)
        pure (some r)

/-- Phase 1 of `BatchRead`: the window of each block, `none` for an empty one. -/
def batchWindows : List (BatchReadBlock × ObjectMeta) → Res (List (Option Window))
  | [] => .ok []
  | (b, md) :: rest =>
    match readWindow md b.off b.size true with
    | .error .eof => (batchWindows rest).map (none :: ·)
    | .error e => .error e
    | .ok w => if b.dst < w.dlen then .error .io else (batchWindows rest).map (some w :: ·)

/-- A block of `BatchRead` with its mapping and window. -/
structure ReadJob where
  block : BatchReadBlock
  md : ObjectMeta
  window : Window

/-- Phase 2 of `BatchRead`: a reference for each job. -/
def refJobs : List ReadJob → Proc Unit
  | [] => pure ()
  | j :: js => do
    refSegment j.md.segmentID (some (j.block.key, j.md))
    refJobs js

/-- The device read of one job; a job of no bytes is not submitted. -/
def readJob (j : ReadJob) : Proc (Res Bytes) :=
  if j.window.dlen ≤ 0 then pure (.ok [])
  else devReadAt j.md.segmentID j.window.relStart j.window.dlen

/-- The device reads of `BatchRead`. -/
def readJobs : List ReadJob → Proc (Res (List (Bytes × Bool)))
  | [] => pure (.ok [])
  | j :: js => do
    match ← readJob j with
    | .error e => pure (.error e)
    | .ok data =>
      match ← readJobs js with
      | .error e => pure (.error e)
      | .ok rs => pure (.ok (windowResult j.window j.block.size data :: rs))

def unrefJobs : List ReadJob → Proc Unit
  | [] => pure ()
  | j :: js => do
    unrefSegment j.md.segmentID
    unrefJobs js

/-- The results in the order of the blocks: `io.EOF` where a block had an empty window. -/
def placeResults : List (Option Window) → List (Bytes × Bool) → List (Bytes × Bool)
  | [], _ => []
  | none :: ws, rs => ([], true) :: placeResults ws rs
  | some _ :: ws, r :: rs => r :: placeResults ws rs
  | some _ :: _, [] => []

/-- The jobs of `BatchRead`: the blocks whose window is not empty. -/
def jobsOf (blocks : List (BatchReadBlock × ObjectMeta)) (windows : List (Option Window)) :
    List ReadJob :=
  (blocks.zip windows).filterMap (fun x => x.2.map (fun w => ⟨x.1.1, x.1.2, w⟩))

/-- `BatchRead`. -/
def batchRead (blocks : List BatchReadBlock) (order : List Key) :
    Proc (Res (List (Bytes × Bool))) := do
  if blocks = [] then pure (.ok [])
  else
    match ← batchGetMapping (blocks.map BatchReadBlock.key) order with
    | .error e => pure (.error e)
    | .ok mds =>
      match batchWindows (blocks.zip mds) with
      | .error e => pure (.error e)
      | .ok windows =>
        let jobs := jobsOf (blocks.zip mds) windows
        refJobs jobs
        let r ← readJobs jobs
        unrefJobs jobs
        match r with
        | .error e => pure (.error e)
        | .ok rs => pure (.ok (placeResults windows rs))

/-! ## 4. Compaction -/

/-- `moveObject`: 1 for a moved object, 0 for one that is gone or empty. -/
def moveObject (L : Layout) (key : Key) : Proc (Res Nat) := do
  match ← getMapping key with
  | .error .notFound => pure (.ok 0)
  | .error e => pure (.error e)
  | .ok md =>
    match ← readAt key 0 md.size with
    | .error .eof => pure (.ok 0)
    | .error e => pure (.error e)
    | .ok (buf, _) =>
      if (buf.length : Int) < md.size then pure (.error .io)
      else
        match ← allocate L md.size true with
        | .error e => pure (.error e)
        | .ok (seg, off) =>
          match ← devAppend L seg off md.size buf with
          | .error e => pure (.error e)
          | .ok () =>
            match ← moveMapping key md ⟨seg, off, md.size⟩ with
            | .error e => pure (.error e)
            | .ok () => pure (.ok 1)

/-- `segAgg` with its segment: the keys mapped into it and their bytes. -/
structure SegAgg where
  id : Int
  keys : List Key
  aliveBytes : Int
  deriving DecidableEq, Repr

/-- The aggregation over all mappings. -/
def addToAggs (key : Key) (md : ObjectMeta) : List SegAgg → List SegAgg
  | [] => [⟨md.segmentID, [key], md.size⟩]
  | a :: as =>
    if a.id = md.segmentID then ⟨a.id, a.keys ++ [key], a.aliveBytes + md.size⟩ :: as
    else a :: addToAggs key md as

def aggregate (all : List (Key × ObjectMeta)) : List SegAgg :=
  all.foldl (fun aggs x => addToAggs x.1 x.2 aggs) []

/-- The candidates of a round: `Full` or `Compacting` in pebble, and hollow enough. -/
def selectCands (L : Layout) (cfg : CompactorConfig) (force : Bool) :
    List SegAgg → Proc (List SegAgg)
  | [] => pure []
  | a :: as => do
    let sm ← getSegment a.id
    let rest ← selectCands L cfg force as
    let movable := sm.map SegmentMeta.state = some .full ∨ sm.map SegmentMeta.state = some .compacting
    if movable ∧ (cfg.holeReached a.aliveBytes L.segmentSizeBytes ∨ force) then pure (a :: rest)
    else pure rest

/-- The order in which the candidates are moved: the hollowest first, then by id. -/
def candBefore (L : Layout) (cfg : CompactorConfig) (a b : SegAgg) : Bool :=
  let c := cfg.moreHole a.aliveBytes b.aliveBytes L.segmentSizeBytes
  if c = 0 then a.id ≤ b.id else 0 < c

/-- The moves of one candidate; `moved` counts those of the round. -/
def moveKeys (L : Layout) (cfg : CompactorConfig) : List Key → Int → Proc (Int × Option Err)
  | [], moved => pure (moved, none)
  | key :: keys, moved => do
    match ← moveObject L key with
    | .error .conflict => moveKeys L cfg keys moved
    | .error e => pure (moved, some e)
    | .ok n =>
      let moved := moved + n
      if moved ≥ cfg.maxMovePerRound then pure (moved, none) else moveKeys L cfg keys moved

/-- The loop of `compactOnce` over the candidates. -/
def moveCands (L : Layout) (cfg : CompactorConfig) : List SegAgg → Int → Proc (Int × Option Err)
  | [], moved => pure (moved, none)
  | cd :: cds, moved => do
    if moved ≥ cfg.maxMovePerRound then pure (moved, none)
    else
      match ← getSegment cd.id with
      | none => moveCands L cfg cds moved
      | some sm =>
        let marked ← (if sm.state = .full then markCompacting cd.id else pure (.ok ()))
        match marked with
        | .error e => pure (moved, some e)
        | .ok () =>
          match ← moveKeys L cfg cd.keys moved with
          | (moved, some e) => pure (moved, some e)
          | (moved, none) => moveCands L cfg cds moved

/-- The aggregates in range order. -/
def rangeAggs (order : List Int) (aggs : List SegAgg) : List SegAgg :=
  order.dedup.flatMap (fun id => aggs.filter (fun a => a.id = id))
    ++ aggs.filter (fun a => a.id ∉ order)

/-- `compactOnce`; `order` is the range order of `aggs`. -/
def compactOnce (L : Layout) (cfg : CompactorConfig) (order : List Int) :
    Proc (Int × Option Err) := do
  let all ← iterMapping
  let aggs := aggregate all
  let force := cfg.forced aggs.length L.segmentCount
  let cands ← selectCands L cfg force (rangeAggs order aggs)
  moveCands L cfg (cands.insertionSort (fun a b => candBefore L cfg a b)) 0

/-! ## 5. The machine -/

/-- The values the calls return. -/
inductive Value where
  | done
  | mapping (md : ObjectMeta)
  | mappings (mds : List ObjectMeta)
  | errors (es : List (Option Err))
  | extent (seg off : Int)
  | extents (xs : List (Int × Int))
  | size (n : Int)
  | bytes (data : Bytes) (eof : Bool)
  | blocks (rs : List (Bytes × Bool))
  | fallback
  | reclaimed (n : Nat)
  | moved (n : Int) (err : Option Err)
  deriving DecidableEq, Repr

abbrev Result := Res Value

/-- The code of each call. -/
def code (L : Layout) : Call → Proc Result
  | .getMapping key => return (← getMapping key).map .mapping
  | .getMappingRef key => return (← getMappingRef key).map .mapping
  | .putMapping key md => return (← putMapping key md none).map (fun _ => .done)
  | .deleteMapping key => return (← deleteMapping key).map (fun _ => .done)
  | .moveMapping key old new => return (← moveMapping key old new).map (fun _ => .done)
  | .batchGetMapping keys order => return (← batchGetMapping keys order).map .mappings
  | .batchPutMapping items => return (← batchPutMapping items).map (fun _ => .done)
  | .batchDeleteMapping keys => return (← batchDeleteMapping keys).map .errors
  | .loadCache => do loadCache; return .ok .done
  | .allocateSegment size => return (← allocate L size false).map (fun x => .extent x.1 x.2)
  | .allocateSegmentReserve size => return (← allocate L size true).map (fun x => .extent x.1 x.2)
  | .allocateSegmentBatch sizes => return (← allocateSegmentBatch L sizes).map .extents
  | .markCompacting id => return (← markCompacting id).map (fun _ => .done)
  | .reclaimOnce order => return .ok (.reclaimed (← reclaimOnce order))
  | .put key size data => return (← put L key size data).map (fun _ => .done)
  | .batchPut items => return (← batchPut L items).map (fun _ => .done)
  | .pipelinePut items => return (← pipelinePut L items).map (fun _ => .done)
  | .stat key => return (← stat key).map .size
  | .readAt key off size => return (← readAt key off size).map (fun x => .bytes x.1 x.2)
  | .asyncGet key off => do
    match ← asyncGet key off with
    | none => return .ok .fallback
    | some r => return r.map (fun x => .bytes x.1 x.2)
  | .batchRead blocks order => return (← batchRead blocks order).map .blocks
  | .moveObject key => return (← moveObject L key).map (fun n => .moved n none)
  | .compactOnce cfg order => do
    let (n, e) ← compactOnce L cfg order
    return .ok (.moved n e)

/-- A call that has returned has committed or given up the extents it allocated. -/
def Local.retire (l : Local) : Local := { l with hist := { l.hist with opens := [] } }

/-- The system: any number of calls, interleaved operation by operation, and reopened any number
of times. -/
def machine (L : Layout) : Machine sig Sys Local Call Result where
  exec := exec L
  code := code L
  fresh := fun call => { hist := { call := call } }
  retire := Local.retire
  restart := Sys.reopen

/-- A configuration of the system. -/
abbrev SysConf := Conf sig Sys Local Result

end Taihu
