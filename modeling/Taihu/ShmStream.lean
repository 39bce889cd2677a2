/-
# The request loop of a shared memory stream

`internal/transport/server_shm_linux.go` (`handleStream`, `trySubmitAsyncGet`, `drainCompleted`,
`drainAll`, `fillPendingResp`, `shmRespErr`, `handleShmPut`, `handleShmGet` with its three ways
to write data frames, `handleShmDelete`, `handleShmStat`), `shmWriteFrame` of
`shm_frame_linux.go`, and what they call of `internal/storage/read.go`.

A frame is reserved in the send buffer (`chain`) and seen by the peer when the buffer is
flushed.  The frame of an asynchronous Get is reserved when its read is submitted and holds a
placeholder until it is filled in; the frame of an asynchronous Put is reserved when it is
drained.  As in `GetStream.lean`, what storage, the device and `Reserve` do with a request is
part of the request (`ShmAsk`), and frames carry the number of the request they answer.

An item of `pend` counts as done only when it was queued so: no turn looks whether a read or a
write has completed before it waits for it.  So the moments of completion do not occur here.
A flush does not fail in this model (the peer keeps the stream open), and Puts come with all
their frames.
-/
import Taihu.GetStream

namespace Taihu

open Framing

/-! ## 1. Frames and requests -/

/-- The frames of responses.  `placeholder` stands for what `trySubmitAsyncGet` reserves: an
`OpGetErr` frame with `CodeInternal`. -/
inductive ShmFrame where
  | get (f : GetFrame)
  | placeholder
  | resp (code : ErrCode)
  | statResp (size : Int)
  deriving DecidableEq, Repr

/-- What is on or off: `inflight`, the write pipeline, the batch reader. -/
structure ShmConfig where
  inflight : Int
  writer : Bool
  batched : Bool
  maxObjectSize : Int

/-- Puts are queued and answered later. -/
def ShmConfig.AsyncPut (cfg : ShmConfig) : Prop := 0 < cfg.inflight ∧ cfg.writer = true

instance (cfg : ShmConfig) : Decidable cfg.AsyncPut := inferInstanceAs (Decidable (_ ∧ _))

/-- A `GetReq`, with what it meets.  `peek` is what `Meta` finds for the asynchronous attempt and
`slot` whether `Reserve` has room for it; `found` is what `MetaRef` finds for the synchronous
path, `batch` what `BatchRead` finds and `batchSlot` whether there is room for that; `served`
is how many frames `Reserve` gives to a chain, `room` where it has room for a direct read. -/
structure ShmGet where
  off : Int
  size : Int
  peek : Res Snapshot
  slot : Bool
  found : Res Snapshot
  batchSlot : Bool
  batch : Res Snapshot
  served : Nat
  room : Int → Bool

/-- A request, with what it meets.  A header or a key that does not parse is `none`. -/
inductive ShmAsk where
  /-- the outcomes are those of `PutBegin`, of `PutCommit` for an empty object, and of the write. -/
  | put (size : Option Int) (begun committed written : Res Unit)
  | get (g : Option ShmGet)
  | del (result : Option (Res Unit))
  | stat (result : Option (Res Int))

/-- The code of an outcome. -/
def codeOf : Res Unit → ErrCode
  | .ok _ => .ok
  | .error e => mapStorageErr e

/-! ## 2. The synchronous Get -/

/-- `ReadAtIntoMeta`, for a destination of `dst` bytes. -/
def Snapshot.readAtIntoMeta (s : Snapshot) (off size dst : Int) : Bytes × Option Err :=
  match readWindow s.md off size true with
  | .error e => ([], some e)
  | .ok w =>
    if dst < w.dlen then ([], some .io)
    else
      match s.deviceRead w.relStart w.dlen with
      | .refused e => ([], some e)
      | .failed e => ([], some e)
      | .done buf n =>
        if n = 0 then ([], some .eof)
        else
          let want := if (n : Int) < w.want then (n : Int) else w.want
          (buf.take want.toNat, if want < size then some .eof else none)

/-- What the handler of a Get does to the send buffer. -/
inductive Emit where
  /-- frames in reserved slots, and one flush. -/
  | chain (fs : List ShmFrame)
  /-- `shmWriteFrame`. -/
  | write (f : ShmFrame)
  /-- `shmWriteFrame`, its error ignored. -/
  | tryWrite (f : ShmFrame)

namespace Emit

def frames : Emit → List ShmFrame
  | chain fs => fs
  | write f => [f]
  | tryWrite f => [f]

end Emit

/-- `shmWriteDataFrameBatch`. -/
def shmWriteDataFrameBatch (g : ShmGet) (off : Int) : List Emit :=
  if g.batchSlot then
    let r := match g.batch with
      | .ok s => s.readAtIntoMeta off chunkSize chunkSize
      | .error e => ([], some e)
    [.chain [.get (getFrame 0 chunkSize r.1 r.2)]]
  else []

/-- `shmWriteDataFrameDirect`, or the error frame when `Reserve` has no room.  Whether the loop
goes on is the second component. -/
def shmWriteDataFrameDirect (s : Snapshot) (room : Bool) (pos want stop : Int) : Emit × Bool :=
  if room then
    let r := s.readAtIntoMeta pos want want
    (.chain [.get (getFrame pos stop r.1 r.2)], r.2 = none)
  else (.write (.get (.err .internal)), false)

/-- What one turn of the copying path writes. -/
def shmCopyTurn (pos stop : Int) (data : Bytes) (rerr : Option Err) : List Emit :=
  if rerr = some .eof ∧ data = [] then [.tryWrite (.get (.final []))]
  else (getSyncTurn pos stop data rerr).map (fun f => .write (.get f))

/-- The loop of `handleShmGet`. -/
def shmGetFrom (s : Snapshot) (room : Int → Bool) (stop : Int) : Nat → Int → List Emit
  | 0, _ => []
  | fuel + 1, pos =>
    if pos < stop then
      let want := chunkWant stop pos
      if pos % blockSize = 0 ∧ want % blockSize = 0 then
        let d := shmWriteDataFrameDirect s (room pos) pos want stop
        d.1 :: if d.2 then shmGetFrom s room stop fuel (pos + want) else []
      else
        let r := s.readAtMeta pos want
        shmCopyTurn pos stop r.1 r.2 ++
          if r.2 = none then shmGetFrom s room stop fuel (pos + r.1.length) else []
    else []

/-- The whole chunks at the beginning of a request. -/
def chainSlots (off stop : Int) : List Int :=
  (chunkStarts off stop).takeWhile (fun q => chunkSize ≤ stop - q)

/-- The slots that `Reserve` gives to a chain. -/
def chainOf (served : Nat) (off stop : Int) : List Int :=
  (if off % blockSize = 0 then chainSlots off stop else []).take served

/-- The loop of `handleShmGet`, with what comes before it for an aligned offset:
`shmWriteDataFramesChain`. -/
def shmGetChained (s : Snapshot) (served : Nat) (room : Int → Bool) (off stop : Int) : List Emit :=
  let slots := chainOf served off stop
  let reads := slots.map (fun q => (q, s.readAtIntoMeta q chunkSize chunkSize))
  let pos := off + slots.length * chunkSize
  let rest := shmGetFrom s room stop (stop - pos).toNat pos
  match reads.getLast? with
  | none => rest
  | some (q, data, rerr) =>
    .chain (reads.map (fun r => .get (getFrame r.1 stop r.2.1 r.2.2))) ::
      if q + data.length ≥ stop ∨ rerr = some .eof then []
      else if reads.any (fun r => r.2.2 ≠ none ∧ r.2.2 ≠ some .eof) then []
      else rest

/-- `handleShmGet`. -/
def handleShmGet (cfg : ShmConfig) (g : ShmGet) : List Emit :=
  match g.found with
  | .error e => [.write (.get (.err (mapStorageErr e)))]
  | .ok s =>
    let off := int64 g.off
    let size := getSize s off (int64 g.size)
    if size < 0 then [.write (.get (.err .invalidRange))]
    else
      let stop := int64 (off + size)
      if cfg.batched ∧ off % blockSize = 0 ∧ int64 (stop - off) = chunkSize then
        shmWriteDataFrameBatch g off
      else shmGetChained s g.served g.room off stop

/-- `trySubmitAsyncGet`: where the window begins and its read, when the request can be queued. -/
def ShmGet.trySubmitAsyncGet (g : ShmGet) : Option (Int × Res AsyncReadAt) :=
  let off := int64 g.off
  if int64 g.size ≠ chunkSize ∨ off % blockSize ≠ 0 then none
  else
    match g.peek with
    | .error _ => none
    | .ok s =>
      if int64 (s.md.size - off) < chunkSize ∨ g.slot = false then none
      else some (off, s.submitReadAtIntoMeta off chunkSize chunkSize)

/-! ## 3. The loop -/

/-- `pendingOp`, for request number `req`: a Get with the frame it has reserved, its window and
its read (an error, if it could not be submitted), or a Put with what its write will give
(`none`: an empty object, which is done). -/
inductive PendingOp where
  | get (req slot : Nat) (pos stop : Int) (read : Res AsyncReadAt)
  | put (req : Nat) (written : Option (Res Unit))

/-- `fillPendingHeader`. -/
def fillPendingHeader (pos stop : Int) : Res AsyncReadAt → GetFrame
  | .ok ar => getFrame pos stop ar.await.1 ar.await.2
  | .error e => getFrame pos stop [] (some e)

namespace PendingOp

/-- The item was queued as done. -/
def Done : PendingOp → Prop
  | get _ _ _ _ (.ok _) => False
  | get _ _ _ _ (.error _) => True
  | put _ (some _) => False
  | put _ none => True

instance : DecidablePred Done
  | get _ _ _ _ (.ok _) => inferInstanceAs (Decidable False)
  | get _ _ _ _ (.error _) => inferInstanceAs (Decidable True)
  | put _ (some _) => inferInstanceAs (Decidable False)
  | put _ none => inferInstanceAs (Decidable True)

/-- The item is a Get. -/
def IsGet : PendingOp → Prop
  | get _ _ _ _ _ => True
  | put _ _ => False

def req : PendingOp → Nat
  | get req _ _ _ _ => req
  | put req _ => req

/-- The frame that answers the item, once it is done. -/
def frame : PendingOp → ShmFrame
  | get _ _ pos stop read => .get (fillPendingHeader pos stop read)
  | put _ (some written) => .resp (codeOf written)
  | put _ none => .resp .ok

end PendingOp

/-- The handler of one stream.  `writes` counts the calls of `Reserve` for frames that have no
other way to be written. -/
structure ShmStream where
  pend : List PendingOp
  chain : List (Nat × ShmFrame)
  out : List (Nat × ShmFrame)
  taken : Nat
  writes : Nat
  isOpen : Bool

namespace ShmStream

variable (room : Nat → Bool)

def start : ShmStream := ⟨[], [], [], 0, 0, true⟩

/-- A frame at the end of the send buffer. -/
def push (h : ShmStream) (req : Nat) (f : ShmFrame) : ShmStream :=
  { h with chain := h.chain ++ [(req, f)] }

/-- `st.Flush`. -/
def flush (h : ShmStream) : ShmStream := { h with out := h.out ++ h.chain, chain := [] }

/-- The loop ends, and with it the stream. -/
def close (h : ShmStream) : ShmStream := { h with isOpen := false }

/-- A control frame, if `Reserve` has room for it. -/
def reserve (h : ShmStream) (req : Nat) (f : ShmFrame) : Option ShmStream :=
  if room h.writes then some ({ h with writes := h.writes + 1 }.push req f) else none

/-- `shmWriteFrame`, its error ignored. -/
def tryWrite (h : ShmStream) (f : ShmFrame) : ShmStream :=
  match h.reserve room h.taken f with
  | some h => h.flush
  | none => { h with writes := h.writes + 1 }

/-- `shmWriteFrame`; its error ends the loop. -/
def write (h : ShmStream) (f : ShmFrame) : ShmStream :=
  match h.reserve room h.taken f with
  | some h => h.flush
  | none => { h with writes := h.writes + 1 }.close

/-- One step of the handler of a Get. -/
def emit (h : ShmStream) : Emit → ShmStream
  | .chain fs => (fs.foldl (fun h f => h.push h.taken f) h).flush
  | .write f => h.write room f
  | .tryWrite f => h.tryWrite room f

/-- The handler of a Get. -/
def emitAll (h : ShmStream) (es : List Emit) : ShmStream :=
  es.foldl (fun h e => if h.isOpen then h.emit room e else h) h

/-- `fillPendingResp`: a Get fills the frame it has reserved, a Put reserves one. -/
def fillPendingResp (h : ShmStream) (p : PendingOp) : ShmStream :=
  match p with
  | .get req slot _ _ _ => { h with chain := h.chain.set slot (req, p.frame) }
  | .put req _ =>
    match h.reserve room req p.frame with
    | some h => h
    | none => { h with writes := h.writes + 1 }.close

/-- The loop of `drainCompleted` and `drainAll` over the queue. -/
def fill (h : ShmStream) (ps : List PendingOp) : ShmStream :=
  ps.foldl (fun h p => if h.isOpen then h.fillPendingResp room p else h) h

/-- The flush after it. -/
def flushPending (h : ShmStream) : ShmStream :=
  if h.isOpen then { h.flush with pend := [] } else h

/-- `drainCompleted`. -/
def drainCompleted (h : ShmStream) : ShmStream :=
  let h' := h.fill room (h.pend.filter (fun p => p.Done))
  if ∀ p ∈ h.pend, p.Done then h'.flushPending else h'

/-- `drainAll`. -/
def drainAll (h : ShmStream) : ShmStream := (h.fill room h.pend).flushPending

/-- The three rules at the head of the loop.  `idle`: nothing of a further request has arrived. -/
def settle (cfg : ShmConfig) (idle : Bool) (h : ShmStream) : ShmStream :=
  let h := h.drainCompleted room
  let h := if h.isOpen ∧ 0 < cfg.inflight ∧ (h.pend.length : Int) ≥ cfg.inflight then
    h.drainAll room else h
  if h.isOpen ∧ h.pend ≠ [] ∧ idle then h.drainAll room else h

/-- `shmRespErr`. -/
def shmRespErr (h : ShmStream) (code : ErrCode) : ShmStream := (h.tryWrite room (.resp code)).close

/-- The end of an asynchronous Put. -/
def queuePut (h : ShmStream) (written : Option (Res Unit)) : ShmStream :=
  { h with pend := h.pend ++ [.put h.taken written] }

/-- `handleShmPut`. -/
def handleShmPut (cfg : ShmConfig) (h : ShmStream) (size : Option Int)
    (begun committed written : Res Unit) : ShmStream :=
  match size with
  | none => h.shmRespErr room .invalidArgument
  | some size =>
    if size < 0 then h.shmRespErr room .invalidArgument
    else if size > cfg.maxObjectSize then h.shmRespErr room .tooLarge
    else
      match begun with
      | .error e => h.shmRespErr room (mapStorageErr e)
      | .ok _ =>
        if size = 0 then
          match committed with
          | .error e => h.shmRespErr room (mapStorageErr e)
          | .ok _ => if cfg.AsyncPut then h.queuePut none else h.write room (.resp .ok)
        else if cfg.AsyncPut then h.queuePut (some written)
        else h.write room (.resp (codeOf written))

/-- A Get: queued, or answered at once. -/
def handleGetReq (cfg : ShmConfig) (h : ShmStream) (g : Option ShmGet) : ShmStream :=
  if 0 < cfg.inflight ∧ cfg.batched = false then
    match g.bind ShmGet.trySubmitAsyncGet with
    | some (off, read) => { h.push h.taken .placeholder with
        pend := h.pend ++ [.get h.taken h.chain.length off (off + chunkSize) read] }
    | none =>
      let h := h.drainAll room
      if h.isOpen then answerGet h else h
  else answerGet h
where
  answerGet (h : ShmStream) : ShmStream :=
    match g with
    | none => h.write room (.get (.err .invalidArgument))
    | some g => h.emitAll room (Taihu.handleShmGet cfg g)

/-- `handleShmDelete`. -/
def handleShmDelete (h : ShmStream) : Option (Res Unit) → ShmStream
  | none => h.write room (.resp .invalidArgument)
  | some r => h.write room (.resp (codeOf r))

/-- `handleShmStat`. -/
def handleShmStat (h : ShmStream) : Option (Res Int) → ShmStream
  | none => h.write room (.resp .invalidArgument)
  | some (.error e) => h.write room (.resp (mapStorageErr e))
  | some (.ok size) => h.write room (.statResp size)

/-- The `switch` of the loop. -/
def handle (cfg : ShmConfig) (h : ShmStream) : ShmAsk → ShmStream
  | .put size begun committed written =>
    let h := if cfg.AsyncPut then h else h.drainAll room
    if h.isOpen then h.handleShmPut room cfg size begun committed written else h
  | .get g => h.handleGetReq room cfg g
  | .del r =>
    let h := h.drainAll room
    if h.isOpen then h.handleShmDelete room r else h
  | .stat r =>
    let h := h.drainAll room
    if h.isOpen then h.handleShmStat room r else h

/-- One turn of the loop.  A request that has been taken is counted. -/
def turn (cfg : ShmConfig) (h : ShmStream) (t : Bool × ShmAsk) : ShmStream :=
  let h := if h.isOpen then h.settle room cfg t.1 else h
  if h.isOpen then
    let h := h.handle room cfg t.2
    { h with taken := h.taken + 1 }
  else h

/-- `handleStream`, over the requests it takes. -/
def handleStream (cfg : ShmConfig) (ts : List (Bool × ShmAsk)) : ShmStream :=
  ts.foldl (turn room cfg) start

/-- The loop when it waits for a further request. -/
def waiting (cfg : ShmConfig) (h : ShmStream) : ShmStream :=
  if h.isOpen then h.settle room cfg true else h

end ShmStream

end Taihu
