/-
# The Get handler of a TCP stream

`internal/transport/server.go` (`handleGetStream`, `submitTcpGetReq`, `getSync`,
`drainTcpGetHead`, `drainAllTcpGet`, `writeTcpGetFrame`), with what it calls of
`internal/storage/read.go` and `internal/device/device.go`.

The handler answers the `GetReq` frames of one stream.  A request is read synchronously, chunk
by chunk, or, when it is made of aligned whole chunks and `inflight > 0`, by one asynchronous
read for each chunk, queued in `pend` and written later.  What a key lookup gave and what the
device did with each read are part of the request here (`Ask`, `Snapshot`), so that a result
speaks of every outcome; the frames carry the number of the request they answer, which is not
on the wire.  Arithmetic of the source on `int64` that can leave the range is wrapped
(`int64`); the sums that are not wrapped stay inside, because an extent ends below `2 ^ 62`.

Writing a frame does not fail in this model (the connection stays open).
-/
import Taihu.Storage
import Taihu.Lib.Framing

namespace Taihu

open Framing

/-! ## 1. Frames -/

/-- `ErrCode`. -/
inductive ErrCode where
  | ok
  | notFound
  | invalidRange
  | tooLarge
  | noSpace
  | internal
  | invalidArgument
  deriving DecidableEq, Repr

/-- `MapStorageErr`. -/
def mapStorageErr : Err → ErrCode
  | .notFound => .notFound
  | .invalidRange => .invalidRange
  | .tooLarge => .tooLarge
  | .noSpace => .noSpace
  | _ => .internal

/-- The frames a Get is answered with: `OpGetData`, `OpGetDataFinal` and `OpGetErr`. -/
inductive GetFrame where
  | data (payload : Bytes)
  | final (payload : Bytes)
  | err (code : ErrCode)
  deriving DecidableEq, Repr

namespace GetFrame

/-- The frames that end a response. -/
def Last : GetFrame → Prop
  | data _ => False
  | final _ => True
  | err _ => True

instance : DecidablePred Last
  | data _ => inferInstanceAs (Decidable False)
  | final _ => inferInstanceAs (Decidable True)
  | err _ => inferInstanceAs (Decidable True)

/-- The object bytes a frame carries. -/
def bytes : GetFrame → Bytes
  | data p => p
  | final p => p
  | err _ => []

end GetFrame

/-- The object bytes of a response. -/
def payload (fs : List GetFrame) : Bytes := fs.flatMap GetFrame.bytes

@[simp] theorem payload_nil : payload [] = [] := rfl

@[simp] theorem payload_cons (f : GetFrame) (fs : List GetFrame) :
    payload (f :: fs) = f.bytes ++ payload fs := rfl

/-! ## 2. One read of a snapshot -/

/-- The value an `int64` has after an operation whose exact result is `x`. -/
def int64 (x : Int) : Int := (x + 2 ^ 63) % 2 ^ 64 - 2 ^ 63

theorem int64_range (x : Int) : -2 ^ 63 ≤ int64 x ∧ int64 x < 2 ^ 63 := by
  unfold int64
  omega

theorem int64_of_range {x : Int} (h : -2 ^ 63 ≤ x) (h' : x < 2 ^ 63) : int64 x = x := by
  unfold int64
  omega

/-- How a read ended: the submission was refused, the read completed with an error, or it
filled the first `n` bytes of the buffer. -/
inductive ReadEnd where
  | refused (e : Err)
  | failed (e : Err)
  | done (buf : Bytes) (n : Nat)

/-- What `MetaRef` found for a key: the mapping, the bytes of the object, and what the device
does with the read of `dlen` bytes at offset `start` of the segment.  The buffers come from a
pool, so the bytes after the first `n` are whatever was there. -/
structure Snapshot where
  md : ObjectMeta
  content : Bytes
  dev : (start dlen : Int) → ReadEnd
  content_length : (content.length : Int) = md.size
  offset_nonneg : 0 ≤ md.offset
  offset_aligned : md.offset % blockSize = 0
  extent_lt : md.offset + md.size < 2 ^ 62
  dev_done : ∀ {start dlen buf n}, dev start dlen = .done buf n →
    (buf.length : Int) = dlen ∧ (n : Int) ≤ dlen

namespace Snapshot

variable (s : Snapshot)

/-- The bytes `[off, off + size)` of the object. -/
def slice (off size : Int) : Bytes := (s.content.drop off.toNat).take size.toNat

/-- The checks of `Device.ReadAt` and `SubmitReadAsync`, and the read.  (For `size = 0` `ReadAt`
returns nothing, but no window is empty.) -/
def deviceRead (off size : Int) : ReadEnd :=
  if off < 0 ∨ off % blockSize ≠ 0 then .refused .io
  else if size ≤ 0 ∨ size % blockSize ≠ 0 then .refused .io
  else s.dev off size

/-- `ReadAtMeta`: the data and the error it comes with. -/
def readAtMeta (off size : Int) : Bytes × Option Err :=
  match readWindow s.md off size false with
  | .error e => ([], some e)
  | .ok w =>
    match s.deviceRead (s.md.offset + off - w.skip) w.dlen with
    | .refused e => ([], some e)
    | .failed e => ([], some e)
    | .done buf n =>
      if n = 0 then ([], some .eof)
      else
        let want := if (n : Int) < w.want then (n : Int) else w.want
        let data := if w.skip > 0 ∨ want < n then (buf.drop w.skip.toNat).take want.toNat
          else buf.take n
        (data, if (data.length : Int) < size then some .eof else none)

end Snapshot

/-- `AsyncReadAt`: a submitted read, with the size of its window and the size asked for. -/
structure AsyncReadAt where
  read : ReadEnd
  want : Int
  size : Int

/-- `Await`, with the bytes it leaves at the head of the buffer. -/
def AsyncReadAt.await (a : AsyncReadAt) : Bytes × Option Err :=
  match a.read with
  | .refused e => ([], some e)
  | .failed e => ([], some e)
  | .done buf n =>
    if n = 0 then ([], some .eof)
    else
      let want := if (n : Int) < a.want then (n : Int) else a.want
      (buf.take want.toNat, if want < a.size then some .eof else none)

/-- `SubmitReadAtIntoMeta`, for a destination of `dst` bytes. -/
def Snapshot.submitReadAtIntoMeta (s : Snapshot) (off size dst : Int) : Res AsyncReadAt :=
  match readWindow s.md off size true with
  | .error e => .error e
  | .ok w =>
    if dst < w.dlen then .error .io
    else
      match s.deviceRead w.relStart w.dlen with
      | .refused e => .error e
      | r => .ok ⟨r, w.want, size⟩

/-! ## 3. One request -/

/-- A `GetReq` frame, with what its handling meets: it does not parse, the lookup of its key
fails, or a snapshot is found.  `off` and `size` are the two words of the request, which the
parser reads as `int64`. -/
inductive Ask where
  | malformed
  | unresolved (e : Err)
  | found (s : Snapshot) (off size : Int)

/-- The size to read: `-1` asks for everything from `off` on. -/
def getSize (s : Snapshot) (off size : Int) : Int :=
  if size = -1 then int64 (s.md.size - off) else size

/-- The requests of the asynchronous path. -/
def AsyncGet (inflight off size : Int) : Prop :=
  0 < inflight ∧ off % blockSize = 0 ∧ 0 < size ∧ size % chunkSize = 0

instance (inflight off size : Int) : Decidable (AsyncGet inflight off size) :=
  inferInstanceAs (Decidable (_ ∧ _))

/-- The frame for what was read at `pos` of a request that ends at `stop`
(`writeTcpGetFrame`). -/
def getFrame (pos stop : Int) (data : Bytes) (rerr : Option Err) : GetFrame :=
  match rerr with
  | none => if pos + data.length ≥ stop then .final data else .data data
  | some .eof => .final data
  | some e => .err (mapStorageErr e)

/-- How much of a request that ends at `stop` is read at `pos`. -/
def chunkWant (stop pos : Int) : Int := if stop - pos > chunkSize then chunkSize else stop - pos

/-- What one turn of the loop of `getSync` sends. -/
def getSyncTurn (pos stop : Int) (data : Bytes) (rerr : Option Err) : List GetFrame :=
  let sent : List GetFrame :=
    if data = [] then []
    else if pos + data.length ≥ stop ∨ rerr = some .eof then [.final data] else [.data data]
  match rerr with
  | some .eof => if data = [] then [.final []] else sent
  | some e => sent ++ [.err (mapStorageErr e)]
  | none => sent

/-- The loop of `getSync` from `pos` on. -/
def getSyncFrom (s : Snapshot) (stop : Int) : Nat → Int → List GetFrame
  | 0, _ => []
  | fuel + 1, pos =>
    if pos < stop then
      let r := s.readAtMeta pos (chunkWant stop pos)
      getSyncTurn pos stop r.1 r.2 ++
        if r.2 = none then getSyncFrom s stop fuel (pos + r.1.length) else []
    else []

/-- `getSync`.  Each turn of the loop reads at least one byte, so it turns at most `stop - off`
times. -/
def getSync (s : Snapshot) (off size : Int) : List GetFrame :=
  let stop := int64 (off + size)
  getSyncFrom s stop (stop - off).toNat off

/-- `for pos := off; pos < stop; pos += ChunkSize`. -/
def chunkStartsFrom (stop : Int) : Nat → Int → List Int
  | 0, _ => []
  | fuel + 1, pos => if pos < stop then pos :: chunkStartsFrom stop fuel (pos + chunkSize) else []

/-- The chunks of a request.  (`pos + ChunkSize` does not overflow: a range that does not
overflow is a whole number of chunks, and a range that does has none.) -/
def chunkStarts (off stop : Int) : List Int := chunkStartsFrom stop (stop - off).toNat off

/-! ## 4. The handler -/

/-- `tcpGetPending`, for request number `req`. -/
structure TcpGetPending where
  req : Nat
  pos : Int
  stop : Int
  ar : Option AsyncReadAt
  done : Bool
  data : Bytes
  rerr : Option Err
  unrefSeg : Option Int

namespace TcpGetPending

/-- The item once its read has been waited for. -/
def await (p : TcpGetPending) : TcpGetPending :=
  if p.done then p
  else
    match p.ar with
    | some ar => { p with done := true, data := ar.await.1, rerr := ar.await.2 }
    | none => { p with done := true }

/-- The frame `writeTcpGetFrame` writes for the item. -/
def frame (p : TcpGetPending) : GetFrame := getFrame p.pos p.stop p.data p.rerr

end TcpGetPending

/-- Whether the handler still runs. -/
inductive Status where
  | running
  | returned
  | panicked
  deriving DecidableEq, Repr

/-- The handler of one stream: the reads in flight, the frames written, the segment references
given back, the number of requests taken. -/
structure GetStream where
  pend : List TcpGetPending
  out : List (Nat × GetFrame)
  unrefs : List Int
  taken : Nat
  status : Status

namespace GetStream

def start : GetStream := ⟨[], [], [], 0, .running⟩

/-- `writeTcpGetFrame`. -/
def writeTcpGetFrame (h : GetStream) (p : TcpGetPending) : GetStream :=
  { h with out := h.out ++ [(p.req, p.frame)], unrefs := h.unrefs ++ p.unrefSeg.toList }

/-- The loop of `drainTcpGetHead` over the queue. -/
def drainTcpGetHead (h : GetStream) : List TcpGetPending → GetStream
  | [] => { h with pend := [] }
  | p :: ps => if p.done then (h.writeTcpGetFrame p).drainTcpGetHead ps
    else { h with pend := p :: ps }

/-- The loop of `drainAllTcpGet` over the queue. -/
def drainAllTcpGet (h : GetStream) : List TcpGetPending → GetStream
  | [] => { h with pend := [] }
  | p :: ps => (h.writeTcpGetFrame p.await).drainAllTcpGet ps

/-- The frames of the request that is being answered. -/
def reply (h : GetStream) (fs : List GetFrame) : GetStream :=
  { h with out := h.out ++ tag h.taken fs, taken := h.taken + 1 }

/-- The item queued for the chunk at `pos`. -/
def submitChunk (req : Nat) (s : Snapshot) (stop pos : Int) : TcpGetPending :=
  match s.submitReadAtIntoMeta pos chunkSize chunkSize with
  | .error e => ⟨req, pos, stop, none, true, [], some e, none⟩
  | .ok ar => ⟨req, pos, stop, some ar, false, [], none, none⟩

/-- `(*pend)[len(*pend)-1].unrefSeg = seg`; `none` when there is no such item. -/
def setLastUnref (seg : Int) : List TcpGetPending → Option (List TcpGetPending)
  | [] => none
  | [p] => some [{ p with unrefSeg := some seg }]
  | p :: q :: ps => (setLastUnref seg (q :: ps)).map (p :: ·)

/-- `submitTcpGetReq`. -/
def submitTcpGetReq (inflight : Int) (h : GetStream) : Ask → GetStream
  | .malformed => (h.drainAllTcpGet h.pend).reply [.err .invalidArgument]
  | .unresolved e => (h.drainAllTcpGet h.pend).reply [.err (mapStorageErr e)]
  | .found s off size =>
    let off := int64 off
    let size := getSize s off (int64 size)
    if size < 0 then
      let h := (h.drainAllTcpGet h.pend).reply [.err .invalidRange]
      { h with unrefs := h.unrefs ++ [s.md.segmentID] }
    else if AsyncGet inflight off size then
      let stop := int64 (off + size)
      let pend := h.pend ++ (chunkStarts off stop).map (submitChunk h.taken s stop)
      match setLastUnref s.md.segmentID pend with
      | some pend => { h with pend := pend, taken := h.taken + 1 }
      | none => { h with status := .panicked }
    else
      let h := (h.drainAllTcpGet h.pend).reply (getSync s off size)
      { h with unrefs := h.unrefs ++ [s.md.segmentID] }

/-- A frame that `tryAwait` or `await` returns. -/
inductive Incoming where
  | getReq (a : Ask)
  | other

/-- What a turn of the loop begins with: the finished items at the head are written, and all of
them when as many are in flight as may be. -/
def settle (inflight : Int) (h : GetStream) : GetStream :=
  let h := h.drainTcpGetHead h.pend
  if 0 < inflight ∧ (h.pend.length : Int) ≥ inflight then h.drainAllTcpGet h.pend else h

/-- What it goes on with.  `none`: `tryAwait` found no frame, and what is in flight is drained
before the handler waits. -/
def handle (inflight : Int) (h : GetStream) : Option Incoming → GetStream
  | none => h.drainAllTcpGet h.pend
  | some .other => { h with status := .returned }
  | some (.getReq a) => h.submitTcpGetReq inflight a

/-- One turn of the loop of `handleGetStream`. -/
def turn (inflight : Int) (h : GetStream) (msg : Option Incoming) : GetStream :=
  if h.status = .running then (h.settle inflight).handle inflight msg else h

/-- `handleGetStream`, over the outcomes of its attempts to take a frame. -/
def handleGetStream (inflight : Int) (msgs : List (Option Incoming)) : GetStream :=
  msgs.foldl (turn inflight) start

end GetStream

end Taihu
