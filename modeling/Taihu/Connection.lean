/-
# Get calls on one TCP connection

`internal/transport/client.go` (`Conn.Get`, `Conn.GetBatch`, `clientDispatch`) and
`internal/transport/frame.go` (`readLoop`, `newStream`, `removeStream`, `await`), with the
server's `dispatch` and the handlers of `GetStream.lean`.

The two directions of the connection are queues of frames; netpoll keeps their order.  Each
frame carries a stream id; the number of the request a response frame belongs to is not on the
wire.  A stream has a bounded queue `in` on either side, which the read loop of that side fills
and waits for.  Stream ids are not reused in this model, so a call and its stream have one
number.  What the lookup of a key gives is chosen anew at each request.
-/
import Taihu.GetStream
import Taihu.Lib.Transition
import Mathlib

namespace Taihu

open Framing

/-! ## 1. The server's side of a stream -/

/-- `MaxKeyLen`. -/
def maxKeyLen : Nat := 65536

/-- A `GetReq` frame. -/
structure GetReq where
  key : Key
  off : Int
  size : Int

/-- What `submitTcpGetReq` meets: `ParseGetReq`, then `MetaRef`, which gives `lookup`. -/
def GetReq.ask (r : GetReq) (lookup : Res Snapshot) : Ask :=
  if r.key.length > maxKeyLen then .malformed
  else match lookup with
    | .error e => .unresolved e
    | .ok s => .found s r.off r.size

/-- `streamInCap`. -/
def streamInCap : Nat := 8

/-- A stream of the server: the frames the read loop has delivered, the requests the handler has
taken with what their lookups gave, the handler, and how many of its frames are on the wire. -/
structure ServerStream where
  inq : List GetReq
  asked : List (GetReq × Res Snapshot)
  handler : GetStream
  sent : Nat

/-- `newStream` and `go handleGetStream`. -/
def ServerStream.fresh : ServerStream := ⟨[], [], .start, 0⟩

/-! ## 2. The client's side of a stream -/

inductive Outcome where
  | pending
  | failed
  | returned
  deriving DecidableEq, Repr

/-- A call of `Get` (one key) or `GetBatch`.  `results` are the responses read in full, `got`
the bytes of the one being read; `seen` are the frames read so far, each with the number of the
response that was being read. -/
structure GetCall where
  batch : Bool
  keys : List Key
  off : Int
  size : Int
  posted : Bool
  registered : Bool
  inq : List (Nat × GetFrame)
  results : List Bytes
  got : Bytes
  outcome : Outcome
  seen : List (Nat × (Nat × GetFrame))

namespace GetCall

/-- The head of `Get` and `GetBatch`, and `newStream`; without keys `GetBatch` returns at
once. -/
def start (batch : Bool) (keys : List Key) (off size : Int) : GetCall where
  batch := batch
  keys := keys
  off := off
  size := size
  posted := false
  registered := decide (keys ≠ [])
  inq := []
  results := []
  got := []
  outcome := if keys = [] then .returned else .pending
  seen := []

/-- The `GetReq` frames of the call. -/
def reqs (c : GetCall) : List GetReq := c.keys.map (fun key => ⟨key, c.off, c.size⟩)

/-- The call returns an error, and removes its stream. -/
def fail (c : GetCall) : GetCall := { c with outcome := .failed, registered := false }

/-- A response is complete.  After the last one `Get` removes its stream; `GetBatch` leaves that
to `release`. -/
def finish (c : GetCall) (b : Bytes) : GetCall :=
  let c := { c with results := c.results ++ [b], got := [] }
  if c.results.length = c.keys.length then { c with outcome := .returned, registered := c.batch }
  else c

/-- The body of the loop of `Get` and `GetBatch`, for one frame. -/
def receive (c : GetCall) (x : Nat × GetFrame) : GetCall :=
  let c := { c with seen := c.seen ++ [(c.results.length, x)] }
  match x.2 with
  | .data p =>
    if (p.length : Int) > c.size - c.got.length then c.fail else { c with got := c.got ++ p }
  | .final p =>
    if (p.length : Int) > c.size - c.got.length then c.fail
    else if ((c.got ++ p).length : Int) ≠ c.size then c.fail
    else c.finish (c.got ++ p)
  | .err _ => c.fail

end GetCall

/-! ## 3. The connection -/

/-- The connection: the calls, the frames under way to the server, its streams, the frames under
way to the client. -/
structure Conn where
  next : Nat
  calls : Nat → Option GetCall
  c2s : List (Nat × GetReq)
  srv : Nat → Option ServerStream
  s2c : List (Nat × (Nat × GetFrame))

/-- What can happen next. -/
inductive ConnAct where
  /-- a call begins and opens its stream. -/
  | call (batch : Bool) (keys : List Key) (off size : Int)
  /-- a call writes its requests. -/
  | post (sid : Nat)
  /-- the server's read loop dispatches a frame. -/
  | dispatch
  /-- a handler takes a request, whose lookup gives `lookup`. -/
  | take (sid : Nat) (lookup : Res Snapshot)
  /-- a handler finds no request. -/
  | drain (sid : Nat)
  /-- the next frame of a handler goes to the wire. -/
  | write (sid : Nat)
  /-- the client's read loop dispatches a frame. -/
  | deliver
  /-- a call reads a frame. -/
  | read (sid : Nat)
  /-- a call is cancelled, or fails for another reason. -/
  | cancel (sid : Nat)
  /-- the caller of `GetBatch` releases what it got. -/
  | release (sid : Nat)

namespace Conn

def start : Conn := ⟨0, fun _ => none, [], fun _ => none, []⟩

def setCall (c : Conn) (sid : Nat) (call : GetCall) : Conn :=
  { c with calls := Function.update c.calls sid (some call) }

def setServer (c : Conn) (sid : Nat) (st : ServerStream) : Conn :=
  { c with srv := Function.update c.srv sid (some st) }

/-- `dispatch` of the server: an unknown stream is opened by its first request; a full queue
holds the read loop up. -/
def dispatch (c : Conn) (sid : Nat) (r : GetReq) (rest : List (Nat × GetReq)) : Option Conn :=
  let st := (c.srv sid).getD .fresh
  if st.inq.length < streamInCap then
    some ({ c with c2s := rest }.setServer sid { st with inq := st.inq ++ [r] })
  else none

/-- `clientDispatch`: frames of unknown streams are dropped. -/
def deliver (c : Conn) (sid : Nat) (x : Nat × GetFrame) (rest : List (Nat × (Nat × GetFrame))) :
    Option Conn :=
  match c.calls sid with
  | some call =>
    if call.registered then
      if call.inq.length < streamInCap then
        some ({ c with s2c := rest }.setCall sid { call with inq := call.inq ++ [x] })
      else none
    else some { c with s2c := rest }
  | none => some { c with s2c := rest }

/-- One action.  A handler goes on when all it has written is on the wire. -/
def step (inflight : Int) (c : Conn) : ConnAct → Option Conn
  | .call batch keys off size =>
    if 0 ≤ off ∧ off < 2 ^ 63 ∧ 0 < size ∧ size < 2 ^ 63 ∧ (batch = false → keys.length = 1) then
      some ({ c with next := c.next + 1 }.setCall c.next (.start batch keys off size))
    else none
  | .post sid => do
    let call ← c.calls sid
    if call.posted = false ∧ call.outcome = .pending then
      some ({ c with c2s := c.c2s ++ tag sid call.reqs }.setCall sid { call with posted := true })
    else none
  | .dispatch =>
    match c.c2s with
    | [] => none
    | (sid, r) :: rest => c.dispatch sid r rest
  | .take sid lookup => do
    let st ← c.srv sid
    match st.inq with
    | [] => none
    | r :: inq =>
      if st.sent = st.handler.out.length ∧ st.handler.status = .running then
        some (c.setServer sid { st with
          inq := inq
          asked := st.asked ++ [(r, lookup)]
          handler := .turn inflight st.handler (some (.getReq (r.ask lookup))) })
      else none
  | .drain sid => do
    let st ← c.srv sid
    if st.inq = [] ∧ st.sent = st.handler.out.length ∧ st.handler.status = .running then
      some (c.setServer sid { st with handler := .turn inflight st.handler none })
    else none
  | .write sid => do
    let st ← c.srv sid
    let x ← st.handler.out[st.sent]?
    some ({ c with s2c := c.s2c ++ [(sid, x)] }.setServer sid { st with sent := st.sent + 1 })
  | .deliver =>
    match c.s2c with
    | [] => none
    | (sid, x) :: rest => c.deliver sid x rest
  | .read sid => do
    let call ← c.calls sid
    match call.inq with
    | [] => none
    | x :: inq =>
      if call.outcome = .pending then some (c.setCall sid ({ call with inq := inq }.receive x))
      else none
  | .cancel sid => do
    let call ← c.calls sid
    if call.outcome = .pending then some (c.setCall sid call.fail) else none
  | .release sid => do
    let call ← c.calls sid
    if call.outcome = .returned then some (c.setCall sid { call with registered := false }) else none

/-- The connection after a run. -/
def run (inflight : Int) (acts : List ConnAct) : Option Conn :=
  Transition.run (step inflight) start acts

end Conn

end Taihu
