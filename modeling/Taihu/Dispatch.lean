/-
# The server's dispatch on one TCP connection

`internal/transport/server.go` (`dispatch`, `endStream`, `handlePut`, `drainPutTail`,
`drainPutTailUnknown` and the other handlers as consumers of frames), `server_admin.go`, and the
client's side of `client.go` and `client_admin.go` as producers of frames, with `readLoop`,
`newStream` and `removeStream` of `frame.go`.

What travels are the frames of the requests: a call writes them one by one, the read loop looks
the stream of a frame up and delivers it into the queue of the stream, the handler consumes it.
A stream of the server is an object of its own (`gen` is its identity), because the read loop
holds on to the object it has looked up while the handler may end.  Responses are left out: a
call may return at any moment after it has written its frames, which covers responses,
cancellation and deadlines.  What storage answers to a `PutBegin` is chosen by the action.

Stream ids count up and wrap at `2 ^ 32`.
-/
import Taihu.Connection

namespace Taihu

open Framing

/-! ## 1. Frames of requests -/

/-- The one-frame requests: `OpDelReq`, `OpStatReq`, `OpPing`, `OpMetaReq`, `OpSegReq` and
`OpKeysReq`. -/
inductive UnaryOp where
  | del
  | stat
  | ping
  | metaReq
  | segments
  | listKeys
  deriving DecidableEq, Repr

/-- A frame to the server. -/
inductive ReqFrame where
  | putHeader (key : Key) (size : Int)
  | putData (len : Nat)
  | putEnd
  | getReq (r : GetReq)
  | unary (op : UnaryOp) (key : Key)

namespace ReqFrame

/-- The frames that `dispatch` opens a stream for. -/
def Opens : ReqFrame → Prop
  | putHeader _ _ => True
  | putData _ => False
  | putEnd => False
  | getReq _ => True
  | unary _ _ => True

instance : DecidablePred Opens
  | putHeader _ _ => inferInstanceAs (Decidable True)
  | putData _ => inferInstanceAs (Decidable False)
  | putEnd => inferInstanceAs (Decidable False)
  | getReq _ => inferInstanceAs (Decidable True)
  | unary _ _ => inferInstanceAs (Decidable True)

/-- The length of the payload. -/
def payloadLen : ReqFrame → Nat
  | putHeader key _ => 4 + key.length + 8
  | putData len => len
  | putEnd => 0
  | getReq r => 4 + r.key.length + 16
  | unary .ping _ => 0
  | unary .segments _ => 0
  | unary _ key => 4 + key.length

end ReqFrame

/-- A call of the client.  (`Get` with a negative size is a `Stat` and then another `Get`.) -/
inductive Rpc where
  | put (key : Key) (size : Int)
  | get (key : Key) (keys : List Key) (off size : Int)
  | unary (op : UnaryOp) (key : Key)

namespace Rpc

/-- The frames a call writes: `Conn.Put` sends header, data in chunks and end without waiting;
`Get` and `GetBatch` one request for each key. -/
def frames : Rpc → List ReqFrame
  | put key size => .putHeader key size ::
      (chunkStarts 0 size).map (fun off => .putData (chunkWant size off).toNat) ++ [.putEnd]
  | get key keys off size => (key :: keys).map (fun k => .getReq ⟨k, off, size⟩)
  | unary op key => [.unary op key]

def IsGet : Rpc → Prop
  | put _ _ => False
  | get _ _ _ _ => True
  | unary _ _ => False

end Rpc

/-! ## 2. Handlers -/

/-- Where the handler of a stream stands. -/
inductive Phase where
  /-- `handlePut` before its header. -/
  | putFirst
  /-- `handlePut` collecting the object. -/
  | putCollect (size pos : Int)
  /-- `drainPutTail`. -/
  | drainTail (budget got : Int)
  /-- `drainPutTailUnknown`. -/
  | drainUnknown
  /-- `handleGetStream`. -/
  | getLoop
  /-- a handler of a one-frame request. -/
  | unaryFirst
  /-- the handler has returned, `endStream` is to come. -/
  | leaving
  /-- `endStream` has taken the stream off the map. -/
  | removed
  /-- `done` is closed. -/
  | finished
  deriving DecidableEq, Repr

namespace Phase

/-- The handler that the first frame of a stream starts. -/
def ofFirst : ReqFrame → Phase
  | .putHeader _ _ => putFirst
  | .getReq _ => getLoop
  | .unary _ _ => unaryFirst
  | .putData _ => leaving
  | .putEnd => leaving

/-- The stream is still on the map. -/
def Live (p : Phase) : Prop := p ≠ removed ∧ p ≠ finished

instance : DecidablePred Live := fun _ => inferInstanceAs (Decidable (_ ∧ _))

/-- `handlePut` after its header; `begins`: `PutBegin` succeeds.  (An empty object is stored, or
not, and its end frame is awaited either way.) -/
def afterHeader (maxObjectSize : Int) (begins : Bool) (key : Key) (size : Int) : Phase :=
  if key.length > maxKeyLen then drainUnknown
  else if size < 0 then drainTail 0 0
  else if size > maxObjectSize then drainTail size 0
  else if size = 0 then drainTail 0 0
  else if begins then putCollect size 0
  else drainTail size 0

/-- What a handler does with the next frame.  (The first frame of a `handlePut` is a header: it
has started the handler.) -/
def handle (maxObjectSize : Int) (begins : Bool) : Phase → ReqFrame → Phase
  | putFirst, .putHeader key size => afterHeader maxObjectSize begins key size
  | putFirst, _ => drainUnknown
  | putCollect size pos, .putData len =>
    if pos + len > size then leaving else putCollect size (pos + len)
  | putCollect _ _, _ => leaving
  | drainTail budget got, .putData len =>
    if got < budget then drainTail budget (got + len) else leaving
  | drainTail _ _, _ => leaving
  | drainUnknown, .putData _ => drainUnknown
  | drainUnknown, _ => leaving
  | getLoop, .getReq _ => getLoop
  | getLoop, _ => leaving
  | unaryFirst, _ => leaving
  | leaving, _ => leaving
  | removed, _ => removed
  | finished, _ => finished

/-- The handler waits for a frame. -/
def Awaits (p : Phase) : Prop := p ≠ leaving ∧ p.Live

instance : DecidablePred Awaits := fun _ => inferInstanceAs (Decidable (_ ∧ _))

end Phase

/-- A stream of the server. -/
structure SrvStream where
  sid : Nat
  inq : List ReqFrame
  phase : Phase

/-- A frame the read loop is about to deliver: its stream id, the stream it has looked up, and
the frame. -/
structure InHand where
  sid : Nat
  gen : Nat
  frame : ReqFrame

/-! ## 3. The connection -/

/-- The connection, as its server sees it: the id counter of the client, the calls with the
frames they have still to write, the frames under way, the read loop, the map of streams. -/
structure TcpConn where
  sid : Nat
  calls : List (Nat × List ReqFrame)
  c2s : List (Nat × ReqFrame)
  hand : Option InHand
  streams : Nat → Option Nat
  objs : Nat → SrvStream
  gens : Nat
  /-- `dispatch` has returned `deliverFatal`. -/
  fatal : Bool
  /-- the read loop runs. -/
  isOpen : Bool

inductive TcpAct where
  /-- a call opens its stream. -/
  | call (r : Rpc)
  /-- the `i`-th call writes its next frame. -/
  | send (i : Nat)
  /-- the `i`-th call, which has written its frames, returns. -/
  | ret (i : Nat)
  /-- the read loop takes a frame, and `dispatch` looks its stream up. -/
  | lookup
  /-- `dispatch` delivers the frame it holds. -/
  | deliver
  /-- `dispatch` finds `done` closed. -/
  | refuse
  /-- a handler consumes a frame. -/
  | handle (gen : Nat) (begins : Bool)
  /-- the two halves of `endStream`. -/
  | remove (gen : Nat)
  | finish (gen : Nat)

namespace TcpConn

def start : TcpConn where
  sid := 0
  calls := []
  c2s := []
  hand := none
  streams := fun _ => none
  objs := fun _ => ⟨0, [], .finished⟩
  gens := 0
  fatal := false
  isOpen := true

/-- `c.sid.Add(1)` on a `uint32`. -/
def nextId (c : TcpConn) : Nat := (c.sid + 1) % 2 ^ 32

def setObj (c : TcpConn) (gen : Nat) (st : SrvStream) : TcpConn :=
  { c with objs := Function.update c.objs gen st }

/-- The read loop ends, and with it the connection. -/
def close (c : TcpConn) : TcpConn := { c with hand := none, isOpen := false }

/-- `dispatch` up to its `select`: the stream of the frame is looked up, or opened. -/
def lookup (c : TcpConn) (sid : Nat) (f : ReqFrame) : TcpConn :=
  match c.streams sid with
  | some gen => { c with hand := some ⟨sid, gen, f⟩ }
  | none =>
    if f.Opens then { c with
      hand := some ⟨sid, c.gens, f⟩
      streams := Function.update c.streams sid (some c.gens)
      gens := c.gens + 1 }.setObj c.gens ⟨sid, [], .ofFirst f⟩
    else { c.close with fatal := true }

/-- One action. -/
def step (maxObjectSize : Int) (c : TcpConn) : TcpAct → Option TcpConn
  | .call r => some { c with sid := c.nextId, calls := c.calls ++ [(c.nextId, r.frames)] }
  | .send i => do
    let (sid, fs) ← c.calls[i]?
    match fs with
    | [] => none
    | f :: fs => some { c with calls := c.calls.set i (sid, fs), c2s := c.c2s ++ [(sid, f)] }
  | .ret i => do
    let (_, fs) ← c.calls[i]?
    match fs with
    | [] => some { c with calls := c.calls.eraseIdx i }
    | _ :: _ => none
  | .lookup =>
    match c.c2s with
    | [] => none
    | (sid, f) :: rest =>
      if c.isOpen ∧ c.hand.isNone then
        if f.payloadLen > chunkSize.toNat then some { c with c2s := rest }.close
        else some ({ c with c2s := rest }.lookup sid f)
      else none
  | .deliver => do
    let h ← c.hand
    let st := c.objs h.gen
    if st.inq.length < streamInCap then
      some ({ c with hand := none }.setObj h.gen { st with inq := st.inq ++ [h.frame] })
    else none
  | .refuse => do
    let h ← c.hand
    if (c.objs h.gen).phase = .finished then some { c.close with fatal := true } else none
  | .handle gen begins =>
    let st := c.objs gen
    match st.inq with
    | [] => none
    | f :: inq =>
      if st.phase.Awaits then
        some (c.setObj gen { st with inq := inq, phase := st.phase.handle maxObjectSize begins f })
      else none
  | .remove gen =>
    let st := c.objs gen
    if st.phase = .leaving then
      some ({ c with streams := Function.update c.streams st.sid none }.setObj gen
        { st with phase := .removed })
    else none
  | .finish gen =>
    let st := c.objs gen
    if st.phase = .removed then
      some (c.setObj gen { st with phase := .finished })
    else none

/-- The connection after a run. -/
def run (maxObjectSize : Int) (acts : List TcpAct) : Option TcpConn :=
  Transition.run (step maxObjectSize) start acts

end TcpConn

end Taihu
