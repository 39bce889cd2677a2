/-
# Calls over pooled shared memory streams

`internal/transport/client_shm_linux.go` (`ShmConn.Put`, `getEx` behind `Get` and `GetFd`,
`GetBatch`, `GetFdBatch`, `PutBatch`, `PutBatchKeys`, `PutBegin` to `Commit`, `Delete`, `Stat`),
and of `third_party/shmipc-go/session_manager.go` what they rely on: `GetStream` takes a pooled
stream that is open or opens one; `PutBack` pools a stream that is open and has nothing unread,
and closes any other.

A stream has no room for the number of a request, so frames carry here, for the statements only,
the call and the request they belong to (`produced` keeps what was written for each call).  The
server's side of a stream is left open: it takes frames in their order, writes any frame for any
request, and may hang up.  A frame arrives as a whole.  Which pooled stream `GetStream` takes is
left open too.  A call with a negative size is a `stat` and then a `get`; a call that needs no
stream does not occur.
-/
import Taihu.ShmStream
import Taihu.Lib.Transition
import Mathlib

namespace Taihu

namespace ShmFrame

/-- The frames that end a response. -/
def Last : ShmFrame → Prop
  | get f => f.Last
  | placeholder => True
  | resp _ => True
  | statResp _ => True

instance : DecidablePred Last
  | get f => inferInstanceAs (Decidable f.Last)
  | placeholder => inferInstanceAs (Decidable True)
  | resp _ => inferInstanceAs (Decidable True)
  | statResp _ => inferInstanceAs (Decidable True)

def bytes : ShmFrame → Bytes
  | get f => f.bytes
  | _ => []

/-- The code of an error frame. -/
def code? : ShmFrame → Option ErrCode
  | get (.err c) => some c
  | placeholder => some .internal
  | resp c => some c
  | _ => none

end ShmFrame

namespace ShmPool

/-! ## 1. The calls -/

/-- The frames of requests. -/
inductive ReqOp where
  | putHeader
  | putData
  | putEnd
  | getReq
  | delReq
  | statReq
  deriving DecidableEq, Repr

/-- The frame begins a request. -/
def ReqOp.Opens (op : ReqOp) : Prop := op ≠ .putData ∧ op ≠ .putEnd

instance : DecidablePred ReqOp.Opens := fun _ => inferInstanceAs (Decidable (_ ∧ _))

/-- The operations; `get` is `Get` or `GetFd`, `commit` is `PutBegin` to `Commit`, with the number
of data frames that are flushed. -/
inductive CallKind where
  | put (size : Nat)
  | get (size : Int)
  | getBatch (keys : Nat) (size : Int)
  | getFdBatch (keys : Nat) (size : Int)
  | putBatch (keys size : Nat)
  | putBatchKeys (keys size : Nat)
  | commit (frames : Nat)
  | delete
  | stat
  deriving DecidableEq, Repr

/-- Why a call ends before it has all its responses. -/
inductive Stop where
  /-- a write fails, or there is too little data. -/
  | write
  /-- a read fails (the deadline, the end of the stream), or a frame does not fit. -/
  | read
  /-- the server reports an error. -/
  | code
  deriving DecidableEq, Repr

/-- What a call makes of a frame. -/
inductive Verdict where
  | more
  | done
  | code (c : ErrCode)
  | bad
  deriving DecidableEq, Repr

/-- The frames of a Put with `n` data frames. -/
def putOps (n : Nat) : List ReqOp := .putHeader :: List.replicate n .putData ++ [.putEnd]

/-- The data frames of an object. -/
def dataFrames (size : Nat) : Nat := (size + (chunkSize.toNat - 1)) / chunkSize.toNat

/-- `MapCode` of an `OpResp`. -/
def judgeResp : ShmFrame → Verdict
  | .resp c => if c = .ok then .done else .code c
  | _ => .bad

/-- The `switch` of `Stat`. -/
def judgeStat : ShmFrame → Verdict
  | .statResp _ => .done
  | .resp c => if c = .ok then .done else .code c
  | _ => .bad

/-- The `switch` of `getEx`, `GetBatch` and `GetFdBatch`, after `got` bytes of `size`. -/
def judgeGet (size : Int) (got : Nat) : ShmFrame → Verdict
  | .get (.data p) => if (p.length : Int) > size - got then .bad else .more
  | .get (.final p) =>
    if (p.length : Int) > size - got then .bad
    else if (got : Int) + p.length = size then .done else .bad
  | .get (.err c) => .code c
  | .placeholder => .code .internal
  | .resp _ => .bad
  | .statResp _ => .bad

namespace CallKind

/-- How many requests the call sends. -/
def requests : CallKind → Nat
  | getBatch keys _ => keys
  | getFdBatch keys _ => keys
  | putBatch keys _ => keys
  | putBatchKeys keys _ => keys
  | _ => 1

/-- The frames of one request. -/
def ops : CallKind → List ReqOp
  | put size => putOps (dataFrames size)
  | get _ => [.getReq]
  | getBatch _ _ => [.getReq]
  | getFdBatch _ _ => [.getReq]
  | putBatch _ size => putOps (dataFrames size)
  | putBatchKeys _ size => putOps (dataFrames size)
  | commit frames => putOps frames
  | delete => [.delReq]
  | stat => [.statReq]

/-- What the call makes of a frame, after the frames `cur` of the same response. -/
def judge (k : CallKind) (cur : List ShmFrame) (f : ShmFrame) : Verdict :=
  match k with
  | get size => judgeGet size (cur.flatMap ShmFrame.bytes).length f
  | getBatch _ size => judgeGet size (cur.flatMap ShmFrame.bytes).length f
  | getFdBatch _ size => judgeGet size (cur.flatMap ShmFrame.bytes).length f
  | stat => judgeStat f
  | _ => judgeResp f

/-- Whether the call gives its stream back, or closes it, when it ends early. -/
def putsBack : CallKind → Stop → Bool
  | put _, _ => true
  | get _, .write => false
  | get _, _ => true
  | getBatch _ _, .write => false
  | getBatch _ _, _ => true
  | getFdBatch _ _, .write => false
  | getFdBatch _ _, _ => true
  | putBatch _ _, _ => false
  | putBatchKeys _ _, _ => false
  | commit _, _ => true
  | delete, _ => true
  | stat, _ => true

/-- The caller keeps the stream until it calls `release`. -/
def keeps : CallKind → Bool
  | get _ => true
  | getBatch _ _ => true
  | getFdBatch _ _ => true
  | _ => false

end CallKind

/-- How a call has ended. -/
inductive Outcome where
  | pending
  | returned
  | code (c : ErrCode)
  | failed
  deriving DecidableEq, Repr

/-- What has become of the stream of a call. -/
inductive Lease where
  | held
  | back
  | closed
  deriving DecidableEq, Repr

/-- A call: its stream, what it has to send (with the numbers of the requests), the responses it
has read in full, and the frames of the one it is reading.  What it returns is read off these. -/
structure Call where
  kind : CallKind
  stream : Nat
  unsent : List (Nat × ReqOp)
  got : List (List ShmFrame)
  cur : List ShmFrame
  outcome : Outcome
  lease : Lease

/-- The requests of a call, frame by frame. -/
def CallKind.frames (k : CallKind) : List (Nat × ReqOp) :=
  (List.range' 0 k.requests).flatMap (fun i => k.ops.map (fun op => (i, op)))

def Call.start (kind : CallKind) (stream : Nat) : Call :=
  ⟨kind, stream, kind.frames, [], [], .pending, .held⟩

/-! ## 2. The streams -/

/-- A request: its call, and its number in the call. -/
abbrev Tag := Nat × Nat

/-- A stream: the frames on their way to the server, the requests it has begun to read and not
answered, the frames on their way to the client, those that have arrived; whether the server
reads on, and whether the client sees the stream open. -/
structure Link where
  c2s : List (Tag × ReqOp)
  todo : List Tag
  s2c : List (Tag × ShmFrame)
  arrived : List (Tag × ShmFrame)
  serving : Bool
  isOpen : Bool

def Link.fresh : Link := ⟨[], [], [], [], true, true⟩

/-- The requests that begin in a list of frames. -/
def opening {α : Type} (fs : List (α × ReqOp)) : List α :=
  fs.filterMap (fun x => if x.2.Opens then some x.1 else none)

/-- Nothing more can arrive. -/
def Link.Idle (l : Link) : Prop := l.s2c = [] ∧ (l.serving = true → l.todo = [] ∧ opening l.c2s = [])

instance (l : Link) : Decidable l.Idle :=
  inferInstanceAs (Decidable (_ ∧ (_ → _ ∧ _)))

/-! ## 3. The client -/

/-- The connection: its streams, how many it has opened, the pool, the calls; and what the server
has written for each call. -/
structure Client where
  links : Nat → Link
  opened : Nat
  pool : List Nat
  calls : Nat → Option Call
  produced : Nat → List (Nat × ShmFrame)

/-- What a call does. -/
inductive CallAct where
  | send
  /-- the call ends before it has sent its requests. -/
  | abandon
  | read
  /-- the read of the call fails. -/
  | expire
  | release
  deriving DecidableEq, Repr

/-- What happens on a stream. -/
inductive LinkAct where
  /-- a frame arrives at the client. -/
  | deliver
  /-- the client sees that the server has closed the stream. -/
  | closed
  /-- the server reads a frame. -/
  | take
  /-- the server writes a frame. -/
  | emit (tag : Tag) (f : ShmFrame)
  /-- the handler of the stream ends. -/
  | hangUp
  deriving DecidableEq, Repr

inductive Action where
  /-- a call begins on a pooled stream, or on a new one. -/
  | start (c : Nat) (kind : CallKind) (stream : Option Nat)
  | call (c : Nat) (a : CallAct)
  | link (s : Nat) (a : LinkAct)
  deriving DecidableEq, Repr

namespace Client

def start : Client := ⟨fun _ => .fresh, 0, [], fun _ => none, fun _ => []⟩

def setLink (st : Client) (s : Nat) (l : Link) : Client :=
  { st with links := Function.update st.links s l }

def setCall (st : Client) (c : Nat) (call : Call) : Client :=
  { st with calls := Function.update st.calls c (some call) }

/-- `PutBack`, or `Close`. -/
def leave (st : Client) (c : Nat) (call : Call) (back : Bool) : Client :=
  let l := st.links call.stream
  if back = true ∧ l.isOpen = true ∧ l.arrived = [] then
    { st.setCall c { call with lease := .back } with pool := st.pool ++ [call.stream] }
  else (st.setCall c { call with lease := .closed }).setLink call.stream { l with isOpen := false }

/-- `GetStream`, and the call that needs it. -/
def begin (st : Client) (c : Nat) (kind : CallKind) (stream : Option Nat) : Option Client :=
  if (st.calls c).isSome then none
  else
    match stream with
    | none => some { st.setCall c (.start kind st.opened) with opened := st.opened + 1 }
    | some s =>
      if s ∈ st.pool ∧ (st.links s).isOpen = true then
        some { st.setCall c (.start kind s) with pool := st.pool.erase s }
      else none

/-- The call has read a frame. -/
def receive (st : Client) (c : Nat) (call : Call) (f : ShmFrame) : Client :=
  let whole := { call with got := call.got ++ [call.cur ++ [f]], cur := [] }
  match call.kind.judge call.cur f with
  | .more => st.setCall c { call with cur := call.cur ++ [f] }
  | .done =>
    if whole.got.length = call.kind.requests then
      if call.kind.keeps then st.setCall c { whole with outcome := .returned }
      else st.leave c { whole with outcome := .returned } true
    else st.setCall c whole
  | .code e => st.leave c { whole with outcome := .code e } (call.kind.putsBack .code)
  | .bad => st.leave c { call with cur := call.cur ++ [f], outcome := .failed }
      (call.kind.putsBack .read)

/-- A step of a call. -/
def callStep (st : Client) (c : Nat) (call : Call) : CallAct → Option Client
  | .send =>
    match call.unsent with
    | [] => none
    | x :: rest =>
      let l := st.links call.stream
      if call.outcome = .pending then
        some ((st.setCall c { call with unsent := rest }).setLink call.stream
          { l with c2s := l.c2s ++ [((c, x.1), x.2)] })
      else none
  | .abandon =>
    if call.outcome = .pending ∧ call.unsent ≠ [] then
      some (st.leave c { call with outcome := .failed } (call.kind.putsBack .write))
    else none
  | .read =>
    let l := st.links call.stream
    match l.arrived with
    | [] => none
    | x :: rest =>
      if call.outcome = .pending ∧ call.unsent = [] then
        some ((st.setLink call.stream { l with arrived := rest }).receive c call x.2)
      else none
  | .expire =>
    if call.outcome = .pending ∧ call.unsent = [] then
      some (st.leave c { call with outcome := .failed } (call.kind.putsBack .read))
    else none
  | .release =>
    if call.outcome = .returned ∧ call.lease = .held then some (st.leave c call true) else none

end Client

/-- A step on a stream. -/
def Link.step (l : Link) : LinkAct → Option Link
  | .deliver =>
    match l.s2c with
    | [] => none
    | x :: rest => some { l with s2c := rest, arrived := l.arrived ++ [x] }
  | .closed => if l.serving = false then some { l with isOpen := false } else none
  | .take =>
    match l.c2s with
    | [] => none
    | x :: rest =>
      if l.serving = true then
        some { l with c2s := rest, todo := if x.2.Opens then l.todo ++ [x.1] else l.todo }
      else none
  | .emit tag f =>
    if l.serving = true then
      some { l with
        s2c := l.s2c ++ [(tag, f)]
        todo := if f.Last then l.todo.erase tag else l.todo }
    else none
  | .hangUp => some { l with serving := false }

/-- What the server has written for call `c`, after a step on a stream. -/
def LinkAct.produces (produced : Nat → List (Nat × ShmFrame)) :
    LinkAct → Nat → List (Nat × ShmFrame)
  | .emit tag f => Function.update produced tag.1 (produced tag.1 ++ [(tag.2, f)])
  | _ => produced

namespace Client

/-- One step. -/
def step (st : Client) : Action → Option Client
  | .start c kind stream => st.begin c kind stream
  | .call c a => (st.calls c).bind (fun call => st.callStep c call a)
  | .link s a => ((st.links s).step a).map (fun l =>
      { st.setLink s l with produced := a.produces st.produced })

end Client

end ShmPool

end Taihu
