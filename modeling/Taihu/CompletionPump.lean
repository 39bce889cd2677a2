/-
# The completion pump

`internal/device/device.go`: `pump`, `Close`, `submitOne`, `submitOpN`, `SubmitReadAsync`, the
submit loop of `AppendBatch`, `ReadAtIntoBatch`, `batchWait`, `readJobsIndividually`.

Any number of callers submit IOs to a ring.  One goroutine, the pump, takes the completions of
the ring and gives each to the channel that is registered for its sequence number, or keeps it
until its submitter registers.  A critical section of `d.mu` is one step, as are a call of the
ring, the return of `ring.Wait`, a send and a receive.

What a caller does next depends on the results it has received: a batch repeats what has failed
for a moment, `ReadAtIntoBatch` falls back to single reads.  This is its program, a tree over two
operations: an IO that is submitted and waited for, and a batch.  The loops that only repeat an
operation (the queue of the ring is full) are part of the operation.

Of the ring the model has what it promises: the IOs it has accepted, under numbers of its own
choice that it has not used before, contiguous within a batch, are completed once each, in any
order, with any results; a submission that is refused has accepted nothing.
-/
import Taihu.Lib.SortedMap
import Taihu.Lib.Transition

namespace Taihu.CompletionPump

/-! ## 1. The programs of the callers -/

/-- `aio.Event`: the sequence number of the IO, and its result. -/
structure Event where
  data : Nat
  res : Int
  deriving DecidableEq, Repr

/-- How a batch ends: the device is closed; the ring has accepted nothing; or the events of what
it has accepted. -/
inductive Outcome where
  | closed
  | refused
  | served (evs : List Event)

/-- What a caller does.  `one`: a submission and its event, nothing if it fails.  `batch`: so many
IOs at once; with `retry` until the ring accepts some of them. -/
inductive Prog where
  | done
  | one (k : Option Event → Prog)
  | batch (len : Nat) (retry : Bool) (k : Outcome → Prog)

def complRetryMax : Nat := 8

/-- `retriableErrno`: `EAGAIN`, `EINTR`. -/
def retriableErrno (res : Int) : Bool := res = -11 ∨ res = -4

/-- `submitOpN`, with so many repetitions left. -/
def submitOpN (k : Option Event → Prog) : Nat → Prog
  | 0 => .one k
  | n + 1 => .one fun r =>
    match r with
    | none => k none
    | some ev => if retriableErrno ev.res then submitOpN k n else k (some ev)

/-- `submitOp`. -/
def submitOp (k : Option Event → Prog) : Prog := submitOpN k complRetryMax

/-- `SubmitReadAsync` and `Await`. -/
def readAsync : Prog :=
  .one fun r =>
    match r with
    | none => .done
    | some ev => if retriableErrno ev.res then submitOp (fun _ => .done) else .done

/-- `checkWrite`. -/
def checkWrite (ev : Event) (want : Int) : Bool := ev.res = want ∧ 0 ≤ ev.res

/-- The loop of `AppendBatch` over the events of a chunk; `failed` is `firstErr != nil`. -/
def checkChunk (k : Bool → Prog) : Bool → List (Int × Event) → Prog
  | failed, [] => k failed
  | true, _ :: rest => checkChunk k true rest
  | false, (len, ev) :: rest =>
    if retriableErrno ev.res then
      submitOp fun r =>
        match r with
        | none => checkChunk k true rest
        | some ev => checkChunk k (!checkWrite ev len) rest
    else checkChunk k (!checkWrite ev len) rest

/-- The submit loop of `AppendBatch`, over the lengths of what remains; every turn takes at least
one of them away. -/
def appendChunks : Nat → Bool → List Int → Prog
  | 0, _, _ => .done
  | _, _, [] => .done
  | fuel + 1, failed, len :: lens =>
    .batch (len :: lens).length true fun r =>
      match r with
      | .served evs =>
        checkChunk (fun failed => appendChunks fuel failed ((len :: lens).drop evs.length)) failed
          ((len :: lens).zip evs)
      | _ => .done

/-- `AppendBatch`, for the lengths of its writes. -/
def appendBatch (lens : List Int) : Prog := appendChunks lens.length false lens

/-- `ReadJob`: its size, and whether it meets the conditions of a direct read. -/
structure ReadJob where
  size : Int
  direct : Bool
  deriving DecidableEq, Repr

/-- Single reads, one after the other (`ReadAtInto`); a job that is not direct is an error. -/
def readJobsIndividually : List ReadJob → Prog
  | [] => .done
  | j :: js =>
    if j.size ≤ 0 then readJobsIndividually js
    else if j.direct then
      submitOp fun r =>
        match r with
        | none => .done
        | some ev => if ev.res < 0 then .done else readJobsIndividually js
    else .done

/-- The loop of `ReadAtIntoBatch` over the events of its batch. -/
def checkReads (k : Prog) : List Event → Prog
  | [] => k
  | ev :: evs =>
    if retriableErrno ev.res then
      submitOp fun r =>
        match r with
        | none => .done
        | some ev => if ev.res < 0 then .done else checkReads k evs
    else if ev.res < 0 then .done
    else checkReads k evs

/-- `ReadAtIntoBatch`. -/
def readAtIntoBatch (jobs : List ReadJob) : Prog :=
  let specs0 := jobs.filter (·.direct)
  if specs0 = [] then readJobsIndividually jobs
  else
    .batch specs0.length false fun r =>
      match r with
      | .closed => .done
      | .refused => readJobsIndividually jobs
      | .served evs =>
        -- behind the batch: first the jobs that are not direct, then those it has not taken
        checkReads (readJobsIndividually (jobs.filter (fun j => !j.direct) ++
          specs0.drop evs.length)) evs

/-- A call of the device. -/
inductive Call where
  | submitOp
  | readAsync
  | appendBatch (lens : List Int)
  | readAtIntoBatch (jobs : List ReadJob)

def Call.prog : Call → Prog
  | .submitOp => CompletionPump.submitOp (fun _ => .done)
  | .readAsync => CompletionPump.readAsync
  | .appendBatch lens => CompletionPump.appendBatch lens
  | .readAtIntoBatch jobs => CompletionPump.readAtIntoBatch jobs

/-! ## 2. The device -/

/-- `submitOne`: `inSubmit` is raised; the ring has refused; it has accepted IO `s`; the event was
kept and is on its way to the channel `ch`; and the receive from the channel, which may have its
event. -/
inductive OnePhase where
  | submitting
  | refused (full : Bool)
  | accepted (s : Nat)
  | handing (s ch : Nat) (ev : Event)
  | waiting (s ch : Nat) (buf : Option Event)

/-- A batch: `inSubmit` is raised; the ring has refused; `batchWait`, with the IOs it has still to
register and the events it has; its receive; and its return because the pump is gone. -/
inductive BatchPhase where
  | submitting
  | refused
  | collecting (todo : List Nat) (evs : List Event)
  | waiting (s ch : Nat) (buf : Option Event) (todo : List Nat) (evs : List Event)
  | abandoned

inductive Phase where
  | ready (p : Prog)
  | one (k : Option Event → Prog) (ph : OnePhase)
  | batch (len : Nat) (retry : Bool) (k : Outcome → Prog) (ph : BatchPhase)

/-- A caller, and the events it has received. -/
structure Caller where
  phase : Phase
  got : List Event

/-- The pump: in `ring.Wait`; with events to be dispatched; about to send one to a channel; and
gone. -/
inductive Pump where
  | idle
  | holding (evs : List Event)
  | sending (ch : Nat) (ev : Event) (rest : List Event)
  | exited
  deriving DecidableEq, Repr

/-- `Device`, and the ring: `inflight` are the IOs it has yet to complete; `accepted`, with their
submitters, and `completed` are its history.  `made` is how many channels there are. -/
structure Device where
  closed : Bool
  inSubmit : Int
  m : SortedMap Nat Nat
  pending : SortedMap Nat Event
  pump : Pump
  made : Nat
  inflight : List Nat
  accepted : List (Nat × Nat)
  completed : List Event
  callers : List Caller
  destroyed : Bool

/-- `NewDevice`, and its callers before their first step. -/
def Device.start (calls : List Call) : Device where
  closed := false
  inSubmit := 0
  m := .empty
  pending := .empty
  pump := .idle
  made := 0
  inflight := []
  accepted := []
  completed := []
  callers := calls.map fun c => ⟨.ready c.prog, []⟩
  destroyed := false

/-- What the ring says to a submission. -/
inductive Answer where
  | accept (first n : Nat)
  | refuse (full : Bool)
  deriving DecidableEq, Repr

namespace Caller

/-- A send to channel `ch`. -/
def deliver (ch : Nat) (ev : Event) (c : Caller) : Caller :=
  match c.phase with
  | .one k (.waiting s ch' none) =>
    if ch' = ch then { c with phase := .one k (.waiting s ch' (some ev)) } else c
  | .batch len retry k (.waiting s ch' none todo evs) =>
    if ch' = ch then
      { c with phase := .batch len retry k (.waiting s ch' (some ev) todo evs) } else c
  | _ => c

end Caller

namespace Device

/-- The next step of a caller, where it does not wait for another party. -/
def go (d : Device) (c : Caller) : Option (Device × Caller) :=
  match c.phase with
  | .ready .done => none
  | .ready (.one k) =>
    if d.closed then some (d, { c with phase := .ready (k none) })
    else some ({ d with inSubmit := d.inSubmit + 1 }, { c with phase := .one k .submitting })
  | .ready (.batch len retry k) =>
    if d.closed then some (d, { c with phase := .ready (k .closed) })
    else some ({ d with inSubmit := d.inSubmit + len },
      { c with phase := .batch len retry k .submitting })
  | .one _ .submitting => none
  | .one k (.refused full) =>
    some ({ d with inSubmit := d.inSubmit - 1 },
      { c with phase := .ready (if full then .one k else k none) })
  | .one k (.accepted s) =>
    match d.pending.find? s with
    | some ev =>
      some ({ d with inSubmit := d.inSubmit - 1, pending := d.pending.erase s, made := d.made + 1 },
        { c with phase := .one k (.handing s d.made ev) })
    | none =>
      some ({ d with inSubmit := d.inSubmit - 1, m := d.m.insert s d.made, made := d.made + 1 },
        { c with phase := .one k (.waiting s d.made none) })
  | .one k (.handing s ch ev) => some (d, { c with phase := .one k (.waiting s ch (some ev)) })
  | .one _ (.waiting _ _ none) => none
  | .one k (.waiting _ _ (some ev)) =>
    some (d, { phase := .ready (k (some ev)), got := c.got ++ [ev] })
  | .batch _ _ _ .submitting => none
  | .batch len retry k .refused =>
    some ({ d with inSubmit := d.inSubmit - len },
      { c with phase := .ready (if retry then .batch len retry k else k .refused) })
  | .batch len _ k (.collecting [] evs) =>
    some ({ d with inSubmit := d.inSubmit - len }, { c with phase := .ready (k (.served evs)) })
  | .batch len retry k (.collecting (s :: todo) evs) =>
    match d.pending.find? s with
    | some ev =>
      some ({ d with pending := d.pending.erase s, made := d.made + 1 },
        { phase := .batch len retry k (.collecting todo (evs ++ [ev])), got := c.got ++ [ev] })
    | none =>
      some ({ d with m := d.m.insert s d.made, made := d.made + 1 },
        { c with phase := .batch len retry k (.waiting s d.made none todo evs) })
  | .batch _ _ _ (.waiting _ _ none _ _) => none
  | .batch len retry k (.waiting _ _ (some ev) todo evs) =>
    some (d, { phase := .batch len retry k (.collecting todo (evs ++ [ev])), got := c.got ++ [ev] })
  | .batch len _ k .abandoned =>
    some ({ d with inSubmit := d.inSubmit - len }, { c with phase := .ready (k .closed) })

/-- The ring accepts `n` IOs of caller `i`, under numbers it has not used. -/
def accept (d : Device) (i first n : Nat) : Option Device :=
  if ∀ s ∈ List.range' first n, s ∉ d.accepted.map Prod.fst then
    some { d with
      inflight := d.inflight ++ List.range' first n
      accepted := d.accepted ++ (List.range' first n).map (fun s => (s, i)) }
  else none

/-- The ring answers caller `i`. -/
def answer (d : Device) (i : Nat) (c : Caller) (r : Answer) : Option (Device × Caller) :=
  match c.phase, r with
  | .one k .submitting, .accept first n =>
    if n = 1 then
      (d.accept i first 1).map (fun d => (d, { c with phase := .one k (.accepted first) }))
    else none
  | .one k .submitting, .refuse full => some (d, { c with phase := .one k (.refused full) })
  | .batch len retry k .submitting, .accept first n =>
    if 0 < n ∧ n ≤ len then
      (d.accept i first n).map (fun d =>
        (d, { c with phase := .batch len retry k (.collecting (List.range' first n) []) }))
    else none
  | .batch len retry k .submitting, .refuse _ =>
    some (d, { c with phase := .batch len retry k .refused })
  | _, _ => none

/-- `batchWait` finds `pumpDone` closed. -/
def giveUp (d : Device) (c : Caller) : Option (Device × Caller) :=
  match c.phase with
  | .batch len retry k (.waiting s _ _ _ _) =>
    if d.pump = .exited then
      some ({ d with m := d.m.erase s }, { c with phase := .batch len retry k .abandoned })
    else none
  | _ => none

/-- `ring.Wait` returns. -/
def wait (d : Device) (evs : List Event) : Option Device :=
  if d.pump = .idle ∧ evs.length ≤ 64 ∧ (evs.map Event.data).Nodup ∧
      ∀ ev ∈ evs, ev.data ∈ d.inflight then
    some { d with
      pump := .holding evs
      inflight := d.inflight.filter (fun s => s ∉ evs.map Event.data)
      completed := d.completed ++ evs }
  else none

/-- The next step of the pump: one event is dispatched, or sent; behind the last one is the test
for its end. -/
def pumpStep (d : Device) : Option Device :=
  match d.pump with
  | .idle => none
  | .holding [] =>
    if d.closed ∧ d.m.keys = [] ∧ d.inSubmit = 0 then some { d with pump := .exited }
    else some { d with pump := .idle }
  | .holding (ev :: rest) =>
    match d.m.find? ev.data with
    | some ch => some { d with m := d.m.erase ev.data, pump := .sending ch ev rest }
    | none => some { d with pending := d.pending.insert ev.data ev, pump := .holding rest }
  | .sending ch ev rest =>
    some { d with callers := d.callers.map (Caller.deliver ch ev), pump := .holding rest }
  | .exited => none

end Device

/-- A step: of a caller, of the ring for a caller, of a caller that gives up; of the ring, of the
pump; and the two halves of `Close`. -/
inductive Action where
  | go (i : Nat)
  | answer (i : Nat) (r : Answer)
  | giveUp (i : Nat)
  | wait (evs : List Event)
  | pump
  | close
  | destroy
  deriving DecidableEq, Repr

namespace Device

/-- A step that changes the device and caller `i`. -/
def atCaller (d : Device) (i : Nat) (f : Caller → Option (Device × Caller)) : Option Device :=
  (d.callers[i]?.bind f).map (fun r => { r.1 with callers := r.1.callers.set i r.2 })

def step (d : Device) : Action → Option Device
  | .go i => d.atCaller i d.go
  | .answer i r => d.atCaller i (fun c => d.answer i c r)
  | .giveUp i => d.atCaller i d.giveUp
  | .wait evs => d.wait evs
  | .pump => d.pumpStep
  | .close => if d.closed then none else some { d with closed := true }
  | .destroy =>
    if d.closed ∧ d.pump = .exited ∧ d.destroyed = false then some { d with destroyed := true }
    else none

end Device

end Taihu.CompletionPump
