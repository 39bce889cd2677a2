/-
# How long the slices of a shared memory stream are used

`internal/transport/server_shm_linux.go` (`handleStream`, `drainCompleted`, `drainAll`,
`awaitPending`, `handleShmPut`, `trySubmitAsyncGet`, `handleShmGet`, `handleShmDelete`,
`handleShmStat`) and `shmReadFrame`, as far as they touch the read buffer.

`shmReadFrame` returns a slice of the buffer, and `ReleasePreviousRead` takes back every slice
that has been returned.  The module keeps the order of these calls, of the parsing of payloads,
and of the moments between which the writer of the device has the data slices of a Put: from the
submission of its task, or of one append, until its result has been received.  How each call ends
is part of the turn (`Turn`).

Two things are said of a run.  The slices that the writer has are never released (`Pinned`), in
every run.  And a slice is parsed or handed over before it is released (`Fresh`) in exactly the
runs in which no turn drains the queue between reading a request and parsing it.
-/
import Taihu.Lib.Transition

namespace Taihu.ShmPayloads

/-! ## 1. The log of a stream -/

/-- A slice is read; all slices are released; a payload is parsed; the writer gets the slices of
a task, and is done with them. -/
inductive Event where
  | read (s : Nat)
  | release
  | parse (s : Nat)
  | handed (ss : List Nat)
  | written (ss : List Nat)
  deriving DecidableEq, Repr

/-- The slices whose bytes are looked at from this moment on. -/
def Event.uses : Event → List Nat
  | .parse s => [s]
  | .handed ss => ss
  | _ => []

/-- The slice has been released. -/
def Released (l : List Event) (s : Nat) : Prop :=
  ∃ l1 l2, l = l1 ++ .release :: l2 ∧ .read s ∈ l1

/-- What an event does to the tasks that the writer has. -/
def heldStep (ts : List (List Nat)) : Event → List (List Nat)
  | .handed ss => ts ++ [ss]
  | .written ss => ts.erase ss
  | _ => ts

/-- The tasks that the writer has, by their slices. -/
def held (l : List Event) : List (List Nat) := l.foldl heldStep []

/-- **The slices that the writer has are not released.** -/
def Pinned (l : List Event) : Prop := ∀ l1 l2, l = l1 ++ .release :: l2 → held l1 = []

/-- **A slice is parsed, or handed to the writer, before it is released.** -/
def Fresh (l : List Event) : Prop :=
  ∀ l1 e l2, l = l1 ++ e :: l2 → ∀ s ∈ e.uses, ¬ Released l1 s

/-! ## 2. The loop -/

structure Config where
  inflight : Int
  writer : Bool
  batched : Bool
  maxObjectSize : Int

/-- Puts are queued and answered later. -/
def Config.AsyncPut (cfg : Config) : Prop := 0 < cfg.inflight ∧ cfg.writer = true

/-- Gets may be queued. -/
def Config.AsyncGet (cfg : Config) : Prop := 0 < cfg.inflight ∧ cfg.batched = false

instance (cfg : Config) : Decidable cfg.AsyncPut := inferInstanceAs (Decidable (_ ∧ _))

instance (cfg : Config) : Decidable cfg.AsyncGet := inferInstanceAs (Decidable (_ ∧ _))

/-- `pendingOp`: a Get, and whether it is done; a Put with the slices of its task, `none` when it
is done. -/
inductive PendingOp where
  | get (done : Bool)
  | put (task : Option (List Nat))
  deriving DecidableEq, Repr

namespace PendingOp

/-- `done`. -/
def isDone : PendingOp → Bool
  | get done => done
  | put task => task.isNone

/-- The task of which the writer still has the slices. -/
def tasks : PendingOp → List (List Nat)
  | get _ => []
  | put task => task.toList

/-- `awaitPending`. -/
def await (p : PendingOp) : List Event := p.tasks.map Event.written

/-- The item after it. -/
def settled : PendingOp → PendingOp
  | get _ => get true
  | put _ => put none

end PendingOp

/-- How a `drainAll` ends: whether each `fillPendingResp` succeeds, and the flush. -/
structure Drain where
  fill : Nat → Bool
  flush : Bool

/-- The loop of `drainAll`: its events, the queue, and whether it comes to its end. -/
def awaitAll (fill : Nat → Bool) : Nat → List PendingOp → List Event × List PendingOp × Bool
  | _, [] => ([], [], true)
  | i, p :: ps =>
    if fill i then
      let r := awaitAll fill (i + 1) ps
      (p.await ++ r.1, p.settled :: r.2.1, r.2.2)
    else (p.await, p.settled :: ps, false)

/-- The frames behind the header of a Put. -/
inductive PutFrame where
  | data (len : Nat)
  | last
  | other
  deriving DecidableEq, Repr

/-- A Put: the size in its header (`none`: it does not parse), whether `PutBegin` and the
`PutCommit` of an empty object succeed, the frames that `shmReadFrame` returns (an error behind
them), which appends succeed, and whether the response is written. -/
structure PutRequest where
  size : Option Int
  begun : Bool
  committed : Bool
  frames : List PutFrame
  appended : Nat → Bool
  answered : Bool

/-- A request.  `queued` is what `trySubmitAsyncGet` makes of a Get, if it can: the item, done or
not; `answered` is whether the handler returns nil. -/
inductive Request where
  | put (p : PutRequest)
  | get (queued : Option Bool) (answered : Bool)
  | del (answered : Bool)
  | stat (answered : Bool)
  | other

/-- One turn of the loop: how `drainCompleted` ends, how the drains of the second and the third
rule would, whether nothing of a further request has arrived, what `shmReadFrame` returns, and
how the drain inside the `switch` would end. -/
structure Turn where
  completed : Bool
  limit : Drain
  idle : Bool
  wait : Drain
  request : Option Request
  inner : Drain

/-- The handler of one stream: its log, its queue, how many slices it has read, and whether
`err == nil`. -/
structure Stream where
  log : List Event
  pend : List PendingOp
  reads : Nat
  isOpen : Bool

namespace Stream

def start : Stream := ⟨[], [], 0, true⟩

def emit (h : Stream) (evs : List Event) : Stream := { h with log := h.log ++ evs }

def close (h : Stream) : Stream := { h with isOpen := false }

/-- The flush of a whole queue, and the release behind it. -/
def flushed (h : Stream) : Stream := { h.emit [.release] with pend := [] }

/-- `drainCompleted`. -/
def drainCompleted (completed : Bool) (h : Stream) : Stream :=
  if completed = false then h.close
  else if h.pend.all PendingOp.isDone then h.flushed
  else h

/-- `drainAll`. -/
def drainAll (d : Drain) (h : Stream) : Stream :=
  let r := awaitAll d.fill 0 h.pend
  let h := { h.emit r.1 with pend := r.2.1 }
  if r.2.2 ∧ d.flush then h.flushed else h.close

/-- The three rules at the head of the loop. -/
def settle (cfg : Config) (t : Turn) (h : Stream) : Stream :=
  let h := h.drainCompleted t.completed
  let h := if h.isOpen ∧ 0 < cfg.inflight ∧ (h.pend.length : Int) ≥ cfg.inflight then
    h.drainAll t.limit else h
  if h.isOpen ∧ h.pend ≠ [] ∧ t.idle then h.drainAll t.wait else h

/-- `shmReadFrame` returns a slice. -/
def readFrame (h : Stream) : Stream := { h.emit [.read h.reads] with reads := h.reads + 1 }

/-- The frame loop of `handleShmPut`: the slices of a whole object, or `none` where the Put is
refused or the stream ends. -/
def readFrames (size : Int) : Int → List Nat → List PutFrame → Stream → Stream × Option (List Nat)
  | _, _, [], h => (h, none)
  | pos, ss, f :: fs, h =>
    match f with
    | .data len =>
      if pos + len > size then (h.readFrame, none)
      else readFrames size (pos + len) (ss ++ [h.reads]) fs h.readFrame
    | .last => (h.readFrame, if pos ≠ size then none else some ss)
    | .other => (h.readFrame, none)

/-- `PutAppend` for each slice, up to the first error. -/
def appendAll (appended : Nat → Bool) : Nat → List Nat → List Event
  | _, [] => []
  | i, s :: ss =>
    [.handed [s], .written [s]] ++ if appended i then appendAll appended (i + 1) ss else []

/-- The response of a handler: its error ends the loop. -/
def answer (answered : Bool) (h : Stream) : Stream := if answered then h else h.close

/-- A Put joins the queue. -/
def queue (p : PendingOp) (h : Stream) : Stream := { h with pend := h.pend ++ [p] }

/-- `handleShmPut`, for the header in slice `s`. -/
def handleShmPut (cfg : Config) (p : PutRequest) (s : Nat) (h : Stream) : Stream :=
  let h := h.emit [.parse s]
  match p.size with
  | none => h.close
  | some size =>
    if size < 0 then h.close
    else if size > cfg.maxObjectSize then h.close
    else if p.begun = false then h.close
    else if size = 0 then
      match p.frames with
      | [] => h.close
      | f :: _ =>
        let h := h.readFrame
        if f ≠ .last then h.close
        else if p.committed = false then h.close
        else if cfg.AsyncPut then h.queue (.put none)
        else h.answer p.answered
    else
      match readFrames size 0 [] p.frames h with
      | (h, none) => h.close
      | (h, some ss) =>
        if cfg.AsyncPut then (h.emit [.handed ss]).queue (.put (some ss))
        else if cfg.writer then (h.emit [.handed ss, .written ss]).answer p.answered
        else (h.emit (appendAll p.appended 0 ss)).answer p.answered

/-- A handler that parses slice `s` and answers. -/
def parseAndAnswer (s : Nat) (answered : Bool) (h : Stream) : Stream :=
  (h.emit [.parse s]).answer answered

/-- The `switch` of the loop, for the payload in slice `s`. -/
def switch (cfg : Config) (inner : Drain) (s : Nat) (h : Stream) : Request → Stream
  | .put p =>
    if cfg.AsyncPut then h.handleShmPut cfg p s
    else
      let h := h.drainAll inner
      if h.isOpen then h.handleShmPut cfg p s else h
  | .get queued answered =>
    if cfg.AsyncGet then
      let h := h.emit [.parse s]
      match queued with
      | some done => h.queue (.get done)
      | none =>
        let h := h.drainAll inner
        if h.isOpen then h.parseAndAnswer s answered else h
    else h.parseAndAnswer s answered
  | .del answered =>
    let h := h.drainAll inner
    if h.isOpen then h.parseAndAnswer s answered else h
  | .stat answered =>
    let h := h.drainAll inner
    if h.isOpen then h.parseAndAnswer s answered else h
  | .other => h.close

/-- What follows the `switch`. -/
def releaseIdle (h : Stream) : Stream := if h.pend = [] then h.emit [.release] else h

/-- One turn of the loop. -/
def turn (cfg : Config) (h : Stream) (t : Turn) : Stream :=
  if h.isOpen then
    let h := h.settle cfg t
    if h.isOpen then
      match t.request with
      | none => h.close
      | some r => (h.readFrame.switch cfg t.inner h.reads r).releaseIdle
    else h
  else h

/-- The loop. -/
def loop (cfg : Config) (ts : List Turn) : Stream := ts.foldl (turn cfg) start

/-- `handleStream`.  A loop that is `stopped`, because the server closes, returns at once; any
other waits for what is in flight. -/
def handleStream (cfg : Config) (ts : List Turn) (stopped : Bool) : List Event :=
  let h := loop cfg ts
  if stopped then h.log else h.log ++ (h.pend.filter (fun p => !p.isDone)).flatMap PendingOp.await

end Stream

/-! ## 3. Logs -/

section Logs

variable {l l' : List Event} {s : Nat}

theorem held_append (l l' : List Event) : held (l ++ l') = l'.foldl heldStep (held l) :=
  List.foldl_append

/-- A split of a log that goes on, at an event of the old part or of the new. -/
theorem split_append {e : Event} {l1 l2 : List Event} (h : l ++ l' = l1 ++ e :: l2) :
    (∃ l3, l = l1 ++ e :: l3) ∨ ∃ l3, l1 = l ++ l3 ∧ l' = l3 ++ e :: l2 := by
  rcases List.append_eq_append_iff.mp h with ⟨as, hl1, hl'⟩ | ⟨bs, hl, hbs⟩
  · exact .inr ⟨as, hl1, hl'⟩
  · cases bs with
    | nil =>
      rw [List.append_nil] at hl
      exact .inr ⟨[], by rw [hl, List.append_nil], hbs.symm⟩
    | cons b bs =>
      obtain ⟨rfl, -⟩ := List.cons.inj hbs
      exact .inl ⟨bs, hl⟩

theorem Pinned.append (h : Pinned l) (hnew : .release ∉ l') : Pinned (l ++ l') := by
  intro l1 l2 hsplit
  rcases split_append hsplit with ⟨l3, hl⟩ | ⟨l3, -, hl'⟩
  · exact h l1 l3 hl
  · exact absurd (hl' ▸ List.mem_append_right _ List.mem_cons_self) hnew

theorem Pinned.release (h : Pinned l) (hheld : held l = []) : Pinned (l ++ [.release]) := by
  intro l1 l2 hsplit
  rcases split_append hsplit with ⟨l3, hl⟩ | ⟨l3, rfl, hl'⟩
  · exact h l1 l3 hl
  · cases l3 with
    | nil => rwa [List.append_nil]
    | cons e l3 => cases l3 <;> cases hl'

theorem Fresh.of_append (h : Fresh (l ++ l')) : Fresh l := by
  rintro l1 e l2 rfl
  exact h l1 e (l2 ++ l') (by rw [List.append_assoc]; rfl)

theorem Fresh.of_isPrefix (h : Fresh l') (hp : l <+: l') : Fresh l := by
  obtain ⟨l'', rfl⟩ := hp
  exact h.of_append

theorem Released.append (h : Released l s) (l' : List Event) : Released (l ++ l') s := by
  obtain ⟨l1, l2, rfl, hread⟩ := h
  exact ⟨l1, l2 ++ l', by rw [List.append_assoc]; rfl, hread⟩

theorem Released.mem (h : Released l s) : .read s ∈ l := by
  obtain ⟨l1, l2, rfl, hread⟩ := h
  exact List.mem_append_left _ hread

theorem released_append_iff (hnew : .release ∉ l') : Released (l ++ l') s ↔ Released l s := by
  refine ⟨?_, fun h => h.append l'⟩
  rintro ⟨l1, l2, hsplit, hread⟩
  rcases split_append hsplit with ⟨l3, hl⟩ | ⟨l3, -, hl'⟩
  · exact ⟨l1, l3, hl, hread⟩
  · exact absurd (hl' ▸ List.mem_append_right _ List.mem_cons_self) hnew

theorem released_of_release (h : .read s ∈ l) (l' : List Event) :
    Released (l ++ .release :: l') s := ⟨l, l', rfl, h⟩

theorem Fresh.append (h : Fresh l) (hnew : .release ∉ l')
    (huses : ∀ e ∈ l', ∀ s ∈ e.uses, ¬ Released l s) : Fresh (l ++ l') := by
  intro l1 e l2 hsplit s hs
  rcases split_append hsplit with ⟨l3, hl⟩ | ⟨l3, rfl, hl'⟩
  · exact h l1 e l3 hl s hs
  · have hl3 : .release ∉ l3 := fun hmem => hnew (hl' ▸ List.mem_append_left _ hmem)
    rw [released_append_iff hl3]
    exact huses e (hl' ▸ List.mem_append_right _ List.mem_cons_self) s hs

theorem Fresh.release (h : Fresh l) : Fresh (l ++ [.release]) := by
  intro l1 e l2 hsplit s hs
  rcases split_append hsplit with ⟨l3, hl⟩ | ⟨l3, rfl, hl'⟩
  · exact h l1 e l3 hl s hs
  · cases l3 with
    | nil =>
      cases hl'
      cases hs
    | cons e' l3 => cases l3 <;> cases hl'

/-- A payload that is parsed after its release. -/
theorem not_fresh_of_parse (h : Released l s) (l' : List Event) :
    ¬ Fresh (l ++ .parse s :: l') :=
  fun hf => hf l (.parse s) l' rfl s List.mem_cons_self h

end Logs

/-! ## 4. What the writer has -/

namespace PendingOp

@[simp] theorem tasks_settled (p : PendingOp) : p.settled.tasks = [] := by
  cases p <;> rfl

theorem tasks_of_isDone {p : PendingOp} (h : p.isDone = true) : p.tasks = [] := by
  rcases p with done | _ | ss
  · rfl
  · rfl
  · cases h

/-- An item that has been waited for is no longer held. -/
theorem held_await (p : PendingOp) (ts : List (List Nat)) :
    p.await.foldl heldStep (p.tasks ++ ts) = ts := by
  rcases p with done | _ | ss
  · rfl
  · rfl
  · exact List.erase_cons_head ss ts

theorem mem_await {p : PendingOp} {e : Event} (h : e ∈ p.await) : ∃ ss, e = .written ss := by
  obtain ⟨ss, -, rfl⟩ := List.mem_map.mp h
  exact ⟨ss, rfl⟩

end PendingOp

/-- The events of a drain are the ends of writes. -/
theorem mem_awaitAll {fill : Nat → Bool} {i : Nat} {ps : List PendingOp} {e : Event}
    (h : e ∈ (awaitAll fill i ps).1) : ∃ ss, e = .written ss := by
  induction ps generalizing i with
  | nil => cases h
  | cons p ps ih =>
    unfold awaitAll at h
    split at h
    · rcases List.mem_append.mp h with h | h
      · exact PendingOp.mem_await h
      · exact ih h
    · exact PendingOp.mem_await h

/-- A drain takes from the writer what it takes out of the queue. -/
theorem held_awaitAll (fill : Nat → Bool) (i : Nat) (ps : List PendingOp) :
    (awaitAll fill i ps).1.foldl heldStep (ps.flatMap PendingOp.tasks) =
      (awaitAll fill i ps).2.1.flatMap PendingOp.tasks := by
  induction ps generalizing i with
  | nil => rfl
  | cons p ps ih =>
    unfold awaitAll
    rw [List.flatMap_cons]
    split
    · simp only
      rw [List.foldl_append, p.held_await, ih, List.flatMap_cons, p.tasks_settled, List.nil_append]
    · simp only
      rw [p.held_await, List.flatMap_cons, p.tasks_settled, List.nil_append]

/-- A drain that comes to its end has waited for all. -/
theorem awaitAll_ok_iff {fill : Nat → Bool} {i : Nat} {ps : List PendingOp} :
    (awaitAll fill i ps).2.2 = true ↔ ∀ k < ps.length, fill (i + k) = true := by
  induction ps generalizing i with
  | nil => exact ⟨fun _ k hk => absurd hk (Nat.not_lt_zero k), fun _ => rfl⟩
  | cons p ps ih =>
    unfold awaitAll
    by_cases hi : fill i = true
    · rw [if_pos hi]
      simp only
      rw [ih]
      constructor
      · intro h k hk
        cases k with
        | zero => exact hi
        | succ k =>
          have := h k (Nat.lt_of_succ_lt_succ hk)
          rwa [Nat.add_assoc, Nat.add_comm 1] at this
      · intro h k hk
        have := h (k + 1) (Nat.succ_lt_succ hk)
        rwa [Nat.add_assoc, Nat.add_comm 1]
    · rw [if_neg hi]
      exact ⟨fun h => (nomatch h), fun h => absurd (h 0 (Nat.succ_pos _)) hi⟩

theorem tasks_awaitAll_ok {fill : Nat → Bool} {i : Nat} {ps : List PendingOp}
    (h : (awaitAll fill i ps).2.2 = true) :
    (awaitAll fill i ps).2.1.flatMap PendingOp.tasks = [] := by
  induction ps generalizing i with
  | nil => rfl
  | cons p ps ih =>
    unfold awaitAll at h ⊢
    split at h
    · rename_i hi
      rw [if_pos hi]
      simp only at h ⊢
      rw [List.flatMap_cons, p.tasks_settled, ih h, List.nil_append]
    · cases h

/-- **What the writer has is what the queue says**, and it has never been released. -/
structure Stream.Holds (h : Stream) : Prop where
  pinned : Pinned h.log
  held_eq : held h.log = h.pend.flatMap PendingOp.tasks

namespace Stream

variable {cfg : Config} {h : Stream}

theorem holds_start : start.Holds where
  pinned := by
    intro l1 l2 hsplit
    cases l1 <;> cases hsplit
  held_eq := rfl

theorem Holds.close (hh : h.Holds) : h.close.Holds := ⟨hh.pinned, hh.held_eq⟩

/-- Events that release nothing and leave the writer with what it has. -/
theorem Holds.emit (hh : h.Holds) (evs : List Event) (hnew : .release ∉ evs)
    (hheld : evs.foldl heldStep (h.pend.flatMap PendingOp.tasks) =
      h.pend.flatMap PendingOp.tasks) : (h.emit evs).Holds where
  pinned := hh.pinned.append hnew
  held_eq := by
    show held (h.log ++ evs) = _
    rw [held_append, hh.held_eq]
    exact hheld

theorem Holds.parse (hh : h.Holds) (s : Nat) : (h.emit [.parse s]).Holds :=
  hh.emit _ (by simp) rfl

theorem Holds.readFrame (hh : h.Holds) : h.readFrame.Holds := by
  have he := hh.emit [.read h.reads] (by simp) rfl
  exact ⟨he.pinned, he.held_eq⟩

theorem Holds.flushed (hpinned : Pinned h.log) (hheld : held h.log = []) : h.flushed.Holds where
  pinned := hpinned.release hheld
  held_eq := by
    show held (h.log ++ [.release]) = []
    rw [held_append, hheld]
    rfl

theorem Holds.drainCompleted (hh : h.Holds) (completed : Bool) :
    (h.drainCompleted completed).Holds := by
  unfold Stream.drainCompleted
  split
  · exact hh.close
  split
  · rename_i hall
    refine .flushed hh.pinned ?_
    rw [hh.held_eq, List.flatMap_eq_nil_iff]
    exact fun p hp => PendingOp.tasks_of_isDone (List.all_eq_true.mp hall p hp)
  · exact hh

theorem Holds.drainAll (hh : h.Holds) (d : Drain) : (h.drainAll d).Holds := by
  have hnew : .release ∉ (awaitAll d.fill 0 h.pend).1 := by
    intro hmem
    obtain ⟨ss, hss⟩ := mem_awaitAll hmem
    cases hss
  have hpinned : Pinned (h.log ++ (awaitAll d.fill 0 h.pend).1) := hh.pinned.append hnew
  have hheld : held (h.log ++ (awaitAll d.fill 0 h.pend).1) =
      (awaitAll d.fill 0 h.pend).2.1.flatMap PendingOp.tasks := by
    rw [held_append, hh.held_eq, held_awaitAll]
  unfold Stream.drainAll
  simp only
  split
  · rename_i hok
    exact .flushed hpinned (hheld.trans (tasks_awaitAll_ok hok.1))
  · exact ⟨hpinned, hheld⟩

/-- A drain that leaves the loop running has emptied the queue. -/
theorem pend_drainAll {d : Drain} (hopen : (h.drainAll d).isOpen = true) :
    (h.drainAll d).pend = [] := by
  unfold Stream.drainAll at hopen ⊢
  simp only at hopen ⊢
  split
  · rfl
  · rename_i hfail
    rw [if_neg hfail] at hopen
    cases hopen

theorem Holds.drainIf (hh : h.Holds) (d : Drain) (c : Prop) [Decidable c] :
    (if c then h.drainAll d else h).Holds := by
  split
  · exact hh.drainAll d
  · exact hh

theorem Holds.settle (hh : h.Holds) (t : Turn) : (h.settle cfg t).Holds :=
  ((hh.drainCompleted t.completed).drainIf t.limit _).drainIf t.wait _

/-- Reading the frames of a Put changes neither the queue nor what the writer has. -/
theorem holds_readFrames (size pos : Int) (ss : List Nat) (fs : List PutFrame) (h : Stream)
    (hh : h.Holds) : (readFrames size pos ss fs h).1.Holds ∧
      (readFrames size pos ss fs h).1.pend = h.pend := by
  induction fs generalizing pos ss h with
  | nil => exact ⟨hh, rfl⟩
  | cons f fs ih =>
    cases f with
    | data len =>
      unfold readFrames
      simp only
      split
      · exact ⟨hh.readFrame, rfl⟩
      · exact ih (pos + len) _ h.readFrame hh.readFrame
    | last => exact ⟨hh.readFrame, rfl⟩
    | other => exact ⟨hh.readFrame, rfl⟩

theorem held_appendAll (appended : Nat → Bool) (i : Nat) (ss : List Nat) :
    .release ∉ appendAll appended i ss ∧ (appendAll appended i ss).foldl heldStep [] = [] := by
  induction ss generalizing i with
  | nil => exact ⟨List.not_mem_nil, rfl⟩
  | cons s ss ih =>
    have hfirst : ([.handed [s], .written [s]] : List Event).foldl heldStep [] = [] :=
      List.erase_cons_head [s] []
    unfold appendAll
    split
    · refine ⟨?_, ?_⟩
      · simp [(ih (i + 1)).1]
      · rw [List.foldl_append, hfirst]
        exact (ih (i + 1)).2
    · rw [List.append_nil]
      exact ⟨by simp, hfirst⟩

theorem Holds.answer (hh : h.Holds) (answered : Bool) : (h.answer answered).Holds := by
  unfold Stream.answer
  split
  · exact hh
  · exact hh.close

theorem Holds.handleShmPut (hh : h.Holds) (p : PutRequest) (s : Nat)
    (hsync : cfg.AsyncPut ∨ h.pend = []) : (h.handleShmPut cfg p s).Holds := by
  have hp := hh.parse s
  unfold Stream.handleShmPut
  simp only
  split
  · exact hp.close
  rename_i size _
  split
  · exact hp.close
  split
  · exact hp.close
  split
  · exact hp.close
  split
  · -- an empty object has no task
    split
    · exact hp.close
    split
    · exact hp.readFrame.close
    split
    · exact hp.readFrame.close
    split
    · refine ⟨hp.readFrame.pinned, hp.readFrame.held_eq.trans ?_⟩
      show _ = (h.pend ++ [PendingOp.put none]).flatMap PendingOp.tasks
      rw [List.flatMap_append]
      exact (List.append_nil _).symm
    · exact hp.readFrame.answer _
  · obtain ⟨hr, hpend⟩ := holds_readFrames size 0 [] p.frames _ hp
    generalize readFrames size 0 [] p.frames (h.emit [.parse s]) = r at hr hpend ⊢
    obtain ⟨h', ss⟩ := r
    replace hr : h'.Holds := hr
    replace hpend : h'.pend = h.pend := hpend
    cases ss with
    | none => exact hr.close
    | some ss =>
      simp only
      split
      · -- the task joins the queue as it goes to the writer
        refine ⟨hr.pinned.append (by simp), ?_⟩
        show held (h'.log ++ [.handed ss]) =
          (h'.pend ++ [PendingOp.put (some ss)]).flatMap PendingOp.tasks
        rw [held_append, hr.held_eq, List.flatMap_append]
        rfl
      · rename_i hasync
        have hnil : h'.pend = [] := hpend.trans (hsync.resolve_left hasync)
        have hempty : h'.pend.flatMap PendingOp.tasks = [] := by rw [hnil]; rfl
        split
        · refine Holds.answer (hr.emit _ (by simp) ?_) _
          rw [hempty]
          exact List.erase_cons_head ss []
        · obtain ⟨hnew, hheld⟩ := held_appendAll p.appended 0 ss
          refine Holds.answer (hr.emit _ hnew ?_) _
          rw [hempty]
          exact hheld

theorem Holds.parseAndAnswer (hh : h.Holds) (s : Nat) (answered : Bool) :
    (h.parseAndAnswer s answered).Holds := (hh.parse s).answer answered

theorem Holds.switch (hh : h.Holds) (inner : Drain) (s : Nat) (r : Request) :
    (h.switch cfg inner s r).Holds := by
  have hdrained := hh.drainAll inner
  cases r with
  | put p =>
    unfold Stream.switch
    simp only
    split
    · rename_i hasync
      exact hh.handleShmPut p s (.inl hasync)
    split
    · rename_i hopen
      exact hdrained.handleShmPut p s (.inr (pend_drainAll hopen))
    · exact hdrained
  | get queued answered =>
    unfold Stream.switch
    simp only
    split
    · cases queued with
      | some done =>
        refine ⟨(hh.parse s).pinned, (hh.parse s).held_eq.trans ?_⟩
        show _ = (h.pend ++ [PendingOp.get done]).flatMap PendingOp.tasks
        rw [List.flatMap_append]
        exact (List.append_nil _).symm
      | none =>
        have hd := (hh.parse s).drainAll inner
        simp only
        split
        · exact hd.parseAndAnswer s answered
        · exact hd
    · exact hh.parseAndAnswer s answered
  | del answered =>
    unfold Stream.switch
    simp only
    split
    · exact hdrained.parseAndAnswer s answered
    · exact hdrained
  | stat answered =>
    unfold Stream.switch
    simp only
    split
    · exact hdrained.parseAndAnswer s answered
    · exact hdrained
  | other => exact hh.close

theorem Holds.releaseIdle (hh : h.Holds) : h.releaseIdle.Holds := by
  unfold Stream.releaseIdle
  split
  · rename_i hnil
    have hheld : held h.log = [] := by
      rw [hh.held_eq, hnil]
      rfl
    have hf := Holds.flushed hh.pinned hheld
    refine ⟨hf.pinned, hf.held_eq.trans ?_⟩
    show [] = h.pend.flatMap PendingOp.tasks
    rw [hnil]
    rfl
  · exact hh

theorem Holds.turn (hh : h.Holds) (t : Turn) : (h.turn cfg t).Holds := by
  have hs : (h.settle cfg t).Holds := hh.settle t
  unfold Stream.turn
  split
  · simp only
    split
    · split
      · exact hs.close
      · exact (hs.readFrame.switch t.inner _ _).releaseIdle
    · exact hs
  · exact hh

/-! ## 5. What is parsed -/

/-- Nothing has been used after its release, and slices are numbered in the order of the reads. -/
structure Orderly (h : Stream) : Prop where
  fresh : Fresh h.log
  bound : ∀ s, .read s ∈ h.log → s < h.reads

theorem orderly_start : start.Orderly where
  fresh := by
    intro l1 e l2 hsplit
    cases l1 <;> cases hsplit
  bound := fun s hs => absurd hs List.not_mem_nil

theorem Orderly.close (hh : h.Orderly) : h.close.Orderly := ⟨hh.fresh, hh.bound⟩

theorem Orderly.release (hh : h.Orderly) : (h.emit [.release]).Orderly where
  fresh := hh.fresh.release
  bound := by
    intro s hs
    rcases List.mem_append.mp hs with hs | hs
    · exact hh.bound s hs
    · simp at hs

theorem Orderly.flushed (hh : h.Orderly) : h.flushed.Orderly := ⟨hh.release.fresh, hh.release.bound⟩

theorem Orderly.drainCompleted (hh : h.Orderly) (completed : Bool) :
    (h.drainCompleted completed).Orderly := by
  unfold Stream.drainCompleted
  split
  · exact hh.close
  split
  · exact hh.flushed
  · exact hh

theorem Orderly.drainAll (hh : h.Orderly) (d : Drain) : (h.drainAll d).Orderly := by
  have hmem : ∀ e ∈ (awaitAll d.fill 0 h.pend).1, ∃ ss, e = .written ss := fun e he =>
    mem_awaitAll he
  have hawait : Orderly { h.emit (awaitAll d.fill 0 h.pend).1 with
      pend := (awaitAll d.fill 0 h.pend).2.1 } := by
    refine ⟨hh.fresh.append ?_ ?_, ?_⟩
    · intro hr
      obtain ⟨ss, hss⟩ := hmem _ hr
      cases hss
    · intro e he s hs
      obtain ⟨ss, rfl⟩ := hmem e he
      cases hs
    · intro s hs
      rcases List.mem_append.mp hs with hs | hs
      · exact hh.bound s hs
      · obtain ⟨ss, hss⟩ := hmem _ hs
        cases hss
  unfold Stream.drainAll
  simp only
  split
  · exact hawait.flushed
  · exact hawait.close

theorem Orderly.drainIf (hh : h.Orderly) (d : Drain) (c : Prop) [Decidable c] :
    (if c then h.drainAll d else h).Orderly := by
  split
  · exact hh.drainAll d
  · exact hh

theorem Orderly.settle (hh : h.Orderly) (t : Turn) : (h.settle cfg t).Orderly :=
  ((hh.drainCompleted t.completed).drainIf t.limit _).drainIf t.wait _

theorem Orderly.releaseIdle (hh : h.Orderly) : h.releaseIdle.Orderly := by
  unfold Stream.releaseIdle
  split
  · exact hh.release
  · exact hh

/-- The slices from number `n` on are not released. -/
structure Live (n : Nat) (h : Stream) : Prop extends h.Orderly where
  le_reads : n ≤ h.reads
  live : ∀ s, n ≤ s → ¬ Released h.log s

variable {n : Nat}

theorem Orderly.readFrame (hh : h.Orderly) : Live h.reads h.readFrame where
  fresh := hh.fresh.append (by simp) (by simp [Event.uses])
  bound := by
    intro s hs
    rcases List.mem_append.mp hs with hs | hs
    · exact Nat.lt_succ_of_lt (hh.bound s hs)
    · cases List.mem_singleton.mp hs
      exact Nat.lt_succ_self _
  le_reads := Nat.le_succ _
  live := by
    intro s hs hrel
    have hold := (released_append_iff (by simp)).mp hrel
    exact absurd (hh.bound s hold.mem) (Nat.not_lt.mpr hs)

theorem Live.close (hh : Live n h) : Live n h.close :=
  ⟨hh.toOrderly.close, hh.le_reads, hh.live⟩

theorem Live.readFrame (hh : Live n h) : Live n h.readFrame := by
  have hr := hh.toOrderly.readFrame
  refine ⟨hr.toOrderly, Nat.le_succ_of_le hh.le_reads, fun s hs hrel => hh.live s hs ?_⟩
  exact (released_append_iff (by simp)).mp hrel

/-- Events that read and release nothing, and use slices that are live. -/
theorem Live.emit (hh : Live n h) (evs : List Event) (hnew : .release ∉ evs)
    (hread : ∀ s, .read s ∉ evs) (huses : ∀ e ∈ evs, ∀ s ∈ e.uses, n ≤ s) :
    Live n (h.emit evs) where
  fresh := hh.fresh.append hnew (fun e he s hs => hh.live s (huses e he s hs))
  bound := by
    intro s hs
    rcases List.mem_append.mp hs with hs | hs
    · exact hh.bound s hs
    · exact absurd hs (hread s)
  le_reads := hh.le_reads
  live := fun s hs hrel => hh.live s hs ((released_append_iff hnew).mp hrel)

theorem Live.parse (hh : Live n h) {s : Nat} (hs : n ≤ s) : Live n (h.emit [.parse s]) := by
  refine hh.emit _ (by simp) (by simp) ?_
  intro e he s' hs'
  rw [List.mem_singleton.mp he] at hs'
  rwa [List.mem_singleton.mp hs']

theorem Live.answer (hh : Live n h) (answered : Bool) : Live n (h.answer answered) := by
  unfold Stream.answer
  split
  · exact hh
  · exact hh.close

/-- The frames of a Put are read into live slices. -/
theorem live_readFrames (size pos : Int) (ss : List Nat) (fs : List PutFrame) (h : Stream)
    (hh : Live n h) (hss : ∀ s ∈ ss, n ≤ s) :
    Live n (readFrames size pos ss fs h).1 ∧
      ∀ ss', (readFrames size pos ss fs h).2 = some ss' → ∀ s ∈ ss', n ≤ s := by
  induction fs generalizing pos ss h with
  | nil => exact ⟨hh, fun ss' hss' => (nomatch hss')⟩
  | cons f fs ih =>
    cases f with
    | data len =>
      unfold readFrames
      simp only
      split
      · exact ⟨hh.readFrame, fun ss' hss' => (nomatch hss')⟩
      · refine ih (pos + len) _ h.readFrame hh.readFrame ?_
        intro s hs
        rcases List.mem_append.mp hs with hs | hs
        · exact hss s hs
        · rw [List.mem_singleton.mp hs]
          exact hh.le_reads
    | last =>
      refine ⟨hh.readFrame, fun ss' hss' => ?_⟩
      unfold readFrames at hss'
      simp only at hss'
      split at hss'
      · cases hss'
      · cases hss'
        exact hss
    | other => exact ⟨hh.readFrame, fun ss' hss' => (nomatch hss')⟩

theorem mem_appendAll {appended : Nat → Bool} {i : Nat} {ss : List Nat} {e : Event}
    (he : e ∈ appendAll appended i ss) : ∃ s ∈ ss, e = .handed [s] ∨ e = .written [s] := by
  induction ss generalizing i with
  | nil => cases he
  | cons s ss ih =>
    unfold appendAll at he
    rcases List.mem_append.mp he with he | he
    · refine ⟨s, List.mem_cons_self, ?_⟩
      simpa using he
    · split at he
      · obtain ⟨s', hs', h'⟩ := ih he
        exact ⟨s', List.mem_cons_of_mem s hs', h'⟩
      · cases he

theorem Live.handleShmPut (hh : Live n h) (p : PutRequest) {s : Nat} (hs : n ≤ s) :
    (h.handleShmPut cfg p s).Orderly := by
  have hp := hh.parse hs
  unfold Stream.handleShmPut
  simp only
  split
  · exact hp.toOrderly.close
  rename_i size _
  split
  · exact hp.toOrderly.close
  split
  · exact hp.toOrderly.close
  split
  · exact hp.toOrderly.close
  split
  · split
    · exact hp.toOrderly.close
    split
    · exact hp.readFrame.toOrderly.close
    split
    · exact hp.readFrame.toOrderly.close
    split
    · exact ⟨hp.readFrame.fresh, hp.readFrame.bound⟩
    · exact (hp.readFrame.answer _).toOrderly
  · obtain ⟨hr, hlive⟩ := live_readFrames size 0 [] p.frames _ hp
      (fun s hs => absurd hs List.not_mem_nil)
    generalize readFrames size 0 [] p.frames (h.emit [.parse s]) = r at hr hlive ⊢
    obtain ⟨h', ss⟩ := r
    replace hr : Live n h' := hr
    cases ss with
    | none => exact hr.toOrderly.close
    | some ss =>
      have hss := hlive ss rfl
      simp only
      split
      · have he := hr.emit [.handed ss] (by simp) (by simp) (by
          intro e he s hs
          rw [List.mem_singleton.mp he] at hs
          exact hss s hs)
        exact ⟨he.fresh, he.bound⟩
      split
      · refine Live.toOrderly ((hr.emit _ (by simp) (by simp) ?_).answer _)
        intro e he s hs
        rcases List.mem_cons.mp he with rfl | he
        · exact hss s hs
        · rw [List.mem_singleton.mp he] at hs
          cases hs
      · refine Live.toOrderly ((hr.emit _ ?_ ?_ ?_).answer _)
        · intro hmem
          obtain ⟨s, -, hs | hs⟩ := mem_appendAll hmem
          · cases hs
          · cases hs
        · intro s' hmem
          obtain ⟨s, -, hs | hs⟩ := mem_appendAll hmem
          · cases hs
          · cases hs
        · intro e he s' hs'
          obtain ⟨s, hs, rfl | rfl⟩ := mem_appendAll he
          · rw [List.mem_singleton.mp hs']
            exact hss s hs
          · cases hs'

theorem Live.parseAndAnswer (hh : Live n h) {s : Nat} (hs : n ≤ s) (answered : Bool) :
    (h.parseAndAnswer s answered).Orderly := ((hh.parse hs).answer answered).toOrderly

end Stream

/-! ## 6. Logs grow -/

namespace Stream

variable {h : Stream}

theorem log_emit (h : Stream) (evs : List Event) : h.log <+: (h.emit evs).log :=
  List.prefix_append _ _

theorem log_answer (h : Stream) (answered : Bool) : (h.answer answered).log = h.log := by
  unfold answer
  split
  · rfl
  · rfl

theorem log_drainCompleted (h : Stream) (completed : Bool) :
    h.log <+: (h.drainCompleted completed).log := by
  unfold drainCompleted
  split
  · exact List.prefix_rfl
  split
  · exact List.prefix_append _ _
  · exact List.prefix_rfl

theorem log_drainAll (h : Stream) (d : Drain) : h.log <+: (h.drainAll d).log := by
  unfold drainAll
  simp only
  split
  · exact (List.prefix_append _ _).trans (List.prefix_append _ _)
  · exact List.prefix_append _ _

theorem log_drainIf (h : Stream) (d : Drain) (c : Prop) [Decidable c] :
    h.log <+: (if c then h.drainAll d else h).log := by
  split
  · exact h.log_drainAll d
  · exact List.prefix_rfl

theorem log_settle (cfg : Config) (h : Stream) (t : Turn) : h.log <+: (h.settle cfg t).log :=
  ((h.log_drainCompleted t.completed).trans (log_drainIf _ t.limit _)).trans
    (log_drainIf _ t.wait _)

theorem log_readFrame (h : Stream) : h.log <+: h.readFrame.log := List.prefix_append _ _

theorem log_readFrames (size pos : Int) (ss : List Nat) (fs : List PutFrame) (h : Stream) :
    h.log <+: (readFrames size pos ss fs h).1.log := by
  induction fs generalizing pos ss h with
  | nil => exact List.prefix_rfl
  | cons f fs ih =>
    cases f with
    | data len =>
      unfold readFrames
      simp only
      split
      · exact h.log_readFrame
      · exact h.log_readFrame.trans (ih _ _ _)
    | last => exact h.log_readFrame
    | other => exact h.log_readFrame

/-- A Put begins with its header. -/
theorem log_handleShmPut (cfg : Config) (p : PutRequest) (s : Nat) (h : Stream) :
    (h.emit [.parse s]).log <+: (h.handleShmPut cfg p s).log := by
  unfold handleShmPut
  simp only
  split
  · exact List.prefix_rfl
  rename_i size _
  split
  · exact List.prefix_rfl
  split
  · exact List.prefix_rfl
  split
  · exact List.prefix_rfl
  split
  · split
    · exact List.prefix_rfl
    split
    · exact log_readFrame _
    split
    · exact log_readFrame _
    split
    · exact log_readFrame _
    · rw [log_answer]
      exact log_readFrame _
  · have hr := log_readFrames size 0 [] p.frames (h.emit [.parse s])
    generalize readFrames size 0 [] p.frames (h.emit [.parse s]) = r at hr ⊢
    obtain ⟨h', ss⟩ := r
    cases ss with
    | none => exact hr
    | some ss =>
      simp only
      split
      · exact hr.trans (h'.log_emit [.handed ss])
      split
      · rw [log_answer]
        exact hr.trans (log_emit _ _)
      · rw [log_answer]
        exact hr.trans (log_emit _ _)

theorem log_parseAndAnswer (h : Stream) (s : Nat) (answered : Bool) :
    (h.parseAndAnswer s answered).log = (h.emit [.parse s]).log := log_answer _ answered

theorem log_switch (cfg : Config) (inner : Drain) (s : Nat) (h : Stream) (r : Request) :
    h.log <+: (h.switch cfg inner s r).log := by
  have hd := h.log_drainAll inner
  have hparse : ∀ (h : Stream) (answered : Bool), h.log <+: (h.parseAndAnswer s answered).log := by
    intro h answered
    rw [log_parseAndAnswer]
    exact h.log_emit _
  have hput : ∀ (h : Stream) (p : PutRequest), h.log <+: (h.handleShmPut cfg p s).log :=
    fun h p => (h.log_emit _).trans (h.log_handleShmPut cfg p s)
  cases r with
  | put p =>
    unfold switch
    simp only
    split
    · exact hput h p
    split
    · exact hd.trans (hput _ p)
    · exact hd
  | get queued answered =>
    unfold switch
    simp only
    split
    · cases queued with
      | some done => exact h.log_emit [.parse s]
      | none =>
        have hd' := (h.log_emit [.parse s]).trans (log_drainAll _ inner)
        simp only
        split
        · exact hd'.trans (hparse _ answered)
        · exact hd'
    · exact hparse h answered
  | del answered =>
    unfold switch
    simp only
    split
    · exact hd.trans (hparse _ answered)
    · exact hd
  | stat answered =>
    unfold switch
    simp only
    split
    · exact hd.trans (hparse _ answered)
    · exact hd
  | other => exact List.prefix_rfl

theorem log_releaseIdle (h : Stream) : h.log <+: h.releaseIdle.log := by
  unfold releaseIdle
  split
  · exact h.log_emit [.release]
  · exact List.prefix_rfl

theorem log_turn (cfg : Config) (h : Stream) (t : Turn) : h.log <+: (h.turn cfg t).log := by
  have hs := log_settle cfg h t
  unfold turn
  split
  · simp only
    split
    · split
      · exact hs
      · exact ((hs.trans (log_readFrame _)).trans (log_switch _ _ _ _ _)).trans (log_releaseIdle _)
    · exact hs
  · exact List.prefix_rfl

theorem log_turns (cfg : Config) (h : Stream) (ts : List Turn) :
    h.log <+: (ts.foldl (turn cfg) h).log := by
  induction ts generalizing h with
  | nil => exact List.prefix_rfl
  | cons t ts ih => exact (log_turn cfg h t).trans (ih _)

end Stream

/-! ## 7. The runs in which payloads are parsed in time -/

/-- The handler of the request drains the queue before it parses the payload, or parses it again
after. -/
def DrainsFirst (cfg : Config) : Request → Prop
  | .put _ => ¬ cfg.AsyncPut
  | .get queued _ => cfg.AsyncGet ∧ queued = none
  | .del _ => True
  | .stat _ => True
  | .other => False

/-- The drain of a queue of `n` items comes to its end. -/
def Drain.Succeeds (d : Drain) (n : Nat) : Prop := (∀ k < n, d.fill k = true) ∧ d.flush = true

namespace Stream

variable {cfg : Config} {h : Stream}

/-- **The turn parses a payload that it has released.** -/
def Stale (cfg : Config) (h : Stream) (t : Turn) : Prop :=
  h.isOpen = true ∧ (h.settle cfg t).isOpen = true ∧
    (∃ r, t.request = some r ∧ DrainsFirst cfg r) ∧
    t.inner.Succeeds (h.settle cfg t).pend.length

theorem isOpen_drainAll_iff {d : Drain} (hopen : h.isOpen = true) :
    (h.drainAll d).isOpen = true ↔ d.Succeeds h.pend.length := by
  have hiff : ((awaitAll d.fill 0 h.pend).2.2 = true ∧ d.flush = true) ↔
      d.Succeeds h.pend.length := by
    unfold Drain.Succeeds
    rw [awaitAll_ok_iff]
    simp only [Nat.zero_add]
  unfold Stream.drainAll
  simp only
  split
  · rename_i hok
    exact ⟨fun _ => hiff.mp hok, fun _ => hopen⟩
  · rename_i hfail
    exact ⟨fun hc => (nomatch hc), fun hs => absurd (hiff.mpr hs) hfail⟩

/-- A drain that leaves the loop running releases what has been read. -/
theorem released_drainAll {d : Drain} {s : Nat} (hread : .read s ∈ h.log)
    (hopen : (h.drainAll d).isOpen = true) : Released (h.drainAll d).log s := by
  unfold drainAll at hopen ⊢
  simp only at hopen ⊢
  split
  · exact released_of_release (List.mem_append_left _ hread) []
  · rename_i hfail
    rw [if_neg hfail] at hopen
    cases hopen

/-- Where the drain does not come to its end, the `switch` uses live slices only. -/
theorem Live.switch {inner : Drain} {s : Nat} {r : Request} (hh : Live s h)
    (hopen : h.isOpen = true) (hok : DrainsFirst cfg r → ¬ inner.Succeeds h.pend.length) :
    (h.switch cfg inner s r).Orderly := by
  have hclosed : DrainsFirst cfg r → ¬ (h.drainAll inner).isOpen = true :=
    fun hd hc => hok hd ((isOpen_drainAll_iff hopen).mp hc)
  have hdrained := hh.toOrderly.drainAll inner
  cases r with
  | put p =>
    unfold Stream.switch
    simp only
    split
    · exact hh.handleShmPut p (Nat.le_refl s)
    rename_i hasync
    rw [if_neg (hclosed hasync)]
    exact hdrained
  | get queued answered =>
    unfold Stream.switch
    simp only
    split
    · rename_i hasync
      have hp := hh.parse (Nat.le_refl s)
      cases queued with
      | some done => exact ⟨hp.fresh, hp.bound⟩
      | none =>
        have hfail : ¬ ((h.emit [.parse s]).drainAll inner).isOpen = true := fun hc =>
          hok ⟨hasync, rfl⟩ ((isOpen_drainAll_iff (show (h.emit [.parse s]).isOpen = true
            from hopen)).mp hc)
        simp only
        rw [if_neg hfail]
        exact hp.toOrderly.drainAll inner
    · exact hh.parseAndAnswer (Nat.le_refl s) answered
  | del answered =>
    unfold Stream.switch
    simp only
    rw [if_neg (hclosed trivial)]
    exact hdrained
  | stat answered =>
    unfold Stream.switch
    simp only
    rw [if_neg (hclosed trivial)]
    exact hdrained
  | other => exact hh.toOrderly.close

/-- Where the drain comes to its end, the `switch` parses a payload that has been released. -/
theorem switch_stale {inner : Drain} {s : Nat} {r : Request} (hread : .read s ∈ h.log)
    (hopen : h.isOpen = true) (hdrains : DrainsFirst cfg r)
    (hinner : inner.Succeeds h.pend.length) : ¬ Fresh (h.switch cfg inner s r).log := by
  have hend := (isOpen_drainAll_iff hopen).mpr hinner
  have hparsed : ¬ Fresh ((h.drainAll inner).emit [.parse s]).log :=
    not_fresh_of_parse (released_drainAll hread hend) []
  cases r with
  | put p =>
    unfold switch
    simp only
    rw [if_neg hdrains, if_pos hend]
    exact fun hf => hparsed (hf.of_isPrefix (log_handleShmPut cfg p s _))
  | get queued answered =>
    obtain ⟨hasync, rfl⟩ := hdrains
    have hend' : ((h.emit [.parse s]).drainAll inner).isOpen = true :=
      (isOpen_drainAll_iff (show (h.emit [.parse s]).isOpen = true from hopen)).mpr hinner
    unfold switch
    simp only
    rw [if_pos hasync, if_pos hend', log_parseAndAnswer]
    exact not_fresh_of_parse (released_drainAll (List.mem_append_left _ hread) hend') []
  | del answered =>
    unfold switch
    simp only
    rw [if_pos hend, log_parseAndAnswer]
    exact hparsed
  | stat answered =>
    unfold switch
    simp only
    rw [if_pos hend, log_parseAndAnswer]
    exact hparsed
  | other => exact absurd hdrains id

theorem Orderly.turn (hh : h.Orderly) {t : Turn} (hok : ¬ Stale cfg h t) :
    (h.turn cfg t).Orderly := by
  have hs : (h.settle cfg t).Orderly := hh.settle t
  unfold Stream.turn
  by_cases hopen : h.isOpen = true
  · rw [if_pos hopen]
    simp only
    by_cases hsettled : (h.settle cfg t).isOpen = true
    · rw [if_pos hsettled]
      cases hr : t.request with
      | none => exact hs.close
      | some r =>
        refine Orderly.releaseIdle (hs.readFrame.switch hsettled fun hdrains hinner => ?_)
        exact hok ⟨hopen, hsettled, ⟨r, hr, hdrains⟩, hinner⟩
    · rw [if_neg hsettled]
      exact hs
  · rw [if_neg hopen]
    exact hh

theorem turn_stale {t : Turn} (hstale : Stale cfg h t) : ¬ Fresh (h.turn cfg t).log := by
  obtain ⟨hopen, hsettled, ⟨r, hr, hdrains⟩, hinner⟩ := hstale
  unfold turn
  rw [if_pos hopen]
  simp only
  rw [if_pos hsettled, hr]
  have hread : .read (h.settle cfg t).reads ∈ (h.settle cfg t).readFrame.log :=
    List.mem_append_right _ List.mem_cons_self
  exact fun hf => switch_stale hread hsettled hdrains hinner (hf.of_isPrefix (log_releaseIdle _))

/-- A run is fresh exactly while no turn is stale. -/
theorem fresh_turns_iff (hh : h.Orderly) (ts : List Turn) :
    Fresh (ts.foldl (turn cfg) h).log ↔
      Transition.Along (fun h t => some (turn cfg h t)) (fun h t => ¬ Stale cfg h t) h ts := by
  induction ts generalizing h with
  | nil => exact ⟨fun _ => trivial, fun _ => hh.fresh⟩
  | cons t ts ih =>
    constructor
    · intro hf
      have hok : ¬ Stale cfg h t := fun hstale =>
        turn_stale hstale (hf.of_isPrefix (log_turns cfg _ ts))
      refine ⟨hok, fun h' hturn => ?_⟩
      cases hturn
      exact (ih (hh.turn hok)).mp hf
    · rintro ⟨hok, hrest⟩
      exact (ih (hh.turn hok)).mpr (hrest _ rfl)

theorem holds_loop (cfg : Config) (ts : List Turn) : (loop cfg ts).Holds := by
  rw [loop]
  refine List.foldlRecOn ts (turn cfg) holds_start ?_
  exact fun h hh t _ => hh.turn t

/-- What the end of `handleStream` adds are ends of writes. -/
theorem handleStream_eq (cfg : Config) (ts : List Turn) (stopped : Bool) :
    ∃ evs, handleStream cfg ts stopped = (loop cfg ts).log ++ evs ∧
      ∀ e ∈ evs, ∃ ss, e = .written ss := by
  cases stopped with
  | true => exact ⟨[], (List.append_nil _).symm, fun e he => absurd he List.not_mem_nil⟩
  | false =>
    refine ⟨_, rfl, fun e he => ?_⟩
    obtain ⟨p, -, hp⟩ := List.mem_flatMap.mp he
    exact PendingOp.mem_await hp

theorem pinned_handleStream (cfg : Config) (ts : List Turn) (stopped : Bool) :
    Pinned (handleStream cfg ts stopped) := by
  obtain ⟨evs, heq, hevs⟩ := handleStream_eq cfg ts stopped
  rw [heq]
  refine (holds_loop cfg ts).pinned.append fun hmem => ?_
  obtain ⟨ss, hss⟩ := hevs _ hmem
  cases hss

theorem fresh_handleStream_iff (cfg : Config) (ts : List Turn) (stopped : Bool) :
    Fresh (handleStream cfg ts stopped) ↔ Fresh (loop cfg ts).log := by
  obtain ⟨evs, heq, hevs⟩ := handleStream_eq cfg ts stopped
  rw [heq]
  refine ⟨Fresh.of_append, fun hf => hf.append (fun hmem => ?_) fun e he s hs => ?_⟩
  · obtain ⟨ss, hss⟩ := hevs _ hmem
    cases hss
  · obtain ⟨ss, rfl⟩ := hevs e he
    cases hs

/-- **The slices that the writer has are never released, and payloads are parsed before their
release in exactly the runs in which no turn drains the queue between reading a request and
parsing it.** -/
theorem payload_lifetime_iff (cfg : Config) (ts : List Turn) (stopped : Bool) :
    (Pinned (handleStream cfg ts stopped) ∧ Fresh (handleStream cfg ts stopped)) ↔
      Transition.Along (fun h t => some (turn cfg h t)) (fun h t => ¬ Stale cfg h t) start ts := by
  rw [fresh_handleStream_iff]
  exact ⟨fun hp => (fresh_turns_iff orderly_start ts).mp hp.2, fun ha =>
    ⟨pinned_handleStream cfg ts stopped, (fresh_turns_iff orderly_start ts).mpr ha⟩⟩

/-- A Delete on a new stream: the drain of the empty queue releases the payload, and the handler
parses the key after it. -/
theorem delete_parses_released_key : ¬ ∀ (cfg : Config) (ts : List Turn) (stopped : Bool),
    Pinned (handleStream cfg ts stopped) ∧ Fresh (handleStream cfg ts stopped) := by
  intro hall
  let d : Drain := ⟨fun _ => true, true⟩
  have hlog : handleStream ⟨0, false, false, 0⟩ [⟨true, d, false, d, some (.del true), d⟩] true =
      [.release, .read 0, .release] ++ .parse 0 :: [.release] := rfl
  have hfresh := (hall ⟨0, false, false, 0⟩ [⟨true, d, false, d, some (.del true), d⟩] true).2
  rw [hlog] at hfresh
  exact not_fresh_of_parse (released_of_release (l := [.release, .read 0]) (by simp) []) _ hfresh

end Stream

end Taihu.ShmPayloads
