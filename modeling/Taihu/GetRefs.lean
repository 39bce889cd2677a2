/-
# The references and buffers of a Get stream

`internal/transport/server.go` (`handleGetStream` with its exit handler, `submitTcpGetReq`,
`getSync`, `drainTcpGetHead`, `drainAllTcpGet`, `writeTcpGetFrame`) and `SubmitReadAtIntoMeta` and
`Await` of `internal/storage/read.go`.

`GetStream.lean` says which frames the handler writes.  Here writing a frame may fail, and what
matters is what the handler holds: the reference that `MetaRef` has taken for a request, which
belongs to the request until it is handed to the last item it has queued; the reference of each
read in flight, which `Await` gives back; and the buffer of each item.  Every way out of the
handler leads through its exit handler, which gives back what the items still hold
(`exit_sound`).

The reference of a request is handed to the last item of the queue.  A range whose end leaves
`int64` queues nothing, so there is no such item, or it is one of another request, whose own
reference is then forgotten.  `balanced_iff` says that this is the only defect.
-/
import Taihu.GetDiscipline
import Taihu.Lib.Ledger

namespace Taihu.GetRefs

open GetStream (Incoming)

/-! ## 1. The handler -/

/-- A reference to a segment, with its number. -/
abbrev Ref := Int × Nat

/-- A buffer from the pool, with its number. -/
abbrev Buf := Unit × Nat

/-- `tcpGetPending`; `AsyncReadAt` with the reference it holds. -/
structure Pending where
  pos : Int
  stop : Int
  buf : Option Buf
  ar : Option (AsyncReadAt × Ref)
  done : Bool
  data : Bytes
  rerr : Option Err
  unrefSeg : Option Ref

/-- The handler: the items in flight, the references and buffers it has taken and given back, the
frames it has written, and how often it has called `writeFrame`. -/
structure Handler where
  pend : List Pending
  refs : Ledger Int
  bufs : Ledger Unit
  out : List GetFrame
  writes : Nat
  status : Status

namespace Handler

def start : Handler := ⟨[], Ledger.empty, Ledger.empty, [], 0, .running⟩

/-- `UnrefSegment`. -/
def unref (h : Handler) (r : Ref) : Handler := { h with refs := h.refs.give r }

/-- `bufpool.Put`. -/
def putBuf (h : Handler) (b : Buf) : Handler := { h with bufs := h.bufs.give b }

/-- `writeFrame`, which fails where `ok` says so. -/
def writeFrame (ok : Nat → Bool) (h : Handler) (f : GetFrame) : Handler × Bool :=
  ({ h with writes := h.writes + 1, out := if ok h.writes then h.out ++ [f] else h.out },
    ok h.writes)

/-- What the item holds is given back (the deferred part of `writeTcpGetFrame`). -/
def release (h : Handler) (p : Pending) : Handler :=
  let h := match p.buf with
    | some b => h.putBuf b
    | none => h
  match p.unrefSeg with
  | some r => h.unref r
  | none => h

/-- `Await` of an item that is not done. -/
def await (h : Handler) (p : Pending) : Handler × Pending :=
  if p.done then (h, p)
  else
    match p.ar with
    | some (a, r) => (h.unref r, { p with done := true, data := a.await.1, rerr := a.await.2 })
    | none => (h, { p with done := true })

end Handler

/-- The item after its frame. -/
def Pending.emptied (p : Pending) : Pending := { p with buf := none, unrefSeg := none }

namespace Handler

section Drain

variable (ok : Nat → Bool)

/-- `writeTcpGetFrame`. -/
def writeTcpGetFrame (h : Handler) (p : Pending) : Handler × Bool :=
  let w := h.writeFrame ok (getFrame p.pos p.stop p.data p.rerr)
  (w.1.release p, w.2)

/-- The loop of `drainTcpGetHead` over the queue. -/
def drainTcpGetHead : List Pending → Handler → Handler × Bool
  | [], h => ({ h with pend := [] }, true)
  | p :: ps, h =>
    if p.done then
      match h.writeTcpGetFrame ok p with
      | (h, true) => drainTcpGetHead ps h
      | (h, false) => ({ h with pend := p.emptied :: ps }, false)
    else ({ h with pend := p :: ps }, true)

/-- The loop of `drainAllTcpGet` over the queue. -/
def drainAllTcpGet : List Pending → Handler → Handler × Bool
  | [], h => ({ h with pend := [] }, true)
  | p :: ps, h =>
    let a := h.await p
    match a.1.writeTcpGetFrame ok a.2 with
    | (h, true) => drainAllTcpGet ps h
    | (h, false) => ({ h with pend := a.2.emptied :: ps }, false)

/-- The frame for the bytes that `getSync` has read at `pos`. -/
def syncFrame (pos stop : Int) (r : Bytes × Option Err) : GetFrame :=
  if pos + r.1.length ≥ stop ∨ r.2 = some .eof then .final r.1 else .data r.1

/-- The loop of `getSync` from `pos` on.  A read that gives no bytes leaves the buffer, if it has
taken one, to the device, which gives it back itself. -/
def getSyncFrom (s : Snapshot) (stop : Int) : Nat → Int → Handler → Handler × Bool
  | 0, _, h => (h, true)
  | fuel + 1, pos, h =>
    if pos < stop then
      let r := s.readAtMeta pos (chunkWant stop pos)
      let b := h.bufs.next ()
      let h := { h with bufs := h.bufs.take () }
      if r.1 = [] then
        let h := h.putBuf b
        match r.2 with
        | some .eof => ((h.writeFrame ok (.final [])).1, true)
        | some e => h.writeFrame ok (.err (mapStorageErr e))
        | none => getSyncFrom s stop fuel pos h
      else
        let w := h.writeFrame ok (syncFrame pos stop r)
        let h := w.1.putBuf b
        if w.2 then
          match r.2 with
          | some .eof => (h, true)
          | some e => h.writeFrame ok (.err (mapStorageErr e))
          | none => getSyncFrom s stop fuel (pos + r.1.length) h
        else (h, false)
    else (h, true)

/-- `getSync`. -/
def getSync (s : Snapshot) (off size : Int) (h : Handler) : Handler × Bool :=
  let stop := int64 (off + size)
  getSyncFrom ok s stop (stop - off).toNat off h

end Drain

/-- `SubmitReadAtIntoMeta` for a chunk.  A submission that the device refuses gives its reference
back. -/
def submitRead (s : Snapshot) (pos : Int) (h : Handler) : Handler × Res (AsyncReadAt × Ref) :=
  match readWindow s.md pos chunkSize true with
  | .error e => (h, .error e)
  | .ok w =>
    if chunkSize < w.dlen then (h, .error .io)
    else
      let r := h.refs.next s.md.segmentID
      let h := { h with refs := h.refs.take s.md.segmentID }
      match s.deviceRead w.relStart w.dlen with
      | .refused e => (h.unref r, .error e)
      | x => (h, .ok (⟨x, w.want, chunkSize⟩, r))

/-- One turn of the submitting loop: the chunk at `pos` is queued. -/
def submitChunk (s : Snapshot) (stop : Int) (h : Handler) (pos : Int) : Handler :=
  let b := h.bufs.next ()
  match { h with bufs := h.bufs.take () }.submitRead s pos with
  | (h, .error e) =>
    { h.putBuf b with pend := h.pend ++ [⟨pos, stop, none, none, true, [], some e, none⟩] }
  | (h, .ok ar) =>
    { h with pend := h.pend ++ [⟨pos, stop, some b, some ar, false, [], none, none⟩] }

/-- `(*pend)[len(*pend)-1].unrefSeg = seg`; `none` when there is no such item. -/
def setLastUnref (r : Ref) : List Pending → Option (List Pending)
  | [] => none
  | [p] => some [{ p with unrefSeg := some r }]
  | p :: q :: ps => (setLastUnref r (q :: ps)).map (p :: ·)

section Turn

variable (ok : Nat → Bool) (inflight : Int)

/-- What comes after a step that may fail. -/
def andThen (x : Handler × Bool) (f : Handler → Handler × Bool) : Handler × Bool :=
  if x.2 then f x.1 else x

/-- The queue is drained, and then. -/
def drained (h : Handler) (f : Handler → Handler × Bool) : Handler × Bool :=
  andThen (drainAllTcpGet ok h.pend h) f

/-- `submitTcpGetReq`.  `refPending` is the reference that is given back in the end. -/
def submitTcpGetReq (h : Handler) : Ask → Handler × Bool
  | .malformed => h.drained ok (fun h => h.writeFrame ok (.err .invalidArgument))
  | .unresolved e => h.drained ok (fun h => h.writeFrame ok (.err (mapStorageErr e)))
  | .found s off size =>
    let refPending := h.refs.next s.md.segmentID
    let h := { h with refs := h.refs.take s.md.segmentID }
    let off := int64 off
    let size := getSize s off (int64 size)
    if size < 0 then
      let x := h.drained ok (fun h => h.writeFrame ok (.err .invalidRange))
      (x.1.unref refPending, x.2)
    else if AsyncGet inflight off size then
      let stop := int64 (off + size)
      let h := (chunkStarts off stop).foldl (submitChunk s stop) h
      match setLastUnref refPending h.pend with
      | some pend => ({ h with pend := pend }, true)
      | none => ({ h.unref refPending with status := .panicked }, false)
    else
      let x := h.drained ok (getSync ok s off size)
      (x.1.unref refPending, x.2)

/-- The exit handler over what is left of the queue. -/
def exitItems : List Pending → Handler → Handler
  | [], h => { h with pend := [] }
  | p :: ps, h =>
    let h := match p.done, p.ar with
      | false, some (_, r) => h.unref r
      | _, _ => h
    exitItems ps (h.release p)

/-- The handler returns, if it does not panic. -/
def exit (h : Handler) : Handler :=
  let h := exitItems h.pend h
  { h with status := if h.status = .panicked then .panicked else .returned }

/-- The end of a turn: the handler goes on, or it returns. -/
def finish (x : Handler × Bool) : Handler := if x.2 then x.1 else x.1.exit

/-- What a turn of the loop begins with. -/
def settle (h : Handler) : Handler × Bool :=
  andThen (drainTcpGetHead ok h.pend h) fun h =>
    if 0 < inflight ∧ (h.pend.length : Int) ≥ inflight then drainAllTcpGet ok h.pend h
    else (h, true)

/-- What it goes on with.  `none`: `tryAwait` found no frame. -/
def handle (h : Handler) : Option Incoming → Handler × Bool
  | none => drainAllTcpGet ok h.pend h
  | some .other => (h, false)
  | some (.getReq a) => h.submitTcpGetReq ok inflight a

/-- One turn of the loop of `handleGetStream`. -/
def turn (h : Handler) (msg : Option Incoming) : Handler :=
  if h.status = .running then
    finish (andThen (h.settle ok inflight) (fun h => h.handle ok inflight msg))
  else h

/-- The connection closes: what is in flight is drained, and `await` fails. -/
def close (h : Handler) : Handler :=
  if h.status = .running then
    (andThen (h.settle ok inflight) (fun h => drainAllTcpGet ok h.pend h)).1.exit
  else h

end Turn

end Handler

/-- `handleGetStream`, over the outcomes of its attempts to take a frame, until the connection
closes. -/
def handleGetStream (ok : Nat → Bool) (inflight : Int) (msgs : List (Option Incoming)) : Handler :=
  (msgs.foldl (Handler.turn ok inflight) Handler.start).close ok inflight

/-- **The balance of a stream**: the handler has returned without a panic, every reference it has
taken has been given back, once, and no buffer has been given back twice. -/
structure Balanced (h : Handler) : Prop where
  returned : h.status = .returned
  refs : h.refs.Settled
  bufs : h.bufs.back.Nodup

/-! ## 2. What the items hold -/

/-- The references an item holds: that of its read, until it is done, and that of its request. -/
def Pending.refs (p : Pending) : List Ref :=
  (if p.done then [] else p.ar.toList.map Prod.snd) ++ p.unrefSeg.toList

def refsOf (ps : List Pending) : List Ref := ps.flatMap Pending.refs

def bufsOf (ps : List Pending) : List Buf := ps.flatMap (fun p => p.buf.toList)

/-- The accounts, when besides the items `ps` so many references are in hand. -/
structure Holds (extra : List Ref) (ps : List Pending) (h : Handler) : Prop where
  refs : h.refs.Accounts (extra ++ refsOf ps)
  bufs : h.bufs.Accounts (bufsOf ps)

/-- The last item of the queue holds the reference of its request. -/
def LastHolds (ps : List Pending) : Prop := ∀ p ∈ ps.getLast?, p.unrefSeg ≠ none

theorem LastHolds.suffix {ps qs : List Pending} (h : LastHolds qs) (hs : ps <:+ qs) :
    LastHolds ps := by
  obtain ⟨init, rfl⟩ := hs
  intro p hp
  apply h p
  rw [List.getLast?_append, Option.mem_def.mp hp]
  rfl

section Holds

variable {extra : List Ref} {p : Pending} {ps : List Pending} {h : Handler} {ok : Nat → Bool}

/-- A reference that is given back need not be the first in hand. -/
theorem Holds.unref {r : Ref} (hh : Holds (r :: extra) ps h) : Holds extra ps (h.unref r) :=
  ⟨hh.refs.give, hh.bufs⟩

/-- A reference that is taken is in hand. -/
theorem Holds.ref (hh : Holds extra ps h) (seg : Int) :
    Holds (h.refs.next seg :: extra) ps { h with refs := h.refs.take seg } :=
  ⟨hh.refs.take seg, hh.bufs⟩

theorem Holds.perm {extra' : List Ref} (hh : Holds extra ps h) (hp : extra.Perm extra') :
    Holds extra' ps h := ⟨hh.refs.perm (hp.append_right _), hh.bufs⟩

/-- What an item in front holds. -/
theorem refsOf_cons : refsOf (p :: ps) = p.refs ++ refsOf ps := List.flatMap_cons

theorem bufsOf_cons : bufsOf (p :: ps) = p.buf.toList ++ bufsOf ps := List.flatMap_cons

/-- The references of an item come to hand with it. -/
theorem Holds.head (hh : Holds extra (p :: ps) h) :
    h.refs.Accounts (p.refs ++ (extra ++ refsOf ps)) := by
  refine hh.refs.perm ?_
  rw [refsOf_cons, ← List.append_assoc, ← List.append_assoc]
  exact List.perm_append_comm.append_right _

/-- An item that is done is released with all it holds. -/
theorem Holds.release (hh : Holds extra (p :: ps) h) (hdone : p.done = true) :
    Holds extra ps (h.release p) := by
  have hrefs := hh.head
  have hbufs := hh.bufs
  rw [Pending.refs, if_pos hdone, List.nil_append] at hrefs
  rw [bufsOf_cons] at hbufs
  unfold Handler.release
  cases hb : p.buf with
  | none =>
    rw [hb] at hbufs
    cases hu : p.unrefSeg with
    | none =>
      rw [hu] at hrefs
      exact ⟨hrefs, hbufs⟩
    | some r =>
      rw [hu] at hrefs
      exact ⟨hrefs.give, hbufs⟩
  | some b =>
    rw [hb] at hbufs
    cases hu : p.unrefSeg with
    | none =>
      rw [hu] at hrefs
      exact ⟨hrefs, hbufs.give⟩
    | some r =>
      rw [hu] at hrefs
      exact ⟨hrefs.give, hbufs.give⟩

/-- Waiting for a read gives its reference back, and the item is done. -/
theorem Holds.await (hh : Holds extra (p :: ps) h) :
    Holds extra ((h.await p).2 :: ps) (h.await p).1 ∧ (h.await p).2.done = true ∧
      (h.await p).1.status = h.status := by
  unfold Handler.await
  by_cases hdone : p.done = true
  · rw [if_pos hdone]
    exact ⟨hh, hdone, rfl⟩
  · rw [if_neg hdone]
    have hrefs := hh.head
    rw [Pending.refs, if_neg hdone, List.append_assoc] at hrefs
    rcases har : p.ar with _ | ⟨a, r⟩
    · rw [har] at hrefs
      refine ⟨⟨?_, hh.bufs⟩, rfl, rfl⟩
      refine hrefs.perm ?_
      rw [refsOf_cons, Pending.refs, if_pos rfl, List.nil_append, Option.toList_none,
        List.map_nil, List.nil_append, ← List.append_assoc, ← List.append_assoc]
      exact List.perm_append_comm.append_right _
    · rw [har] at hrefs
      refine ⟨⟨?_, hh.bufs⟩, rfl, rfl⟩
      refine (Ledger.Accounts.give hrefs).perm ?_
      rw [refsOf_cons, Pending.refs, if_pos rfl, ← List.append_assoc, ← List.append_assoc]
      exact List.perm_append_comm.append_right _

/-- An item whose frame has been tried holds nothing more. -/
theorem Holds.emptied (hh : Holds extra ps h) (hdone : p.done = true) :
    Holds extra (p.emptied :: ps) h := by
  have hrefs : p.emptied.refs = [] := by
    rw [Pending.refs, if_pos (show p.emptied.done = true from hdone)]
    rfl
  refine ⟨?_, ?_⟩
  · rw [refsOf_cons, hrefs]
    exact hh.refs
  · rw [bufsOf_cons]
    exact hh.bufs

theorem release_status (h : Handler) (p : Pending) : (h.release p).status = h.status := by
  unfold Handler.release
  cases p.buf <;> cases p.unrefSeg <;> rfl

/-! ## 3. The queue -/

variable (ok) in
theorem drainTcpGetHead_sound (hh : Holds extra ps h) :
    Holds extra (Handler.drainTcpGetHead ok ps h).1.pend (Handler.drainTcpGetHead ok ps h).1 ∧
      (Handler.drainTcpGetHead ok ps h).1.status = h.status ∧
      ((Handler.drainTcpGetHead ok ps h).2 = true →
        (Handler.drainTcpGetHead ok ps h).1.pend <:+ ps) := by
  induction ps generalizing h with
  | nil => exact ⟨⟨hh.refs, hh.bufs⟩, rfl, fun _ => List.suffix_rfl⟩
  | cons p ps ih =>
    rw [Handler.drainTcpGetHead]
    split
    · rename_i hdone
      have hrel : Holds extra ps (h.writeTcpGetFrame ok p).1 :=
        Holds.release (h := (h.writeFrame ok _).1) ⟨hh.refs, hh.bufs⟩ hdone
      have hstatus : (h.writeTcpGetFrame ok p).1.status = h.status := release_status _ _
      rcases hw : h.writeTcpGetFrame ok p with ⟨h', _ | _⟩ <;> rw [hw] at hrel hstatus
      · have hemp := hrel.emptied hdone
        exact ⟨⟨hemp.refs, hemp.bufs⟩, hstatus, fun hfalse => Bool.noConfusion hfalse⟩
      · obtain ⟨hhold, hst, hsuf⟩ := ih hrel
        exact ⟨hhold, hst.trans hstatus,
          fun ht => (hsuf ht).trans (List.suffix_cons p ps)⟩
    · exact ⟨⟨hh.refs, hh.bufs⟩, rfl, fun _ => List.suffix_rfl⟩

variable (ok) in
/-- **Draining gives back what the items hold**, as far as it comes. -/
theorem drainAllTcpGet_sound (hh : Holds extra ps h) :
    Holds extra (Handler.drainAllTcpGet ok ps h).1.pend (Handler.drainAllTcpGet ok ps h).1 ∧
      (Handler.drainAllTcpGet ok ps h).1.status = h.status ∧
      ((Handler.drainAllTcpGet ok ps h).2 = true →
        (Handler.drainAllTcpGet ok ps h).1.pend = []) := by
  induction ps generalizing h with
  | nil => exact ⟨⟨hh.refs, hh.bufs⟩, rfl, fun _ => rfl⟩
  | cons p ps ih =>
    obtain ⟨hawait, hdone, hst⟩ := hh.await
    have hrel : Holds extra ps ((h.await p).1.writeTcpGetFrame ok (h.await p).2).1 :=
      Holds.release (h := ((h.await p).1.writeFrame ok _).1) ⟨hawait.refs, hawait.bufs⟩ hdone
    have hstatus : ((h.await p).1.writeTcpGetFrame ok (h.await p).2).1.status = h.status :=
      (release_status _ _).trans hst
    rw [Handler.drainAllTcpGet]
    rcases hw : (h.await p).1.writeTcpGetFrame ok (h.await p).2 with ⟨h', _ | _⟩ <;>
      rw [hw] at hrel hstatus
    · have hemp := hrel.emptied hdone
      exact ⟨⟨hemp.refs, hemp.bufs⟩, hstatus, fun hfalse => Bool.noConfusion hfalse⟩
    · obtain ⟨hhold, hst', hnil⟩ := ih hrel
      exact ⟨hhold, hst'.trans hstatus, hnil⟩

variable (ok) in
/-- Reading synchronously takes and gives back a buffer at a time. -/
theorem getSyncFrom_sound (s : Snapshot) (stop : Int) (fuel : Nat) (pos : Int)
    (hh : Holds extra ps h) :
    Holds extra ps (Handler.getSyncFrom ok s stop fuel pos h).1 ∧
      (Handler.getSyncFrom ok s stop fuel pos h).1.status = h.status ∧
      (Handler.getSyncFrom ok s stop fuel pos h).1.pend = h.pend := by
  induction fuel generalizing h pos with
  | zero => exact ⟨hh, rfl, rfl⟩
  | succ fuel ih =>
    rw [Handler.getSyncFrom]
    have hgive : ((h.bufs.take ()).give (h.bufs.next ())).Accounts (bufsOf ps) :=
      (hh.bufs.take ()).give
    split
    · simp only
      split
      · split
        · exact ⟨⟨hh.refs, hgive⟩, rfl, rfl⟩
        · exact ⟨⟨hh.refs, hgive⟩, rfl, rfl⟩
        · exact ih pos ⟨hh.refs, hgive⟩
      · split
        · split
          · exact ⟨⟨hh.refs, hgive⟩, rfl, rfl⟩
          · exact ⟨⟨hh.refs, hgive⟩, rfl, rfl⟩
          · exact ih _ ⟨hh.refs, hgive⟩
        · exact ⟨⟨hh.refs, hgive⟩, rfl, rfl⟩
    · exact ⟨hh, rfl, rfl⟩

/-- **The exit handler gives back everything.** -/
theorem exitItems_sound (hh : Holds extra ps h) :
    (Handler.exitItems ps h).refs.Accounts extra ∧ (Handler.exitItems ps h).bufs.Accounts [] ∧
      (Handler.exitItems ps h).status = h.status ∧ (Handler.exitItems ps h).pend = [] := by
  induction ps generalizing h with
  | nil =>
    have hrefs := hh.refs
    rw [refsOf, List.flatMap_nil, List.append_nil] at hrefs
    exact ⟨hrefs, hh.bufs, rfl, rfl⟩
  | cons p ps ih =>
    -- what the item holds besides the reference of its read
    have hrest : ∀ h' : Handler, Holds extra ({ p with done := true } :: ps) h' →
        Holds extra ps (h'.release p) := fun h' hh' =>
      Holds.release (p := { p with done := true }) hh' rfl
    have hopen : Holds extra ({ p with done := true } :: ps)
        (match p.done, p.ar with
          | false, some (_, r) => h.unref r
          | _, _ => h) := by
      obtain ⟨hawait, hdone, -⟩ := hh.await
      unfold Handler.await at hawait
      cases hd : p.done with
      | true =>
        have hp : ({ p with done := true } : Pending) = p := by rw [← hd]
        rw [hp]
        exact hh
      | false =>
        rw [if_neg (by rw [hd]; exact Bool.false_ne_true)] at hawait
        rcases har : p.ar with _ | ⟨a, r⟩ <;> rw [har] at hawait
        · exact ⟨hawait.refs, hawait.bufs⟩
        · exact ⟨hawait.refs, hawait.bufs⟩
    have hstatus : ∀ h' : Handler, h'.status = h.status → (h'.release p).status = h.status :=
      fun h' hs => (release_status h' p).trans hs
    rw [Handler.exitItems]
    obtain ⟨hrefs, hbufs, hst, hpend⟩ := ih (hrest _ hopen)
    refine ⟨hrefs, hbufs, hst.trans (hstatus _ ?_), hpend⟩
    split <;> rfl

end Holds

/-! ## 4. A request -/

section Submit

variable {extra : List Ref} {h : Handler} {ok : Nat → Bool} {inflight : Int}

theorem refsOf_append (ps qs : List Pending) : refsOf (ps ++ qs) = refsOf ps ++ refsOf qs :=
  List.flatMap_append

theorem bufsOf_append (ps qs : List Pending) : bufsOf (ps ++ qs) = bufsOf ps ++ bufsOf qs :=
  List.flatMap_append

/-- An item at the end of the queue brings what it holds. -/
theorem Holds.snoc {p : Pending} {ps : List Pending} (hrefs : h.refs.Accounts
      (p.refs ++ (extra ++ refsOf ps)))
    (hbufs : h.bufs.Accounts (p.buf.toList ++ bufsOf ps)) : Holds extra (ps ++ [p]) h := by
  have hone : refsOf [p] = p.refs := List.flatMap_singleton ..
  have hbuf : bufsOf [p] = p.buf.toList := List.flatMap_singleton ..
  refine ⟨hrefs.perm ?_, hbufs.perm ?_⟩
  · rw [refsOf_append, hone, ← List.append_assoc extra]
    exact List.perm_append_comm
  · rw [bufsOf_append, hbuf]
    exact List.perm_append_comm

/-- A submission takes a reference for its read, or leaves none. -/
theorem submitRead_sound {hand : List Ref} (s : Snapshot) (pos : Int)
    (hrefs : h.refs.Accounts hand) :
    (h.submitRead s pos).1.status = h.status ∧ (h.submitRead s pos).1.pend = h.pend ∧
      (h.submitRead s pos).1.bufs = h.bufs ∧
      match (h.submitRead s pos).2 with
      | .error _ => (h.submitRead s pos).1.refs.Accounts hand
      | .ok ar => (h.submitRead s pos).1.refs.Accounts (ar.2 :: hand) := by
  unfold Handler.submitRead
  split
  · exact ⟨rfl, rfl, rfl, hrefs⟩
  · split
    · exact ⟨rfl, rfl, rfl, hrefs⟩
    · simp only
      split
      · exact ⟨rfl, rfl, rfl, (hrefs.take s.md.segmentID).give⟩
      · exact ⟨rfl, rfl, rfl, hrefs.take s.md.segmentID⟩

/-- Queuing a chunk. -/
theorem submitChunk_sound (s : Snapshot) (stop pos : Int) (hh : Holds extra h.pend h) :
    Holds extra (h.submitChunk s stop pos).pend (h.submitChunk s stop pos) ∧
      (h.submitChunk s stop pos).status = h.status ∧
      ∃ p : Pending, (h.submitChunk s stop pos).pend = h.pend ++ [p] ∧ p.unrefSeg = none := by
  have hbufs : (h.bufs.take ()).Accounts (h.bufs.next () :: bufsOf h.pend) := hh.bufs.take ()
  obtain ⟨hst, hpend, hbuf, hread⟩ :=
    submitRead_sound (h := { h with bufs := h.bufs.take () }) s pos hh.refs
  unfold Handler.submitChunk
  rcases hr : Handler.submitRead s pos { h with bufs := h.bufs.take () } with ⟨h', e | ar⟩ <;>
    rw [hr] at hst hpend hbuf hread <;> simp only at hst hpend hbuf hread ⊢
  · refine ⟨?_, hst, _, by rw [hpend], rfl⟩
    rw [hpend]
    have hgive : (h'.bufs.give (h.bufs.next ())).Accounts (bufsOf h.pend) := by
      rw [hbuf]
      exact hbufs.give
    exact Holds.snoc hread hgive
  · refine ⟨?_, hst, _, by rw [hpend], rfl⟩
    rw [hpend]
    have htake : h'.bufs.Accounts (h.bufs.next () :: bufsOf h.pend) := by
      rw [hbuf]
      exact hbufs
    exact Holds.snoc hread htake

/-- Queuing all chunks of a request: one item each, none with the reference of the request. -/
theorem submitChunks_sound (s : Snapshot) (stop : Int) (starts : List Int)
    (hh : Holds extra h.pend h) :
    Holds extra (starts.foldl (Handler.submitChunk s stop) h).pend
        (starts.foldl (Handler.submitChunk s stop) h) ∧
      (starts.foldl (Handler.submitChunk s stop) h).status = h.status ∧
      ∃ items : List Pending,
        (starts.foldl (Handler.submitChunk s stop) h).pend = h.pend ++ items ∧
          items.length = starts.length ∧ ∀ p ∈ items, p.unrefSeg = none := by
  induction starts generalizing h with
  | nil => exact ⟨hh, rfl, [], (List.append_nil _).symm, rfl, fun p hp => absurd hp List.not_mem_nil⟩
  | cons pos starts ih =>
    obtain ⟨hone, hst, p, hpend, hnone⟩ := submitChunk_sound s stop pos hh
    obtain ⟨hall, hst', items, hpend', hlen, hnones⟩ := ih hone
    rw [List.foldl_cons]
    refine ⟨hall, hst'.trans hst, p :: items, ?_, congrArg (· + 1) hlen, ?_⟩
    · rw [hpend', hpend, List.append_assoc]
      rfl
    · intro q hq
      rcases List.mem_cons.mp hq with rfl | hq
      · exact hnone
      · exact hnones q hq

/-- The reference of a request goes to the last item, and pushes out the one that is there. -/
theorem setLastUnref_cases (r : Ref) (ps : List Pending) :
    (ps = [] ∧ Handler.setLastUnref r ps = none) ∨
      ∃ init p, ps = init ++ [p] ∧
        Handler.setLastUnref r ps = some (init ++ [{ p with unrefSeg := some r }]) := by
  induction ps with
  | nil => exact Or.inl ⟨rfl, rfl⟩
  | cons p ps ih =>
    right
    cases ps with
    | nil => exact ⟨[], p, rfl, rfl⟩
    | cons q ps =>
      rcases ih with ⟨hnil, -⟩ | ⟨init, l, heq, hset⟩
      · cases hnil
      · refine ⟨p :: init, l, by rw [heq]; rfl, ?_⟩
        rw [Handler.setLastUnref, hset]
        rfl

/-- The accounts after the reference `r` has been handed to an item. -/
theorem Holds.handOver {init : List Pending} {p : Pending} {r : Ref}
    (hh : Holds (r :: extra) (init ++ [p]) h) :
    Holds (p.unrefSeg.toList ++ extra) (init ++ [{ p with unrefSeg := some r }])
      { h with pend := init ++ [{ p with unrefSeg := some r }] } := by
  refine ⟨hh.refs.perm ?_, ?_⟩
  · have hone : ∀ q : Pending, refsOf [q] = q.refs := fun q => List.flatMap_singleton ..
    rw [refsOf_append, refsOf_append, hone, hone, Pending.refs, Pending.refs]
    simp only [Option.toList_some]
    generalize (if p.done then [] else p.ar.toList.map Prod.snd) = reads
    -- `r` and what was there change places
    rw [List.perm_iff_count]
    intro x
    simp only [List.count_append, List.cons_append, List.count_cons, List.count_nil]
    omega
  · have hbufs := hh.bufs
    rw [bufsOf_append] at hbufs ⊢
    exact hbufs

/-- A request whose range leaves `int64`, on the asynchronous path. -/
def Wraps (inflight : Int) : Option Incoming → Prop
  | some (.getReq (.found s off size)) =>
    AsyncGet inflight (int64 off) (getSize s (int64 off) (int64 size)) ∧
      2 ^ 63 ≤ int64 off + getSize s (int64 off) (int64 size)
  | _ => False

theorem lastHolds_nil : LastHolds [] := fun p hp => by cases hp

variable (ok) in
/-- What comes after a drain. -/
theorem drained_sound {f : Handler → Handler × Bool} (hh : Holds extra h.pend h)
    (hf : ∀ h' : Handler, Holds extra [] h' → h'.pend = [] →
      Holds extra [] (f h').1 ∧ (f h').1.status = h'.status ∧ (f h').1.pend = []) :
    Holds extra (h.drained ok f).1.pend (h.drained ok f).1 ∧
      (h.drained ok f).1.status = h.status ∧
      ((h.drained ok f).2 = true → (h.drained ok f).1.pend = []) := by
  obtain ⟨hd, hst, hnil⟩ := drainAllTcpGet_sound ok hh
  unfold Handler.drained Handler.andThen
  split
  · rename_i hgo
    have hpend := hnil hgo
    rw [hpend] at hd
    obtain ⟨hf1, hf2, hf3⟩ := hf _ hd hpend
    rw [hf3]
    exact ⟨hf1, hf2.trans hst, fun _ => rfl⟩
  · rename_i hstop
    exact ⟨hd, hst, fun hgo => absurd hgo hstop⟩

/-- A frame is tried, and nothing else changes. -/
theorem writeFrame_sound (f : GetFrame) {h' : Handler} (hh : Holds extra [] h')
    (hpend : h'.pend = []) : Holds extra [] (h'.writeFrame ok f).1 ∧
      (h'.writeFrame ok f).1.status = h'.status ∧ (h'.writeFrame ok f).1.pend = [] :=
  ⟨⟨hh.refs, hh.bufs⟩, rfl, hpend⟩

variable (ok inflight) in
/-- **What a request does to the accounts.**  It leaves them, with the queue, in order; on a range
that wraps it panics on an empty queue, and on another it forgets a reference. -/
theorem submitTcpGetReq_sound (hh : Holds extra h.pend h) (hlast : LastHolds h.pend) (a : Ask)
    (hrun : h.status = .running) :
    (Wraps inflight (some (.getReq a)) ∧
        (h.submitTcpGetReq ok inflight a).1.status = .panicked ∧
        (h.submitTcpGetReq ok inflight a).2 = false) ∨
      ((h.submitTcpGetReq ok inflight a).1.status = .running ∧
        ((h.submitTcpGetReq ok inflight a).2 = true →
          LastHolds (h.submitTcpGetReq ok inflight a).1.pend) ∧
        ∃ lost : List Ref,
          Holds (lost ++ extra) (h.submitTcpGetReq ok inflight a).1.pend
            (h.submitTcpGetReq ok inflight a).1 ∧
          (lost = [] ↔ ¬ Wraps inflight (some (.getReq a)))) := by
  -- a request that is answered after a drain
  have hanswered : ∀ x : Handler × Bool, Holds extra x.1.pend x.1 → x.1.status = h.status →
      (x.2 = true → x.1.pend = []) → ¬ Wraps inflight (some (.getReq a)) →
      x.1.status = .running ∧ (x.2 = true → LastHolds x.1.pend) ∧
        ∃ lost : List Ref, Holds (lost ++ extra) x.1.pend x.1 ∧
          (lost = [] ↔ ¬ Wraps inflight (some (.getReq a))) := by
    intro x hx hst hnil hwrap
    refine ⟨hst.trans hrun, fun hgo => ?_, [], hx, fun _ => hwrap, fun _ => rfl⟩
    rw [hnil hgo]
    exact lastHolds_nil
  cases a with
  | malformed =>
    obtain ⟨hx, hst, hnil⟩ := drained_sound ok hh
      (fun h' => writeFrame_sound (.err .invalidArgument))
    exact Or.inr (hanswered _ hx hst hnil (fun hw => hw))
  | unresolved e =>
    obtain ⟨hx, hst, hnil⟩ := drained_sound ok hh
      (fun h' => writeFrame_sound (.err (mapStorageErr e)))
    exact Or.inr (hanswered _ hx hst hnil (fun hw => hw))
  | found s o z =>
    obtain ⟨off, hoff⟩ : ∃ off, off = int64 o := ⟨_, rfl⟩
    obtain ⟨size, hsize⟩ : ∃ size, size = getSize s off (int64 z) := ⟨_, rfl⟩
    have hoffr := int64_range o
    have hsizer := getSize_range s off z
    rw [← hoff] at hoffr
    rw [← hsize] at hsizer
    have href := hh.ref s.md.segmentID
    have hwraps : Wraps inflight (some (.getReq (.found s o z))) ↔
        AsyncGet inflight off size ∧ 2 ^ 63 ≤ off + size := by
      rw [hsize, hoff]
      exact Iff.rfl
    rw [Handler.submitTcpGetReq]
    simp only [← hoff, ← hsize]
    by_cases hneg : size < 0
    · rw [if_pos hneg]
      obtain ⟨hx, hst, hnil⟩ := drained_sound ok
        (h := { h with refs := h.refs.take s.md.segmentID }) href
        (fun h' => writeFrame_sound (.err .invalidRange))
      refine Or.inr (hanswered (_, _) hx.unref hst hnil ?_)
      rw [hwraps]
      rintro ⟨⟨-, -, hpos, -⟩, -⟩
      omega
    rw [if_neg hneg]
    by_cases hasync : AsyncGet inflight off size
    · rw [if_pos hasync]
      obtain ⟨hall, hst, items, hpend, hlen, hnone⟩ := submitChunks_sound s (int64 (off + size))
        (chunkStarts off (int64 (off + size)))
        (h := { h with refs := h.refs.take s.md.segmentID }) href
      generalize List.foldl (Handler.submitChunk s (int64 (off + size)))
        { h with refs := h.refs.take s.md.segmentID }
        (chunkStarts off (int64 (off + size))) = h' at hall hst hpend ⊢
      have hrun' : h'.status = .running := hst.trans hrun
      rcases setLastUnref_cases (h.refs.next s.md.segmentID) h'.pend with
        ⟨hnil, hset⟩ | ⟨init, p, hsnoc, hset⟩
      · -- nothing is queued at all
        left
        rw [hset]
        have hitems : items = [] := by
          rw [hpend] at hnil
          exact (List.append_eq_nil_iff.mp hnil).2
        refine ⟨hwraps.mpr ⟨hasync, ?_⟩, rfl, rfl⟩
        rcases int64_add_cases hoffr (by omega) hsizer.2 with ⟨-, heq⟩ | ⟨hover, -⟩
        · have hpos := hasync.2.2.1
          rw [hitems, heq, chunkStarts_of_lt (by omega)] at hlen
          cases hlen
        · exact hover
      · right
        rw [hset]
        rw [hsnoc] at hall
        have hgiven := hall.handOver
        refine ⟨hrun', fun _ q hq => ?_, p.unrefSeg.toList, hgiven, ?_⟩
        · rw [List.getLast?_append] at hq
          cases hq
          exact Option.some_ne_none _
        · rw [hwraps, Option.toList_eq_nil_iff]
          rcases int64_add_cases hoffr (by omega) hsizer.2 with ⟨hin, heq⟩ | ⟨hover, hlt⟩
          · -- the last item is one of this request
            have hmem : p ∈ items := by
              have hpos := hasync.2.2.1
              rw [heq, chunkStarts_of_lt (by omega)] at hlen
              obtain ⟨init', l, rfl⟩ : ∃ init' l, items = init' ++ [l] := by
                rcases List.eq_nil_or_concat items with hnil | ⟨init', l, h⟩
                · rw [hnil] at hlen
                  cases hlen
                · exact ⟨init', l, h.trans List.concat_eq_append⟩
              rw [hsnoc, ← List.append_assoc] at hpend
              obtain ⟨-, hp⟩ := List.append_inj' hpend rfl
              rw [List.singleton_inj.mp hp]
              exact List.mem_append_right _ (List.mem_singleton.mpr rfl)
            exact ⟨fun _ hw => by omega, fun _ => hnone p hmem⟩
          · -- it is one that was there before
            rw [chunkStarts_of_le (by omega), List.length_nil, List.length_eq_zero_iff] at hlen
            rw [hlen, List.append_nil, hsnoc] at hpend
            have hp : p.unrefSeg ≠ none := by
              apply hlast p
              show p ∈ h.pend.getLast?
              rw [← show init ++ [p] = h.pend from hpend, List.getLast?_append]
              rfl
            exact ⟨fun hnone => absurd hnone hp, fun hw => absurd ⟨hasync, hover⟩ hw⟩
    · rw [if_neg hasync]
      obtain ⟨hx, hst, hnil⟩ := drained_sound ok
        (h := { h with refs := h.refs.take s.md.segmentID }) (f := Handler.getSync ok s off size)
        href (fun h' hh' hpend' => by
          obtain ⟨h1, h2, h3⟩ := getSyncFrom_sound ok s (int64 (off + size))
            (int64 (off + size) - off).toNat off hh'
          exact ⟨h1, h2, h3.trans hpend'⟩)
      refine Or.inr (hanswered (_, _) hx.unref hst hnil ?_)
      rw [hwraps]
      exact fun hw => hasync hw.1

end Submit

/-! ## 5. The stream -/

section Run

variable {lost : List Ref} {h : Handler} {ok : Nat → Bool} {inflight : Int}

/-- The handler when so many references are forgotten: it runs, and the accounts are in order but
for these, or it has returned and holds only these. -/
def Fine (lost : List Ref) (h : Handler) : Prop :=
  (h.status = .running ∧ Holds lost h.pend h ∧ LastHolds h.pend) ∨
    (h.status = .returned ∧ h.refs.Accounts lost ∧ h.bufs.Accounts [])

/-- **Every exit settles the accounts.** -/
theorem exit_fine (hh : Holds lost h.pend h) (hrun : h.status = .running) :
    Fine lost h.exit ∧ h.exit.status = .returned := by
  obtain ⟨hrefs, hbufs, hst, -⟩ := exitItems_sound hh
  have hret : h.exit.status = .returned := by
    show (if (Handler.exitItems h.pend h).status = .panicked then _ else _) = _
    rw [hst, hrun]
    rfl
  exact ⟨Or.inr ⟨hret, hrefs, hbufs⟩, hret⟩

theorem finish_fine {x : Handler × Bool} (hx : Holds lost x.1.pend x.1)
    (hrun : x.1.status = .running) (hl : x.2 = true → LastHolds x.1.pend) :
    Fine lost (Handler.finish x) := by
  unfold Handler.finish
  split
  · rename_i hgo
    exact Or.inl ⟨hrun, hx, hl hgo⟩
  · exact (exit_fine hx hrun).1

variable (ok inflight) in
theorem settle_sound (hh : Holds lost h.pend h) (hlast : LastHolds h.pend) :
    Holds lost (h.settle ok inflight).1.pend (h.settle ok inflight).1 ∧
      (h.settle ok inflight).1.status = h.status ∧
      ((h.settle ok inflight).2 = true → LastHolds (h.settle ok inflight).1.pend) := by
  obtain ⟨hd, hst, hsuf⟩ := drainTcpGetHead_sound ok hh
  unfold Handler.settle Handler.andThen
  split
  · rename_i hgo
    have hlast' := hlast.suffix (hsuf hgo)
    beta_reduce
    split
    · obtain ⟨hall, hst', hnil⟩ := drainAllTcpGet_sound ok hd
      refine ⟨hall, hst'.trans hst, fun hgo' => ?_⟩
      rw [hnil hgo']
      exact lastHolds_nil
    · exact ⟨hd, hst, fun _ => hlast'⟩
  · rename_i hstop
    exact ⟨hd, hst, fun hgo => absurd hgo hstop⟩

/-! No frame fails to be written. -/

theorem drainTcpGetHead_ok (hok : ∀ n, ok n = true) (ps : List Pending) (h : Handler) :
    (Handler.drainTcpGetHead ok ps h).2 = true := by
  induction ps generalizing h with
  | nil => rfl
  | cons p ps ih =>
    rw [Handler.drainTcpGetHead]
    split
    · have hw : (h.writeTcpGetFrame ok p).2 = true := hok _
      rcases hx : h.writeTcpGetFrame ok p with ⟨h', b⟩
      rw [hx] at hw
      cases hw
      exact ih h'
    · rfl

theorem drainAllTcpGet_ok (hok : ∀ n, ok n = true) (ps : List Pending) (h : Handler) :
    (Handler.drainAllTcpGet ok ps h).2 = true := by
  induction ps generalizing h with
  | nil => rfl
  | cons p ps ih =>
    rw [Handler.drainAllTcpGet]
    have hw : ((h.await p).1.writeTcpGetFrame ok (h.await p).2).2 = true := hok _
    rcases hx : (h.await p).1.writeTcpGetFrame ok (h.await p).2 with ⟨h', b⟩
    rw [hx] at hw
    cases hw
    exact ih h'

theorem getSyncFrom_ok (hok : ∀ n, ok n = true) (s : Snapshot) (stop : Int) (fuel : Nat)
    (pos : Int) (h : Handler) : (Handler.getSyncFrom ok s stop fuel pos h).2 = true := by
  induction fuel generalizing pos h with
  | zero => rfl
  | succ fuel ih =>
    rw [Handler.getSyncFrom]
    split
    · simp only
      split
      · split
        · rfl
        · exact hok _
        · exact ih _ _
      · split
        · split
          · rfl
          · exact hok _
          · exact ih _ _
        · rename_i hw
          exact absurd (hok _) hw
    · rfl

theorem drained_ok (hok : ∀ n, ok n = true) {f : Handler → Handler × Bool}
    (hf : ∀ h', (f h').2 = true) : (h.drained ok f).2 = true := by
  unfold Handler.drained Handler.andThen
  rw [if_pos (drainAllTcpGet_ok hok _ _)]
  exact hf _

variable (inflight) in
theorem settle_ok (hok : ∀ n, ok n = true) (h : Handler) :
    (h.settle ok inflight).2 = true := by
  unfold Handler.settle Handler.andThen
  rw [if_pos (drainTcpGetHead_ok hok _ _)]
  beta_reduce
  split
  · exact drainAllTcpGet_ok hok _ _
  · rfl

variable (inflight) in
theorem submitTcpGetReq_ok (hok : ∀ n, ok n = true) (h : Handler) (a : Ask) :
    (h.submitTcpGetReq ok inflight a).2 = true ∨
      (h.submitTcpGetReq ok inflight a).1.status = .panicked := by
  cases a with
  | malformed => exact Or.inl (drained_ok hok (fun h' => hok _))
  | unresolved e => exact Or.inl (drained_ok hok (fun h' => hok _))
  | found s off size =>
    rw [Handler.submitTcpGetReq]
    simp only
    split
    · exact Or.inl (drained_ok hok (fun h' => hok _))
    · split
      · split
        · exact Or.inl rfl
        · exact Or.inr rfl
      · exact Or.inl (drained_ok hok (fun h' => getSyncFrom_ok hok _ _ _ _ _))

/-! A turn. -/

theorem exitItems_status (ps : List Pending) (h : Handler) :
    (Handler.exitItems ps h).status = h.status := by
  induction ps generalizing h with
  | nil => rfl
  | cons p ps ih =>
    rw [Handler.exitItems, ih, release_status]
    split <;> rfl

/-- The handler before it looks for a frame, and what it does with what it finds. -/
theorem turn_eq (hrun : h.status = .running) (msg : Option Incoming) :
    h.turn ok inflight msg = if (h.settle ok inflight).2 = true then
        Handler.finish ((h.settle ok inflight).1.handle ok inflight msg)
      else (h.settle ok inflight).1.exit := by
  unfold Handler.turn Handler.andThen
  rw [if_pos hrun]
  split
  · rfl
  · rename_i hstop
    unfold Handler.finish
    rw [if_neg hstop]

variable (ok inflight) in
/-- **One turn.**  The accounts stay in order, unless a range wraps: then the handler panics or
forgets a reference. -/
theorem turn_fine (h0 : Fine lost h) (msg : Option Incoming) :
    ((h.turn ok inflight msg).status = .panicked ∧ Wraps inflight msg) ∨
      ∃ more : List Ref, Fine (more ++ lost) (h.turn ok inflight msg) ∧
        (more ≠ [] → Wraps inflight msg) ∧
        ((∀ n, ok n = true) → h.status = .running → Wraps inflight msg → more ≠ []) := by
  rcases h0 with ⟨hrun, hh, hlast⟩ | ⟨hret, hrefs, hbufs⟩
  · obtain ⟨hs, hst, hlast'⟩ := settle_sound ok inflight hh hlast
    have hrun' := hst.trans hrun
    rw [turn_eq hrun]
    split
    · rename_i hgo
      have hlast'' := hlast' hgo
      generalize (h.settle ok inflight).1 = h' at hs hrun' hlast'' ⊢
      cases msg with
      | none =>
        obtain ⟨hd, hst', hnil⟩ := drainAllTcpGet_sound ok hs
        refine Or.inr ⟨[], ?_, fun hne => absurd rfl hne, fun _ _ hw => hw.elim⟩
        refine finish_fine (x := Handler.drainAllTcpGet ok h'.pend h') hd (hst'.trans hrun') ?_
        intro hgo'
        rw [hnil hgo']
        exact lastHolds_nil
      | some m =>
        cases m with
        | other =>
          exact Or.inr ⟨[], (exit_fine hs hrun').1, fun hne => absurd rfl hne,
            fun _ _ hw => hw.elim⟩
        | getReq a =>
          rcases submitTcpGetReq_sound ok inflight hs hlast'' a hrun' with
            ⟨hw, hpanic, hstop⟩ | ⟨hrun'', hl, more, hm, hiff⟩
          · left
            refine ⟨?_, hw⟩
            unfold Handler.finish Handler.handle
            rw [if_neg (by rw [hstop]; exact Bool.false_ne_true)]
            show (if (Handler.exitItems _ _).status = .panicked then _ else _) = _
            rw [exitItems_status, if_pos hpanic]
          · right
            refine ⟨more, finish_fine (x := Handler.submitTcpGetReq ok inflight h' a) hm hrun'' hl,
              fun hne => ?_, fun _ _ hw hnil => hiff.mp hnil hw⟩
            by_contra hw
            exact hne (hiff.mpr hw)
    · rename_i hstop
      refine Or.inr ⟨[], (exit_fine hs hrun').1, fun hne => absurd rfl hne, fun hok _ _ => ?_⟩
      exact absurd (settle_ok _ hok h) hstop
  · have hsame : h.turn ok inflight msg = h := if_neg (by rw [hret]; exact Status.noConfusion)
    rw [hsame]
    refine Or.inr ⟨[], Or.inr ⟨hret, hrefs, hbufs⟩, fun hne => absurd rfl hne,
      fun _ hrun => ?_⟩
    rw [hret] at hrun
    cases hrun

/-- The handler goes on after each turn, unless it panics or finds another frame. -/
theorem turn_goes_on (hok : ∀ n, ok n = true) (hrun : h.status = .running)
    (h0 : Fine lost h) {msg : Option Incoming} (hmsg : msg ≠ some .other) :
    (h.turn ok inflight msg).status = .running ∨ (h.turn ok inflight msg).status = .panicked := by
  rcases h0 with ⟨-, hh, hlast⟩ | ⟨hret, -⟩
  · obtain ⟨hs, hst, hlast'⟩ := settle_sound ok inflight hh hlast
    have hgo := settle_ok inflight hok h
    have hlast'' := hlast' hgo
    have hrun' := hst.trans hrun
    rw [turn_eq hrun, if_pos hgo]
    generalize (h.settle ok inflight).1 = h' at hs hrun' hlast'' ⊢
    cases msg with
    | none =>
      left
      unfold Handler.finish Handler.handle
      rw [if_pos (drainAllTcpGet_ok hok _ _)]
      exact (drainAllTcpGet_sound _ hs).2.1.trans hrun'
    | some m =>
      cases m with
      | other => exact absurd rfl hmsg
      | getReq a =>
        unfold Handler.finish Handler.handle
        rcases submitTcpGetReq_sound ok inflight hs hlast'' a hrun' with
          ⟨-, hpanic, hstop⟩ | ⟨hrun'', -⟩
        · right
          rw [if_neg (by rw [hstop]; exact Bool.false_ne_true)]
          show (if (Handler.exitItems _ _).status = .panicked then _ else _) = _
          rw [exitItems_status, if_pos hpanic]
        · left
          rcases submitTcpGetReq_ok inflight hok h' a with hgo' | hpanic
          · rw [if_pos hgo']
            exact hrun''
          · rw [hpanic] at hrun''
            cases hrun''
  · rw [hret] at hrun
    cases hrun

theorem close_of_panicked (hp : h.status = .panicked) : h.close ok inflight = h :=
  if_neg (by rw [hp]; exact Status.noConfusion)

theorem foldl_of_panicked (hp : h.status = .panicked) (msgs : List (Option Incoming)) :
    msgs.foldl (Handler.turn ok inflight) h = h := by
  induction msgs with
  | nil => rfl
  | cons m msgs ih =>
    have hsame : h.turn ok inflight m = h := if_neg (by rw [hp]; exact Status.noConfusion)
    rw [List.foldl_cons, hsame, ih]

variable (ok inflight) in
/-- The end of the stream leaves what is forgotten, and nothing else, in hand. -/
theorem close_fine (h0 : Fine lost h) : (h.close ok inflight).status = .returned ∧
    (h.close ok inflight).refs.Accounts lost ∧ (h.close ok inflight).bufs.Accounts [] := by
  rcases h0 with ⟨hrun, hh, hlast⟩ | ⟨hret, hrefs, hbufs⟩
  · obtain ⟨hs, hst, -⟩ := settle_sound ok inflight hh hlast
    have hrun' := hst.trans hrun
    have hexit : ∀ h' : Handler, Holds lost h'.pend h' → h'.status = .running →
        h'.exit.status = .returned ∧ h'.exit.refs.Accounts lost ∧ h'.exit.bufs.Accounts [] := by
      intro h' hh' hr
      obtain ⟨hrefs, hbufs, -, -⟩ := exitItems_sound hh'
      exact ⟨(exit_fine hh' hr).2, hrefs, hbufs⟩
    unfold Handler.close Handler.andThen
    rw [if_pos hrun]
    split
    · obtain ⟨hd, hst', -⟩ := drainAllTcpGet_sound ok hs
      exact hexit _ hd (hst'.trans hrun')
    · exact hexit _ hs hrun'
  · have hsame : h.close ok inflight = h := if_neg (by rw [hret]; exact Status.noConfusion)
    rw [hsame]
    exact ⟨hret, hrefs, hbufs⟩

/-- The frames that the handler takes when no write fails: those before the first that is not a
`GetReq`. -/
def taken (msgs : List (Option Incoming)) : List (Option Incoming) :=
  msgs.takeWhile (fun m => match m with
    | some .other => false
    | _ => true)

variable (ok inflight) in
/-- The accounts over a run. -/
theorem foldl_fine (h0 : Fine lost h) (msgs : List (Option Incoming)) :
    (msgs.foldl (Handler.turn ok inflight) h).status = .panicked ∨
      ∃ more : List Ref, Fine (more ++ lost) (msgs.foldl (Handler.turn ok inflight) h) := by
  induction msgs generalizing h lost with
  | nil => exact Or.inr ⟨[], h0⟩
  | cons m msgs ih =>
    rw [List.foldl_cons]
    rcases turn_fine ok inflight h0 m with ⟨hpanic, -⟩ | ⟨more, hfine, -⟩
    · left
      rw [foldl_of_panicked hpanic, hpanic]
    · rcases ih hfine with hpanic | ⟨more', hfine'⟩
      · exact Or.inl hpanic
      · exact Or.inr ⟨more' ++ more, by rw [List.append_assoc]; exact hfine'⟩

theorem taken_cons_of_ne {m : Option Incoming} (hm : m ≠ some .other)
    (msgs : List (Option Incoming)) : taken (m :: msgs) = m :: taken msgs := by
  unfold taken
  rw [List.takeWhile_cons]
  cases m with
  | none => rfl
  | some i =>
    cases i with
    | other => exact absurd rfl hm
    | getReq a => rfl

variable (ok inflight) in
/-- **While no range wraps nothing is forgotten**, wherever writing fails. -/
theorem foldl_in_order (msgs : List (Option Incoming)) (h0 : Fine [] h)
    (hw : h.status = .running → ∀ m ∈ taken msgs, ¬ Wraps inflight m) :
    Fine [] (msgs.foldl (Handler.turn ok inflight) h) := by
  induction msgs generalizing h with
  | nil => exact h0
  | cons m msgs ih =>
    rw [List.foldl_cons]
    by_cases hrun : h.status = .running
    · have hwrap : ¬ Wraps inflight m := by
        by_cases hm : m = some .other
        · rw [hm]
          exact fun hf => hf
        · have hall := hw hrun
          rw [taken_cons_of_ne hm] at hall
          exact hall m List.mem_cons_self
      rcases turn_fine ok inflight h0 m with ⟨-, hf⟩ | ⟨more, hfine, hne, -⟩
      · exact absurd hf hwrap
      · have hnil : more = [] := by
          by_contra hmore
          exact hwrap (hne hmore)
        subst hnil
        refine ih hfine (fun hrun' m' hm' => ?_)
        by_cases hm : m = some .other
        · -- the handler has returned
          subst hm
          rcases h0 with ⟨-, hh, hlast⟩ | ⟨hret, -⟩
          · obtain ⟨hs, hst, -⟩ := settle_sound ok inflight hh hlast
            have hret := (exit_fine hs (hst.trans hrun)).2
            rw [turn_eq hrun] at hrun'
            unfold Handler.finish Handler.handle at hrun'
            simp only [Bool.false_eq_true, if_false, ite_self] at hrun'
            rw [hret] at hrun'
            cases hrun'
          · rw [hret] at hrun
            cases hrun
        · have hall := hw hrun
          rw [taken_cons_of_ne hm] at hall
          exact hall m' (List.mem_cons_of_mem m hm')
    · have hsame : h.turn ok inflight m = h := if_neg hrun
      rw [hsame]
      exact ih h0 (fun hrun' => absurd hrun' hrun)

/-- When every frame is written, a range that wraps is met. -/
theorem foldl_forgets (hok : ∀ n, ok n = true) (msgs : List (Option Incoming))
    (hrun : h.status = .running) (h0 : Fine lost h) (hw : ∃ m ∈ taken msgs, Wraps inflight m) :
    (msgs.foldl (Handler.turn ok inflight) h).status = .panicked ∨
      ∃ more : List Ref, more ≠ [] ∧
        Fine (more ++ lost) (msgs.foldl (Handler.turn ok inflight) h) := by
  induction msgs generalizing h lost with
  | nil =>
    obtain ⟨m, hm, -⟩ := hw
    exact absurd hm List.not_mem_nil
  | cons m msgs ih =>
    obtain ⟨m', hm', hwraps⟩ := hw
    have hne : m ≠ some .other := by
      rintro rfl
      exact absurd hm' List.not_mem_nil
    rw [taken_cons_of_ne hne] at hm'
    rw [List.foldl_cons]
    rcases turn_fine ok inflight h0 m with
      ⟨hpanic, -⟩ | ⟨more, hfine, -, hmore⟩
    · left
      rw [foldl_of_panicked hpanic, hpanic]
    · by_cases hnil : more = []
      · -- this one does not wrap
        subst hnil
        have hrun' : (h.turn ok inflight m).status = .running := by
          rcases turn_goes_on hok hrun h0 hne with hr | hp
          · exact hr
          · rcases hfine with ⟨hr, -⟩ | ⟨hr, -⟩ <;> rw [hp] at hr <;> cases hr
        rcases List.mem_cons.mp hm' with rfl | hm'
        · exact absurd rfl (hmore hok hrun hwraps)
        · exact ih hrun' hfine ⟨m', hm', hwraps⟩
      · rcases foldl_fine ok inflight hfine msgs with hp | ⟨more', hfine'⟩
        · exact Or.inl hp
        · refine Or.inr ⟨more' ++ more, ?_, by rw [List.append_assoc]; exact hfine'⟩
          intro happ
          exact hnil (List.append_eq_nil_iff.mp happ).2

end Run

theorem start_fine : Fine [] Handler.start :=
  Or.inl ⟨rfl, ⟨Ledger.accounts_empty, Ledger.accounts_empty⟩, lastHolds_nil⟩

/-- **The balance of a stream, exactly.**  Wherever writing a frame fails, the handler returns
without a panic, every reference has been given back once and no buffer twice, if and only if no
request that it takes wraps on the asynchronous path. -/
theorem balanced_iff (inflight : Int) (msgs : List (Option Incoming)) :
    (∀ ok, Balanced (handleGetStream ok inflight msgs)) ↔
      ∀ m ∈ taken msgs, ¬ Wraps inflight m := by
  constructor
  · intro hall m hm hw
    obtain ⟨hret, hrefs, -⟩ := hall (fun _ => true)
    unfold handleGetStream at hret hrefs
    rcases foldl_forgets (fun _ => rfl) msgs rfl start_fine ⟨m, hm, hw⟩ with
      hp | ⟨more, hne, hfine⟩
    · rw [close_of_panicked hp, hp] at hret
      cases hret
    · rw [List.append_nil] at hfine
      obtain ⟨-, hacc, -⟩ := close_fine (fun _ => true) inflight hfine
      exact hne (hacc.settled_iff.mp hrefs)
  · intro hw ok
    have hfine := foldl_in_order ok _ msgs start_fine (fun _ => hw)
    obtain ⟨hret, hrefs, hbufs⟩ := close_fine ok inflight hfine
    exact ⟨hret, hrefs.settled_iff.mpr rfl, hbufs.nodup_back⟩

/-- An object of one byte, on a device that cannot read it. -/
def byteObject : Snapshot where
  md := ⟨3, 0, 1⟩
  content := [7]
  dev _ _ := .failed .io
  content_length := oneByteObject.content_length
  offset_nonneg := by decide
  offset_aligned := by decide
  extent_lt := by decide
  dev_done := by
    intro start dlen buf n h
    cases h

/-- A range whose end is past `int64`. -/
def wrappingGet : Option Incoming := some (.getReq (.found byteObject (2 ^ 62) (2 ^ 62)))

/-- It panics on an empty queue; and behind another request it takes the place of that one's
reference, so that of the three that are taken one is never given back. -/
theorem wrapping_get_unbalanced :
    (handleGetStream (fun _ => true) 2 [wrappingGet]).status = .panicked ∧
      (handleGetStream (fun _ => true) 2
        [some (.getReq (.found byteObject 0 chunkSize)), wrappingGet]).refs =
          ⟨[3, 3, 3], [(3, 1), (3, 2)]⟩ ∧
      ¬ Balanced (handleGetStream (fun _ => true) 2
        [some (.getReq (.found byteObject 0 chunkSize)), wrappingGet]) := by
  have hrefs : (handleGetStream (fun _ => true) 2
      [some (.getReq (.found byteObject 0 chunkSize)), wrappingGet]).refs =
        ⟨[3, 3, 3], [(3, 1), (3, 2)]⟩ := by decide +kernel
  refine ⟨by decide +kernel, hrefs, ?_⟩
  rintro ⟨-, hsettled, -⟩
  rw [hrefs] at hsettled
  have hlen := hsettled.length_eq
  cases hlen

end Taihu.GetRefs
