/-
# The discipline of a Get stream

The handler of `GetStream.lean` over a whole sequence of requests.  What is written and what is
queued to be written are, at every moment, the answers to the requests taken so far, in their
order (`serve_spec`); only the answers themselves can be wrong.  An empty or wrapping range has
no frame, and the asynchronous path sends the frames of all its chunks although one of them
before the last may end the response.  `disciplined_iff` says for which requests that does not
happen.
-/
import Taihu.GetChunks
import Mathlib

namespace Taihu

open Framing

/-! ## 1. The answer to one request -/

/-- The frames that answer a request. -/
def answer (inflight : Int) : Ask → List GetFrame
  | .malformed => [.err .invalidArgument]
  | .unresolved e => [.err (mapStorageErr e)]
  | .found s off size =>
    let off := int64 off
    let size := getSize s off (int64 size)
    if size < 0 then [.err .invalidRange]
    else if AsyncGet inflight off size then chunkFrames s off (int64 (off + size))
    else getSync s off size

theorem getSize_range (s : Snapshot) (off size : Int) :
    -2 ^ 63 ≤ getSize s off (int64 size) ∧ getSize s off (int64 size) < 2 ^ 63 := by
  unfold getSize
  split
  · exact int64_range _
  · exact int64_range _

/-- The end of a range either is where it should be, or wraps and lies before the range. -/
theorem int64_add_cases {off size : Int} (hoff : -2 ^ 63 ≤ off ∧ off < 2 ^ 63)
    (h0 : 0 ≤ size) (hsize : size < 2 ^ 63) :
    (off + size < 2 ^ 63 ∧ int64 (off + size) = off + size) ∨
      (2 ^ 63 ≤ off + size ∧ int64 (off + size) < off) := by
  unfold int64
  omega

/-- What a queued item will be written as. -/
def TcpGetPending.owes (p : TcpGetPending) : Nat × GetFrame := (p.req, p.await.frame)

/-- **The items of an asynchronous request owe the frames of its chunks.** -/
theorem map_owes_submitChunk {s : Snapshot} {off stop : Int} (hoff : off % blockSize = 0)
    (hsize : (stop - off) % chunkSize = 0) (req : Nat) :
    ((chunkStarts off stop).map (GetStream.submitChunk req s stop)).map TcpGetPending.owes =
      tag req (chunkFrames s off stop) := by
  rw [chunkFrames, tag, List.map_map, List.map_map]
  refine List.map_congr_left (fun p hp => ?_)
  obtain ⟨k, hk, hlt⟩ := mem_chunkStarts hp
  have haligned : p % blockSize = 0 ∧ chunkWant stop p = chunkSize := by
    unfold blockSize chunkWant chunkSize at *
    split <;> omega
  obtain ⟨q, hq, hreq, hpos, hstop, hread⟩ := await_submitChunk (s := s) haligned.1 req stop
  have hreq' : (GetStream.submitChunk req s stop p).req = req := by
    unfold GetStream.submitChunk
    split <;> rfl
  show ((GetStream.submitChunk req s stop p).req, _) = (req, chunkFrame s stop p)
  rw [hreq', hq, TcpGetPending.frame, chunkFrame, haligned.2, hpos, hstop, ← hread]

/-! ## 2. The queue -/

namespace GetStream

variable {inflight : Int}

/-- What is written, and what is queued to be written. -/
def owed (h : GetStream) : List (Nat × GetFrame) := h.out ++ h.pend.map TcpGetPending.owes

/-- Waiting for a read that is done changes nothing. -/
theorem await_of_done {p : TcpGetPending} (h : p.done = true) : p.await = p := if_pos h

/-- Writing finished items out leaves what is owed, and the rest of the handler. -/
theorem drainTcpGetHead_spec (h : GetStream) (ps : List TcpGetPending) :
    (h.drainTcpGetHead ps).owed = h.out ++ ps.map TcpGetPending.owes ∧
      (h.drainTcpGetHead ps).taken = h.taken ∧ (h.drainTcpGetHead ps).status = h.status := by
  induction ps generalizing h with
  | nil => exact ⟨rfl, rfl, rfl⟩
  | cons p ps ih =>
    rw [drainTcpGetHead]
    by_cases hp : p.done
    · rw [if_pos hp]
      obtain ⟨howed, htaken, hstatus⟩ := ih (h.writeTcpGetFrame p)
      refine ⟨?_, htaken, hstatus⟩
      rw [howed]
      show (h.out ++ [(p.req, p.frame)]) ++ _ = _
      rw [List.append_assoc, List.map_cons, TcpGetPending.owes, await_of_done hp]
      rfl
    · rw [if_neg hp]
      exact ⟨rfl, rfl, rfl⟩

/-- Draining writes what is owed. -/
theorem drainAllTcpGet_spec (h : GetStream) (ps : List TcpGetPending) :
    (h.drainAllTcpGet ps).out = h.out ++ ps.map TcpGetPending.owes ∧
      (h.drainAllTcpGet ps).pend = [] ∧ (h.drainAllTcpGet ps).taken = h.taken ∧
      (h.drainAllTcpGet ps).status = h.status := by
  induction ps generalizing h with
  | nil => exact ⟨by simp [drainAllTcpGet], rfl, rfl, rfl⟩
  | cons p ps ih =>
    obtain ⟨hout, hpend, htaken, hstatus⟩ := ih (h.writeTcpGetFrame p.await)
    refine ⟨?_, hpend, htaken, hstatus⟩
    rw [drainAllTcpGet, hout]
    have hreq : p.await.req = p.req := by
      unfold TcpGetPending.await
      split
      · rfl
      · split <;> rfl
    show (h.out ++ [(p.await.req, p.await.frame)]) ++ _ = _
    rw [List.append_assoc, hreq, List.map_cons]
    rfl

theorem owed_of_drainAll (h : GetStream) : (h.drainAllTcpGet h.pend).owed = h.owed := by
  obtain ⟨hout, hpend, -, -⟩ := h.drainAllTcpGet_spec h.pend
  rw [owed, hout, hpend]
  exact List.append_nil _

/-- A reply after a drain comes last. -/
theorem owed_reply (h : GetStream) (fs : List GetFrame) :
    ((h.drainAllTcpGet h.pend).reply fs).owed = h.owed ++ tag h.taken fs := by
  obtain ⟨hout, hpend, htaken, -⟩ := h.drainAllTcpGet_spec h.pend
  rw [owed, reply]
  simp only [hout, hpend, htaken, List.map_nil, List.append_nil]
  rfl

theorem setLastUnref_owes {seg : Int} {ps qs : List TcpGetPending}
    (h : setLastUnref seg ps = some qs) : qs.map TcpGetPending.owes = ps.map TcpGetPending.owes := by
  induction ps generalizing qs with
  | nil => cases h
  | cons p ps ih =>
    cases ps with
    | nil =>
      cases h
      simp only [List.map_cons, List.map_nil, TcpGetPending.owes, TcpGetPending.await]
      split
      · rfl
      · split <;> rfl
    | cons q ps =>
      obtain ⟨rs, hrs, rfl⟩ := Option.map_eq_some_iff.mp h
      rw [List.map_cons, List.map_cons, ih hrs]

theorem setLastUnref_eq_none {seg : Int} {ps : List TcpGetPending}
    (h : setLastUnref seg ps = none) : ps = [] := by
  induction ps with
  | nil => rfl
  | cons p ps ih =>
    cases ps with
    | nil => cases h
    | cons q ps => exact absurd (ih (Option.map_eq_none_iff.mp h)) (List.cons_ne_nil _ _)

/-- **Taking a request adds the frames of its answer to what is owed.**  The handler goes on,
unless it panics, which it only does on a range that wraps. -/
theorem submitTcpGetReq_spec (inflight : Int) (h : GetStream) (a : Ask) :
    (h.submitTcpGetReq inflight a).owed = h.owed ++ tag h.taken (answer inflight a) ∧
      (((h.submitTcpGetReq inflight a).status = h.status ∧
          (h.submitTcpGetReq inflight a).taken = h.taken + 1) ∨
        ((h.submitTcpGetReq inflight a).status = .panicked ∧ 0 < inflight ∧
          answer inflight a = [])) := by
  obtain ⟨-, -, htaken, hstatus⟩ := h.drainAllTcpGet_spec h.pend
  cases a with
  | malformed => exact ⟨h.owed_reply _, .inl ⟨hstatus, congrArg (· + 1) htaken⟩⟩
  | unresolved e => exact ⟨h.owed_reply _, .inl ⟨hstatus, congrArg (· + 1) htaken⟩⟩
  | found s o z =>
    obtain ⟨off, hoff⟩ : ∃ off, off = int64 o := ⟨_, rfl⟩
    obtain ⟨size, hsize⟩ : ∃ size, size = getSize s off (int64 z) := ⟨_, rfl⟩
    have hrange := getSize_range s off z
    have hoffr := int64_range o
    simp only [submitTcpGetReq, answer, ← hoff, ← hsize]
    rw [← hsize] at hrange
    rw [← hoff] at hoffr
    by_cases hneg : size < 0
    · rw [if_pos hneg, if_pos hneg]
      exact ⟨h.owed_reply _, .inl ⟨hstatus, congrArg (· + 1) htaken⟩⟩
    rw [if_neg hneg, if_neg hneg]
    by_cases hasync : AsyncGet inflight off size
    · rw [if_pos hasync, if_pos hasync]
      have hchunks : (int64 (off + size) - off) % chunkSize = 0 ∨ int64 (off + size) < off := by
        have hmod := hasync.2.2.2
        rcases int64_add_cases hoffr (by omega) hrange.2 with ⟨-, heq⟩ | ⟨-, hlt⟩
        · left
          rw [heq, show off + size - off = size by omega]
          exact hmod
        · exact .inr hlt
      have howes : ((chunkStarts off (int64 (off + size))).map (submitChunk h.taken s
          (int64 (off + size)))).map TcpGetPending.owes =
            tag h.taken (chunkFrames s off (int64 (off + size))) := by
        rcases hchunks with hmod | hlt
        · exact map_owes_submitChunk hasync.2.1 hmod h.taken
        · rw [chunkFrames_of_le (by omega), chunkStarts_of_le (by omega)]
          rfl
      cases hset : setLastUnref s.md.segmentID (h.pend ++ (chunkStarts off
          (int64 (off + size))).map (submitChunk h.taken s (int64 (off + size)))) with
      | some pend =>
        refine ⟨?_, .inl ⟨rfl, rfl⟩⟩
        show h.out ++ pend.map TcpGetPending.owes = _
        rw [setLastUnref_owes hset, List.map_append, howes, ← List.append_assoc]
        rfl
      | none =>
        have hnil := (List.append_eq_nil_iff.mp (setLastUnref_eq_none hset)).2
        have hframes : chunkFrames s off (int64 (off + size)) = [] := by
          rw [chunkFrames, List.map_eq_nil_iff.mp hnil, List.map_nil]
        rw [hframes]
        exact ⟨(List.append_nil _).symm, .inr ⟨rfl, hasync.1, rfl⟩⟩
    · rw [if_neg hasync, if_neg hasync]
      exact ⟨h.owed_reply _, .inl ⟨hstatus, congrArg (· + 1) htaken⟩⟩

/-- Before it looks for a frame, a turn only writes what is owed. -/
theorem settle_spec (inflight : Int) (h : GetStream) : (h.settle inflight).owed = h.owed ∧
    (h.settle inflight).taken = h.taken ∧ (h.settle inflight).status = h.status := by
  obtain ⟨hhead, htaken, hstatus⟩ := h.drainTcpGetHead_spec h.pend
  obtain ⟨-, -, htaken', hstatus'⟩ :=
    (h.drainTcpGetHead h.pend).drainAllTcpGet_spec (h.drainTcpGetHead h.pend).pend
  unfold settle
  by_cases hfull : 0 < inflight ∧ ((h.drainTcpGetHead h.pend).pend.length : Int) ≥ inflight
  · rw [if_pos hfull]
    exact ⟨(owed_of_drainAll _).trans hhead, htaken'.trans htaken, hstatus'.trans hstatus⟩
  · rw [if_neg hfull]
    exact ⟨hhead, htaken, hstatus⟩

theorem turn_of_running {h : GetStream} (hrun : h.status = .running) (msg : Option Incoming) :
    turn inflight h msg = (h.settle inflight).handle inflight msg := if_pos hrun

/-- A handler that does not run takes no turn. -/
theorem turn_of_not_running {h : GetStream} (hne : h.status ≠ .running) (msg : Option Incoming) :
    turn inflight h msg = h := if_neg hne

/-- What the handler has written stays written. -/
theorem out_prefix_drainTcpGetHead (h : GetStream) (ps : List TcpGetPending) :
    h.out <+: (h.drainTcpGetHead ps).out := by
  induction ps generalizing h with
  | nil => exact List.prefix_rfl
  | cons p ps ih =>
    rw [drainTcpGetHead]
    split
    · exact (List.prefix_append _ _).trans (ih (h.writeTcpGetFrame p))
    · exact List.prefix_rfl

theorem out_prefix_drainAllTcpGet (h : GetStream) (ps : List TcpGetPending) :
    h.out <+: (h.drainAllTcpGet ps).out := by
  rw [(h.drainAllTcpGet_spec ps).1]
  exact List.prefix_append _ _

theorem out_prefix_settle (inflight : Int) (h : GetStream) : h.out <+: (h.settle inflight).out := by
  have hhead := h.out_prefix_drainTcpGetHead h.pend
  simp only [settle]
  split
  · exact hhead.trans (out_prefix_drainAllTcpGet _ _)
  · exact hhead

theorem out_prefix_submitTcpGetReq (inflight : Int) (h : GetStream) (a : Ask) :
    h.out <+: (h.submitTcpGetReq inflight a).out := by
  have hreply : ∀ fs, h.out <+: ((h.drainAllTcpGet h.pend).reply fs).out := fun fs =>
    (h.out_prefix_drainAllTcpGet h.pend).trans (List.prefix_append _ _)
  cases a with
  | malformed => exact hreply _
  | unresolved e => exact hreply _
  | found s o z =>
    simp only [submitTcpGetReq]
    split
    · exact hreply _
    · split
      · split <;> exact List.prefix_rfl
      · exact hreply _

theorem out_prefix_turn (inflight : Int) (h : GetStream) (msg : Option Incoming) :
    h.out <+: (turn inflight h msg).out := by
  unfold turn
  split
  · have hsettle := h.out_prefix_settle inflight
    match msg with
    | none => exact hsettle.trans (out_prefix_drainAllTcpGet _ _)
    | some .other => exact hsettle
    | some (.getReq a) => exact hsettle.trans (out_prefix_submitTcpGetReq inflight _ a)
  · exact List.prefix_rfl

/-- A turn that finds no request leaves what is owed. -/
theorem turn_none_spec {h : GetStream} (inflight : Int) (hrun : h.status = .running) :
    (turn inflight h none).owed = h.owed ∧ (turn inflight h none).taken = h.taken ∧
      (turn inflight h none).status = .running := by
  obtain ⟨howed, htaken, hstatus⟩ := h.settle_spec inflight
  obtain ⟨-, -, ht, hs⟩ := (h.settle inflight).drainAllTcpGet_spec (h.settle inflight).pend
  rw [turn_of_running hrun]
  exact ⟨(owed_of_drainAll _).trans howed, ht.trans htaken, hs.trans (hstatus.trans hrun)⟩

/-- A turn that finds a request adds its answer to what is owed. -/
theorem turn_getReq_spec {h : GetStream} (inflight : Int) (hrun : h.status = .running) (a : Ask) :
    (turn inflight h (some (.getReq a))).owed = h.owed ++ tag h.taken (answer inflight a) ∧
      (((turn inflight h (some (.getReq a))).status = .running ∧
          (turn inflight h (some (.getReq a))).taken = h.taken + 1) ∨
        ((turn inflight h (some (.getReq a))).status = .panicked ∧ 0 < inflight ∧
          answer inflight a = [])) := by
  obtain ⟨howed, htaken, hstatus⟩ := h.settle_spec inflight
  have := submitTcpGetReq_spec inflight (h.settle inflight) a
  rw [howed, htaken, hstatus, hrun] at this
  rw [turn_of_running hrun]
  exact this

/-- The handler after `tryAwait` and `await` have returned these requests, `none` standing for
a moment at which there is none. -/
def serve (inflight : Int) (asks : List (Option Ask)) : GetStream :=
  handleGetStream inflight (asks.map (Option.map .getReq))

theorem serve_snoc (asks : List (Option Ask)) (a : Option Ask) :
    serve inflight (asks ++ [a]) = turn inflight (serve inflight asks) (a.map .getReq) := by
  rw [serve, handleGetStream, List.map_append, List.foldl_append]
  rfl

/-- **As long as the handler runs, it owes the answers to the requests it has taken, in the
order of the requests.** -/
theorem serve_spec (inflight : Int) (asks : List (Option Ask)) :
    ((serve inflight asks).status = .running ∧
      (serve inflight asks).owed = tagged 0 ((asks.filterMap fun a => a).map (answer inflight)) ∧
      (serve inflight asks).taken = (asks.filterMap fun a => a).length) ∨
    ((serve inflight asks).status = .panicked ∧ 0 < inflight ∧
      ∃ a ∈ asks.filterMap (fun a => a), answer inflight a = []) := by
  induction asks using List.reverseRecOn with
  | nil => exact .inl ⟨rfl, rfl, rfl⟩
  | append_singleton asks a ih =>
    rw [serve_snoc, List.filterMap_append]
    rcases ih with ⟨hrun, howed, htaken⟩ | ⟨hpanic, hpos, b, hb, hnil⟩
    · cases a with
      | none =>
        obtain ⟨ho, ht, hs⟩ := turn_none_spec inflight hrun
        exact .inl ⟨hs, by simpa [howed] using ho, by simpa [htaken] using ht⟩
      | some a =>
        obtain ⟨ho, ⟨hs, ht⟩ | ⟨hs, hp, hn⟩⟩ := turn_getReq_spec inflight hrun a
        · refine .inl ⟨hs, ho.trans ?_, ht.trans ?_⟩
          · rw [howed, htaken]
            simp [tagged_append, tagged]
          · rw [htaken]
            simp
        · exact .inr ⟨hs, hp, a, by simp, hn⟩
    · rw [turn_of_not_running (by rw [hpanic]; decide)]
      exact .inr ⟨hpanic, hpos, b, List.mem_append_left _ hb, hnil⟩

/-- Once it finds no further request, the handler has written everything it owes. -/
theorem serve_none (asks : List (Option Ask)) (hrun : (serve inflight asks).status = .running) :
    (serve inflight (asks ++ [none])).out = (serve inflight asks).owed ∧
      (serve inflight (asks ++ [none])).pend = [] ∧
      (serve inflight (asks ++ [none])).status = .running := by
  obtain ⟨howed, -, hstatus⟩ := turn_none_spec inflight hrun
  rw [serve_snoc]
  have hpend : (turn inflight (serve inflight asks) none).pend = [] := by
    rw [turn_of_running hrun]
    exact (drainAllTcpGet_spec _ _).2.1
  refine ⟨?_, hpend, hstatus⟩
  rw [← howed, owed, Option.map_none, hpend]
  exact (List.append_nil _).symm

end GetStream

/-! ## 3. The discipline of the stream -/

/-- What is asked of the answer `fs` to a request, `fs₀` being its answer without the
asynchronous path. -/
structure Answered (a : Ask) (fs fs₀ : List GetFrame) : Prop where
  terminated : Terminated GetFrame.Last fs
  same : fs = fs₀
  bytes : ∀ s o z, a = .found s o z → 0 ≤ int64 o →
    int64 o + getSize s (int64 o) (int64 z) ≤ s.md.size →
    payload fs = s.slice (int64 o) (getSize s (int64 o) (int64 z))

/-- **The discipline**: when no further request is there, the handler runs and has written, in
the order of the requests and nothing else, an answer to each. -/
structure Disciplined (inflight : Int) (asks : List (Option Ask)) : Prop where
  running : (GetStream.serve inflight (asks ++ [none])).status = .running
  ordered : (GetStream.serve inflight (asks ++ [none])).out.Pairwise (fun x y => x.1 ≤ y.1)
  no_more : ∀ x ∈ (GetStream.serve inflight (asks ++ [none])).out,
    x.1 < (asks.filterMap fun a => a).length
  answered : ∀ (i : Nat) a, (asks.filterMap fun a => a)[i]? = some a →
    Answered a (itemsOf i (GetStream.serve inflight (asks ++ [none])).out)
      (itemsOf i (GetStream.serve 0 (asks ++ [none])).out)

/-- The requests that the handler answers as it should: it does not parse, its key is not
found, or its range begins after the object; or else the range is not empty and does not wrap,
the asynchronous path, when it is taken, reads every chunk but the last in full, and a range
inside the object is delivered by the device. -/
def Ask.Fits (inflight : Int) : Ask → Prop
  | .malformed => True
  | .unresolved _ => True
  | .found s o z =>
    let off := int64 o
    let size := getSize s off (int64 z)
    size < 0 ∨ (0 < size ∧ off + size < 2 ^ 63 ∧
      (AsyncGet inflight off size → ∀ p ∈ chunkStarts off (off + size),
        p + chunkSize < off + size → s.ReadsInFull p chunkSize) ∧
      (0 ≤ off → off + size ≤ s.md.size → ∀ p ∈ chunkStarts off (off + size),
        s.Delivers p (chunkWant (off + size) p)))
section

variable {s : Snapshot} {inflight off size : Int}

/-- A range that does not wrap is answered synchronously with the frames of its chunks, up to
the first that ends the response. -/
theorem getSync_of_no_wrap (h : int64 (off + size) = off + size) :
    getSync s off size = upTo GetFrame.Last (chunkFrames s off (off + size)) := by
  rw [getSync_eq, h]

/-- The bytes of the synchronous answer are right exactly when every chunk is delivered. -/
theorem payload_getSync_iff (h : int64 (off + size) = off + size) (hsize : 0 < size)
    (h0 : 0 ≤ off) (hin : off + size ≤ s.md.size) :
    payload (getSync s off size) = s.slice off size ↔
      ∀ p ∈ chunkStarts off (off + size), s.Delivers p (chunkWant (off + size) p) := by
  have := payload_upTo_iff (s := s) hin h0 (by omega : off < off + size)
  rw [getSync_of_no_wrap h]
  rwa [show off + size - off = size by omega] at this

/-- A request with no frame is not answered. -/
theorem not_answered_nil {a : Ask} {fs : List GetFrame} : ¬ Answered a [] fs :=
  fun h => not_terminated_nil h.terminated

/-- A request refused with an error is answered, whatever range it asked for, when no byte of
the object lies in the range. -/
theorem answered_err {a : Ask} (c : ErrCode) (h : ∀ s o z, a = .found s o z →
    getSize s (int64 o) (int64 z) < 0) : Answered a [.err c] [.err c] := by
  refine ⟨terminated_singleton.mpr trivial, rfl, fun s o z ha _ _ => ?_⟩
  have := h s o z ha
  rw [Snapshot.slice, Int.toNat_of_nonpos (by omega : getSize s (int64 o) (int64 z) ≤ 0)]
  rfl

end

/-- **For one request**: its answer is as it should be exactly when the request fits. -/
theorem answered_iff (inflight : Int) (a : Ask) :
    Answered a (answer inflight a) (answer 0 a) ↔ a.Fits inflight := by
  cases a with
  | malformed => exact iff_of_true (answered_err _ (fun _ _ _ h => nomatch h)) trivial
  | unresolved e => exact iff_of_true (answered_err _ (fun _ _ _ h => nomatch h)) trivial
  | found s o z =>
    obtain ⟨off, hoff⟩ : ∃ off, off = int64 o := ⟨_, rfl⟩
    obtain ⟨size, hsize⟩ : ∃ size, size = getSize s off (int64 z) := ⟨_, rfl⟩
    have hrange := getSize_range s off z
    have hoffr := int64_range o
    rw [← hsize] at hrange
    rw [← hoff] at hoffr
    have hsync : ¬ AsyncGet 0 off size := fun h => absurd h.1 (by decide)
    simp only [answer, Ask.Fits, ← hoff, ← hsize, if_neg hsync]
    by_cases hneg : size < 0
    · simp only [if_pos hneg]
      refine iff_of_true (answered_err _ ?_) (.inl hneg)
      rintro s' o' z' ⟨⟩
      rwa [← hoff, ← hsize]
    simp only [if_neg hneg]
    rcases int64_add_cases hoffr (by omega) hrange.2 with ⟨hlt, heq⟩ | ⟨hwrap, hlt⟩
    · by_cases hz : size = 0
      · -- an empty range: neither path writes a frame
        have hnot : ¬ AsyncGet inflight off size := fun h => absurd h.2.2.1 (by omega)
        rw [if_neg hnot, getSync_of_no_wrap heq, chunkFrames_of_le (by omega)]
        exact iff_of_false not_answered_nil (by omega)
      have hpos : off < off + size := by omega
      rw [heq]
      by_cases hasync : AsyncGet inflight off size
      · rw [if_pos hasync]
        constructor
        · rintro ⟨hterm, hsame, hbytes⟩
          have hb := hbytes s o z rfl
          rw [← hoff, ← hsize, hsame] at hb
          exact .inr ⟨by omega, hlt, fun _ => (terminated_chunkFrames_iff hpos).mp hterm,
            fun h0 hin => (payload_getSync_iff heq (by omega) h0 hin).mp (hb h0 hin)⟩
        · rintro (h | ⟨-, -, hfull, hdel⟩)
          · exact absurd h hneg
          have hterm := (terminated_chunkFrames_iff hpos).mpr (hfull hasync)
          have hsame : chunkFrames s off (off + size) = getSync s off size := by
            rw [getSync_of_no_wrap heq, hterm.upTo_eq]
          refine ⟨hterm, hsame, ?_⟩
          rintro s' o' z' ⟨⟩ h0 hin
          rw [← hoff, ← hsize] at hin ⊢
          rw [← hoff] at h0
          rw [hsame]
          exact (payload_getSync_iff heq (by omega) h0 hin).mpr (hdel h0 hin)
      · rw [if_neg hasync]
        constructor
        · rintro ⟨-, -, hbytes⟩
          have hb := hbytes s o z rfl
          rw [← hoff, ← hsize] at hb
          exact .inr ⟨by omega, hlt, fun h => absurd h hasync,
            fun h0 hin => (payload_getSync_iff heq (by omega) h0 hin).mp (hb h0 hin)⟩
        · rintro (h | ⟨-, -, -, hdel⟩)
          · exact absurd h hneg
          refine ⟨terminated_getSync (by rw [heq]; exact hpos), rfl, ?_⟩
          rintro s' o' z' ⟨⟩ h0 hin
          rw [← hoff, ← hsize] at hin ⊢
          rw [← hoff] at h0
          exact (payload_getSync_iff heq (by omega) h0 hin).mpr (hdel h0 hin)
    · -- a range that wraps: neither path writes a frame
      have hnil : (if AsyncGet inflight off size then chunkFrames s off (int64 (off + size))
          else getSync s off size) = [] := by
        rw [getSync_eq, chunkFrames_of_le (by omega)]
        split <;> rfl
      rw [hnil]
      exact iff_of_false not_answered_nil (by omega)

/-- What the handler has written in the end, as long as it has not panicked. -/
theorem GetStream.serve_out {inflight : Int} {asks : List (Option Ask)}
    (hrun : (serve inflight asks).status = .running) :
    (serve inflight (asks ++ [none])).out =
      tagged 0 ((asks.filterMap fun a => a).map (answer inflight)) := by
  rcases serve_spec inflight asks with ⟨-, howed, -⟩ | ⟨hpanic, -⟩
  · exact (serve_none asks hrun).1.trans howed
  · rw [hrun] at hpanic
    cases hpanic

/-- Without the asynchronous path the handler never panics. -/
theorem GetStream.serve_zero_running (asks : List (Option Ask)) :
    (serve 0 asks).status = .running := by
  rcases serve_spec 0 asks with ⟨hrun, -⟩ | ⟨-, hpos, -⟩
  · exact hrun
  · exact absurd hpos (by decide)

/-- The frames of request `i` are its answer. -/
theorem GetStream.itemsOf_serve {inflight : Int} {asks : List (Option Ask)} {i : Nat} {a : Ask}
    (hrun : (serve inflight asks).status = .running)
    (ha : (asks.filterMap fun a => a)[i]? = some a) :
    itemsOf i (serve inflight (asks ++ [none])).out = answer inflight a := by
  rw [serve_out hrun]
  have hget : ((asks.filterMap fun a => a).map (answer inflight))[i]? = some (answer inflight a) := by
    rw [List.getElem?_map, ha]
    rfl
  have hitems := itemsOf_tagged (n := 0) hget
  rwa [Nat.zero_add] at hitems

/-- An object of one byte, whose device reads come in full. -/
def oneByteObject : Snapshot where
  md := ⟨0, 0, 1⟩
  content := [7]
  dev := fun _ dlen => if 0 ≤ dlen then .done (List.replicate dlen.toNat 7) dlen.toNat
    else .refused .io
  content_length := rfl
  offset_nonneg := by decide
  offset_aligned := by decide
  extent_lt := by decide
  dev_done := by
    intro start dlen buf n h
    split at h
    · cases h
      rw [List.length_replicate]
      omega
    · cases h

end Taihu
