/-
# Get calls get their own bytes

Over the connection of `Connection.lean`: the frames a call has read are a prefix of what the
handler of its stream owes, which is the answers to the call's requests in their order.  The
final bit is the only boundary between responses, so the argument is about the reader: a
response that ends with a final frame after exactly `size` bytes was the WHOLE answer to its
request (`answer_complete`), because data frames before the last chunk carry whole chunks.  The
extra frames that the asynchronous path sends after a short chunk are never reached: the call
has failed by then.
-/
import Taihu.Connection
import Taihu.GetDiscipline

namespace Taihu

open Framing

/-! ## 1. One answer, read until its first terminal frame -/

/-- What a device read has filled in full is what the extent holds.  (A window lies inside the
device, where reads do not stop early.) -/
def Snapshot.Honest (s : Snapshot) : Prop :=
  ∀ pos want b, s.Reads pos want b → b = s.slice pos want

section Complete

variable {s : Snapshot} {stop pos : Int}

/-- A window that is filled lies in the object. -/
theorem Snapshot.ReadsInFull.inside {want : Int} (h : s.ReadsInFull pos want) (hwant : 0 < want) :
    pos + want ≤ s.md.size := by
  obtain ⟨_, w, buf, n, hw, heq, -⟩ := h
  have := (readWindow_fits hw s.offset_nonneg hwant).inside
  rwa [heq] at this

/-- **Frames that are not terminal and then a final one, with all the bytes of the range, are
the frames of all its chunks**; every chunk was then read in full, inside the object. -/
theorem chunkFrames_complete (hpos : pos < stop) (pre : List GetFrame) (p : Bytes)
    (rest : List GetFrame) (hpre : ∀ f ∈ pre, ¬ f.Last)
    (hframes : chunkFrames s pos stop = pre ++ .final p :: rest)
    (hlen : ((payload pre ++ p).length : Int) = stop - pos) :
    rest = [] ∧ stop ≤ s.md.size ∧
      ∀ q ∈ chunkStarts pos stop, s.ReadsInFull q (chunkWant stop q) := by
  refine chunk_induction (P := fun pos => ∀ pre, (∀ f ∈ pre, ¬ GetFrame.Last f) →
    chunkFrames s pos stop = pre ++ .final p :: rest →
    ((payload pre ++ p).length : Int) = stop - pos → rest = [] ∧ stop ≤ s.md.size ∧
      ∀ q ∈ chunkStarts pos stop, s.ReadsInFull q (chunkWant stop q))
    (fun pos hpos ih pre hpre hframes hlen => ?_) pos hpos pre hpre hframes hlen
  rw [chunkFrames_of_lt hpos] at hframes
  rw [chunkStarts_of_lt hpos, List.forall_mem_cons]
  by_cases hread : s.ReadsInFull pos (chunkWant stop pos)
  · by_cases hlt : pos + chunkSize < stop
    · have hwant := chunkWant_of_lt hlt
      obtain ⟨b, hb⟩ := hread
      rw [hwant] at hb
      have hblen := hb.length (by decide)
      rw [chunkFrame_of_reads_of_lt hb hlt] at hframes
      cases pre with
      | nil => cases hframes
      | cons f pre =>
        obtain ⟨rfl, hrest⟩ := List.cons.inj hframes
        have hsum : ((payload pre ++ p).length : Int) = stop - (pos + chunkSize) := by
          rw [payload_cons, List.append_assoc, List.length_append] at hlen
          simp only [GetFrame.bytes] at hlen
          omega
        obtain ⟨h1, h2, h3⟩ := ih hlt pre (fun g hg => hpre g (List.mem_cons_of_mem _ hg)) hrest hsum
        exact ⟨h1, h2, hwant ▸ ⟨b, hb⟩, h3⟩
    · have hwant : chunkWant stop pos = stop - pos := chunkWant_of_le (by omega)
      have hin := hread.inside (chunkWant_pos hpos)
      rw [chunkFrames_of_le (by omega)] at hframes
      cases pre with
      | nil =>
        refine ⟨(List.cons.inj hframes).2.symm, by omega, hread, ?_⟩
        rw [chunkStarts_of_le (by omega)]
        exact fun q hq => absurd hq List.not_mem_nil
      | cons f pre => simp at hframes
  · obtain ⟨hlast, hshort⟩ := chunkFrame_of_not_reads hread hpos
    have hle : chunkWant stop pos ≤ stop - pos := by
      unfold chunkWant
      split <;> omega
    cases pre with
    | nil =>
      rw [(List.cons.inj hframes).1] at hshort
      simp only [GetFrame.bytes] at hshort
      simp only [payload_nil, List.nil_append] at hlen
      omega
    | cons f pre =>
      rw [(List.cons.inj hframes).1] at hlast
      exact absurd hlast (hpre f List.mem_cons_self)

end Complete

/-- The arguments of a call: a range that begins in the range of `int64` and is not empty. -/
structure GetReq.Proper (r : GetReq) : Prop where
  off_nonneg : 0 ≤ r.off
  off_lt : r.off < 2 ^ 63
  size_pos : 0 < r.size
  size_lt : r.size < 2 ^ 63

section Answer

variable {inflight : Int} {r : GetReq} {lookup : Res Snapshot}

/-- The answer to a request of a call: an error frame, or a beginning of the frames of the
chunks. -/
theorem answer_cases (inflight : Int) (h : r.Proper) (lookup : Res Snapshot) :
    (∃ e, answer inflight (r.ask lookup) = [.err e]) ∨
      ∃ s, lookup = .ok s ∧ (r.ask lookup) = .found s r.off r.size ∧
        answer inflight (r.ask lookup) <+: chunkFrames s r.off (int64 (r.off + r.size)) ∧
        (r.off < int64 (r.off + r.size) → ∃ f ∈ answer inflight (r.ask lookup), f.Last) := by
  unfold GetReq.ask
  by_cases hkey : r.key.length > maxKeyLen
  · rw [if_pos hkey]
    exact .inl ⟨_, rfl⟩
  rw [if_neg hkey]
  cases lookup with
  | error e => exact .inl ⟨_, rfl⟩
  | ok s =>
    have hoff : int64 r.off = r.off := int64_of_range (by have := h.off_nonneg; omega) h.off_lt
    have hz : int64 r.size = r.size := int64_of_range (by have := h.size_pos; omega) h.size_lt
    have hsize : getSize s r.off r.size = r.size := if_neg (by have := h.size_pos; omega)
    refine .inr ⟨s, rfl, rfl, ?_⟩
    simp only [answer, hoff, hz, hsize, if_neg (show ¬ r.size < 0 by have := h.size_pos; omega)]
    split
    · exact ⟨List.prefix_rfl, fun hlt => exists_last_chunk hlt⟩
    · rw [getSync_eq]
      exact ⟨prefix_of_upTo _, fun hlt => (terminated_upTo (exists_last_chunk hlt)).exists_mem⟩

/-- A range that does not wrap has an answer that ends; one that does has no frame with
bytes. -/
theorem answer_ends (inflight : Int) (h : r.Proper) (lookup : Res Snapshot) :
    (r.off + r.size < 2 ^ 63 → ∃ f ∈ answer inflight (r.ask lookup), f.Last) ∧
      (2 ^ 63 ≤ r.off + r.size → ∀ f ∈ answer inflight (r.ask lookup), ∃ e, f = .err e) := by
  have h1 := h.off_nonneg
  have h2 := h.size_pos
  have h3 := h.off_lt
  have hcases := int64_add_cases (show -2 ^ 63 ≤ r.off ∧ _ from ⟨by omega, h3⟩) (by omega) h.size_lt
  rcases answer_cases inflight h lookup with ⟨e, he⟩ | ⟨s, -, -, hpre, hends⟩
  · rw [he]
    exact ⟨fun _ => ⟨_, List.mem_singleton.mpr rfl, trivial⟩,
      fun _ f hf => ⟨e, List.mem_singleton.mp hf⟩⟩
  · refine ⟨fun hlt => hends (by omega), fun hwrap f hf => ?_⟩
    rw [chunkFrames_of_le (by omega)] at hpre
    rw [List.prefix_nil.mp hpre] at hf
    exact absurd hf List.not_mem_nil

/-- **A response of `size` bytes that a final frame ends is the whole answer, and its bytes are
the range of the snapshot.** -/
theorem answer_complete (h : r.Proper) (hon : ∀ s, lookup = .ok s → s.Honest)
    (pre : List GetFrame) (p : Bytes) (hpre : ∀ f ∈ pre, ¬ f.Last)
    (hframes : pre ++ [.final p] <+: answer inflight (r.ask lookup))
    (hlen : ((payload pre ++ p).length : Int) = r.size) :
    answer inflight (r.ask lookup) = pre ++ [.final p] ∧ ∃ s, lookup = .ok s ∧
      r.off + r.size ≤ s.md.size ∧ payload pre ++ p = s.slice r.off r.size := by
  have h1 := h.off_nonneg
  have h2 := h.size_pos
  have h3 := h.off_lt
  have hcases := int64_add_cases (show -2 ^ 63 ≤ r.off ∧ _ from ⟨by omega, h3⟩) (by omega) h.size_lt
  rcases answer_cases inflight h lookup with ⟨e, he⟩ | ⟨s, hs, -, hpref, -⟩
  · rw [he] at hframes
    have hmem := hframes.subset (List.mem_append_right pre (List.mem_singleton.mpr rfl))
    cases List.mem_singleton.mp hmem
  · obtain ⟨rest, hrest⟩ := hframes.trans hpref
    have hno_wrap : int64 (r.off + r.size) = r.off + r.size := by
      rcases hcases with ⟨-, heq⟩ | ⟨-, hlt⟩
      · exact heq
      · rw [chunkFrames_of_le (by omega)] at hrest
        simp at hrest
    rw [hno_wrap] at hrest hpref
    have hlt : r.off < r.off + r.size := by omega
    rw [List.append_assoc] at hrest
    obtain ⟨rfl, hin, hfull⟩ := chunkFrames_complete hlt pre p rest hpre hrest.symm
      (by rw [hlen]; omega)
    rw [← List.append_assoc, List.append_nil] at hrest
    refine ⟨(hframes.eq_of_length_le ?_).symm, s, hs, hin, ?_⟩
    · rw [hrest]
      exact hpref.length_le
    have hdel : ∀ q ∈ chunkStarts r.off (r.off + r.size),
        s.Delivers q (chunkWant (r.off + r.size) q) := fun q hq => by
      obtain ⟨b, hb⟩ := hfull q hq
      rw [Snapshot.Delivers, ← hon s hs _ _ _ hb]
      exact hb
    have hbytes := (payload_upTo_iff hin h1 hlt).mpr hdel
    have hterm : Terminated GetFrame.Last (pre ++ [.final p]) := terminated_append_last hpre trivial
    rw [← hrest, hterm.upTo_eq, show r.off + r.size - r.off = r.size by omega] at hbytes
    rw [← hbytes]
    simp [payload, GetFrame.bytes]

end Answer

/-! ## 2. The two sides of one stream -/

/-- The answers to the requests a handler has taken. -/
def answers (inflight : Int) (asked : List (GetReq × Res Snapshot)) : List (List GetFrame) :=
  asked.map (fun x => answer inflight (x.1.ask x.2))

/-- The server's side: the requests `reqs` of the call are taken, queued or under way (`up`),
in their order, and what the handler owes are the answers to those it has taken. -/
structure ServerOk (inflight : Int) (reqs : List GetReq) (st : ServerStream) (up : List GetReq) :
    Prop where
  requests : st.asked.map Prod.fst ++ st.inq ++ up = reqs
  honest : ∀ x ∈ st.asked, ∀ s, x.2 = .ok s → s.Honest
  owed : st.handler.owed = tagged 0 (answers inflight st.asked)
  taken : st.handler.status = .running → st.handler.taken = st.asked.length
  sent_le : st.sent ≤ st.handler.out.length

/-- The call reads response number `call.results.length`, and has read its frames `pre`. -/
structure Reading (blocks : List (List GetFrame)) (call : GetCall) (pre : List GetFrame) : Prop where
  seen : call.seen.map Prod.snd =
    tagged 0 (blocks.take call.results.length) ++ tag call.results.length pre
  le : call.results.length ≤ blocks.length
  prefix_block : pre <+: (blocks[call.results.length]?).getD []
  no_last : ∀ f ∈ pre, ¬ f.Last
  got : call.got = payload pre

/-- A result is the range of the snapshot the server found for the request with its number. -/
def ResultOk (call : GetCall) (asked : List (GetReq × Res Snapshot)) (i : Nat) (b : Bytes) : Prop :=
  ∃ r s, asked[i]? = some (r, .ok s) ∧ call.off + call.size ≤ s.md.size ∧
    b = s.slice call.off call.size

/-- The client's side: what it has read, queued and not yet received (`down`) is what the
handler has written. -/
structure ClientOk (inflight : Int) (st : ServerStream) (down : List (Nat × GetFrame))
    (call : GetCall) : Prop where
  proper : (GetReq.mk [] call.off call.size).Proper
  registered : call.outcome = .pending → call.registered = true
  wire : call.registered = true →
    call.seen.map Prod.snd ++ call.inq ++ down = st.handler.out.take st.sent
  seen_prefix : call.seen.map Prod.snd <+: st.handler.out
  reading : call.outcome = .pending → ∃ pre, Reading (answers inflight st.asked) call pre
  results : ∀ i b, call.results[i]? = some b → ResultOk call st.asked i b
  returned : call.outcome = .returned → call.results.length = call.keys.length
  own : ∀ y ∈ call.seen, y.2.2.bytes ≠ [] → y.1 = y.2.1

section Server

variable {inflight : Int} {reqs : List GetReq} {st : ServerStream} {up : List GetReq}
  {r : GetReq} {down : List (Nat × GetFrame)} {call : GetCall}

theorem ServerOk.post (h : ServerOk inflight [] st up) (reqs : List GetReq) :
    ServerOk inflight reqs st (up ++ reqs) := by
  obtain ⟨hreq, hon, howed, htaken, hsent⟩ := h
  refine ⟨?_, hon, howed, htaken, hsent⟩
  rw [← List.append_assoc, hreq, List.nil_append]

theorem ServerOk.dispatch (h : ServerOk inflight reqs st (r :: up)) :
    ServerOk inflight reqs { st with inq := st.inq ++ [r] } up := by
  obtain ⟨hreq, hon, howed, htaken, hsent⟩ := h
  refine ⟨?_, hon, howed, htaken, hsent⟩
  rw [← hreq]
  simp

theorem ServerOk.take (h : ServerOk inflight reqs st up) {inq : List GetReq}
    (hinq : st.inq = r :: inq) (hrun : st.handler.status = .running) {lookup : Res Snapshot}
    (hon : ∀ s, lookup = .ok s → s.Honest) :
    ServerOk inflight reqs { st with
      inq := inq
      asked := st.asked ++ [(r, lookup)]
      handler := .turn inflight st.handler (some (.getReq (r.ask lookup))) } up := by
  obtain ⟨hturn, hstatus⟩ := GetStream.turn_getReq_spec inflight hrun (r.ask lookup)
  have hout := st.handler.out_prefix_turn inflight (some (.getReq (r.ask lookup)))
  refine ⟨?_, ?_, ?_, ?_, h.sent_le.trans hout.length_le⟩
  · rw [← h.requests, hinq]
    simp
  · intro x hx s hs
    rcases List.mem_append.mp hx with hx | hx
    · exact h.honest x hx s hs
    · rw [List.mem_singleton.mp hx] at hs
      exact hon s hs
  · show (GetStream.turn inflight st.handler (some (.getReq (r.ask lookup)))).owed = _
    rw [hturn, h.owed, h.taken hrun, answers, answers, List.map_append, tagged_append,
      List.length_map, Nat.zero_add]
    simp [tagged]
  · intro hrun'
    rcases hstatus with ⟨-, htaken⟩ | ⟨hpanic, -⟩
    · refine htaken.trans ?_
      rw [h.taken hrun, List.length_append]
      rfl
    · rw [hpanic] at hrun'
      cases hrun'

theorem ServerOk.drain (h : ServerOk inflight reqs st up) (hrun : st.handler.status = .running) :
    ServerOk inflight reqs { st with handler := .turn inflight st.handler none } up := by
  obtain ⟨howed, htaken, -⟩ := GetStream.turn_none_spec inflight hrun
  have hout := st.handler.out_prefix_turn inflight none
  exact ⟨h.requests, h.honest, howed.trans h.owed, fun _ => htaken.trans (h.taken hrun),
    h.sent_le.trans hout.length_le⟩

theorem ServerOk.write (h : ServerOk inflight reqs st up) {x : Nat × GetFrame}
    (hx : st.handler.out[st.sent]? = some x) :
    ServerOk inflight reqs { st with sent := st.sent + 1 } up :=
  ⟨h.requests, h.honest, h.owed, h.taken, (List.getElem?_eq_some_iff.mp hx).1⟩

/-- One more request taken is one more answer. -/
theorem Reading.more {blocks : List (List GetFrame)} {pre : List GetFrame}
    (h : Reading blocks call pre) (b : List GetFrame) : Reading (blocks ++ [b]) call pre := by
  obtain ⟨hseen, hle, hpre, hlast, hgot⟩ := h
  refine ⟨?_, ?_, ?_, hlast, hgot⟩
  · rw [hseen, List.take_append_of_le_length hle]
  · rw [List.length_append]
    omega
  · rcases Nat.lt_or_eq_of_le hle with hlt | heq
    · rwa [List.getElem?_append_left hlt]
    · rw [List.getElem?_eq_none (by omega)] at hpre
      rw [List.prefix_nil.mp hpre]
      exact List.nil_prefix

/-- A handler that writes more, and takes one more request or none, is still read from. -/
theorem ClientOk.handler (h : ClientOk inflight st down call) (hsent : st.sent ≤ st.handler.out.length)
    {st' : ServerStream} (hout : st.handler.out <+: st'.handler.out) (hsent' : st'.sent = st.sent)
    (hasked : st'.asked = st.asked ∨ ∃ x, st'.asked = st.asked ++ [x]) :
    ClientOk inflight st' down call := by
  have htake : st'.handler.out.take st'.sent = st.handler.out.take st.sent := by
    obtain ⟨more, hmore⟩ := hout
    rw [hsent', ← hmore, List.take_append_of_le_length hsent]
  refine ⟨h.proper, h.registered, fun hreg => (h.wire hreg).trans htake.symm,
    h.seen_prefix.trans hout, fun hp => ?_, fun i b hb => ?_, h.returned, h.own⟩
  · obtain ⟨pre, hpre⟩ := h.reading hp
    rcases hasked with heq | ⟨x, heq⟩
    · exact ⟨pre, heq ▸ hpre⟩
    · refine ⟨pre, ?_⟩
      rw [heq, answers, List.map_append]
      exact hpre.more _
  · obtain ⟨r, s, hr, hin, hslice⟩ := h.results i b hb
    refine ⟨r, s, ?_, hin, hslice⟩
    rcases hasked with heq | ⟨x, heq⟩
    · rw [heq, hr]
    · rw [heq, List.getElem?_append_left (List.getElem?_eq_some_iff.mp hr).1, hr]

theorem ClientOk.write (h : ClientOk inflight st down call) {x : Nat × GetFrame}
    (hx : st.handler.out[st.sent]? = some x) :
    ClientOk inflight { st with sent := st.sent + 1 } (down ++ [x]) call := by
  refine ⟨h.proper, h.registered, fun hreg => ?_, h.seen_prefix, h.reading, h.results, h.returned,
    h.own⟩
  rw [← List.append_assoc, h.wire hreg, List.take_add_one, hx]
  rfl

theorem ClientOk.post (h : ClientOk inflight st down call) :
    ClientOk inflight st down { call with posted := true } := by
  refine ⟨h.proper, h.registered, h.wire, h.seen_prefix, fun hp => ?_, h.results, h.returned, h.own⟩
  obtain ⟨pre, h1, h2, h3, h4, h5⟩ := h.reading hp
  exact ⟨pre, h1, h2, h3, h4, h5⟩

theorem ClientOk.deliver (h : ClientOk inflight st (x :: down) call) :
    ClientOk inflight st down { call with inq := call.inq ++ [x] } := by
  refine ⟨h.proper, h.registered, fun hreg => ?_, h.seen_prefix, fun hp => ?_, h.results,
    h.returned, h.own⟩
  · rw [← h.wire hreg]
    simp
  · obtain ⟨pre, h1, h2, h3, h4, h5⟩ := h.reading hp
    exact ⟨pre, h1, h2, h3, h4, h5⟩

/-- Of a call that has removed its stream nothing more is said about the wire. -/
theorem ClientOk.unregister (h : ClientOk inflight st down call) (down' : List (Nat × GetFrame))
    {outcome : Outcome} (hout : outcome = call.outcome ∨ outcome = .failed)
    (hne : outcome ≠ .pending) :
    ClientOk inflight st down' { call with outcome := outcome, registered := false } := by
  refine ⟨h.proper, fun hp => absurd hp hne, fun hreg => absurd hreg (by simp), h.seen_prefix,
    fun hp => absurd hp hne, h.results, fun hr => ?_, h.own⟩
  rcases hout with rfl | rfl
  · exact h.returned hr
  · cases hr

theorem ClientOk.dropped (h : ClientOk inflight st down call) (hreg : call.registered = false)
    (down' : List (Nat × GetFrame)) : ClientOk inflight st down' call :=
  ⟨h.proper, h.registered, fun hreg' => absurd hreg' (by simp [hreg]), h.seen_prefix, h.reading,
    h.results, h.returned, h.own⟩

end Server

/-! ## 3. Reading a frame -/

section Read

variable {inflight : Int} {st : ServerStream} {up : List GetReq} {x : Nat × GetFrame}
  {down inq : List (Nat × GetFrame)} {call : GetCall} {posted : Bool}

/-- The requests of a call that have been taken have the range of the call. -/
theorem ServerOk.proper {reqs : List GetReq} (h : ServerOk inflight reqs st up)
    (hreqs : ∀ r ∈ reqs, r.off = call.off ∧ r.size = call.size)
    (hp : (GetReq.mk [] call.off call.size).Proper) {y : GetReq × Res Snapshot}
    (hy : y ∈ st.asked) : y.1.Proper ∧ y.1.off = call.off ∧ y.1.size = call.size := by
  have hmem : y.1 ∈ reqs := by
    rw [← h.requests]
    exact List.mem_append_left _ (List.mem_append_left _ (List.mem_map_of_mem hy))
  obtain ⟨hoff, hsize⟩ := hreqs _ hmem
  refine ⟨⟨?_, ?_, ?_, ?_⟩, hoff, hsize⟩
  · rw [hoff]
    exact hp.off_nonneg
  · rw [hoff]
    exact hp.off_lt
  · rw [hsize]
    exact hp.size_pos
  · rw [hsize]
    exact hp.size_lt

/-- **The frame a call reads next** is the next one of the response it is reading, unless it is
an error frame. -/
theorem next_frame {reqs : List GetReq} (hs : ServerOk inflight reqs st up)
    (hreqs : ∀ r ∈ reqs, r.off = call.off ∧ r.size = call.size)
    (hc : ClientOk inflight st down call) (hinq : call.inq = x :: inq)
    {pre : List GetFrame} (hr : Reading (answers inflight st.asked) call pre)
    (hpend : call.outcome = .pending) :
    call.seen.map Prod.snd ++ [x] <+: st.handler.out ∧
      ((∃ y, st.asked[call.results.length]? = some y ∧ x.1 = call.results.length ∧
        pre ++ [x.2] <+: answer inflight (y.1.ask y.2)) ∨ ∃ e, x.2 = .err e) := by
  have hout : call.seen.map Prod.snd ++ [x] <+: st.handler.out := by
    have hwire := hc.wire (hc.registered hpend)
    rw [hinq] at hwire
    refine List.IsPrefix.trans ⟨inq ++ down, ?_⟩ (List.take_prefix st.sent _)
    rw [← hwire]
    simp
  refine ⟨hout, ?_⟩
  have howed : call.seen.map Prod.snd ++ [x] <+: tagged 0 (answers inflight st.asked) := by
    rw [← hs.owed]
    exact hout.trans (List.prefix_append _ _)
  rw [hr.seen] at howed
  obtain ⟨b, hb, hcase⟩ := next_of_tagged hr.le hr.prefix_block howed
  obtain ⟨y, hy, rfl⟩ : ∃ y, st.asked[call.results.length]? = some y ∧
      answer inflight (y.1.ask y.2) = b := by
    rw [answers, List.getElem?_map] at hb
    exact Option.map_eq_some_iff.mp hb
  obtain ⟨hyp, hyoff, hysize⟩ := hs.proper hreqs hc.proper (List.mem_of_getElem? hy)
  rcases hcase with ⟨hnum, hpre⟩ | ⟨hdone, hlater⟩
  · exact .inl ⟨y, hy, hnum, hpre⟩
  · -- the response has no frame left and did not end: its range wraps
    have hwrap : 2 ^ 63 ≤ call.off + call.size := by
      by_contra hlt
      rw [← hyoff, ← hysize] at hlt
      obtain ⟨f, hf, hlast⟩ := (answer_ends inflight hyp y.2).1 (by omega)
      rw [hdone] at hf
      exact hr.no_last f hf hlast
    obtain ⟨c, hc', hx⟩ := exists_of_mem_tagged hlater
    obtain ⟨z, hz, rfl⟩ := List.mem_map.mp (List.mem_of_mem_drop hc')
    obtain ⟨hzp, hzoff, hzsize⟩ := hs.proper hreqs hc.proper hz
    rw [← hzoff, ← hzsize] at hwrap
    exact .inr ((answer_ends inflight hzp z.2).2 hwrap x.2 hx)

/-- The call after it has taken the frame from its queue, and noted it. -/
def GetCall.note (call : GetCall) (inq : List (Nat × GetFrame)) (x : Nat × GetFrame) : GetCall :=
  { call with inq := inq, seen := call.seen ++ [(call.results.length, x)] }

theorem receive_eq (call : GetCall) (inq : List (Nat × GetFrame)) (x : Nat × GetFrame) :
    ({ call with inq := inq } : GetCall).receive x = (match x.2 with
      | .data p =>
        if (p.length : Int) > call.size - call.got.length then (call.note inq x).fail
        else { call.note inq x with got := call.got ++ p }
      | .final p =>
        if (p.length : Int) > call.size - call.got.length then (call.note inq x).fail
        else if ((call.got ++ p).length : Int) ≠ call.size then (call.note inq x).fail
        else (call.note inq x).finish (call.got ++ p)
      | .err _ => (call.note inq x).fail) := rfl

theorem finish_last {c : GetCall} {b : Bytes}
    (h : (c.results ++ [b]).length = c.keys.length) : c.finish b = { c with
      results := c.results ++ [b], got := [], outcome := .returned, registered := c.batch } :=
  if_pos h

theorem finish_more {c : GetCall} {b : Bytes}
    (h : (c.results ++ [b]).length ≠ c.keys.length) : c.finish b = { c with
      results := c.results ++ [b], got := [] } :=
  if_neg h

/-- **Reading a frame keeps the client's side in order.** -/
theorem ClientOk.read {reqs : List GetReq} (hs : ServerOk inflight reqs st up)
    (hreqs : ∀ r ∈ reqs, r.off = call.off ∧ r.size = call.size)
    (hc : ClientOk inflight st down call) (hinq : call.inq = x :: inq)
    (hpend : call.outcome = .pending) :
    ClientOk inflight st down (({ call with inq := inq } : GetCall).receive x) := by
  obtain ⟨pre, hr⟩ := hc.reading hpend
  obtain ⟨hout, hnext⟩ := next_frame hs hreqs hc hinq hr hpend
  have hwire := hc.wire (hc.registered hpend)
  rw [hinq] at hwire
  have hown : ∀ y ∈ call.seen ++ [(call.results.length, x)], y.2.2.bytes ≠ [] → y.1 = y.2.1 := by
    intro y hy hbytes
    rcases List.mem_append.mp hy with hy | hy
    · exact hc.own y hy hbytes
    · rw [List.mem_singleton.mp hy] at hbytes ⊢
      rcases hnext with ⟨-, -, hnum, -⟩ | ⟨e, he⟩
      · exact hnum.symm
      · rw [he] at hbytes
        exact absurd rfl hbytes
  have hseen : (call.seen ++ [(call.results.length, x)]).map Prod.snd =
      call.seen.map Prod.snd ++ [x] := List.map_append
  have hwire' : (call.seen ++ [(call.results.length, x)]).map Prod.snd ++ inq ++ down =
      st.handler.out.take st.sent := by
    rw [hseen, ← hwire]
    simp
  have hfail : ClientOk inflight st down (call.note inq x).fail :=
    ⟨hc.proper, Outcome.noConfusion, Bool.noConfusion, hseen ▸ hout, Outcome.noConfusion,
      hc.results, Outcome.noConfusion, hown⟩
  rw [receive_eq]
  obtain ⟨num, f⟩ := x
  cases f with
  | err e => exact hfail
  | data p =>
    by_cases hlong : (p.length : Int) > call.size - call.got.length
    · simp only [if_pos hlong]
      exact hfail
    simp only [if_neg hlong]
    rcases hnext with ⟨y, hy, hnum, hpre⟩ | ⟨e, he⟩
    · refine ⟨hc.proper, hc.registered, fun _ => hwire', hseen ▸ hout, fun _ => ?_, hc.results,
        hc.returned, hown⟩
      refine ⟨pre ++ [.data p], ?_, hr.le, ?_, ?_, ?_⟩
      · show (call.seen ++ [(call.results.length, (num, GetFrame.data p))]).map Prod.snd = _
        rw [hseen, hr.seen, tag_append, List.append_assoc, show num = call.results.length from hnum]
        rfl
      · show _ <+: ((answers inflight st.asked)[call.results.length]?).getD []
        rw [answers, List.getElem?_map, hy]
        exact hpre
      · intro g hg
        rcases List.mem_append.mp hg with hg | hg
        · exact hr.no_last g hg
        · rw [List.mem_singleton.mp hg]
          exact id
      · show call.got ++ p = _
        rw [hr.got]
        simp [payload, GetFrame.bytes]
    · cases he
  | final p =>
    by_cases hlong : (p.length : Int) > call.size - call.got.length
    · simp only [if_pos hlong]
      exact hfail
    by_cases hshort : ((call.got ++ p).length : Int) ≠ call.size
    · simp only [if_neg hlong, if_pos hshort]
      exact hfail
    simp only [if_neg hlong, if_neg hshort]
    rcases hnext with ⟨y, hy, hnum, hpre⟩ | ⟨e, he⟩
    · obtain ⟨hyp, hyoff, hysize⟩ := hs.proper hreqs hc.proper (List.mem_of_getElem? hy)
      have hlen : ((payload pre ++ p).length : Int) = y.1.size := by
        rw [← hr.got, hysize]
        exact not_not.mp hshort
      obtain ⟨hblock, s, hlook, hin, hslice⟩ := answer_complete hyp
        (hs.honest y (List.mem_of_getElem? hy)) pre p hr.no_last hpre hlen
      rw [← hr.got, hyoff, hysize] at hslice
      rw [hyoff, hysize] at hin
      have hresults : ∀ i b, (call.results ++ [call.got ++ p])[i]? = some b →
          ResultOk call st.asked i b := by
        intro i b hb
        rcases Nat.lt_trichotomy i call.results.length with hlt | rfl | hgt
        · rw [List.getElem?_append_left hlt] at hb
          exact hc.results i b hb
        · rw [List.getElem?_concat_length] at hb
          cases hb
          exact ⟨y.1, s, by rw [hy, ← hlook], hin, hslice⟩
        · rw [List.getElem?_eq_none (by rw [List.length_append]; exact hgt)] at hb
          cases hb
      by_cases hlast : (call.results ++ [call.got ++ p]).length = call.keys.length
      · rw [finish_last (c := call.note inq (num, .final p)) hlast]
        refine ⟨hc.proper, Outcome.noConfusion, fun _ => hwire', hseen ▸ hout,
          Outcome.noConfusion, hresults, fun _ => hlast, hown⟩
      · rw [finish_more (c := call.note inq (num, .final p)) hlast]
        have hb : (answers inflight st.asked)[call.results.length]? = some (pre ++ [.final p]) := by
          rw [answers, List.getElem?_map, hy]
          exact congrArg some hblock
        refine ⟨hc.proper, hc.registered, fun _ => hwire', hseen ▸ hout, fun _ => ?_, hresults,
          fun hret => absurd (hpend.symm.trans hret) (by decide), hown⟩
        refine ⟨[], ?_, ?_, List.nil_prefix, fun g hg => absurd hg List.not_mem_nil, rfl⟩
        · show (call.seen ++ [(call.results.length, (num, GetFrame.final p))]).map Prod.snd =
            tagged 0 ((answers inflight st.asked).take (call.results ++ [call.got ++ p]).length) ++ []
          rw [hseen, hr.seen, List.append_nil, List.length_append, List.length_singleton,
            tagged_take_succ hb, tag_append, List.append_assoc,
            show num = call.results.length from hnum]
          rfl
        · show (call.results ++ [call.got ++ p]).length ≤ _
          rw [List.length_append, List.length_singleton]
          exact (List.getElem?_eq_some_iff.mp hb).1
    · cases he

end Read

/-! ## 4. The connection -/

theorem serverOk_fresh (inflight : Int) : ServerOk inflight [] .fresh [] :=
  ⟨rfl, fun _ hx => absurd hx List.not_mem_nil, rfl, fun _ => rfl, Nat.le_refl _⟩

theorem clientOk_start (inflight : Int) (batch : Bool) (keys : List Key) {off size : Int}
    (hp : (GetReq.mk [] off size).Proper) :
    ClientOk inflight .fresh [] (.start batch keys off size) := by
  refine ⟨hp, fun hpend => ?_, fun _ => rfl, List.nil_prefix, fun _ => ?_, fun i b hb => ?_,
    fun hret => ?_, fun y hy => absurd hy List.not_mem_nil⟩
  · have hne : keys ≠ [] := by
      rintro rfl
      cases hpend
    exact decide_eq_true hne
  · exact ⟨[], rfl, Nat.zero_le _, List.nil_prefix, fun f hf => absurd hf List.not_mem_nil, rfl⟩
  · cases hb
  · by_cases hne : keys = []
    · subst hne
      rfl
    · simp [GetCall.start, hne] at hret

/-- The requests a call has written. -/
def GetCall.sentReqs (call : GetCall) : List GetReq := if call.posted then call.reqs else []

theorem GetCall.mem_sentReqs {call : GetCall} {r : GetReq} (h : r ∈ call.sentReqs) :
    r.off = call.off ∧ r.size = call.size := by
  unfold sentReqs at h
  split at h
  · obtain ⟨key, -, rfl⟩ := List.mem_map.mp h
    exact ⟨rfl, rfl⟩
  · exact absurd h List.not_mem_nil

theorem receive_sentReqs (call : GetCall) (inq : List (Nat × GetFrame)) (x : Nat × GetFrame) :
    (({ call with inq := inq } : GetCall).receive x).sentReqs = call.sentReqs := by
  rw [receive_eq]
  obtain ⟨num, f⟩ := x
  cases f with
  | err e => rfl
  | data p =>
    simp only
    split <;> rfl
  | final p =>
    simp only
    split
    · rfl
    · split
      · rfl
      · by_cases hlast : (call.results ++ [call.got ++ p]).length = call.keys.length
        · rw [finish_last (c := call.note inq (num, .final p)) hlast]
          rfl
        · rw [finish_more (c := call.note inq (num, .final p)) hlast]
          rfl

/-- The lookups of an action give snapshots whose reads can be trusted. -/
def ConnAct.Honest (a : ConnAct) : Prop := ∀ sid s, a = .take sid (.ok s) → s.Honest

namespace Conn

/-- The server's side of a stream. -/
def server (c : Conn) (sid : Nat) : ServerStream := (c.srv sid).getD .fresh

/-- The requests of a stream under way to the server. -/
def up (c : Conn) (sid : Nat) : List GetReq := itemsOf sid c.c2s

/-- The frames of a stream under way to the client. -/
def down (c : Conn) (sid : Nat) : List (Nat × GetFrame) := itemsOf sid c.s2c

/-- Both sides of every stream are in order, and numbers that are not in use have left no
trace. -/
structure Ok (inflight : Int) (c : Conn) : Prop where
  unused : ∀ sid, c.next ≤ sid → c.calls sid = none
  idle : ∀ sid, c.calls sid = none → c.srv sid = none ∧ c.up sid = [] ∧ c.down sid = []
  server : ∀ sid call, c.calls sid = some call →
    ServerOk inflight call.sentReqs (c.server sid) (c.up sid)
  client : ∀ sid call, c.calls sid = some call →
    ClientOk inflight (c.server sid) (c.down sid) call

section Step

variable {inflight : Int} {c c' : Conn} {sid : Nat} {call : GetCall}

theorem ok_start : Ok inflight start :=
  ⟨fun _ _ => rfl, fun _ _ => ⟨rfl, rfl, rfl⟩, fun _ _ h => (nomatch h), fun _ _ h => (nomatch h)⟩

/-- An action that changes one stream, in use before, keeps the others in order. -/
theorem Ok.change (h : Ok inflight c) (hnext : c'.next = c.next) (hsid : c.calls sid ≠ none)
    (hothers : ∀ j, j ≠ sid →
      c'.calls j = c.calls j ∧ c'.srv j = c.srv j ∧ c'.up j = c.up j ∧ c'.down j = c.down j)
    (hcall : c'.calls sid = some call)
    (hs : ServerOk inflight call.sentReqs (c'.server sid) (c'.up sid))
    (hc : ClientOk inflight (c'.server sid) (c'.down sid) call) : Ok inflight c' := by
  have hserver : ∀ j, j ≠ sid → c'.server j = c.server j := fun j hj => by
    rw [Conn.server, (hothers j hj).2.1, Conn.server]
  refine ⟨fun j hj => ?_, fun j hj => ?_, fun j call' hj => ?_, fun j call' hj => ?_⟩
  · rw [hnext] at hj
    have hne : j ≠ sid := by
      rintro rfl
      exact hsid (h.unused _ hj)
    rw [(hothers j hne).1]
    exact h.unused j hj
  · have hne : j ≠ sid := by
      rintro rfl
      rw [hcall] at hj
      cases hj
    obtain ⟨hcalls, hsrv, hup, hdown⟩ := hothers j hne
    rw [hcalls] at hj
    rw [hsrv, hup, hdown]
    exact h.idle j hj
  · by_cases hne : j = sid
    · subst hne
      obtain rfl : call = call' := Option.some.inj (hcall.symm.trans hj)
      exact hs
    · obtain ⟨hcalls, -, hup, -⟩ := hothers j hne
      rw [hserver j hne, hup]
      exact h.server j call' (hcalls ▸ hj)
  · by_cases hne : j = sid
    · subst hne
      obtain rfl : call = call' := Option.some.inj (hcall.symm.trans hj)
      exact hc
    · obtain ⟨hcalls, -, -, hdown⟩ := hothers j hne
      rw [hserver j hne, hdown]
      exact h.client j call' (hcalls ▸ hj)

/-- A stream of the server belongs to a call. -/
theorem Ok.call_of_srv (h : Ok inflight c) {st : ServerStream} (hst : c.srv sid = some st) :
    ∃ call, c.calls sid = some call ∧ c.server sid = st := by
  cases hcall : c.calls sid with
  | none =>
    rw [(h.idle sid hcall).1] at hst
    cases hst
  | some call => exact ⟨call, rfl, by rw [Conn.server, hst]; rfl⟩

/-- Changing the call of a stream, and nothing else. -/
theorem Ok.setCall (h : Ok inflight c) (hcall : c.calls sid = some call) {call' : GetCall}
    (hreqs : call'.sentReqs = call.sentReqs)
    (hc : ClientOk inflight (c.server sid) (c.down sid) call') :
    Ok inflight (c.setCall sid call') := by
  refine h.change rfl (by rw [hcall]; exact Option.some_ne_none _) (fun j hj => ?_)
    (Function.update_self ..) ?_ hc
  · exact ⟨Function.update_of_ne hj .., rfl, rfl, rfl⟩
  · rw [hreqs]
    exact h.server sid call hcall

theorem server_setServer {st : ServerStream} : (c.setServer sid st).server sid = st := by
  rw [Conn.server, Conn.setServer]
  simp

/-- Changing the server's side of a stream, and nothing else. -/
theorem Ok.setServer (h : Ok inflight c) (hcall : c.calls sid = some call) {st : ServerStream}
    (hs : ServerOk inflight call.sentReqs st (c.up sid))
    (hc : ClientOk inflight st (c.down sid) call) : Ok inflight (c.setServer sid st) := by
  refine h.change rfl (by rw [hcall]; exact Option.some_ne_none _) (fun j hj => ?_) hcall ?_ ?_
  · exact ⟨rfl, Function.update_of_ne hj .., rfl, rfl⟩
  · rw [server_setServer]
    exact hs
  · rw [server_setServer]
    exact hc

/-- A new call. -/
theorem Ok.newCall (h : Ok inflight c) (batch : Bool) (keys : List Key) {off size : Int}
    (hp : (GetReq.mk [] off size).Proper) :
    Ok inflight ({ c with next := c.next + 1 }.setCall c.next (.start batch keys off size)) := by
  have hnone := h.unused c.next le_rfl
  obtain ⟨hsrv, hup, hdown⟩ := h.idle c.next hnone
  have hfresh : c.server c.next = .fresh := by
    rw [Conn.server, hsrv]
    rfl
  have hold : ∀ j, j ≠ c.next → Function.update c.calls c.next
      (some (GetCall.start batch keys off size)) j = c.calls j := fun j hj =>
    Function.update_of_ne hj ..
  have hnew : Function.update c.calls c.next (some (GetCall.start batch keys off size)) c.next =
      some (.start batch keys off size) := Function.update_self ..
  refine ⟨fun j hj => ?_, fun j hj => ?_, fun j call hj => ?_, fun j call hj => ?_⟩
  · exact (hold j (Nat.ne_of_gt hj)).trans (h.unused j (Nat.le_of_succ_le hj))
  · by_cases hne : j = c.next
    · subst hne
      exact absurd (hnew.symm.trans hj) (by simp)
    · exact h.idle j ((hold j hne).symm.trans hj)
  · by_cases hne : j = c.next
    · subst hne
      cases Option.some.inj (hnew.symm.trans hj)
      show ServerOk inflight [] (c.server c.next) (c.up c.next)
      rw [hfresh, hup]
      exact serverOk_fresh inflight
    · exact h.server j call ((hold j hne).symm.trans hj)
  · by_cases hne : j = c.next
    · subst hne
      cases Option.some.inj (hnew.symm.trans hj)
      show ClientOk inflight (c.server c.next) (c.down c.next) _
      rw [hfresh, hdown]
      exact clientOk_start inflight batch keys hp
    · exact h.client j call ((hold j hne).symm.trans hj)

/-- **One action keeps every stream in order.** -/
theorem ok_step (h : Ok inflight c) {a : ConnAct} (hon : a.Honest)
    (hstep : step inflight c a = some c') : Ok inflight c' := by
  cases a with
  | call batch keys off size =>
    rw [step] at hstep
    split at hstep
    · rename_i harg
      cases hstep
      exact h.newCall batch keys ⟨harg.1, harg.2.1, harg.2.2.1, harg.2.2.2.1⟩
    · cases hstep
  | post sid =>
    obtain ⟨call, hcall, hstep⟩ := Option.bind_eq_some_iff.mp hstep
    split at hstep
    · rename_i hnew
      cases hstep
      have hs := h.server sid call hcall
      rw [GetCall.sentReqs, hnew.1] at hs
      refine h.change rfl (by rw [hcall]; exact Option.some_ne_none _) (fun j hj => ?_)
        (Function.update_self ..) ?_ ?_
      · refine ⟨Function.update_of_ne hj .., rfl, ?_, rfl⟩
        show itemsOf j (c.c2s ++ tag sid call.reqs) = itemsOf j c.c2s
        rw [itemsOf_append, itemsOf_tag_of_ne (Ne.symm hj), List.append_nil]
      · show ServerOk inflight call.reqs (c.server sid) (itemsOf sid (c.c2s ++ tag sid call.reqs))
        rw [itemsOf_append, itemsOf_tag_self]
        exact hs.post call.reqs
      · exact (h.client sid call hcall).post
    · cases hstep
  | dispatch =>
    rw [step] at hstep
    cases hc2s : c.c2s with
    | nil =>
      rw [hc2s] at hstep
      cases hstep
    | cons y rest =>
      obtain ⟨sid, r⟩ := y
      rw [hc2s] at hstep
      simp only [dispatch] at hstep
      split at hstep
      · cases hstep
        have hup : c.up sid = r :: itemsOf sid rest := by
          rw [up, hc2s, itemsOf_cons_self]
        obtain ⟨call, hcall⟩ : ∃ call, c.calls sid = some call := by
          cases hcall : c.calls sid with
          | none =>
            rw [(h.idle sid hcall).2.1] at hup
            cases hup
          | some call => exact ⟨call, rfl⟩
        have hs := h.server sid call hcall
        rw [hup] at hs
        refine h.change rfl (by rw [hcall]; exact Option.some_ne_none _) (fun j hj => ?_) hcall ?_ ?_
        · refine ⟨rfl, Function.update_of_ne hj .., ?_, rfl⟩
          rw [up, up, hc2s, itemsOf_cons_of_ne (Ne.symm hj)]
          rfl
        · rw [server_setServer]
          exact hs.dispatch
        · rw [server_setServer]
          exact (h.client sid call hcall).handler hs.sent_le List.prefix_rfl rfl (.inl rfl)
      · cases hstep
  | take sid lookup =>
    obtain ⟨st, hst, hstep⟩ := Option.bind_eq_some_iff.mp hstep
    obtain ⟨call, hcall, rfl⟩ := h.call_of_srv hst
    cases hinq : (c.server sid).inq with
    | nil =>
      rw [hinq] at hstep
      cases hstep
    | cons r inq =>
      simp only [hinq] at hstep
      split at hstep
      · rename_i hready
        cases hstep
        have hs := h.server sid call hcall
        refine h.setServer hcall (hs.take hinq hready.2 (fun s hl => hon sid s (hl ▸ rfl)))
          ((h.client sid call hcall).handler hs.sent_le ?_ rfl (.inr ⟨_, rfl⟩))
        exact GetStream.out_prefix_turn inflight _ _
      · cases hstep
  | drain sid =>
    obtain ⟨st, hst, hstep⟩ := Option.bind_eq_some_iff.mp hstep
    obtain ⟨call, hcall, rfl⟩ := h.call_of_srv hst
    split at hstep
    · rename_i hready
      cases hstep
      have hs := h.server sid call hcall
      refine h.setServer hcall (hs.drain hready.2.2)
        ((h.client sid call hcall).handler hs.sent_le ?_ rfl (.inl rfl))
      exact GetStream.out_prefix_turn inflight _ _
    · cases hstep
  | write sid =>
    obtain ⟨st, hst, hstep⟩ := Option.bind_eq_some_iff.mp hstep
    obtain ⟨call, hcall, rfl⟩ := h.call_of_srv hst
    obtain ⟨x, hx, hstep⟩ := Option.bind_eq_some_iff.mp hstep
    cases hstep
    refine h.change rfl (by rw [hcall]; exact Option.some_ne_none _) (fun j hj => ?_) hcall ?_ ?_
    · refine ⟨rfl, Function.update_of_ne hj .., rfl, ?_⟩
      show itemsOf j (c.s2c ++ tag sid [x]) = itemsOf j c.s2c
      rw [itemsOf_append, itemsOf_tag_of_ne (Ne.symm hj), List.append_nil]
    · rw [server_setServer]
      exact (h.server sid call hcall).write hx
    · rw [server_setServer]
      show ClientOk inflight _ (itemsOf sid (c.s2c ++ tag sid [x])) call
      rw [itemsOf_append, itemsOf_tag_self]
      exact (h.client sid call hcall).write hx
  | deliver =>
    rw [step] at hstep
    cases hs2c : c.s2c with
    | nil =>
      rw [hs2c] at hstep
      cases hstep
    | cons y rest =>
      obtain ⟨sid, x⟩ := y
      rw [hs2c] at hstep
      have hdown : c.down sid = x :: itemsOf sid rest := by
        rw [down, hs2c, itemsOf_cons_self]
      have hothers : ∀ j, j ≠ sid → itemsOf j rest = c.down j := fun j hj => by
        rw [down, hs2c, itemsOf_cons_of_ne (Ne.symm hj)]
      simp only [deliver] at hstep
      cases hcall : c.calls sid with
      | none =>
        rw [(h.idle sid hcall).2.2] at hdown
        cases hdown
      | some call =>
        have hc := h.client sid call hcall
        rw [hdown] at hc
        simp only [hcall] at hstep
        split at hstep
        · split at hstep
          · cases hstep
            exact h.change rfl (by rw [hcall]; exact Option.some_ne_none _)
              (fun j hj => ⟨Function.update_of_ne hj .., rfl, rfl, hothers j hj⟩)
              (Function.update_self ..) (h.server sid call hcall) hc.deliver
          · cases hstep
        · rename_i hreg
          cases hstep
          exact h.change rfl (by rw [hcall]; exact Option.some_ne_none _)
            (fun j hj => ⟨rfl, rfl, rfl, hothers j hj⟩) hcall (h.server sid call hcall)
            (hc.dropped (by simpa using hreg) _)
  | read sid =>
    obtain ⟨call, hcall, hstep⟩ := Option.bind_eq_some_iff.mp hstep
    cases hinq : call.inq with
    | nil =>
      rw [hinq] at hstep
      cases hstep
    | cons x inq =>
      simp only [hinq] at hstep
      split at hstep
      · rename_i hpend
        cases hstep
        exact h.setCall hcall (receive_sentReqs call inq x) ((h.client sid call hcall).read
          (h.server sid call hcall) (fun r hr => GetCall.mem_sentReqs hr) hinq hpend)
      · cases hstep
  | cancel sid =>
    obtain ⟨call, hcall, hstep⟩ := Option.bind_eq_some_iff.mp hstep
    split at hstep
    · cases hstep
      exact h.setCall hcall rfl ((h.client sid call hcall).unregister _ (.inr rfl) (by decide))
    · cases hstep
  | release sid =>
    obtain ⟨call, hcall, hstep⟩ := Option.bind_eq_some_iff.mp hstep
    split at hstep
    · rename_i hret
      cases hstep
      exact h.setCall hcall rfl ((h.client sid call hcall).unregister _ (.inl rfl)
        (by rw [hret]; decide))
    · cases hstep

end Step

/-- Every stream is in order after every run. -/
theorem ok_run {inflight : Int} {acts : List ConnAct} {c : Conn} (hon : ∀ a ∈ acts, a.Honest)
    (hrun : run inflight acts = some c) : Ok inflight c := by
  exact Transition.run_invariant (fun _ _ _ h hok hs => ok_step h hok hs) ok_start
    (Transition.along_of_forall_mem hon start) hrun

end Conn

/-! ## 5. What a call gets -/

/-- A call reads only frames that the handler of its own stream has written, in their order;
object bytes only of the response it is reading; and if it returns without an error, result `i`
is exactly the range of the snapshot that the server found for key `i`, in the request sent for
that index. -/
structure GetCall.Isolated (c : Conn) (sid : Nat) (call : GetCall) : Prop where
  own_stream : call.seen.map Prod.snd <+: (c.server sid).handler.out
  own_index : ∀ y ∈ call.seen, y.2.2.bytes ≠ [] → y.1 = y.2.1
  complete : call.outcome = .returned → call.results.length = call.keys.length
  exact_bytes : ∀ (i : Nat) key b, call.keys[i]? = some key → call.results[i]? = some b →
    ∃ s, (c.server sid).asked[i]? = some (⟨key, call.off, call.size⟩, .ok s) ∧
      call.off + call.size ≤ s.md.size ∧ b = s.slice call.off call.size

theorem oneByteObject_honest : oneByteObject.Honest := by
  intro pos want b hb
  by_cases hwant : 0 < want
  · have hlen := hb.length hwant
    have hin : pos + want ≤ 1 := Snapshot.ReadsInFull.inside ⟨b, hb⟩ hwant
    obtain ⟨w, buf, n, hw, -, hd, -, rfl⟩ := hb
    have h0 := (readWindow_fits hw oneByteObject.offset_nonneg hwant).off_nonneg
    obtain ⟨rfl, rfl⟩ : pos = 0 ∧ want = 1 := by omega
    have hone : ((buf.drop w.skip.toNat).take (Int.toNat 1)).length = 1 := by omega
    obtain ⟨x, hx⟩ := List.length_eq_one_iff.mp hone
    have hmem : x ∈ buf := List.mem_of_mem_drop (List.mem_of_mem_take (hx ▸ List.mem_singleton.mpr rfl))
    simp only [oneByteObject] at hd
    split at hd
    · cases hd
      rw [hx, (List.mem_replicate.mp hmem).2]
      rfl
    · cases hd
  · obtain ⟨w, buf, n, -, -, -, -, rfl⟩ := hb
    rw [Snapshot.slice, Int.toNat_of_nonpos (by omega), List.take_zero, List.take_zero]

/-- A `GetBatch` of two keys, and a `Get` beside it that is cancelled. -/
def twoGetsActs : List ConnAct :=
  [.call true [[1], [2]] 0 1, .call false [[3]] 0 1, .post 0, .post 1, .dispatch, .dispatch,
    .dispatch, .take 0 (.ok oneByteObject), .take 1 (.ok oneByteObject), .write 1, .write 0,
    .cancel 1, .deliver, .deliver, .read 0, .take 0 (.ok oneByteObject), .write 0, .deliver, .read 0]

end Taihu
