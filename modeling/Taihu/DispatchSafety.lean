/-
# The connection survives its clients, until the ids wrap

Over the connection of `Dispatch.lean`.  What a stream still has to deliver (the frames in the
queue of the stream, in the hand of the read loop, under way, and not yet written) is at every
moment something its handler will consume to the last frame before it ends
(`Phase.Accepts`).  So no frame meets an unknown or a finished stream: in particular every early
exit of `handlePut` drains exactly its own tail.

That rests on one fact about ids: a call opens its stream with an id that is not in use.  Ids
wrap after `2 ^ 32` streams, and the handler of a Get never ends, so a later call can get an id
whose stream the server still has (`wrapped_id_kills_connection`).
-/
import Taihu.Dispatch
import Taihu.GetChunks

namespace Taihu

open Framing

/-! ## 1. What a handler will consume -/

/-- Data frames and the end of a Put. -/
def putTail (lens : List Nat) : List ReqFrame := lens.map .putData ++ [.putEnd]

/-- The lengths of the data frames of a Put. -/
def chunkLens (size : Int) : List Nat :=
  (chunkStarts 0 size).map (fun off => (chunkWant size off).toNat)

theorem put_frames (key : Key) (size : Int) :
    (Rpc.put key size).frames = .putHeader key size :: putTail (chunkLens size) := by
  simp [Rpc.frames, putTail, chunkLens, Function.comp_def]

theorem chunkLens_of_nonpos {size : Int} (h : size ≤ 0) : chunkLens size = [] := by
  rw [chunkLens, chunkStarts_of_le h]
  rfl

/-- The data frames carry the object, and each carries something. -/
theorem chunkLens_spec {size : Int} (h : 0 < size) :
    ((chunkLens size).sum : Int) = size ∧ ∀ l ∈ chunkLens size, 0 < l := by
  have key := chunk_induction (P := fun pos =>
    ((((chunkStarts pos size).map (fun off => (chunkWant size off).toNat)).sum : Nat) : Int) =
      size - pos ∧ ∀ l ∈ (chunkStarts pos size).map (fun off => (chunkWant size off).toNat), 0 < l)
    (fun pos hpos ih => ?_) 0 h
  · rw [Int.sub_zero] at key
    exact key
  · have hwant := chunkWant_pos hpos
    rw [chunkStarts_of_lt hpos, List.map_cons, List.sum_cons, List.forall_mem_cons]
    by_cases hlt : pos + chunkSize < size
    · obtain ⟨hsum, hall⟩ := ih hlt
      rw [chunkWant_of_lt hlt] at hwant ⊢
      refine ⟨?_, by omega, hall⟩
      omega
    · rw [chunkWant_of_le (by omega)] at hwant ⊢
      rw [chunkStarts_of_le (by omega), List.map_nil, List.sum_nil]
      exact ⟨by omega, by omega, fun l hl => absurd hl List.not_mem_nil⟩

namespace Phase

/-- The handler consumes all of `fs` and wants no more of its request. -/
def Accepts : Phase → List ReqFrame → Prop
  | putFirst, fs => ∃ key size, fs = (Rpc.put key size).frames
  | putCollect size pos, fs => ∃ lens, fs = putTail lens ∧ pos + lens.sum = size
  | drainTail budget got, fs =>
    ∃ lens, fs = putTail lens ∧ got + lens.sum = budget ∧ ∀ l ∈ lens, 0 < l
  | drainUnknown, fs => ∃ lens, fs = putTail lens
  | getLoop, fs => ∀ f ∈ fs, ∃ r, f = .getReq r
  | unaryFirst, fs => ∃ op key, fs = [.unary op key]
  | leaving, fs => fs = []
  | removed, fs => fs = []
  | finished, fs => fs = []

/-- The first frame of a call opens its stream, and starts a handler for all its frames. -/
theorem accepts_ofFirst {r : Rpc} {f : ReqFrame} {fs : List ReqFrame} (h : r.frames = f :: fs) :
    f.Opens ∧ (ofFirst f).Accepts (f :: fs) ∧ (ofFirst f).Live := by
  cases r with
  | put key size =>
    have hf : f = .putHeader key size := (List.cons.inj h).1.symm
    subst hf
    exact ⟨trivial, ⟨key, size, h.symm⟩, by simp [ofFirst, Live]⟩
  | get key keys off size =>
    have hall : ∀ g ∈ f :: fs, ∃ r, g = .getReq r := by
      intro g hg
      rw [← h] at hg
      obtain ⟨k, -, rfl⟩ := List.mem_map.mp hg
      exact ⟨_, rfl⟩
    obtain ⟨r, rfl⟩ := hall f List.mem_cons_self
    exact ⟨trivial, hall, by simp [ofFirst, Live]⟩
  | unary op key =>
    cases h
    exact ⟨trivial, ⟨op, key, rfl⟩, by simp [ofFirst, Live]⟩

/-- **Every exit of `handlePut` after its header is on to exactly the tail of its Put.** -/
theorem accepts_afterHeader (maxObjectSize : Int) (begins : Bool) (key : Key) (size : Int) :
    (afterHeader maxObjectSize begins key size).Accepts (putTail (chunkLens size)) := by
  have hempty : size ≤ 0 → (drainTail 0 0).Accepts (putTail (chunkLens size)) := fun h => by
    rw [chunkLens_of_nonpos h]
    exact ⟨[], rfl, rfl, fun l hl => absurd hl List.not_mem_nil⟩
  have hdrain : 0 < size → (drainTail size 0).Accepts (putTail (chunkLens size)) := fun h => by
    obtain ⟨hsum, hall⟩ := chunkLens_spec h
    exact ⟨_, rfl, by omega, hall⟩
  unfold afterHeader
  by_cases hkey : key.length > maxKeyLen
  · rw [if_pos hkey]
    exact ⟨_, rfl⟩
  rw [if_neg hkey]
  by_cases hneg : size < 0
  · rw [if_pos hneg]
    exact hempty (by omega)
  rw [if_neg hneg]
  by_cases hzero : size = 0
  · subst hzero
    by_cases hbig : 0 > maxObjectSize
    · rw [if_pos hbig]
      exact hempty le_rfl
    · rw [if_neg hbig, if_pos rfl]
      exact hempty le_rfl
  by_cases hbig : size > maxObjectSize
  · rw [if_pos hbig]
    exact hdrain (by omega)
  rw [if_neg hbig, if_neg hzero]
  cases begins
  · exact hdrain (by omega)
  · obtain ⟨hsum, -⟩ := chunkLens_spec (by omega : 0 < size)
    exact ⟨_, rfl, by omega⟩

/-- **Consuming a frame leaves a handler that accepts the rest.** -/
theorem Accepts.handle {p : Phase} {f : ReqFrame} {fs : List ReqFrame} (h : p.Accepts (f :: fs))
    (maxObjectSize : Int) (begins : Bool) : (p.handle maxObjectSize begins f).Accepts fs := by
  cases p with
  | putFirst =>
    obtain ⟨key, size, heq⟩ := h
    rw [put_frames] at heq
    cases heq
    exact accepts_afterHeader maxObjectSize begins key size
  | putCollect size pos =>
    obtain ⟨lens, heq, hsum⟩ := h
    cases lens with
    | nil =>
      cases heq
      exact rfl
    | cons l lens =>
      cases heq
      rw [List.sum_cons] at hsum
      rw [Phase.handle, if_neg (by omega)]
      exact ⟨lens, rfl, by omega⟩
  | drainTail budget got =>
    obtain ⟨lens, heq, hsum, hall⟩ := h
    cases lens with
    | nil =>
      cases heq
      exact rfl
    | cons l lens =>
      cases heq
      have hl := hall l List.mem_cons_self
      rw [List.sum_cons] at hsum
      rw [Phase.handle, if_pos (by omega)]
      exact ⟨lens, rfl, by omega, fun m hm => hall m (List.mem_cons_of_mem l hm)⟩
  | drainUnknown =>
    obtain ⟨lens, heq⟩ := h
    cases lens with
    | nil =>
      cases heq
      exact rfl
    | cons l lens =>
      cases heq
      exact ⟨lens, rfl⟩
  | getLoop =>
    obtain ⟨r, rfl⟩ := h f List.mem_cons_self
    exact fun g hg => h g (List.mem_cons_of_mem _ hg)
  | unaryFirst =>
    obtain ⟨op, key, heq⟩ := h
    cases heq
    exact rfl
  | leaving => cases h
  | removed => cases h
  | finished => cases h

/-- A handler that consumes a frame stays on the map until its `endStream`. -/
theorem live_handle {p : Phase} (h : p.Awaits) (maxObjectSize : Int) (begins : Bool)
    (f : ReqFrame) : (p.handle maxObjectSize begins f).Live := by
  obtain ⟨h1, h2, h3⟩ := h
  have hafter : ∀ key size, (afterHeader maxObjectSize begins key size).Live := by
    intro key size
    unfold afterHeader
    repeat' split
    all_goals simp [Live]
  cases p <;> cases f <;> simp_all [Phase.handle, Live] <;> split <;> simp

end Phase

/-! ## 2. The frames of a stream -/

/-- An entry of a list, with what stands before and after it. -/
theorem split_at {α : Type} {l : List α} {i : Nat} {a : α} (h : l[i]? = some a) :
    ∃ pre post, l = pre ++ a :: post ∧ (∀ b, l.set i b = pre ++ b :: post) ∧
      l.eraseIdx i = pre ++ post := by
  induction l generalizing i with
  | nil => cases h
  | cons x l ih =>
    cases i with
    | zero =>
      cases h
      exact ⟨[], l, rfl, fun _ => rfl, rfl⟩
    | succ i =>
      obtain ⟨pre, post, h1, h2, h3⟩ := ih (List.getElem?_cons_succ ▸ h)
      exact ⟨x :: pre, post, congrArg _ h1, fun b => congrArg _ (h2 b), congrArg _ h3⟩

/-- An id that no entry has. -/
theorem itemsOf_eq_nil {α : Type} {i : Nat} {l : List (Nat × α)} (h : i ∉ l.map Prod.fst) :
    itemsOf i l = [] := by
  refine List.filterMap_eq_nil_iff.mpr (fun x hx => if_neg ?_)
  rintro rfl
  exact h (List.mem_map_of_mem hx)

namespace TcpConn

/-- The frame of a stream in the hand of the read loop. -/
def handOf (c : TcpConn) (sid : Nat) : List ReqFrame :=
  match c.hand with
  | some h => if h.sid = sid then [h.frame] else []
  | none => []

/-- The frames of a stream not yet written. -/
def unsent (c : TcpConn) (sid : Nat) : List ReqFrame := (itemsOf sid c.calls).flatten

/-- The frames of a stream that its queue has still to receive, in their order. -/
def pending (c : TcpConn) (sid : Nat) : List ReqFrame :=
  c.handOf sid ++ itemsOf sid c.c2s ++ c.unsent sid

/-- The server has a stream for the id, and its handler will consume what is pending; or it has
none, and what is pending is a whole request. -/
structure StreamOk (c : TcpConn) (sid : Nat) : Prop where
  mapped : ∀ g, c.streams sid = some g → (c.objs g).sid = sid ∧ g < c.gens ∧
    (c.objs g).phase.Live ∧ (c.objs g).phase.Accepts ((c.objs g).inq ++ c.pending sid)
  unmapped : c.streams sid = none → c.pending sid = [] ∨ ∃ r, c.pending sid = Rpc.frames r

/-- The invariant while the connection is open. -/
structure Orderly (c : TcpConn) : Prop where
  nodup : (c.calls.map Prod.fst).Nodup
  stream : ∀ sid, c.StreamOk sid
  hand : ∀ h, c.hand = some h → c.streams h.sid = some h.gen
  live : ∀ g, (c.objs g).phase.Live → c.streams (c.objs g).sid = some g

/-- The invariant. -/
structure Safe (c : TcpConn) : Prop where
  not_fatal : c.fatal = false
  closed : c.isOpen = false → c.hand = none
  orderly : c.isOpen = true → c.Orderly

/-- An id that is not in use: no call has it, no frame carries it, the server has no stream for
it. -/
def Unused (c : TcpConn) (sid : Nat) : Prop :=
  sid ∉ c.calls.map Prod.fst ∧ sid ∉ c.c2s.map Prod.fst ∧ c.handOf sid = [] ∧ c.streams sid = none

instance (c : TcpConn) (sid : Nat) : Decidable (c.Unused sid) :=
  inferInstanceAs (Decidable (_ ∧ _ ∧ _ ∧ _))

section Step

variable {c c' : TcpConn} {sid : Nat}

theorem safe_start : Safe start := by
  refine ⟨rfl, fun h => (nomatch h), fun _ => ⟨List.nodup_nil, fun sid => ⟨?_, ?_⟩, ?_, ?_⟩⟩
  · exact fun g hg => nomatch hg
  · exact fun _ => .inl rfl
  · exact fun h hh => nomatch hh
  · exact fun g hg => absurd rfl hg.2

/-- What does not touch the stream of an id keeps it in order. -/
theorem StreamOk.congr (h : c.StreamOk sid) (hstreams : c'.streams sid = c.streams sid)
    (hpending : c'.pending sid = c.pending sid)
    (hobj : ∀ g, c.streams sid = some g → c'.objs g = c.objs g) (hgens : c.gens ≤ c'.gens) :
    c'.StreamOk sid := by
  refine ⟨fun g hg => ?_, fun hnone => ?_⟩
  · rw [hstreams] at hg
    obtain ⟨h1, h2, h3, h4⟩ := h.mapped g hg
    rw [hobj g hg, hpending]
    exact ⟨h1, Nat.lt_of_lt_of_le h2 hgens, h3, h4⟩
  · rw [hstreams] at hnone
    rw [hpending]
    exact h.unmapped hnone

/-- What only moves frames on their way keeps every stream in order. -/
theorem Orderly.move (h : c.Orderly) (hnodup : (c'.calls.map Prod.fst).Nodup)
    (hstreams : c'.streams = c.streams) (hobjs : c'.objs = c.objs) (hgens : c'.gens = c.gens)
    (hpending : ∀ sid, c'.pending sid = c.pending sid)
    (hhand : ∀ h', c'.hand = some h' → c.streams h'.sid = some h'.gen) : c'.Orderly := by
  refine ⟨hnodup, fun sid => (h.stream sid).congr (by rw [hstreams]) (hpending sid)
    (fun g _ => by rw [hobjs]) (by rw [hgens]), ?_, ?_⟩
  · rw [hstreams]
    exact hhand
  · rw [hstreams, hobjs]
    exact h.live

/-- Nothing is pending for an id that is not in use. -/
theorem pending_eq_nil (h : c.Unused sid) : c.pending sid = [] := by
  obtain ⟨hcalls, hc2s, hhand, -⟩ := h
  rw [pending, hhand, itemsOf_eq_nil hc2s, unsent, itemsOf_eq_nil hcalls]
  rfl

/-- A new call with an id that is not in use has its frames pending. -/
theorem pending_newCall_self (r : Rpc) (hfree : c.Unused c.nextId) :
    ({ c with sid := c.nextId, calls := c.calls ++ [(c.nextId, r.frames)] } : TcpConn).pending
      c.nextId = r.frames := by
  obtain ⟨hcalls, hc2s, hhand, -⟩ := hfree
  show c.handOf c.nextId ++ itemsOf c.nextId c.c2s ++
    (itemsOf c.nextId (c.calls ++ [(c.nextId, r.frames)])).flatten = r.frames
  rw [hhand, itemsOf_eq_nil hc2s, itemsOf_append, itemsOf_eq_nil hcalls]
  simp

theorem pending_newCall_of_ne (r : Rpc) (hsid : sid ≠ c.nextId) :
    ({ c with sid := c.nextId, calls := c.calls ++ [(c.nextId, r.frames)] } : TcpConn).pending sid =
      c.pending sid := by
  show c.handOf sid ++ itemsOf sid c.c2s ++
    (itemsOf sid (c.calls ++ [(c.nextId, r.frames)])).flatten = _
  rw [itemsOf_append, itemsOf_cons_of_ne (Ne.symm hsid), itemsOf_nil, List.append_nil]
  rfl

/-- A new call with an id that is not in use. -/
theorem Orderly.newCall (h : c.Orderly) (r : Rpc) (hfree : c.Unused c.nextId) :
    ({ c with sid := c.nextId, calls := c.calls ++ [(c.nextId, r.frames)] } : TcpConn).Orderly := by
  refine ⟨?_, fun sid => ?_, h.hand, h.live⟩
  · rw [List.map_append, List.nodup_append]
    refine ⟨h.nodup, List.nodup_singleton _, fun a ha b hb heq => ?_⟩
    rw [List.mem_singleton.mp hb] at heq
    exact hfree.1 ((show a = c.nextId from heq) ▸ ha)
  · by_cases hsid : sid = c.nextId
    · subst hsid
      exact ⟨fun g hg => absurd (hg.symm.trans hfree.2.2.2) (by simp),
        fun _ => .inr ⟨r, pending_newCall_self r hfree⟩⟩
    · exact (h.stream sid).congr rfl (pending_newCall_of_ne r hsid) (fun _ _ => rfl) le_rfl

/-- A frame that a call writes stays pending. -/
theorem pending_send (hnodup : (c.calls.map Prod.fst).Nodup) {i : Nat} {f : ReqFrame}
    {fs : List ReqFrame} (hi : c.calls[i]? = some (sid, f :: fs)) (j : Nat) :
    ({ c with calls := c.calls.set i (sid, fs), c2s := c.c2s ++ [(sid, f)] } : TcpConn).pending j =
      c.pending j := by
  obtain ⟨pre, post, hcalls, hset, -⟩ := split_at hi
  have hnot : sid ∉ pre.map Prod.fst ∧ sid ∉ post.map Prod.fst := by
    rw [hcalls, List.map_append, List.map_cons, List.nodup_middle, List.nodup_cons, List.mem_append,
      not_or] at hnodup
    exact hnodup.1
  show c.handOf j ++ itemsOf j (c.c2s ++ [(sid, f)]) ++ (itemsOf j (c.calls.set i (sid, fs))).flatten
    = c.handOf j ++ itemsOf j c.c2s ++ (itemsOf j c.calls).flatten
  rw [hset, hcalls, itemsOf_append, itemsOf_append, itemsOf_append]
  by_cases hj : sid = j
  · subst hj
    rw [itemsOf_eq_nil hnot.1, itemsOf_cons_self, itemsOf_cons_self, itemsOf_cons_self,
      itemsOf_eq_nil hnot.2]
    simp
  · rw [itemsOf_cons_of_ne hj, itemsOf_cons_of_ne hj, itemsOf_cons_of_ne hj, itemsOf_nil,
      List.append_nil]

/-- A call writes a frame. -/
theorem Orderly.send (h : c.Orderly) {i : Nat} {f : ReqFrame} {fs : List ReqFrame}
    (hi : c.calls[i]? = some (sid, f :: fs)) :
    ({ c with calls := c.calls.set i (sid, fs), c2s := c.c2s ++ [(sid, f)] } : TcpConn).Orderly := by
  refine h.move ?_ rfl rfl rfl (pending_send h.nodup hi) h.hand
  obtain ⟨pre, post, hcalls, hset, -⟩ := split_at hi
  have hnodup := h.nodup
  rw [hcalls, List.map_append, List.map_cons] at hnodup
  rw [hset, List.map_append, List.map_cons]
  exact hnodup

theorem pending_ret {i : Nat} (hi : c.calls[i]? = some (sid, [])) (j : Nat) :
    ({ c with calls := c.calls.eraseIdx i } : TcpConn).pending j = c.pending j := by
  obtain ⟨pre, post, hcalls, -, herase⟩ := split_at hi
  show c.handOf j ++ itemsOf j c.c2s ++ (itemsOf j (c.calls.eraseIdx i)).flatten
    = c.handOf j ++ itemsOf j c.c2s ++ (itemsOf j c.calls).flatten
  rw [herase, hcalls, itemsOf_append, itemsOf_append]
  by_cases hj : sid = j
  · subst hj
    rw [itemsOf_cons_self, List.flatten_append, List.flatten_append, List.flatten_cons,
      List.nil_append]
  · rw [itemsOf_cons_of_ne hj]

/-- A call that has written its frames returns. -/
theorem Orderly.ret (h : c.Orderly) {i : Nat} (hi : c.calls[i]? = some (sid, [])) :
    ({ c with calls := c.calls.eraseIdx i } : TcpConn).Orderly := by
  refine h.move ?_ rfl rfl rfl (pending_ret hi) h.hand
  obtain ⟨pre, post, hcalls, -, herase⟩ := split_at hi
  have hnodup := h.nodup
  rw [hcalls, List.map_append, List.map_cons] at hnodup
  rw [herase, List.map_append]
  exact (List.nodup_cons.mp (List.nodup_middle.mp hnodup)).2

/-- Changing the object of a stream, and the hand of the read loop. -/
theorem Orderly.setObj (h : c.Orderly) (hand' : Option InHand) {g : Nat} {st : SrvStream}
    (hg : c.streams sid = some g) (hst : st.sid = sid) (hlive : st.phase.Live)
    (hothers : ∀ j, j ≠ sid → ({ c with hand := hand' } : TcpConn).pending j = c.pending j)
    (hhand : ∀ h', hand' = some h' → c.streams h'.sid = some h'.gen)
    (hacc : st.phase.Accepts (st.inq ++ ({ c with hand := hand' } : TcpConn).pending sid)) :
    (({ c with hand := hand' } : TcpConn).setObj g st).Orderly := by
  have hself : Function.update c.objs g st g = st := Function.update_self ..
  have hother : ∀ g', g' ≠ g → Function.update c.objs g st g' = c.objs g' := fun g' hne =>
    Function.update_of_ne hne ..
  refine ⟨h.nodup, fun j => ?_, hhand, fun g' hlive' => ?_⟩
  · by_cases hj : j = sid
    · subst hj
      refine ⟨fun g' hg' => ?_, fun hnone => absurd (hg.symm.trans hnone) (by simp)⟩
      obtain rfl : g = g' := Option.some.inj (hg.symm.trans hg')
      show (Function.update c.objs g st g).sid = j ∧ g < c.gens ∧
        (Function.update c.objs g st g).phase.Live ∧ (Function.update c.objs g st g).phase.Accepts
          ((Function.update c.objs g st g).inq ++ ({ c with hand := hand' } : TcpConn).pending j)
      rw [hself]
      exact ⟨hst, ((h.stream j).mapped g hg).2.1, hlive, hacc⟩
    · refine (h.stream j).congr rfl (hothers j hj) (fun g' hg' => hother g' ?_) le_rfl
      rintro rfl
      have h1 := ((h.stream j).mapped _ hg').1
      have h2 := ((h.stream sid).mapped _ hg).1
      exact hj (h1.symm.trans h2)
  · by_cases hne : g' = g
    · subst hne
      show c.streams (Function.update c.objs g' st g').sid = some g'
      rw [hself, hst]
      exact hg
    · have hl : (Function.update c.objs g st g').phase.Live := hlive'
      show c.streams (Function.update c.objs g st g').sid = some g'
      rw [hother g' hne] at hl ⊢
      exact h.live g' hl

theorem handOf_some {h : InHand} (hh : c.hand = some h) (sid : Nat) :
    c.handOf sid = if h.sid = sid then [h.frame] else [] := by
  rw [handOf, hh]

theorem handOf_none (hh : c.hand = none) (sid : Nat) : c.handOf sid = [] := by
  rw [handOf, hh]

/-- A frame goes from the wire to the hand. -/
theorem pending_take (hhand : c.hand = none) {f : ReqFrame} {rest : List (Nat × ReqFrame)}
    (hc2s : c.c2s = (sid, f) :: rest) (g j : Nat) :
    ({ c with c2s := rest, hand := some ⟨sid, g, f⟩ } : TcpConn).pending j = c.pending j := by
  show (if sid = j then [f] else []) ++ itemsOf j rest ++ c.unsent j =
    c.handOf j ++ itemsOf j c.c2s ++ c.unsent j
  rw [handOf_none hhand, hc2s]
  by_cases hj : sid = j
  · subst hj
    rw [if_pos rfl, itemsOf_cons_self]
    rfl
  · rw [if_neg hj, itemsOf_cons_of_ne hj]

/-- **A frame that `dispatch` looks up finds its stream, or opens it.** -/
theorem Orderly.lookup (h : c.Orderly) (hhand : c.hand = none) {f : ReqFrame}
    {rest : List (Nat × ReqFrame)} (hc2s : c.c2s = (sid, f) :: rest) :
    (({ c with c2s := rest } : TcpConn).lookup sid f).Orderly ∧
      (({ c with c2s := rest } : TcpConn).lookup sid f).fatal = c.fatal ∧
      (({ c with c2s := rest } : TcpConn).lookup sid f).isOpen = c.isOpen := by
  cases hg : c.streams sid with
  | some g =>
    have heq : ({ c with c2s := rest } : TcpConn).lookup sid f =
        { c with c2s := rest, hand := some ⟨sid, g, f⟩ } := by
      simp only [TcpConn.lookup, hg]
    rw [heq]
    refine ⟨h.move h.nodup rfl rfl rfl (pending_take hhand hc2s g) (fun h' hh' => ?_), rfl, rfl⟩
    cases hh'
    exact hg
  | none =>
    have hpend : c.pending sid = f :: (itemsOf sid rest ++ c.unsent sid) := by
      rw [pending, handOf_none hhand, hc2s, itemsOf_cons_self]
      rfl
    obtain ⟨r, hr⟩ : ∃ r, c.pending sid = Rpc.frames r := by
      rcases (h.stream sid).unmapped hg with hnil | hr
      · rw [hpend] at hnil
        cases hnil
      · exact hr
    obtain ⟨hopens, hacc, hlive⟩ := Phase.accepts_ofFirst (hr.symm.trans hpend)
    have heq : ({ c with c2s := rest } : TcpConn).lookup sid f = { c with
        c2s := rest
        hand := some ⟨sid, c.gens, f⟩
        streams := Function.update c.streams sid (some c.gens)
        objs := Function.update c.objs c.gens ⟨sid, [], .ofFirst f⟩
        gens := c.gens + 1 } := by
      simp only [TcpConn.lookup, hg, if_pos hopens]
      rfl
    rw [heq]
    have hnew : Function.update c.streams sid (some c.gens) sid = some c.gens :=
      Function.update_self ..
    have hold : ∀ j, j ≠ sid → Function.update c.streams sid (some c.gens) j = c.streams j :=
      fun j hj => Function.update_of_ne hj ..
    have hobj : Function.update c.objs c.gens ⟨sid, [], .ofFirst f⟩ c.gens =
        ⟨sid, [], .ofFirst f⟩ := Function.update_self ..
    have hobj' : ∀ g, g ≠ c.gens → Function.update c.objs c.gens ⟨sid, [], .ofFirst f⟩ g =
        c.objs g := fun g hne => Function.update_of_ne hne ..
    refine ⟨⟨h.nodup, fun j => ?_, fun h' hh' => ?_, fun g' hlive' => ?_⟩, rfl, rfl⟩
    · by_cases hj : j = sid
      · subst hj
        refine ⟨fun g hg' => ?_, fun hnone => absurd (hnew.symm.trans hnone) (by simp)⟩
        obtain rfl : c.gens = g := Option.some.inj (hnew.symm.trans hg')
        have hp := pending_take hhand hc2s c.gens j
        rw [hpend] at hp
        show (Function.update c.objs c.gens ⟨j, [], .ofFirst f⟩ c.gens).sid = j ∧
          c.gens < c.gens + 1 ∧ (Function.update c.objs c.gens ⟨j, [], .ofFirst f⟩ c.gens).phase.Live ∧
            (Function.update c.objs c.gens ⟨j, [], .ofFirst f⟩ c.gens).phase.Accepts
              ((Function.update c.objs c.gens ⟨j, [], .ofFirst f⟩ c.gens).inq ++
                ({ c with c2s := rest, hand := some ⟨j, c.gens, f⟩ } : TcpConn).pending j)
        rw [hobj, hp]
        exact ⟨rfl, Nat.lt_succ_self _, hlive, hacc⟩
      · refine (h.stream j).congr (hold j hj) (pending_take hhand hc2s c.gens j) (fun g hg' => ?_)
          (Nat.le_succ _)
        exact hobj' g (Nat.ne_of_lt ((h.stream j).mapped g hg').2.1)
    · cases hh'
      exact hnew
    · by_cases hne : g' = c.gens
      · subst hne
        show Function.update c.streams sid (some c.gens)
          (Function.update c.objs c.gens ⟨sid, [], .ofFirst f⟩ c.gens).sid = _
        rw [hobj]
        exact hnew
      · have hl : (Function.update c.objs c.gens ⟨sid, [], .ofFirst f⟩ g').phase.Live := hlive'
        show Function.update c.streams sid (some c.gens)
          (Function.update c.objs c.gens ⟨sid, [], .ofFirst f⟩ g').sid = _
        rw [hobj' g' hne] at hl ⊢
        have hmap := h.live g' hl
        rw [hold _ (fun heq => by rw [heq, hg] at hmap; cases hmap)]
        exact hmap

theorem pending_deliver {hd : InHand} (hhand : c.hand = some hd) (hsid : sid ≠ hd.sid) :
    ({ c with hand := none } : TcpConn).pending sid = c.pending sid := by
  show [] ++ itemsOf sid c.c2s ++ c.unsent sid = c.handOf sid ++ itemsOf sid c.c2s ++ c.unsent sid
  rw [handOf_some hhand, if_neg (Ne.symm hsid)]

/-- `dispatch` delivers the frame it holds. -/
theorem Orderly.deliver (h : c.Orderly) {hd : InHand} (hhand : c.hand = some hd) :
    (({ c with hand := none } : TcpConn).setObj hd.gen
      { c.objs hd.gen with inq := (c.objs hd.gen).inq ++ [hd.frame] }).Orderly := by
  have hg := h.hand hd hhand
  obtain ⟨hsid, -, hlive, hacc⟩ := (h.stream hd.sid).mapped _ hg
  refine h.setObj none hg hsid hlive (fun j hj => pending_deliver hhand hj)
    (fun _ hh => nomatch hh) ?_
  · rw [pending, handOf_some hhand, if_pos rfl] at hacc
    show (c.objs hd.gen).phase.Accepts (((c.objs hd.gen).inq ++ [hd.frame]) ++
      ([] ++ itemsOf hd.sid c.c2s ++ c.unsent hd.sid))
    simpa using hacc

/-- A handler consumes a frame. -/
theorem Orderly.handle (h : c.Orderly) {g : Nat} {f : ReqFrame} {inq : List ReqFrame}
    (hinq : (c.objs g).inq = f :: inq) (hawaits : (c.objs g).phase.Awaits)
    (maxObjectSize : Int) (begins : Bool) :
    (c.setObj g { c.objs g with
      inq := inq, phase := (c.objs g).phase.handle maxObjectSize begins f }).Orderly := by
  have hg := h.live g hawaits.2
  obtain ⟨-, -, -, hacc⟩ := (h.stream _).mapped _ hg
  rw [hinq] at hacc
  exact h.setObj c.hand hg rfl (Phase.live_handle hawaits _ _ _) (fun _ _ => rfl) h.hand
    (hacc.handle _ _)

/-- `endStream` takes a stream off the map: nothing was pending for it. -/
theorem Orderly.remove (h : c.Orderly) {g : Nat} (hleaving : (c.objs g).phase = .leaving) :
    (({ c with streams := Function.update c.streams (c.objs g).sid none } : TcpConn).setObj g
      { c.objs g with phase := .removed }).Orderly := by
  have hlive : (c.objs g).phase.Live := by
    rw [hleaving]
    decide
  have hg := h.live g hlive
  obtain ⟨-, -, -, hacc⟩ := (h.stream _).mapped _ hg
  rw [hleaving] at hacc
  have hpend : c.pending (c.objs g).sid = [] := (List.append_eq_nil_iff.mp hacc).2
  have hgone : Function.update c.streams (c.objs g).sid none (c.objs g).sid = none :=
    Function.update_self ..
  have hold : ∀ j, j ≠ (c.objs g).sid →
      Function.update c.streams (c.objs g).sid none j = c.streams j := fun j hj =>
    Function.update_of_ne hj ..
  have hobj : ∀ g', g' ≠ g → Function.update c.objs g { c.objs g with phase := .removed } g' =
      c.objs g' := fun g' hne => Function.update_of_ne hne ..
  refine ⟨h.nodup, fun j => ?_, fun h' hh' => ?_, fun g' hlive' => ?_⟩
  · by_cases hj : j = (c.objs g).sid
    · subst hj
      exact ⟨fun g' hg' => absurd (hgone.symm.trans hg') (by simp), fun _ => .inl hpend⟩
    · refine (h.stream j).congr (hold j hj) rfl (fun g' hg' => hobj g' ?_) le_rfl
      rintro rfl
      exact hj ((h.stream j).mapped _ hg').1.symm
  · have hhand : c.hand = some h' := hh'
    refine (hold _ ?_).trans (h.hand h' hhand)
    intro heq
    rw [pending, handOf_some hhand, if_pos heq] at hpend
    cases hpend
  · by_cases hne : g' = g
    · subst hne
      have hl : (Function.update c.objs g' { c.objs g' with phase := Phase.removed } g').phase.Live :=
        hlive'
      rw [Function.update_self] at hl
      exact absurd rfl hl.1
    · have hl : (Function.update c.objs g { c.objs g with phase := Phase.removed } g').phase.Live :=
        hlive'
      show Function.update c.streams (c.objs g).sid none
        (Function.update c.objs g { c.objs g with phase := Phase.removed } g').sid = _
      rw [hobj g' hne] at hl ⊢
      have hmap := h.live g' hl
      have hdiff : (c.objs g').sid ≠ (c.objs g).sid := by
        intro heq
        rw [heq, hg] at hmap
        exact hne (Option.some.inj hmap).symm
      rw [hold _ hdiff]
      exact hmap

/-- The second half of `endStream` only touches an object that is off the map. -/
theorem Orderly.finish (h : c.Orderly) {g : Nat} (hremoved : (c.objs g).phase = .removed) :
    (c.setObj g { c.objs g with phase := .finished }).Orderly := by
  have hobj : ∀ g', g' ≠ g → Function.update c.objs g { c.objs g with phase := .finished } g' =
      c.objs g' := fun g' hne => Function.update_of_ne hne ..
  refine ⟨h.nodup, fun j => ?_, h.hand, fun g' hlive' => ?_⟩
  · refine (h.stream j).congr rfl rfl (fun g' hg' => hobj g' ?_) le_rfl
    rintro rfl
    exact ((h.stream j).mapped _ hg').2.2.1.1 hremoved
  · have hl : (Function.update c.objs g { c.objs g with phase := Phase.finished } g').phase.Live :=
      hlive'
    by_cases hne : g' = g
    · subst hne
      rw [Function.update_self] at hl
      exact absurd rfl hl.2
    · show c.streams (Function.update c.objs g { c.objs g with phase := Phase.finished } g').sid = _
      rw [hobj g' hne] at hl ⊢
      exact h.live g' hl

/-- What an action does when it is possible. -/
inductive Took (maxObjectSize : Int) (c : TcpConn) : TcpAct → TcpConn → Prop
  | call (r : Rpc) : Took maxObjectSize c (.call r)
      { c with sid := c.nextId, calls := c.calls ++ [(c.nextId, r.frames)] }
  | send {i sid : Nat} {f : ReqFrame} {fs : List ReqFrame}
      (hi : c.calls[i]? = some (sid, f :: fs)) : Took maxObjectSize c (.send i)
      { c with calls := c.calls.set i (sid, fs), c2s := c.c2s ++ [(sid, f)] }
  | ret {i sid : Nat} (hi : c.calls[i]? = some (sid, [])) :
      Took maxObjectSize c (.ret i) { c with calls := c.calls.eraseIdx i }
  | tooLong (rest : List (Nat × ReqFrame)) :
      Took maxObjectSize c .lookup ({ c with c2s := rest } : TcpConn).close
  | lookup {sid : Nat} {f : ReqFrame} {rest : List (Nat × ReqFrame)} (hopen : c.isOpen = true)
      (hhand : c.hand = none) (hc2s : c.c2s = (sid, f) :: rest) :
      Took maxObjectSize c .lookup (({ c with c2s := rest } : TcpConn).lookup sid f)
  | deliver {hd : InHand} (hhand : c.hand = some hd) : Took maxObjectSize c .deliver
      (({ c with hand := none } : TcpConn).setObj hd.gen
        { c.objs hd.gen with inq := (c.objs hd.gen).inq ++ [hd.frame] })
  | refuse {hd : InHand} (hhand : c.hand = some hd) (hfinished : (c.objs hd.gen).phase = .finished) :
      Took maxObjectSize c .refuse { c.close with fatal := true }
  | handle {g : Nat} {f : ReqFrame} {inq : List ReqFrame} (begins : Bool)
      (hinq : (c.objs g).inq = f :: inq) (hawaits : (c.objs g).phase.Awaits) :
      Took maxObjectSize c (.handle g begins) (c.setObj g { c.objs g with
        inq := inq, phase := (c.objs g).phase.handle maxObjectSize begins f })
  | remove {g : Nat} (hleaving : (c.objs g).phase = .leaving) : Took maxObjectSize c (.remove g)
      (({ c with streams := Function.update c.streams (c.objs g).sid none } : TcpConn).setObj g
        { c.objs g with phase := .removed })
  | finish {g : Nat} (hremoved : (c.objs g).phase = .removed) :
      Took maxObjectSize c (.finish g) (c.setObj g { c.objs g with phase := .finished })

theorem took_of_step {maxObjectSize : Int} {a : TcpAct} (hstep : step maxObjectSize c a = some c') :
    Took maxObjectSize c a c' := by
  cases a with
  | call r =>
    cases hstep
    exact .call r
  | send i =>
    obtain ⟨⟨sid, fs⟩, hi, hstep⟩ := Option.bind_eq_some_iff.mp hstep
    cases fs with
    | nil => cases hstep
    | cons f fs =>
      cases hstep
      exact .send hi
  | ret i =>
    obtain ⟨⟨sid, fs⟩, hi, hstep⟩ := Option.bind_eq_some_iff.mp hstep
    cases fs with
    | nil =>
      cases hstep
      exact .ret hi
    | cons f fs => cases hstep
  | lookup =>
    rw [step] at hstep
    cases hc2s : c.c2s with
    | nil =>
      rw [hc2s] at hstep
      cases hstep
    | cons x rest =>
      obtain ⟨sid, f⟩ := x
      rw [hc2s] at hstep
      simp only at hstep
      split at hstep
      · rename_i hready
        split at hstep
        · cases hstep
          exact .tooLong rest
        · cases hstep
          exact .lookup hready.1 (Option.isNone_iff_eq_none.mp hready.2) hc2s
      · cases hstep
  | deliver =>
    obtain ⟨hd, hhand, hstep⟩ := Option.bind_eq_some_iff.mp hstep
    simp only at hstep
    split at hstep
    · cases hstep
      exact .deliver hhand
    · cases hstep
  | refuse =>
    obtain ⟨hd, hhand, hstep⟩ := Option.bind_eq_some_iff.mp hstep
    split at hstep
    · rename_i hfinished
      cases hstep
      exact .refuse hhand hfinished
    · cases hstep
  | handle g begins =>
    simp only [step] at hstep
    cases hinq : (c.objs g).inq with
    | nil =>
      rw [hinq] at hstep
      cases hstep
    | cons f inq =>
      rw [hinq] at hstep
      simp only at hstep
      split at hstep
      · rename_i hawaits
        cases hstep
        exact .handle begins hinq hawaits
      · cases hstep
  | remove g =>
    simp only [step] at hstep
    split at hstep
    · rename_i hleaving
      cases hstep
      exact .remove hleaving
    · cases hstep
  | finish g =>
    simp only [step] at hstep
    split at hstep
    · rename_i hremoved
      cases hstep
      exact .finish hremoved
    · cases hstep

/-- A call opens its stream with an id that is not in use. -/
def FreshIds (c : TcpConn) : TcpAct → Prop
  | .call _ => c.Unused c.nextId
  | _ => True

instance (c : TcpConn) (a : TcpAct) : Decidable (c.FreshIds a) :=
  match a with
  | .call _ => inferInstanceAs (Decidable (c.Unused c.nextId))
  | .send _ | .ret _ | .lookup | .deliver | .refuse | .handle _ _ | .remove _ | .finish _ =>
    inferInstanceAs (Decidable True)

/-- **One action keeps the connection safe**, as long as new calls get ids that are not in
use. -/
theorem safe_step {maxObjectSize : Int} {a : TcpAct} (h : c.Safe) (hfresh : c.FreshIds a)
    (hstep : step maxObjectSize c a = some c') : c'.Safe := by
  obtain ⟨hfatal, hclosed, horderly⟩ := h
  cases took_of_step hstep with
  | call r => exact ⟨hfatal, hclosed, fun ho => (horderly ho).newCall r hfresh⟩
  | send hi => exact ⟨hfatal, hclosed, fun ho => (horderly ho).send hi⟩
  | ret hi => exact ⟨hfatal, hclosed, fun ho => (horderly ho).ret hi⟩
  | tooLong rest => exact ⟨hfatal, fun _ => rfl, fun ho => (nomatch ho)⟩
  | lookup hopen hhand hc2s =>
    obtain ⟨hord, hf, ho⟩ := (horderly hopen).lookup hhand hc2s
    refine ⟨hf.trans hfatal, fun hclose => ?_, fun _ => hord⟩
    rw [ho, hopen] at hclose
    cases hclose
  | deliver hhand => exact ⟨hfatal, fun _ => rfl, fun ho => (horderly ho).deliver hhand⟩
  | refuse hhand hfinished =>
    -- the stream in the hand is on the map, so it is not finished
    have hopen : c.isOpen = true := by
      by_contra hne
      rw [hclosed (by simpa using hne)] at hhand
      cases hhand
    have hord := horderly hopen
    have hlive := ((hord.stream _).mapped _ (hord.hand _ hhand)).2.2.1
    exact absurd hfinished hlive.2
  | handle begins hinq hawaits =>
    exact ⟨hfatal, hclosed, fun ho => (horderly ho).handle hinq hawaits _ _⟩
  | remove hleaving => exact ⟨hfatal, hclosed, fun ho => (horderly ho).remove hleaving⟩
  | finish hremoved => exact ⟨hfatal, hclosed, fun ho => (horderly ho).finish hremoved⟩

end Step

/-- The connection is safe after every run whose calls get fresh ids. -/
theorem safe_run {maxObjectSize : Int} {acts : List TcpAct} {c : TcpConn}
    (hfresh : Transition.Along (step maxObjectSize) FreshIds start acts)
    (hrun : run maxObjectSize acts = some c) : c.Safe :=
  Transition.run_invariant (fun _ _ _ h hok hs => safe_step h hok hs) safe_start hfresh hrun

end TcpConn

/-! ## 3. The connection survives -/

/-- **Conforming clients never make `dispatch` return `deliverFatal`**, in every run of any length
in which each call gets an id that is not in use: every mix of calls (Puts of any size, key and
outcome among them), every interleaving of frames, read loop and handlers. -/
theorem not_fatal_of_run {maxObjectSize : Int} {acts : List TcpAct} {c : TcpConn}
    (hfresh : Transition.Along (TcpConn.step maxObjectSize) TcpConn.FreshIds .start acts)
    (hrun : TcpConn.run maxObjectSize acts = some c) : c.fatal = false :=
  (TcpConn.safe_run hfresh hrun).not_fatal

/-- A Get whose call has returned. -/
def getReturnedActs : List TcpAct :=
  [.call (.get [1] [] 0 1), .send 0, .ret 0, .lookup, .deliver, .handle 0 true]

/-- A Delete, from its call to the end of its handler, which is stream object `gen`. -/
def deleteActs (gen : Nat) : List TcpAct :=
  [.call (.unary .del [1]), .send 0, .ret 0, .lookup, .deliver, .handle gen true, .remove gen,
    .finish gen]

namespace TcpConn

/-- After `k` streams: all calls have returned and nothing is under way, but the server still
has stream 1, whose Get handler waits for a further request. -/
structure Stale (k : Nat) (c : TcpConn) : Prop where
  sid : c.sid = k % 2 ^ 32
  calls : c.calls = []
  c2s : c.c2s = []
  hand : c.hand = none
  streams : c.streams = Function.update (fun _ => none) 1 (some 0)
  handler : c.objs 0 = ⟨1, [], .getLoop⟩
  gens : c.gens = k
  not_fatal : c.fatal = false
  isOpen : c.isOpen = true

theorem stale_get (maxObjectSize : Int) :
    ∃ c, run maxObjectSize getReturnedActs = some c ∧ Stale 1 c := by
  refine ⟨_, rfl, ⟨rfl, rfl, rfl, rfl, rfl, rfl, rfl, rfl, rfl⟩⟩


/-- **A Delete with another id leaves everything as it was**, one stream later. -/
theorem Stale.delete {k : Nat} {c : TcpConn} (h : Stale k c) (hk : 1 ≤ k)
    (hid : (k + 1) % 2 ^ 32 ≠ 1) (maxObjectSize : Int) :
    ∃ c', Transition.run (step maxObjectSize) c (deleteActs k) = some c' ∧ Stale (k + 1) c' := by
  obtain ⟨id, hidc⟩ : ∃ id, id = c.nextId := ⟨_, rfl⟩
  have hnext : id = (k + 1) % 2 ^ 32 := by
    rw [hidc, nextId, h.sid]
    omega
  obtain ⟨sid, calls, c2s, hand, streams, objs, gens, fatal, isOpen⟩ := c
  obtain ⟨h1, h2, h3, h4, h5, h6, h7, h8, h9⟩ := h
  simp only at h1 h2 h3 h4 h5 h6 h7 h8 h9
  subst h2 h3 h4 h5 h7 h8 h9
  let stale : Nat → Option Nat := Function.update (fun _ => none) 1 (some 0)
  have hne : id ≠ 1 := by omega
  have hfree : stale id = none := Function.update_of_ne hne ..
  have hwritten : Transition.run (step maxObjectSize)
      ⟨sid, [], [], none, stale, objs, gens, false, true⟩
      [.call (.unary .del [1]), .send 0, .ret 0] =
        some ⟨id, [], [(id, .unary .del [1])], none, stale, objs, gens, false, true⟩ := by
    rw [hidc]
    rfl
  have hlookup : step maxObjectSize
      ⟨id, [], [(id, .unary .del [1])], none, stale, objs, gens, false, true⟩ .lookup =
        some ⟨id, [], [], some ⟨id, gens, .unary .del [1]⟩, Function.update stale id (some gens),
          Function.update objs gens ⟨id, [], .unaryFirst⟩, gens + 1, false, true⟩ := by
    have hlen : ¬ (ReqFrame.unary .del [1]).payloadLen > chunkSize.toNat := by decide
    simp only [step, Option.isNone_none, and_self, ↓reduceIte, if_neg hlen, lookup, hfree]
    rfl
  have hserved : Transition.run (step maxObjectSize)
      ⟨id, [], [], some ⟨id, gens, .unary .del [1]⟩, Function.update stale id (some gens),
        Function.update objs gens ⟨id, [], .unaryFirst⟩, gens + 1, false, true⟩
      [.deliver, .handle gens true, .remove gens, .finish gens] =
        some ⟨id, [], [], none, stale, Function.update objs gens ⟨id, [], .finished⟩, gens + 1,
          false, true⟩ := by
    have hback : Function.update (Function.update stale id (some gens)) id none = stale := by
      rw [Function.update_idem, ← hfree, Function.update_eq_self]
    simp [Transition.run, step, setObj, streamInCap, Phase.Awaits, Phase.Live, Phase.handle, hback]
  refine ⟨⟨id, [], [], none, stale, Function.update objs gens ⟨id, [], .finished⟩, gens + 1,
    false, true⟩, ?_, ⟨?_, rfl, rfl, rfl, rfl, ?_, rfl, rfl, rfl⟩⟩
  · rw [deleteActs, show ∀ a b c d, (a :: b :: c :: d : List TcpAct) = [a, b, c] ++ d from
      fun _ _ _ _ => rfl, Transition.run_append, hwritten]
    exact (Transition.run_cons_of hlookup _).trans hserved
  · exact hnext
  · exact (Function.update_of_ne (by omega) ..).trans h6

/-- Until the ids wrap, the stream stays. -/
theorem stale_run (maxObjectSize : Int) (n : Nat) (hn : n + 1 ≤ 2 ^ 32) :
    ∃ acts c, run maxObjectSize acts = some c ∧ Stale (n + 1) c := by
  induction n with
  | zero =>
    obtain ⟨c, hrun, hstale⟩ := stale_get maxObjectSize
    exact ⟨_, c, hrun, hstale⟩
  | succ n ih =>
    obtain ⟨acts, c, hrun, hstale⟩ := ih (by omega)
    obtain ⟨c', hrun', hstale'⟩ := hstale.delete (by omega) (by omega) maxObjectSize
    refine ⟨acts ++ deleteActs (n + 1), c', ?_, hstale'⟩
    rw [run, Transition.run_append]
    exact Option.bind_eq_some_iff.mpr ⟨c, hrun, hrun'⟩

/-- A Put up to its data frame. -/
def reusedPutActs : List TcpAct :=
  [.call (.put [2] 1), .send 0, .lookup, .deliver, .handle 0 true, .remove 0, .send 0, .lookup]

/-- A Put with the id of that stream: its header ends the old handler, its data frame finds no
stream. -/
theorem Stale.put {c : TcpConn} (h : Stale (2 ^ 32) c) (maxObjectSize : Int) :
    ∃ c', Transition.run (step maxObjectSize) c reusedPutActs = some c' ∧ c'.fatal = true := by
  obtain ⟨sid, calls, c2s, hand, streams, objs, gens, fatal, isOpen⟩ := c
  obtain ⟨h1, h2, h3, h4, h5, h6, h7, h8, h9⟩ := h
  simp only at h1 h2 h3 h4 h5 h6 h7 h8 h9
  subst h1 h2 h3 h4 h5 h7 h8 h9
  let stale : Nat → Option Nat := Function.update (fun _ => none) 1 (some 0)
  have hhead : Transition.run (step maxObjectSize)
      ⟨2 ^ 32 % 2 ^ 32, [], [], none, stale, objs, 2 ^ 32, false, true⟩
      [.call (.put [2] 1), .send 0, .lookup] =
        some ⟨1, [(1, [.putData 1, .putEnd])], [], some ⟨1, 0, .putHeader [2] 1⟩, stale, objs,
          2 ^ 32, false, true⟩ := rfl
  have hended : Transition.run (step maxObjectSize)
      ⟨1, [(1, [.putData 1, .putEnd])], [], some ⟨1, 0, .putHeader [2] 1⟩, stale, objs, 2 ^ 32,
        false, true⟩ [.deliver, .handle 0 true, .remove 0] =
        some ⟨1, [(1, [.putData 1, .putEnd])], [], none, fun _ => none,
          Function.update objs 0 ⟨1, [], .removed⟩, 2 ^ 32, false, true⟩ := by
    have hgone : Function.update stale 1 none = fun _ => none := by
      rw [Function.update_idem]
      exact Function.update_eq_self 1 _
    simp [Transition.run, step, setObj, streamInCap, Phase.Awaits, Phase.Live, Phase.handle, h6, hgone]
  have hfatal : Transition.run (step maxObjectSize)
      ⟨1, [(1, [.putData 1, .putEnd])], [], none, fun _ => none,
        Function.update objs 0 ⟨1, [], .removed⟩, 2 ^ 32, false, true⟩ [.send 0, .lookup] =
        some ⟨1, [(1, [.putEnd])], [], none, fun _ => none,
          Function.update objs 0 ⟨1, [], .removed⟩, 2 ^ 32, true, false⟩ := rfl
  refine ⟨⟨1, [(1, [.putEnd])], [], none, fun _ => none,
    Function.update objs 0 ⟨1, [], .removed⟩, 2 ^ 32, true, false⟩, ?_, rfl⟩
  rw [reusedPutActs, show ∀ a b c d e f g h, ([a, b, c, d, e, f, g, h] : List TcpAct) =
    [a, b, c] ++ ([d, e, f] ++ [g, h]) from fun _ _ _ _ _ _ _ _ => rfl, Transition.run_append,
    hhead, Option.bind_some, Transition.run_append, hended]
  exact hfatal

end TcpConn

/-- **After `2 ^ 32` streams a Put kills the connection**, because the stream of the first Get
is still there. -/
theorem wrapped_id_kills_connection :
    ∃ acts c, TcpConn.run (2 ^ 33) acts = some c ∧ c.fatal = true := by
  obtain ⟨acts, c, hrun, hstale⟩ := TcpConn.stale_run (2 ^ 33) (2 ^ 32 - 1) (by decide)
  obtain ⟨c', hrun', hfatal⟩ := hstale.put (2 ^ 33)
  refine ⟨acts ++ TcpConn.reusedPutActs, c', ?_, hfatal⟩
  rw [TcpConn.run, Transition.run_append]
  exact Option.bind_eq_some_iff.mpr ⟨c, hrun, hrun'⟩

/-- A Put of five million bytes that `PutBegin` refuses, and a Get beside it. -/
def refusedPutActs : List TcpAct :=
  [.call (.put [1] 5000000), .call (.get [1] [[2]] 0 1), .send 0, .send 1, .lookup, .deliver,
    .handle 0 false, .lookup, .send 0, .deliver, .send 0, .send 0, .lookup, .deliver, .handle 0 true,
    .handle 1 true, .lookup, .deliver, .handle 0 true, .lookup, .deliver, .handle 0 true, .remove 0,
    .finish 0, .ret 0]

theorem not_fatal_of_refusedPut :
    ∃ c, TcpConn.run (2 ^ 33) refusedPutActs = some c ∧ c.streams 1 = none ∧ c.fatal = false := by
  obtain ⟨c, hrun, hview⟩ := Option.map_eq_some_iff.mp
    (show (TcpConn.run (2 ^ 33) refusedPutActs).map (fun c => c.streams 1) = some none by
      decide +kernel)
  exact ⟨c, hrun, hview, not_fatal_of_run (by decide +kernel) hrun⟩

end Taihu
