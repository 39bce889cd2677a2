/-
# Which streams the server keeps

Over the connection of `Dispatch.lean`.  When every call has returned and everything sent has
been consumed, a handler is still there only because it waits for a frame that nobody sends.

`handlePut` and its drains wait for an end frame, which their call has sent, so they are gone
(`streams_eq_none_of_noGet`, for any run without a Get, ids reused or not).  `handleGetStream`
waits for a further request, and the client sends no close frame: the stream of a Get stays
until the connection closes (`exists_stream_of_get`).
-/
import Taihu.DispatchSafety

namespace Taihu

open Framing

/-! ## 1. Nothing left to do -/

namespace TcpConn

/-- The connection is open, every call has returned, every frame has been consumed, and no
handler can take a step. -/
structure Settled (maxObjectSize : Int) (c : TcpConn) : Prop where
  isOpen : c.isOpen = true
  returned : c.calls = []
  received : c.c2s = []
  delivered : c.hand = none
  consumed : ∀ gen, (c.objs gen).inq = []
  halted : ∀ gen begins, step maxObjectSize c (.handle gen begins) = none ∧
    step maxObjectSize c (.remove gen) = none ∧ step maxObjectSize c (.finish gen) = none

theorem Settled.not_leaving {maxObjectSize : Int} {c : TcpConn} (h : c.Settled maxObjectSize)
    (gen : Nat) : (c.objs gen).phase ≠ .leaving := by
  intro hleaving
  have hstep := (h.halted gen true).2.1
  simp only [step, if_pos hleaving] at hstep
  cases hstep

end TcpConn

/-! ## 2. Without a Get

Ids may be reused here: no frame of a call says which call it is from, so the invariant only
counts on the end frame that follows every header. -/

/-- No request for a Get, and an end frame after every header, here or later. -/
def EndsPuts (later : Prop) : List ReqFrame → Prop
  | [] => True
  | f :: fs => (∀ r, f ≠ .getReq r) ∧
      ((∃ key size, f = .putHeader key size) → .putEnd ∈ fs ∨ later) ∧ EndsPuts later fs

theorem EndsPuts.mono {p q : Prop} {fs : List ReqFrame} (h : EndsPuts p fs) (hpq : p → q) :
    EndsPuts q fs := by
  induction fs with
  | nil => trivial
  | cons f fs ih => exact ⟨h.1, fun hf => (h.2.1 hf).imp_right hpq, ih h.2.2⟩

/-- One frame more, of a call that goes on with `q`. -/
theorem EndsPuts.append_singleton {p q : Prop} {fs : List ReqFrame} {f : ReqFrame}
    (h : EndsPuts p fs) (hpq : p → f = .putEnd ∨ q) (hf : EndsPuts q [f]) :
    EndsPuts q (fs ++ [f]) := by
  induction fs with
  | nil => exact hf
  | cons g fs ih =>
    refine ⟨h.1, fun hg => ?_, ih h.2.2⟩
    rcases h.2.1 hg with hmem | hp
    · exact .inl (List.mem_append_left _ hmem)
    · exact (hpq hp).imp_left (fun heq => by simp [heq])

/-- The frames of a Put after its header. -/
theorem endsPuts_putTail (lens : List Nat) : EndsPuts False (putTail lens) := by
  induction lens with
  | nil => exact ⟨fun _ h => (nomatch h), fun ⟨_, _, h⟩ => (nomatch h), trivial⟩
  | cons l lens ih => exact ⟨fun _ h => (nomatch h), fun ⟨_, _, h⟩ => (nomatch h), ih⟩

theorem endsPuts_frames {r : Rpc} (h : ¬ r.IsGet) : EndsPuts False r.frames := by
  cases r with
  | put key size =>
    rw [put_frames]
    refine ⟨fun _ h => ?_, fun _ => .inl (by simp [putTail]), endsPuts_putTail _⟩
    cases h
  | get key keys off size => exact absurd trivial h
  | unary op key =>
    refine ⟨fun _ h => ?_, ?_, trivial⟩
    · cases h
    · rintro ⟨_, _, h⟩
      cases h

namespace Phase

/-- The handler ends once it has consumed what is due: `q` is in its queue, and `due` says that
an end frame comes, with the queue or later. -/
def Ends (due : List ReqFrame → Prop) : Phase → List ReqFrame → Prop
  | putFirst, q => ∃ key size rest, q = .putHeader key size :: rest ∧ due rest
  | putCollect _ _, q => due q
  | drainTail _ _, q => due q
  | drainUnknown, q => due q
  | getLoop, _ => False
  | unaryFirst, q => q ≠ []
  | leaving, _ => True
  | removed, _ => False
  | finished, _ => False

/-- One frame more in the queue, or on its way there. -/
theorem Ends.mono {due due' : List ReqFrame → Prop} {p : Phase} {q x : List ReqFrame}
    (h : p.Ends due q) (hdue : ∀ l, due l → due' (l ++ x)) : p.Ends due' (q ++ x) := by
  cases p with
  | putFirst =>
    obtain ⟨key, size, rest, rfl, hrest⟩ := h
    exact ⟨key, size, rest ++ x, rfl, hdue _ hrest⟩
  | putCollect size pos => exact hdue _ h
  | drainTail budget got => exact hdue _ h
  | drainUnknown => exact hdue _ h
  | getLoop => exact h
  | unaryFirst => exact List.append_ne_nil_of_left_ne_nil h x
  | leaving => trivial
  | removed => exact h
  | finished => exact h

theorem ends_afterHeader {due : List ReqFrame → Prop} {q : List ReqFrame} (h : due q)
    (maxObjectSize : Int) (begins : Bool) (key : Key) (size : Int) :
    (afterHeader maxObjectSize begins key size).Ends due q := by
  unfold afterHeader
  repeat' split
  all_goals exact h

/-- Consuming a frame: an end frame ends the handler, a data frame leaves the end frame due. -/
theorem Ends.handle {due : List ReqFrame → Prop} {p : Phase} {f : ReqFrame} {q : List ReqFrame}
    (h : p.Ends due (f :: q)) (hdue : f ≠ .putEnd → due (f :: q) → due q) (maxObjectSize : Int)
    (begins : Bool) : (p.handle maxObjectSize begins f).Ends due q := by
  cases p with
  | putFirst =>
    obtain ⟨key, size, rest, heq, hrest⟩ := h
    cases heq
    exact ends_afterHeader hrest maxObjectSize begins key size
  | putCollect size pos =>
    cases f with
    | putData len =>
      have hq := hdue (fun hf => nomatch hf) h
      rw [Phase.handle]
      split
      · trivial
      · exact hq
    | putHeader key size => trivial
    | putEnd => trivial
    | getReq r => trivial
    | unary op key => trivial
  | drainTail budget got =>
    cases f with
    | putData len =>
      have hq := hdue (fun hf => nomatch hf) h
      rw [Phase.handle]
      split
      · exact hq
      · trivial
    | putHeader key size => trivial
    | putEnd => trivial
    | getReq r => trivial
    | unary op key => trivial
  | drainUnknown =>
    cases f with
    | putData len => exact hdue (fun hf => nomatch hf) h
    | putHeader key size => trivial
    | putEnd => trivial
    | getReq r => trivial
    | unary op key => trivial
  | getLoop => exact absurd h id
  | unaryFirst => trivial
  | leaving => trivial
  | removed => exact absurd h id
  | finished => exact absurd h id

end Phase

namespace TcpConn

/-- A call has still to write an end frame with this id. -/
def EndUnsent (c : TcpConn) (sid : Nat) : Prop := ∃ fs, (sid, fs) ∈ c.calls ∧ .putEnd ∈ fs

/-- An end frame is in `q`, under way, or still to be written. -/
def EndDue (c : TcpConn) (sid : Nat) (q : List ReqFrame) : Prop :=
  .putEnd ∈ q ∨ .putEnd ∈ itemsOf sid c.c2s ∨ c.EndUnsent sid

/-- The frame that the read loop holds for a stream. -/
def handFor (c : TcpConn) (gen : Nat) : List ReqFrame :=
  match c.hand with
  | some h => if h.gen = gen then [h.frame] else []
  | none => []

/-- The stream that the server has for an id will end. -/
structure StreamEnds (c : TcpConn) (sid gen : Nat) : Prop where
  id_eq : (c.objs gen).sid = sid
  opened : gen < c.gens
  ends : (c.objs gen).phase.Ends (c.EndDue sid) ((c.objs gen).inq ++ c.handFor gen)

/-- The invariant of a connection without Gets, while it is open. -/
structure Ending (c : TcpConn) : Prop where
  calls : ∀ x ∈ c.calls, EndsPuts False x.2
  wire : ∀ sid, EndsPuts (c.EndUnsent sid) (itemsOf sid c.c2s)
  mapped : ∀ sid gen, c.streams sid = some gen → c.StreamEnds sid gen

section Ending

variable {c c' : TcpConn} {sid gen : Nat}

theorem ending_start : Ending start :=
  ⟨fun _ hx => (nomatch hx), fun _ => trivial, fun _ _ hg => (nomatch hg)⟩

/-- What leaves the objects, the map and the hand alone, and loses no end frame. -/
theorem Ending.move (h : c.Ending) (hcalls : ∀ x ∈ c'.calls, EndsPuts False x.2)
    (hwire : ∀ sid, EndsPuts (c'.EndUnsent sid) (itemsOf sid c'.c2s))
    (hdue : ∀ sid q, c.EndDue sid q → c'.EndDue sid q) (hstreams : c'.streams = c.streams)
    (hobjs : c'.objs = c.objs) (hgens : c'.gens = c.gens) (hhand : c'.hand = c.hand) :
    c'.Ending := by
  refine ⟨hcalls, hwire, fun sid gen hg => ?_⟩
  rw [hstreams] at hg
  obtain ⟨h1, h2, h3⟩ := h.mapped sid gen hg
  refine ⟨hobjs ▸ h1, hgens ▸ h2, ?_⟩
  have hq : c'.handFor gen = c.handFor gen := by rw [handFor, handFor, hhand]
  rw [hobjs, hq, ← List.append_nil (_ ++ _)]
  exact h3.mono (fun l hl => hdue sid _ (by rwa [List.append_nil]))

/-- A call that is not a Get. -/
theorem Ending.newCall (h : c.Ending) {r : Rpc} (hr : ¬ r.IsGet) :
    ({ c with sid := c.nextId, calls := c.calls ++ [(c.nextId, r.frames)] } : TcpConn).Ending := by
  have hunsent : ∀ sid, c.EndUnsent sid → ({ c with
      sid := c.nextId, calls := c.calls ++ [(c.nextId, r.frames)] } : TcpConn).EndUnsent sid :=
    fun sid ⟨fs, hfs, hmem⟩ => ⟨fs, List.mem_append_left _ hfs, hmem⟩
  refine h.move (fun x hx => ?_) (fun sid => (h.wire sid).mono (hunsent sid)) ?_ rfl rfl rfl rfl
  · rcases List.mem_append.mp hx with hold | hnew
    · exact h.calls x hold
    · rw [List.mem_singleton.mp hnew]
      exact endsPuts_frames hr
  · exact fun sid q hq => hq.imp_right (Or.imp_right (hunsent sid))

/-- A call writes a frame. -/
theorem Ending.send (h : c.Ending) {i : Nat} {f : ReqFrame} {fs : List ReqFrame}
    (hi : c.calls[i]? = some (sid, f :: fs)) :
    ({ c with calls := c.calls.set i (sid, fs), c2s := c.c2s ++ [(sid, f)] } : TcpConn).Ending := by
  obtain ⟨pre, post, hcalls, hset, -⟩ := split_at hi
  obtain ⟨hnotGet, hheader, htail⟩ := h.calls (sid, f :: fs) (List.mem_of_getElem? hi)
  -- the end frame of a call is still to be written, or it is the frame just written
  have hunsent : ∀ j, c.EndUnsent j → sid = j ∧ f = .putEnd ∨
      ∃ gs, (j, gs) ∈ c.calls.set i (sid, fs) ∧ .putEnd ∈ gs := by
    rintro j ⟨gs, hgs, hmem⟩
    rw [hcalls, List.mem_append, List.mem_cons] at hgs
    rw [hset]
    rcases hgs with hpre | heq | hpost
    · exact .inr ⟨gs, List.mem_append_left _ hpre, hmem⟩
    · cases heq
      rcases List.mem_cons.mp hmem with heq | hmem
      · exact .inl ⟨rfl, heq.symm⟩
      · exact .inr ⟨fs, List.mem_append_right _ List.mem_cons_self, hmem⟩
    · exact .inr ⟨gs, List.mem_append_right _ (List.mem_cons_of_mem _ hpost), hmem⟩
  refine h.move (fun x hx => ?_) (fun j => ?_) (fun j q hq => ?_) rfl rfl rfl rfl
  · rcases List.mem_or_eq_of_mem_set hx with hold | rfl
    · exact h.calls x hold
    · exact htail
  · show EndsPuts _ (itemsOf j (c.c2s ++ [(sid, f)]))
    rw [itemsOf_append]
    by_cases hj : sid = j
    · subst hj
      rw [itemsOf_cons_self]
      refine (h.wire sid).append_singleton (fun hp => (hunsent sid hp).imp_left And.right)
        ⟨hnotGet, fun hf => ?_, trivial⟩
      refine .inr ⟨fs, ?_, (hheader hf).resolve_right id⟩
      rw [hset]
      exact List.mem_append_right _ List.mem_cons_self
    · rw [itemsOf_cons_of_ne hj, itemsOf_nil, List.append_nil]
      exact (h.wire j).mono (fun hp => (hunsent j hp).resolve_left (fun heq => hj heq.1))
  · rcases hq with hmem | hmem | hp
    · exact .inl hmem
    · refine .inr (.inl ?_)
      show _ ∈ itemsOf j (c.c2s ++ [(sid, f)])
      rw [itemsOf_append]
      exact List.mem_append_left _ hmem
    · rcases hunsent j hp with ⟨rfl, rfl⟩ | hlater
      · refine .inr (.inl ?_)
        show _ ∈ itemsOf sid (c.c2s ++ [(sid, .putEnd)])
        rw [itemsOf_append, itemsOf_cons_self]
        simp
      · exact .inr (.inr hlater)

/-- A call that has written its frames returns. -/
theorem Ending.ret (h : c.Ending) {i : Nat} (hi : c.calls[i]? = some (sid, [])) :
    ({ c with calls := c.calls.eraseIdx i } : TcpConn).Ending := by
  obtain ⟨pre, post, hcalls, -, herase⟩ := split_at hi
  have hunsent : ∀ j, c.EndUnsent j → ∃ gs, (j, gs) ∈ c.calls.eraseIdx i ∧ .putEnd ∈ gs := by
    rintro j ⟨gs, hgs, hmem⟩
    rw [hcalls, List.mem_append, List.mem_cons] at hgs
    rw [herase]
    rcases hgs with hpre | heq | hpost
    · exact ⟨gs, List.mem_append_left _ hpre, hmem⟩
    · cases heq
      cases hmem
    · exact ⟨gs, List.mem_append_right _ hpost, hmem⟩
  refine h.move (fun x hx => h.calls x (List.mem_of_mem_eraseIdx hx))
    (fun j => (h.wire j).mono (hunsent j)) ?_ rfl rfl rfl rfl
  exact fun sid q hq => hq.imp_right (Or.imp_right (hunsent sid))

/-- A stream whose object is left alone. -/
theorem StreamEnds.congr (h : c.StreamEnds sid gen) (hobj : c'.objs gen = c.objs gen)
    (hgens : c.gens ≤ c'.gens) (hhand : c'.handFor gen = c.handFor gen)
    (hdue : ∀ q, c.EndDue sid q → c'.EndDue sid q) : c'.StreamEnds sid gen := by
  refine ⟨hobj ▸ h.id_eq, Nat.lt_of_lt_of_le h.opened hgens, ?_⟩
  rw [hobj, hhand, ← List.append_nil (_ ++ _)]
  exact h.ends.mono (fun l hl => hdue _ (by rwa [List.append_nil]))

/-- The frame for a stream is taken from the wire. -/
theorem endDue_take {f : ReqFrame} {rest : List (Nat × ReqFrame)} (hc2s : c.c2s = (sid, f) :: rest)
    {q : List ReqFrame} (h : c.EndDue sid q) :
    .putEnd ∈ q ++ [f] ∨ .putEnd ∈ itemsOf sid rest ∨ c.EndUnsent sid := by
  rcases h with hmem | hmem | hp
  · exact .inl (List.mem_append_left _ hmem)
  · rw [hc2s, itemsOf_cons_self, List.mem_cons] at hmem
    rcases hmem with rfl | hmem
    · exact .inl (List.mem_append_right _ List.mem_cons_self)
    · exact .inr (.inl hmem)
  · exact .inr (.inr hp)

/-- `dispatch` looks the stream of a frame up, or opens it. -/
theorem Ending.lookup (h : c.Ending) (hhand : c.hand = none) {f : ReqFrame}
    {rest : List (Nat × ReqFrame)} (hc2s : c.c2s = (sid, f) :: rest)
    (hopen : (({ c with c2s := rest } : TcpConn).lookup sid f).isOpen = true) :
    (({ c with c2s := rest } : TcpConn).lookup sid f).Ending := by
  have hnoHand : ∀ gen, c.handFor gen = [] := fun gen => by rw [handFor, hhand]
  have hother : ∀ j, j ≠ sid → itemsOf j rest = itemsOf j c.c2s := fun j hj => by
    rw [hc2s, itemsOf_cons_of_ne (Ne.symm hj)]
  have hwire : ∀ j, EndsPuts (c.EndUnsent j) (itemsOf j rest) := fun j => by
    have hj := h.wire j
    rw [hc2s] at hj
    by_cases heq : sid = j
    · subst heq
      rw [itemsOf_cons_self] at hj
      exact hj.2.2
    · rwa [itemsOf_cons_of_ne heq] at hj
  cases hg : c.streams sid with
  | some g =>
    have heq : ({ c with c2s := rest } : TcpConn).lookup sid f =
        { c with c2s := rest, hand := some ⟨sid, g, f⟩ } := by
      simp only [TcpConn.lookup, hg]
    rw [heq]
    refine ⟨h.calls, hwire, fun j g' hg' => ?_⟩
    have hold := h.mapped j g' hg'
    by_cases hj : j = sid
    · subst hj
      obtain rfl : g = g' := Option.some.inj (hg.symm.trans hg')
      refine ⟨hold.id_eq, hold.opened, ?_⟩
      have hends := hold.ends
      rw [hnoHand, List.append_nil] at hends
      have hnew : handFor { c with c2s := rest, hand := some ⟨j, g, f⟩ } g = [f] := if_pos rfl
      rw [hnew]
      exact hends.mono (fun l hl => endDue_take hc2s hl)
    · have hne : g ≠ g' := by
        rintro rfl
        exact hj (hold.id_eq.symm.trans (h.mapped sid g hg).id_eq)
      refine hold.congr rfl le_rfl ?_ (fun q hq => ?_)
      · exact (if_neg hne).trans (hnoHand g').symm
      · exact hq.imp_right (Or.imp_left (fun hmem => (hother j hj).symm ▸ hmem))
  | none =>
    obtain ⟨hnotGet, hheader, -⟩ : EndsPuts (c.EndUnsent sid) (f :: itemsOf sid rest) := by
      have := h.wire sid
      rwa [hc2s, itemsOf_cons_self] at this
    by_cases hopens : f.Opens
    · have heq : ({ c with c2s := rest } : TcpConn).lookup sid f = { c with
          c2s := rest
          hand := some ⟨sid, c.gens, f⟩
          streams := Function.update c.streams sid (some c.gens)
          objs := Function.update c.objs c.gens ⟨sid, [], .ofFirst f⟩
          gens := c.gens + 1 } := by
        simp only [TcpConn.lookup, hg, if_pos hopens]
        rfl
      rw [heq]
      refine ⟨h.calls, hwire, fun j g' hg' => ?_⟩
      have hmap : Function.update c.streams sid (some c.gens) j = some g' := hg'
      by_cases hj : j = sid
      · subst hj
        rw [Function.update_self] at hmap
        cases hmap
        have hself : Function.update c.objs c.gens ⟨j, [], .ofFirst f⟩ c.gens = ⟨j, [], .ofFirst f⟩ :=
          Function.update_self ..
        have hf : (if c.gens = c.gens then [f] else []) = [f] := if_pos rfl
        refine ⟨congrArg _ hself, Nat.lt_succ_self _, ?_⟩
        show Phase.Ends _ (Function.update c.objs c.gens ⟨j, [], .ofFirst f⟩ c.gens).phase
          ((Function.update c.objs c.gens ⟨j, [], .ofFirst f⟩ c.gens).inq ++
            (if c.gens = c.gens then [f] else []))
        rw [hself, hf]
        cases f with
        | putHeader key size =>
          exact ⟨key, size, [], rfl, .inr (hheader ⟨key, size, rfl⟩)⟩
        | putData len => exact absurd hopens id
        | putEnd => exact absurd hopens id
        | getReq r => exact absurd rfl (hnotGet r)
        | unary op key => exact List.cons_ne_nil _ _
      · rw [Function.update_of_ne hj] at hmap
        have hold := h.mapped j g' hmap
        have hne : g' ≠ c.gens := Nat.ne_of_lt hold.opened
        refine hold.congr (Function.update_of_ne hne ..) (Nat.le_succ _) ?_ (fun q hq => ?_)
        · exact (if_neg (Ne.symm hne)).trans (hnoHand g').symm
        · exact hq.imp_right (Or.imp_left (fun hmem => (hother j hj).symm ▸ hmem))
    · have hclosed : (({ c with c2s := rest } : TcpConn).lookup sid f).isOpen = false := by
        simp only [TcpConn.lookup, hg, if_neg hopens, close]
      rw [hclosed] at hopen
      cases hopen

/-- Changing the object of one stream, and emptying the hand for it. -/
theorem Ending.setObj (h : c.Ending) (hand' : Option InHand) {st : SrvStream}
    (hsid : st.sid = (c.objs gen).sid)
    (hself : ∀ sid, c.StreamEnds sid gen → st.phase.Ends (c.EndDue sid)
      (st.inq ++ ({ c with hand := hand' } : TcpConn).handFor gen))
    (hothers : ∀ gen', gen' ≠ gen →
      ({ c with hand := hand' } : TcpConn).handFor gen' = c.handFor gen') :
    (({ c with hand := hand' } : TcpConn).setObj gen st).Ending := by
  refine ⟨h.calls, h.wire, fun sid gen' hg => ?_⟩
  have hold := h.mapped sid gen' hg
  by_cases hgen : gen' = gen
  · subst hgen
    have hobj : Function.update c.objs gen' st gen' = st := Function.update_self ..
    refine ⟨(congrArg _ hobj).trans (hsid.trans hold.id_eq), hold.opened, ?_⟩
    show Phase.Ends (c.EndDue sid) (Function.update c.objs gen' st gen').phase
      ((Function.update c.objs gen' st gen').inq ++ _)
    rw [hobj]
    exact hself sid hold
  · exact hold.congr (Function.update_of_ne hgen ..) le_rfl (hothers gen' hgen) (fun _ hq => hq)

/-- `dispatch` delivers the frame it holds. -/
theorem Ending.deliver (h : c.Ending) {hd : InHand} (hhand : c.hand = some hd) :
    (({ c with hand := none } : TcpConn).setObj hd.gen
      { c.objs hd.gen with inq := (c.objs hd.gen).inq ++ [hd.frame] }).Ending := by
  have hfor : ∀ gen, c.handFor gen = if hd.gen = gen then [hd.frame] else [] := fun gen => by
    rw [handFor, hhand]
  refine h.setObj none rfl (fun sid hends => ?_) (fun gen' hne => ?_)
  · have hq := hends.ends
    rw [hfor, if_pos rfl] at hq
    exact (List.append_nil _).symm ▸ hq
  · rw [hfor, if_neg (Ne.symm hne)]
    rfl

/-- A handler consumes a frame. -/
theorem Ending.handle (h : c.Ending) {f : ReqFrame} {inq : List ReqFrame}
    (hinq : (c.objs gen).inq = f :: inq) (maxObjectSize : Int) (begins : Bool) :
    (c.setObj gen { c.objs gen with
      inq := inq, phase := (c.objs gen).phase.handle maxObjectSize begins f }).Ending := by
  refine h.setObj c.hand rfl (fun sid hends => ?_) (fun _ _ => rfl)
  have hq := hends.ends
  rw [hinq] at hq
  refine hq.handle (fun hne hdue => ?_) maxObjectSize begins
  refine hdue.imp_left (fun hmem => ?_)
  exact (List.mem_cons.mp hmem).resolve_left (Ne.symm hne)

/-- `endStream` takes a stream off the map. -/
theorem Ending.remove (h : c.Ending) :
    (({ c with streams := Function.update c.streams (c.objs gen).sid none } : TcpConn).setObj gen
      { c.objs gen with phase := .removed }).Ending := by
  refine ⟨h.calls, h.wire, fun sid gen' hg => ?_⟩
  have hmap : Function.update c.streams (c.objs gen).sid none sid = some gen' := hg
  by_cases hsid : sid = (c.objs gen).sid
  · subst hsid
    rw [Function.update_self] at hmap
    cases hmap
  · rw [Function.update_of_ne hsid] at hmap
    have hold := h.mapped sid gen' hmap
    have hne : gen' ≠ gen := by
      rintro rfl
      exact hsid hold.id_eq.symm
    exact hold.congr (Function.update_of_ne hne ..) le_rfl rfl (fun _ hq => hq)

/-- The second half of `endStream`. -/
theorem Ending.finish (h : c.Ending) (hremoved : (c.objs gen).phase = .removed) :
    (c.setObj gen { c.objs gen with phase := .finished }).Ending := by
  refine h.setObj c.hand rfl (fun sid hends => ?_) (fun _ _ => rfl)
  have hq := hends.ends
  rw [hremoved] at hq
  exact absurd hq id

end Ending

end TcpConn

namespace TcpConn

section Run

variable {c c' : TcpConn} {maxObjectSize : Int}

/-- **One action that is not the call of a Get leaves every stream to end.** -/
theorem ending_step {a : TcpAct} (h : c.isOpen = true → c.Ending)
    (ha : ∀ r, a = .call r → ¬ r.IsGet) (hstep : step maxObjectSize c a = some c') :
    c'.isOpen = true → c'.Ending := by
  cases took_of_step hstep with
  | call r => exact fun ho => (h ho).newCall (ha r rfl)
  | send hi => exact fun ho => (h ho).send hi
  | ret hi => exact fun ho => (h ho).ret hi
  | tooLong rest => exact fun ho => nomatch ho
  | lookup hopen hhand hc2s => exact fun ho => (h hopen).lookup hhand hc2s ho
  | deliver hhand => exact fun ho => (h ho).deliver hhand
  | refuse hhand hfinished => exact fun ho => nomatch ho
  | handle begins hinq hawaits => exact fun ho => (h ho).handle hinq maxObjectSize begins
  | remove hleaving => exact fun ho => (h ho).remove
  | finish hremoved => exact fun ho => (h ho).finish hremoved

theorem ending_run {acts : List TcpAct} (hrun : run maxObjectSize acts = some c)
    (hnoGet : ∀ r, .call r ∈ acts → ¬ r.IsGet) : c.isOpen = true → c.Ending := by
  have hok : Transition.Along (step maxObjectSize) (fun _ a => ∀ r, a = .call r → ¬ r.IsGet) start
      acts := by
    refine Transition.along_of_forall_mem (fun a ha r heq => ?_) _
    rw [heq] at ha
    exact hnoGet r ha
  exact Transition.run_invariant (I := fun c => c.isOpen = true → c.Ending)
    (fun _ _ _ h hok hs => ending_step h hok hs) (fun _ => ending_start) hok hrun

/-- **Without a Get no stream is left.** -/
theorem streams_eq_none_of_noGet {acts : List TcpAct} (hrun : run maxObjectSize acts = some c)
    (hnoGet : ∀ r, .call r ∈ acts → ¬ r.IsGet) (hsettled : c.Settled maxObjectSize) (sid : Nat) :
    c.streams sid = none := by
  have hending := ending_run hrun hnoGet hsettled.isOpen
  rw [Option.eq_none_iff_forall_ne_some]
  intro gen hgen
  have hends := (hending.mapped sid gen hgen).ends
  have hq : (c.objs gen).inq ++ c.handFor gen = [] := by
    rw [hsettled.consumed, handFor, hsettled.delivered]
    rfl
  have hdue : ¬ c.EndDue sid [] := by
    rintro (hmem | hmem | ⟨fs, hfs, -⟩)
    · cases hmem
    · rw [hsettled.received] at hmem
      cases hmem
    · rw [hsettled.returned] at hfs
      cases hfs
  have hnotLeaving := hsettled.not_leaving gen
  rw [hq] at hends
  cases hphase : (c.objs gen).phase with
  | putFirst =>
    rw [hphase] at hends
    obtain ⟨key, size, rest, heq, -⟩ := hends
    cases heq
  | leaving => exact hnotLeaving hphase
  | putCollect size pos =>
    rw [hphase] at hends
    exact hdue hends
  | drainTail budget got =>
    rw [hphase] at hends
    exact hdue hends
  | drainUnknown =>
    rw [hphase] at hends
    exact hdue hends
  | getLoop =>
    rw [hphase] at hends
    exact hends
  | unaryFirst =>
    rw [hphase] at hends
    exact hends rfl
  | removed =>
    rw [hphase] at hends
    exact hends
  | finished =>
    rw [hphase] at hends
    exact hends

end Run

end TcpConn

/-! ## 3. With a Get -/

namespace TcpConn

/-- The server has the stream of a Get, or will open it. -/
def Retained (c : TcpConn) (sid : Nat) : Prop :=
  (∃ g, c.streams sid = some g ∧ (c.objs g).phase = .getLoop) ∨
    c.streams sid = none ∧ ∃ r fs, c.pending sid = .getReq r :: fs

section Retained

variable {c c' : TcpConn} {sid : Nat} {maxObjectSize : Int}

theorem Retained.congr (h : c.Retained sid) (hstreams : c'.streams sid = c.streams sid)
    (hobj : ∀ g, c.streams sid = some g → (c.objs g).phase = .getLoop →
      (c'.objs g).phase = .getLoop)
    (hpending : c.streams sid = none → c'.pending sid = c.pending sid) : c'.Retained sid := by
  rcases h with ⟨g, hg, hphase⟩ | ⟨hnone, hget⟩
  · exact .inl ⟨g, hstreams.trans hg, hobj g hg hphase⟩
  · refine .inr ⟨hstreams.trans hnone, ?_⟩
    rwa [hpending hnone]

theorem retained_newCall {r : Rpc} (hr : r.IsGet) (hfree : c.Unused c.nextId) :
    ({ c with sid := c.nextId, calls := c.calls ++ [(c.nextId, r.frames)] } : TcpConn).Retained
      c.nextId := by
  refine .inr ⟨hfree.2.2.2, ?_⟩
  rw [pending_newCall_self r hfree]
  cases r with
  | put key size => exact absurd hr id
  | get key keys off size => exact ⟨_, _, rfl⟩
  | unary op key => exact absurd hr id

/-- `dispatch` opens the stream of a Get with its first request. -/
theorem Retained.lookup (h : c.Retained sid) (hord : c.Orderly) (hhand : c.hand = none) {j : Nat}
    {f : ReqFrame} {rest : List (Nat × ReqFrame)} (hc2s : c.c2s = (j, f) :: rest) :
    (({ c with c2s := rest } : TcpConn).lookup j f).Retained sid := by
  cases hg : c.streams j with
  | some g =>
    have heq : ({ c with c2s := rest } : TcpConn).lookup j f =
        { c with c2s := rest, hand := some ⟨j, g, f⟩ } := by
      simp only [TcpConn.lookup, hg]
    rw [heq]
    exact h.congr rfl (fun _ _ hphase => hphase) (fun _ => pending_take hhand hc2s g sid)
  | none =>
    have hpend : c.pending j = f :: (itemsOf j rest ++ c.unsent j) := by
      rw [pending, handOf_none hhand, hc2s, itemsOf_cons_self]
      rfl
    obtain ⟨r, hr⟩ : ∃ r, c.pending j = Rpc.frames r := by
      rcases (hord.stream j).unmapped hg with hnil | hr
      · rw [hpend] at hnil
        cases hnil
      · exact hr
    obtain ⟨hopens, -, -⟩ := Phase.accepts_ofFirst (hr.symm.trans hpend)
    have heq : ({ c with c2s := rest } : TcpConn).lookup j f = { c with
        c2s := rest
        hand := some ⟨j, c.gens, f⟩
        streams := Function.update c.streams j (some c.gens)
        objs := Function.update c.objs c.gens ⟨j, [], .ofFirst f⟩
        gens := c.gens + 1 } := by
      simp only [TcpConn.lookup, hg, if_pos hopens]
      rfl
    rw [heq]
    by_cases hj : sid = j
    · subst hj
      rcases h with ⟨g, hg', -⟩ | ⟨-, r, fs, hget⟩
      · rw [hg] at hg'
        cases hg'
      · obtain rfl : f = .getReq r := (List.cons.inj (hpend.symm.trans hget)).1
        refine .inl ⟨c.gens, Function.update_self .., ?_⟩
        show (Function.update c.objs c.gens ⟨sid, [], .ofFirst (.getReq r)⟩ c.gens).phase = .getLoop
        rw [Function.update_self]
        rfl
    · refine h.congr (Function.update_of_ne hj ..) (fun g hg' hphase => ?_)
        (fun _ => pending_take hhand hc2s c.gens sid)
      have hne : g ≠ c.gens := Nat.ne_of_lt ((hord.stream sid).mapped g hg').2.1
      exact (congrArg SrvStream.phase (Function.update_of_ne hne ..)).trans hphase

/-- A change to the object of a stream that leaves a Get handler where it is. -/
theorem Retained.setObj (h : c.Retained sid) {g : Nat} {st : SrvStream}
    (hst : c.streams sid = some g → (c.objs g).phase = .getLoop → st.phase = .getLoop) :
    (c.setObj g st).Retained sid := by
  refine h.congr rfl (fun g' hg' hphase => ?_) (fun _ => rfl)
  by_cases hne : g' = g
  · subst hne
    exact (congrArg SrvStream.phase (Function.update_self ..)).trans (hst hg' hphase)
  · exact (congrArg SrvStream.phase (Function.update_of_ne hne ..)).trans hphase

/-- **One action keeps the stream of a Get**, while the connection is open. -/
theorem retained_step {a : TcpAct} (hsafe : c.Safe) (hfresh : c.FreshIds a)
    (h : c.isOpen = true → c.Retained sid) (hstep : step maxObjectSize c a = some c') :
    c'.isOpen = true → c'.Retained sid := by
  cases took_of_step hstep with
  | call r =>
    intro ho
    have hold := h ho
    refine hold.congr rfl (fun _ _ hphase => hphase) (fun hnone => ?_)
    refine pending_newCall_of_ne r ?_
    rintro rfl
    rcases hold with ⟨g, hg, -⟩ | ⟨-, r, fs, hget⟩
    · rw [hnone] at hg
      cases hg
    · rw [pending_eq_nil hfresh] at hget
      cases hget
  | send hi =>
    exact fun ho => (h ho).congr rfl (fun _ _ hphase => hphase)
      (fun _ => pending_send (hsafe.orderly ho).nodup hi sid)
  | ret hi =>
    exact fun ho => (h ho).congr rfl (fun _ _ hphase => hphase) (fun _ => pending_ret hi sid)
  | tooLong rest => exact fun ho => nomatch ho
  | lookup hopen hhand hc2s =>
    exact fun _ => (h hopen).lookup (hsafe.orderly hopen) hhand hc2s
  | @deliver hd hhand =>
    intro ho
    have hg := (hsafe.orderly ho).hand hd hhand
    have hhanded : ({ c with hand := none } : TcpConn).Retained sid := by
      refine (h ho).congr rfl (fun _ _ hphase => hphase) (fun hnone => pending_deliver hhand ?_)
      rintro rfl
      rw [hnone] at hg
      cases hg
    exact hhanded.setObj (fun _ hphase => hphase)
  | refuse hhand hfinished => exact fun ho => nomatch ho
  | @handle g f inq begins hinq hawaits =>
    intro ho
    refine (h ho).setObj (fun hg hphase => ?_)
    obtain ⟨-, -, -, hacc⟩ := ((hsafe.orderly ho).stream sid).mapped g hg
    rw [hphase, hinq] at hacc
    obtain ⟨r, rfl⟩ := hacc f List.mem_cons_self
    show (c.objs g).phase.handle maxObjectSize begins (.getReq r) = .getLoop
    rw [hphase]
    rfl
  | @remove g hleaving =>
    intro ho
    have hord := hsafe.orderly ho
    have hmap := hord.live g (by rw [hleaving]; decide)
    have hsid : sid ≠ (c.objs g).sid := by
      rintro rfl
      rcases h ho with ⟨g', hg', hphase⟩ | ⟨hnone, -⟩
      · obtain rfl : g = g' := Option.some.inj (hmap.symm.trans hg')
        rw [hleaving] at hphase
        cases hphase
      · rw [hmap] at hnone
        cases hnone
    refine (h ho).congr (Function.update_of_ne hsid ..) (fun g' hg' hphase => ?_) (fun _ => rfl)
    have hne : g' ≠ g := by
      rintro rfl
      exact hsid ((hord.stream sid).mapped _ hg').1.symm
    exact (congrArg SrvStream.phase (Function.update_of_ne hne ..)).trans hphase
  | @finish g hremoved =>
    intro ho
    refine (h ho).setObj (fun hg hphase => ?_)
    rw [hremoved] at hphase
    cases hphase

/-- **After a Get a stream is left.** -/
theorem exists_stream_of_get {acts : List TcpAct} (hrun : run maxObjectSize acts = some c)
    (hfresh : Transition.Along (step maxObjectSize) FreshIds start acts) {r : Rpc}
    (hcall : .call r ∈ acts) (hr : r.IsGet) (hsettled : c.Settled maxObjectSize) :
    ∃ sid gen, c.streams sid = some gen := by
  obtain ⟨pre, post, rfl⟩ := List.append_of_mem hcall
  rw [run, Transition.run_append] at hrun
  obtain ⟨c₁, hpre, hpost⟩ := Option.bind_eq_some_iff.mp hrun
  obtain ⟨hfreshPre, hfreshPost⟩ := Transition.along_append hfresh hpre
  have hsafe₁ := safe_run hfreshPre hpre
  -- the call itself, and then the rest of the run
  obtain ⟨c₂, hcall₂, hpost⟩ := Option.bind_eq_some_iff.mp hpost
  have hsafe₂ := safe_step hsafe₁ hfreshPost.1 hcall₂
  have hretained₂ : c₂.Retained c₁.nextId := by
    cases hcall₂
    exact retained_newCall hr hfreshPost.1
  have hend := Transition.run_invariant (I := fun c => c.Safe ∧ (c.isOpen = true → c.Retained c₁.nextId))
    (fun _ _ _ h hok hs => ⟨safe_step h.1 hok hs, retained_step h.1 hok h.2 hs⟩)
    ⟨hsafe₂, fun _ => hretained₂⟩ (hfreshPost.2 c₂ hcall₂) hpost
  rcases hend.2 hsettled.isOpen with ⟨g, hg, -⟩ | ⟨-, r', fs, hget⟩
  · exact ⟨_, g, hg⟩
  · rw [pending, handOf_none hsettled.delivered, hsettled.received, unsent, hsettled.returned] at hget
    cases hget

end Retained

end TcpConn

/-- When everything has been consumed, handlers that neither wait nor leave have halted. -/
theorem TcpConn.Settled.of_objs {maxObjectSize : Int} {c : TcpConn} (hopen : c.isOpen = true)
    (hcalls : c.calls = []) (hc2s : c.c2s = []) (hhand : c.hand = none)
    (hobjs : ∀ gen, (c.objs gen).inq = [] ∧ (c.objs gen).phase ≠ .leaving ∧
      (c.objs gen).phase ≠ .removed) : c.Settled maxObjectSize := by
  refine ⟨hopen, hcalls, hc2s, hhand, fun gen => (hobjs gen).1, fun gen begins => ⟨?_, ?_, ?_⟩⟩
  · simp only [step, (hobjs gen).1]
  · simp only [step, if_neg (hobjs gen).2.1]
  · simp only [step, if_neg (hobjs gen).2.2]

end Taihu
