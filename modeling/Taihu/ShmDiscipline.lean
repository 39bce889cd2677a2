/-
# When a shared memory stream keeps its discipline

Over the loop of `ShmStream.lean`: its answers are one terminated response for each request, in
their order, and no placeholder is flushed, as long as

* a request that is answered at once is taken when nothing is in flight (a refused or an empty
  asynchronous Put, a Get of the batch reader);
* no Get is queued behind a Put, whose frame is reserved only when it is drained;
* a synchronous Get has a range, and a chain for it ends no frame but the last;
* `Reserve` has room for the frames that have no other way to be written.

What is owed for the queue is the invariant (`Owing`): the frames written, and those of the
items in flight, are the answers to the requests taken.
-/
import Taihu.ShmAnswers
import Taihu.GetDiscipline
import Taihu.Lib.Transition

namespace Taihu

open Framing

/-! ## 1. What is owed for the queue -/

/-- What the peer gets for an item. -/
def PendingOp.owes (p : PendingOp) : Nat × ShmFrame := (p.req, p.frame)

/-- A queue over a chain of `len` frames: Gets in its slots, from `n` on, one after another; then
Puts. -/
def Lined (len : Nat) : Nat → List PendingOp → Prop
  | n, [] => n = len
  | n, .get _ slot _ _ _ :: ps => slot = n ∧ n < len ∧ Lined len (n + 1) ps
  | n, .put _ _ :: ps => n = len ∧ ∀ p ∈ ps, ¬ p.IsGet

theorem Lined.snoc_put {len n : Nat} {ps : List PendingOp} (h : Lined len n ps) (req : Nat)
    (written : Option (Res Unit)) : Lined len n (ps ++ [.put req written]) := by
  induction ps generalizing n with
  | nil => exact ⟨h, fun p hp => absurd hp List.not_mem_nil⟩
  | cons p ps ih =>
    cases p with
    | get req slot pos stop read => exact ⟨h.1, h.2.1, ih h.2.2⟩
    | put req w =>
      refine ⟨h.1, fun p hp => ?_⟩
      rcases List.mem_append.mp hp with hp | hp
      · exact h.2 p hp
      · rw [List.mem_singleton.mp hp]
        exact id

theorem Lined.snoc_get {len n : Nat} {ps : List PendingOp} (h : Lined len n ps)
    (hgets : ∀ p ∈ ps, p.IsGet) (req : Nat) (pos stop : Int) (read : Res AsyncReadAt) :
    Lined (len + 1) n (ps ++ [.get req len pos stop read]) := by
  induction ps generalizing n with
  | nil =>
    obtain rfl : n = len := h
    exact ⟨rfl, Nat.lt_succ_self n, rfl⟩
  | cons p ps ih =>
    cases p with
    | get req slot pos stop read =>
      exact ⟨h.1, Nat.lt_succ_of_lt h.2.1, ih h.2.2 (fun p hp => hgets p (List.mem_cons_of_mem _ hp))⟩
    | put req w => exact (hgets _ List.mem_cons_self).elim

theorem Lined.chain_eq_nil {chain : List (Nat × ShmFrame)} (h : Lined chain.length 0 []) :
    chain = [] := List.length_eq_zero_iff.mp h.symm

namespace ShmStream

variable {room : Nat → Bool} {cfg : ShmConfig} {h : ShmStream}

/-- The frames written, and those of the items in flight. -/
def owed (h : ShmStream) : List (Nat × ShmFrame) := h.out ++ h.pend.map PendingOp.owes

theorem fill_cons (hopen : h.isOpen = true) (p : PendingOp) (ps : List PendingOp) :
    h.fill room (p :: ps) = (h.fillPendingResp room p).fill room ps := by
  rw [fill, List.foldl_cons, if_pos hopen]
  rfl

/-- Filling in Gets keeps the length of the chain. -/
theorem fill_gets (hopen : h.isOpen = true) {ps : List PendingOp} (hps : ∀ p ∈ ps, p.IsGet) :
    ∃ c, c.length = h.chain.length ∧ h.fill room ps = { h with chain := c } := by
  induction ps generalizing h with
  | nil => exact ⟨h.chain, rfl, rfl⟩
  | cons p ps ih =>
    rw [fill_cons hopen]
    cases p with
    | get req slot pos stop read =>
      obtain ⟨c, hc, hfill⟩ := ih (h := h.fillPendingResp room (.get req slot pos stop read))
        hopen (fun p hp => hps p (List.mem_cons_of_mem _ hp))
      exact ⟨c, hc.trans List.length_set, hfill⟩
    | put req w => exact (hps _ List.mem_cons_self).elim

section Drain

variable (hroom : ∀ n, room n = true)
include hroom

theorem reserve_eq (h : ShmStream) (req : Nat) (f : ShmFrame) :
    h.reserve room req f = some { h with
      writes := h.writes + 1
      chain := h.chain ++ [(req, f)] } := if_pos (hroom _)

/-- Puts reserve their frames at the end of the chain. -/
theorem fill_puts (hopen : h.isOpen = true) {ps : List PendingOp} (hps : ∀ p ∈ ps, ¬ p.IsGet) :
    ∃ w, h.fill room ps = { h with chain := h.chain ++ ps.map PendingOp.owes, writes := w } := by
  induction ps generalizing h with
  | nil => exact ⟨h.writes, by simp [fill]⟩
  | cons p ps ih =>
    rw [fill_cons hopen]
    cases p with
    | get req slot pos stop read => exact (hps _ List.mem_cons_self trivial).elim
    | put req w =>
      have hone : h.fillPendingResp room (.put req w) = { h with
          writes := h.writes + 1
          chain := h.chain ++ [PendingOp.owes (.put req w)] } := by
        simp only [fillPendingResp, reserve_eq hroom]
        rfl
      rw [hone]
      obtain ⟨w', hfill⟩ := ih (h := { h with
        writes := h.writes + 1
        chain := h.chain ++ [PendingOp.owes (.put req w)] }) hopen
        (fun p hp => hps p (List.mem_cons_of_mem _ hp))
      refine ⟨w', hfill.trans ?_⟩
      rw [List.map_cons, List.append_assoc]
      rfl

/-- **Filling in the whole queue** leaves the frames of its items in the chain, in its order. -/
theorem fill_lined (hopen : h.isOpen = true) {pre rest : List (Nat × ShmFrame)}
    {ps : List PendingOp} (hchain : h.chain = pre ++ rest)
    (hps : Lined h.chain.length pre.length ps) :
    ∃ w, h.fill room ps = { h with chain := pre ++ ps.map PendingOp.owes, writes := w } := by
  have hnil : pre.length = h.chain.length → rest = [] := by
    intro hlen
    rw [hchain, List.length_append] at hlen
    exact List.length_eq_zero_iff.mp (by omega)
  induction ps generalizing h pre rest with
  | nil =>
    rw [hnil hps] at hchain
    exact ⟨h.writes, by rw [List.map_nil, ← hchain]; rfl⟩
  | cons p ps ih =>
    cases p with
    | put req w =>
      have hputs : ∀ p ∈ PendingOp.put req w :: ps, ¬ p.IsGet := by
        intro p hp
        rcases List.mem_cons.mp hp with rfl | hp
        · exact id
        · exact hps.2 p hp
      obtain ⟨w', hfill⟩ := fill_puts hroom hopen hputs
      rw [hnil hps.1, List.append_nil] at hchain
      rw [hchain] at hfill
      exact ⟨w', hfill⟩
    | get req slot pos stop read =>
      obtain ⟨rfl, hlt, hps⟩ := hps
      cases rest with
      | nil =>
        rw [hchain, List.append_nil] at hlt
        exact absurd hlt (Nat.lt_irrefl _)
      | cons x rest =>
        rw [fill_cons hopen]
        have hset : h.chain.set pre.length (PendingOp.owes (.get req pre.length pos stop read)) =
            (pre ++ [PendingOp.owes (.get req pre.length pos stop read)]) ++ rest := by
          rw [hchain, List.set_append_right (h := Nat.le_refl _), Nat.sub_self, List.set_cons_zero,
            List.append_assoc, List.singleton_append]
        obtain ⟨w, hfill⟩ := ih (h := h.fillPendingResp room (.get req pre.length pos stop read))
          hopen hset (by
            show Lined (h.chain.set _ _).length _ _
            rw [List.length_set, List.length_append, List.length_singleton]
            exact hps) (by
            intro hlen
            replace hlen := hlen.trans (congrArg List.length hset)
            simp only [List.length_append] at hlen
            exact List.length_eq_zero_iff.mp (by omega))
        refine ⟨w, hfill.trans ?_⟩
        rw [List.append_assoc]
        rfl

/-- `drainAll` writes what is owed. -/
theorem drainAll_eq (hopen : h.isOpen = true) (hpend : Lined h.chain.length 0 h.pend) :
    ∃ w, h.drainAll room = { h with out := h.owed, pend := [], chain := [], writes := w } := by
  obtain ⟨w, hfill⟩ := fill_lined hroom hopen (List.nil_append _).symm hpend
  refine ⟨w, ?_⟩
  rw [drainAll, hfill, flushPending, if_pos hopen]
  rfl

/-- `drainCompleted` writes what is owed when all of the queue is done, and otherwise fills in
frames of the chain. -/
theorem drainCompleted_eq (hopen : h.isOpen = true) (hpend : Lined h.chain.length 0 h.pend)
    (hdone : (∀ p ∈ h.pend, p.Done) ∨ ∀ p ∈ h.pend, p.Done → p.IsGet) :
    (∃ w, h.drainCompleted room =
        { h with out := h.owed, pend := [], chain := [], writes := w }) ∨
      (∀ p ∈ h.pend, p.Done → p.IsGet) ∧
        ∃ c, c.length = h.chain.length ∧ h.drainCompleted room = { h with chain := c } := by
  by_cases hall : ∀ p ∈ h.pend, p.Done
  · left
    have hfilter : h.pend.filter (fun p => p.Done) = h.pend :=
      List.filter_eq_self.mpr (fun p hp => decide_eq_true (hall p hp))
    obtain ⟨w, hdrain⟩ := drainAll_eq hroom hopen hpend
    refine ⟨w, ?_⟩
    simp only [drainCompleted, hfilter, if_pos hall]
    exact hdrain
  · right
    replace hdone := hdone.resolve_left hall
    have hgets : ∀ p ∈ h.pend.filter (fun p => p.Done), p.IsGet := by
      intro p hp
      obtain ⟨hp, hd⟩ := List.mem_filter.mp hp
      exact hdone p hp (of_decide_eq_true hd)
    obtain ⟨c, hc, hfill⟩ := fill_gets hopen hgets
    refine ⟨hdone, c, hc, ?_⟩
    simp only [drainCompleted, if_neg hall]
    exact hfill

end Drain

end ShmStream

/-! ## 2. The invariant -/

namespace ShmStream

variable {room : Nat → Bool} {cfg : ShmConfig} {h : ShmStream} {asks : List ShmAsk}

/-- **What is owed** are the answers to the requests taken. -/
structure Owing (cfg : ShmConfig) (asks : List ShmAsk) (h : ShmStream) : Prop where
  opened : h.isOpen = true
  taken : h.taken = asks.length
  lined : Lined h.chain.length 0 h.pend
  owed : h.owed = tagged 0 (asks.map (ShmAsk.answer cfg))
  queued : 0 < cfg.inflight ∨ h.pend = []

/-- The handler has ended after one of the requests, whose answers it has written. -/
structure Ended (cfg : ShmConfig) (asks : List ShmAsk) (h : ShmStream) : Prop where
  closed : h.isOpen = false
  taken : h.taken ≤ asks.length
  out : h.out = tagged 0 ((asks.take h.taken).map (ShmAsk.answer cfg))

/-- Only Gets wait as done in a queue that is not done as a whole. -/
def Waits (h : ShmStream) : Prop := ∀ p ∈ h.pend, p.Done → p.IsGet

theorem waits_of_pend_nil (hpend : h.pend = []) : h.Waits := by
  intro p hp
  rw [hpend] at hp
  exact absurd hp List.not_mem_nil

/-- Writing what is owed. -/
theorem Owing.drained (ho : h.Owing cfg asks) (w : Nat) :
    Owing cfg asks { h with out := h.owed, pend := [], chain := [], writes := w } where
  opened := ho.opened
  taken := ho.taken
  lined := rfl
  owed := (List.append_nil _).trans ho.owed
  queued := .inr rfl

section Turn

variable (hroom : ∀ n, room n = true)
include hroom

theorem Owing.drainAll (ho : h.Owing cfg asks) :
    (h.drainAll room).Owing cfg asks ∧ (h.drainAll room).pend = [] := by
  obtain ⟨w, hdrain⟩ := drainAll_eq hroom ho.opened ho.lined
  rw [hdrain]
  exact ⟨ho.drained w, rfl⟩

theorem Owing.drainCompleted (ho : h.Owing cfg asks) (hd : (∀ p ∈ h.pend, p.Done) ∨ h.Waits) :
    (h.drainCompleted room).Owing cfg asks ∧ (h.drainCompleted room).Waits := by
  rcases drainCompleted_eq hroom ho.opened ho.lined hd with ⟨w, hdrain⟩ | ⟨hw, c, hc, hdrain⟩
  · rw [hdrain]
    exact ⟨ho.drained w, waits_of_pend_nil rfl⟩
  · rw [hdrain]
    exact ⟨⟨ho.opened, ho.taken, by rw [hc]; exact ho.lined, ho.owed, ho.queued⟩, hw⟩

/-- The first two rules at the head of the loop. -/
theorem Owing.settle_rules (ho : h.Owing cfg asks) (hd : (∀ p ∈ h.pend, p.Done) ∨ h.Waits)
    (idle : Bool) : ∃ h₂ : ShmStream, h₂.Owing cfg asks ∧ h₂.Waits ∧ h.settle room cfg idle =
      if h₂.isOpen ∧ h₂.pend ≠ [] ∧ idle then h₂.drainAll room else h₂ := by
  refine ⟨_, ?_, ?_, rfl⟩
  all_goals
    obtain ⟨ho₁, hw₁⟩ := ho.drainCompleted hroom hd
    split
  · exact (ho₁.drainAll hroom).1
  · exact ho₁
  · exact waits_of_pend_nil (ho₁.drainAll hroom).2
  · exact hw₁

/-- The head of the loop. -/
theorem Owing.settle (ho : h.Owing cfg asks) (hd : (∀ p ∈ h.pend, p.Done) ∨ h.Waits)
    (idle : Bool) :
    (h.settle room cfg idle).Owing cfg asks ∧ (h.settle room cfg idle).Waits := by
  obtain ⟨h₂, ho₂, hw₂, hsettle⟩ := ho.settle_rules hroom hd idle
  rw [hsettle]
  split
  · exact ⟨(ho₂.drainAll hroom).1, waits_of_pend_nil (ho₂.drainAll hroom).2⟩
  · exact ⟨ho₂, hw₂⟩

/-- With nothing more to read, nothing stays in flight. -/
theorem Owing.settle_idle (ho : h.Owing cfg asks) (hd : (∀ p ∈ h.pend, p.Done) ∨ h.Waits) :
    (h.settle room cfg true).pend = [] := by
  obtain ⟨h₂, ho₂, -, hsettle⟩ := ho.settle_rules hroom hd true
  rw [hsettle]
  by_cases hpend : h₂.pend = []
  · rw [if_neg (fun hc => hc.2.1 hpend)]
    exact hpend
  · rw [if_pos ⟨ho₂.opened, hpend, rfl⟩]
    exact (ho₂.drainAll hroom).2

end Turn

end ShmStream

/-! ## 3. One turn -/

namespace ShmStream

variable {room : Nat → Bool} {cfg : ShmConfig} {h : ShmStream} {asks : List ShmAsk}

/-- The handler owes the answers, or has ended. -/
def Serving (cfg : ShmConfig) (asks : List ShmAsk) (h : ShmStream) : Prop :=
  (h.Owing cfg asks ∧ ((∀ p ∈ h.pend, p.Done) ∨ h.Waits)) ∨ h.Ended cfg asks

/-- The request is counted. -/
def count (h : ShmStream) : ShmStream := { h with taken := h.taken + 1 }

theorem tagged_answers_snoc (asks : List ShmAsk) (a : ShmAsk) :
    tagged 0 ((asks ++ [a]).map (ShmAsk.answer cfg)) =
      tagged 0 (asks.map (ShmAsk.answer cfg)) ++ tag asks.length (a.answer cfg) := by
  rw [List.map_append, tagged_append, List.length_map, Nat.zero_add, List.map_singleton, tagged,
    tagged_nil, List.append_nil]

theorem Owing.out_eq (ho : h.Owing cfg asks) (hpend : h.pend = []) :
    h.out = tagged 0 (asks.map (ShmAsk.answer cfg)) := by
  have := ho.owed
  rwa [ShmStream.owed, hpend, List.map_nil, List.append_nil] at this

theorem Owing.chain_eq_nil (ho : h.Owing cfg asks) (hpend : h.pend = []) : h.chain = [] := by
  have := ho.lined
  rw [hpend] at this
  exact this.chain_eq_nil

/-- A request answered at once, with nothing in flight. -/
theorem Owing.answers (ho : h.Owing cfg asks) (hpend : h.pend = []) {a : ShmAsk} {h' : ShmStream}
    (hwrote : ∃ w, h' = { h with out := h.out ++ tag h.taken (a.answer cfg), writes := w }) :
    h'.count.Serving cfg (asks ++ [a]) := by
  obtain ⟨w, rfl⟩ := hwrote
  refine .inl ⟨⟨ho.opened, ?_, ho.lined, ?_, .inr hpend⟩, .inr (waits_of_pend_nil hpend)⟩
  · rw [List.length_append, ← ho.taken]
    rfl
  · rw [tagged_answers_snoc, ← ho.out_eq hpend, ← ho.taken]
    simp only [ShmStream.owed, count, hpend, List.map_nil, List.append_nil]

/-- A request answered at once, with which the handler ends. -/
theorem Owing.ends (ho : h.Owing cfg asks) (hpend : h.pend = []) {a : ShmAsk} {h' : ShmStream}
    (hwrote : ∃ w, h' = { h with out := h.out ++ tag h.taken (a.answer cfg), writes := w }) :
    h'.close.count.Serving cfg (asks ++ [a]) := by
  obtain ⟨w, rfl⟩ := hwrote
  have hlen : h.taken + 1 = (asks ++ [a]).length := by
    rw [List.length_append, ← ho.taken]
    rfl
  refine .inr ⟨rfl, hlen.le, ?_⟩
  show h.out ++ _ = tagged 0 (((asks ++ [a]).take (h.taken + 1)).map _)
  rw [hlen, List.take_length, tagged_answers_snoc, ← ho.out_eq hpend, ← ho.taken]

/-- A request that waits in the queue. -/
theorem Owing.queues (ho : h.Owing cfg asks) {a : ShmAsk} {p : PendingOp}
    {chain : List (Nat × ShmFrame)} (hreq : p.req = h.taken) (hans : a.answer cfg = [p.frame])
    (hlined : Lined chain.length 0 (h.pend ++ [p])) (hin : 0 < cfg.inflight)
    (hwaits : (∀ q ∈ h.pend ++ [p], q.Done) ∨ ∀ q ∈ h.pend ++ [p], q.Done → q.IsGet) :
    Serving cfg (asks ++ [a]) (count { h with chain := chain, pend := h.pend ++ [p] }) := by
  refine .inl ⟨⟨ho.opened, ?_, hlined, ?_, .inl hin⟩, hwaits⟩
  · rw [List.length_append, ← ho.taken]
    rfl
  · rw [tagged_answers_snoc, ← ho.owed, hans, ← ho.taken, ← hreq]
    simp only [ShmStream.owed, count, List.map_append, List.append_assoc]
    rfl

theorem Waits.snoc (hw : h.Waits) {p : PendingOp} (hp : p.Done → p.IsGet) :
    ∀ q ∈ h.pend ++ [p], q.Done → q.IsGet := by
  intro q hq
  rcases List.mem_append.mp hq with hq | hq
  · exact hw q hq
  · rw [List.mem_singleton.mp hq]
    exact hp

theorem foldl_push (h : ShmStream) (fs : List ShmFrame) :
    fs.foldl (fun h f => h.push h.taken f) h = { h with chain := h.chain ++ tag h.taken fs } := by
  induction fs generalizing h with
  | nil => rw [tag_nil, List.append_nil]; rfl
  | cons f fs ih =>
    rw [List.foldl_cons, ih]
    simp only [push, List.append_assoc]
    rfl

theorem turn_of_closed (hclosed : h.isOpen = false) (t : Bool × ShmAsk) :
    h.turn room cfg t = h := by
  have hne : ¬ h.isOpen = true := by
    rw [hclosed]
    decide
  unfold turn
  simp only [if_neg hne]

section Turn

variable (hroom : ∀ n, room n = true)
include hroom

theorem write_eq (hchain : h.chain = []) (f : ShmFrame) :
    ∃ w, h.write room f = { h with out := h.out ++ tag h.taken [f], writes := w } := by
  refine ⟨h.writes + 1, ?_⟩
  simp only [write, reserve_eq hroom, flush, hchain, List.nil_append]
  rfl

theorem tryWrite_eq (hchain : h.chain = []) (f : ShmFrame) :
    ∃ w, h.tryWrite room f = { h with out := h.out ++ tag h.taken [f], writes := w } := by
  refine ⟨h.writes + 1, ?_⟩
  simp only [tryWrite, reserve_eq hroom, flush, hchain, List.nil_append]
  rfl

theorem emit_eq (hchain : h.chain = []) (e : Emit) :
    ∃ w, h.emit room e = { h with out := h.out ++ tag h.taken e.frames, writes := w } := by
  cases e with
  | chain fs =>
    refine ⟨h.writes, ?_⟩
    rw [emit, foldl_push]
    simp only [flush, hchain, List.nil_append]
    rfl
  | write f => exact write_eq hroom hchain f
  | tryWrite f => exact tryWrite_eq hroom hchain f

theorem emitAll_eq (hopen : h.isOpen = true) (hchain : h.chain = []) (es : List Emit) :
    ∃ w, h.emitAll room es =
      { h with out := h.out ++ tag h.taken (es.flatMap Emit.frames), writes := w } := by
  induction es generalizing h with
  | nil => exact ⟨h.writes, by simp [emitAll]⟩
  | cons e es ih =>
    obtain ⟨w, hone⟩ := emit_eq hroom hchain e
    obtain ⟨w', hrest⟩ := ih (h := { h with out := h.out ++ tag h.taken e.frames, writes := w })
      hopen hchain
    refine ⟨w', ?_⟩
    rw [emitAll, List.foldl_cons, if_pos hopen, hone, List.flatMap_cons, tag_append,
      ← List.append_assoc]
    exact hrest

theorem shmRespErr_serving (ho : h.Owing cfg asks) (hpend : h.pend = []) {a : ShmAsk}
    {code : ErrCode} (ha : a.answer cfg = [.resp code]) :
    (h.shmRespErr room code).count.Serving cfg (asks ++ [a]) := by
  refine ho.ends hpend ?_
  rw [ha]
  exact tryWrite_eq hroom (ho.chain_eq_nil hpend) _

theorem write_serving (ho : h.Owing cfg asks) (hpend : h.pend = []) {a : ShmAsk} {f : ShmFrame}
    (ha : a.answer cfg = [f]) : (h.write room f).count.Serving cfg (asks ++ [a]) := by
  refine ho.answers hpend ?_
  rw [ha]
  exact write_eq hroom (ho.chain_eq_nil hpend) _

/-- A Put, when nothing is in flight or it is queued. -/
theorem handleShmPut_serving (ho : h.Owing cfg asks) (hw : h.Waits) {size : Option Int}
    {begun committed written : Res Unit} (hsync : ¬ cfg.AsyncPut → h.pend = [])
    (hfit : PutAtOnce cfg size begun → h.pend = []) :
    (h.handleShmPut room cfg size begun committed written).count.Serving cfg
      (asks ++ [.put size begun committed written]) := by
  have herr : ∀ {code}, PutAtOnce cfg size begun → putCode cfg size begun committed written = code →
      (h.shmRespErr room code).count.Serving cfg (asks ++ [.put size begun committed written]) := by
    rintro code hnow rfl
    exact shmRespErr_serving hroom ho (hfit hnow) rfl
  unfold handleShmPut
  cases size with
  | none => exact herr (fun n hn => absurd hn.symm (Option.some_ne_none n)) rfl
  | some size =>
    have hnow : (size ≤ 0 ∨ size > cfg.maxObjectSize ∨ begun ≠ .ok ()) →
        PutAtOnce cfg (some size) begun := by
      rintro hor n ⟨⟩
      exact hor
    simp only
    split
    · rename_i hneg
      exact herr (hnow (.inl (by omega))) (if_pos hneg)
    rename_i hneg
    split
    · rename_i hbig
      exact herr (hnow (.inr (.inl hbig))) ((if_neg hneg).trans (if_pos hbig))
    rename_i hbig
    have hcode : putCode cfg (some size) begun committed written = _ :=
      (if_neg hneg).trans (if_neg hbig)
    cases begun with
    | error e => exact herr (hnow (.inr (.inr (fun h => by cases h)))) hcode
    | ok u =>
      simp only at hcode ⊢
      split
      · rename_i hzero
        have hpend := hfit (hnow (.inl hzero.le))
        rw [if_pos hzero] at hcode
        cases committed with
        | error e => exact herr (hnow (.inl hzero.le)) hcode
        | ok u =>
          have hans : (ShmAsk.put (some size) (.ok ()) (.ok ()) written).answer cfg =
              [.resp .ok] := congrArg (fun c => [ShmFrame.resp c]) hcode
          simp only
          split
          · rename_i hasync
            refine ho.queues (p := .put h.taken none) rfl hans (ho.lined.snoc_put _ _) hasync.1
              (.inl ?_)
            rw [hpend]
            intro q hq
            rw [List.mem_singleton.mp hq]
            trivial
          · exact write_serving hroom ho hpend hans
      · rename_i hzero
        rw [if_neg hzero] at hcode
        have hans : (ShmAsk.put (some size) (.ok ()) committed written).answer cfg =
            [.resp (codeOf written)] := congrArg (fun c => [ShmFrame.resp c]) hcode
        split
        · rename_i hasync
          exact ho.queues (p := .put h.taken (some written)) rfl hans (ho.lined.snoc_put _ _)
            hasync.1 (.inr (hw.snoc False.elim))
        · rename_i hasync
          exact write_serving hroom ho (hsync hasync) hans

/-- A Get, queued behind Gets or answered at once. -/
theorem handleGetReq_serving (ho : h.Owing cfg asks) (hw : h.Waits) {g : Option ShmGet}
    (hfit : (ShmAsk.get g).Fits cfg h.pend) :
    (h.handleGetReq room cfg g).count.Serving cfg (asks ++ [.get g]) := by
  have hnow : ∀ {h : ShmStream}, h.Owing cfg asks → h.pend = [] →
      (∀ g', g = some g' → ¬ g'.Queued cfg) →
      (handleGetReq.answerGet room cfg g h).count.Serving cfg (asks ++ [.get g]) := by
    intro h ho hpend hg
    cases g with
    | none => exact write_serving hroom ho hpend rfl
    | some g =>
      refine ho.answers hpend ?_
      rw [answer_of_not_queued (hg g rfl)]
      exact emitAll_eq hroom ho.opened (ho.chain_eq_nil hpend) _
  unfold handleGetReq
  split
  · rename_i hon
    cases hsubmit : g.bind ShmGet.trySubmitAsyncGet with
    | none =>
      obtain ⟨hod, hpd⟩ := ho.drainAll hroom
      simp only
      rw [if_pos hod.opened]
      refine hnow hod hpd ?_
      rintro g' rfl hq
      have := hq.2.2
      rw [show g'.trySubmitAsyncGet = none from hsubmit] at this
      cases this
    | some r =>
      obtain ⟨off, read⟩ := r
      obtain ⟨g, rfl, hread⟩ := Option.bind_eq_some_iff.mp hsubmit
      have hq : g.Queued cfg := ⟨hon.1, hon.2, Option.isSome_iff_exists.mpr ⟨_, hread⟩⟩
      refine ho.queues (p := .get h.taken h.chain.length off (off + chunkSize) read) rfl
        (answer_of_queued hq hread) ?_ hon.1 (.inr (hw.snoc (fun _ => trivial)))
      show Lined (h.chain ++ [_]).length 0 _
      rw [List.length_append]
      exact ho.lined.snoc_get (hfit.1 hq) ..
  · rename_i hoff
    have hpend : ∀ (hb : cfg.batched = true → h.pend = []), h.pend = [] := by
      intro hb
      rcases ho.queued with hin | hnil
      · exact hb (by simpa using fun h => hoff ⟨hin, h⟩)
      · exact hnil
    have hnot : ∀ g', g = some g' → ¬ g'.Queued cfg := fun g' _ hq => hoff ⟨hq.1, hq.2.1⟩
    cases g with
    | none => exact hnow ho (hpend hfit) hnot
    | some g => exact hnow ho (hpend (hfit.2 (hnot g rfl)).2) hnot

theorem handleShmDelete_serving (ho : h.Owing cfg asks) (hpend : h.pend = [])
    (r : Option (Res Unit)) :
    (h.handleShmDelete room r).count.Serving cfg (asks ++ [.del r]) := by
  cases r with
  | none => exact write_serving hroom ho hpend rfl
  | some r => exact write_serving hroom ho hpend rfl

theorem handleShmStat_serving (ho : h.Owing cfg asks) (hpend : h.pend = [])
    (r : Option (Res Int)) :
    (h.handleShmStat room r).count.Serving cfg (asks ++ [.stat r]) := by
  rcases r with - | (e | size)
  · exact write_serving hroom ho hpend rfl
  · exact write_serving hroom ho hpend rfl
  · exact write_serving hroom ho hpend rfl

/-- **A request that fits is answered or queued.** -/
theorem handle_serving (ho : h.Owing cfg asks) (hw : h.Waits) {a : ShmAsk}
    (hfit : a.Fits cfg h.pend) : (h.handle room cfg a).count.Serving cfg (asks ++ [a]) := by
  obtain ⟨hod, hpd⟩ := ho.drainAll hroom
  cases a with
  | put size begun committed written =>
    unfold handle
    by_cases hasync : cfg.AsyncPut
    · rw [if_pos hasync]
      simp only
      rw [if_pos ho.opened]
      exact handleShmPut_serving hroom ho hw (fun h => absurd hasync h) (hfit hasync)
    · rw [if_neg hasync]
      simp only
      rw [if_pos hod.opened]
      exact handleShmPut_serving hroom hod (waits_of_pend_nil hpd) (fun _ => hpd) (fun _ => hpd)
  | get g => exact handleGetReq_serving hroom ho hw hfit
  | del r =>
    unfold handle
    simp only
    rw [if_pos hod.opened]
    exact handleShmDelete_serving hroom hod hpd r
  | stat r =>
    unfold handle
    simp only
    rw [if_pos hod.opened]
    exact handleShmStat_serving hroom hod hpd r

/-- **One turn**: a request that fits is taken, unless the handler has ended. -/
theorem turn_serving (hs : h.Serving cfg asks) (t : Bool × ShmAsk)
    (hfit : h.isOpen = true → t.2.Fits cfg (h.settle room cfg t.1).pend) :
    (h.turn room cfg t).Serving cfg (asks ++ [t.2]) := by
  rcases hs with ⟨ho, hd⟩ | he
  · obtain ⟨ho', hw'⟩ := ho.settle hroom hd t.1
    unfold turn
    simp only
    rw [if_pos ho.opened, if_pos ho'.opened]
    exact handle_serving hroom ho' hw' (hfit ho.opened)
  · rw [turn_of_closed he.closed]
    refine .inr ⟨he.closed, he.taken.trans (by simp), ?_⟩
    rw [List.take_append_of_le_length he.taken]
    exact he.out

end Turn

end ShmStream

/-! ## 4. The discipline -/

namespace ShmStream

variable {room : Nat → Bool} {cfg : ShmConfig}

/-- **The discipline**: once the handler waits or has ended, it has written one response for each
request it took, in their order and nothing else, and none of them holds a placeholder. -/
structure Disciplined (room : Nat → Bool) (cfg : ShmConfig) (ts : List (Bool × ShmAsk)) : Prop where
  taken : ((handleStream room cfg ts).waiting room cfg).taken ≤ ts.length
  ended : ((handleStream room cfg ts).waiting room cfg).taken < ts.length →
    ((handleStream room cfg ts).waiting room cfg).isOpen = false
  responses : ∃ rs : List (List ShmFrame),
    rs.length = ((handleStream room cfg ts).waiting room cfg).taken ∧
      ((handleStream room cfg ts).waiting room cfg).out = tagged 0 rs ∧
        ∀ (i : Nat) a fs, (ts.map Prod.snd)[i]? = some a → rs[i]? = some fs → a.Answered fs
  no_placeholder : ∀ x ∈ (handleStream room cfg ts).out ++
    ((handleStream room cfg ts).waiting room cfg).out, x.2 ≠ .placeholder

/-- A request is taken that fits, unless the handler has ended. -/
def TurnFits (room : Nat → Bool) (cfg : ShmConfig) (h : ShmStream) (t : Bool × ShmAsk) : Prop :=
  h.isOpen = true → t.2.Fits cfg (h.settle room cfg t.1).pend

/-- The turns of the loop, as a run. -/
abbrev turns (room : Nat → Bool) (cfg : ShmConfig) : ShmStream → Bool × ShmAsk → Option ShmStream :=
  fun h t => some (h.turn room cfg t)

theorem not_placeholder_of_answered {a : ShmAsk} {fs : List ShmFrame} (h : a.Answered fs)
    {f : ShmFrame} (hf : f ∈ fs) : f ≠ .placeholder := by
  rintro rfl
  cases a with
  | put size begun committed written =>
    obtain ⟨c, rfl⟩ := h
    cases List.mem_singleton.mp hf
  | get g =>
    obtain ⟨gs, rfl, -⟩ := h
    obtain ⟨f, -, hf⟩ := List.mem_map.mp hf
    cases hf
  | del r =>
    obtain ⟨c, rfl⟩ := h
    cases List.mem_singleton.mp hf
  | stat r =>
    rcases h with ⟨c, rfl⟩ | ⟨n, rfl⟩
    · cases List.mem_singleton.mp hf
    · cases List.mem_singleton.mp hf

theorem serving_start : start.Serving cfg [] :=
  .inl ⟨{ opened := rfl, taken := rfl, lined := Eq.refl 0, owed := rfl, queued := .inr rfl },
    .inr (waits_of_pend_nil rfl)⟩

/-- A run owes the answers, and each request it took has an answer that is a response. -/
theorem handleStream_serving (hroom : ∀ n, room n = true) {ts : List (Bool × ShmAsk)}
    (hfits : Transition.Along (turns room cfg) (TurnFits room cfg) start ts) :
    (handleStream room cfg ts).Serving cfg (ts.map Prod.snd) ∧
      ∀ a ∈ (ts.map Prod.snd).take (handleStream room cfg ts).taken, a.Answered (a.answer cfg) := by
  have hnone : start.Serving cfg (([] : List (Bool × ShmAsk)).map Prod.snd) ∧
      ∀ a ∈ (([] : List (Bool × ShmAsk)).map Prod.snd).take start.taken, a.Answered (a.answer cfg) :=
    ⟨serving_start, fun a ha => absurd ha List.not_mem_nil⟩
  refine Transition.run_history
    (I := fun ts h => h.Serving cfg (ts.map Prod.snd) ∧
      ∀ a ∈ (ts.map Prod.snd).take h.taken, a.Answered (a.answer cfg)) ?_ hnone
    hfits (Transition.run_some _ _ _)
  rintro ts h t h' ⟨hs, hans⟩ hfit ⟨⟩
  have hs' := turn_serving hroom hs t hfit
  rw [List.map_append, List.map_singleton]
  refine ⟨hs', fun a ha => ?_⟩
  rcases hs with ⟨ho, -⟩ | he
  · rw [ho.taken, List.take_length] at hans
    rcases List.mem_append.mp (List.mem_of_mem_take ha) with ha | ha
    · exact hans a ha
    · rw [List.mem_singleton.mp ha]
      exact (hfit ho.opened).answered
  · rw [turn_of_closed he.closed, List.take_append_of_le_length he.taken] at ha
    exact hans a ha

/-- **The discipline holds** of every run whose requests fit, when `Reserve` has room for the
frames that have no other way. -/
theorem disciplined_of_run (hroom : ∀ n, room n = true) {ts : List (Bool × ShmAsk)}
    (hfits : Transition.Along (turns room cfg) (TurnFits room cfg) start ts) :
    Disciplined room cfg ts := by
  obtain ⟨hs, hans⟩ := handleStream_serving hroom hfits
  obtain ⟨h, hh⟩ : ∃ h, h = handleStream room cfg ts := ⟨_, rfl⟩
  rw [← hh] at hs hans
  -- in the end the answers to the requests taken are written
  have hend : (h.waiting room cfg).taken = h.taken ∧ h.taken ≤ ts.length ∧
      (h.taken < ts.length → (h.waiting room cfg).isOpen = false) ∧
      (h.waiting room cfg).out =
        tagged 0 (((ts.map Prod.snd).take h.taken).map (ShmAsk.answer cfg)) ∧
      h.out <+: (h.waiting room cfg).out := by
    rcases hs with ⟨ho, hd⟩ | he
    · have htaken := ho.taken
      rw [List.length_map] at htaken
      obtain ⟨ho', -⟩ := ho.settle hroom hd true
      have hout := ho'.out_eq (ho.settle_idle hroom hd)
      rw [waiting, if_pos ho.opened]
      refine ⟨ho'.taken.trans ho.taken.symm, htaken.le, fun hlt => absurd htaken hlt.ne, ?_, ?_⟩
      · rw [hout, ho.taken, List.take_length]
      · rw [hout, ← ho.owed]
        exact List.prefix_append _ _
    · have hne : ¬ h.isOpen = true := by
        rw [he.closed]
        decide
      have hle := he.taken
      rw [List.length_map] at hle
      rw [waiting, if_neg hne]
      exact ⟨rfl, hle, fun _ => he.closed, he.out, List.prefix_rfl⟩
  obtain ⟨htaken, hle, hclosed, hout, hpre⟩ := hend
  have hplain : ∀ x ∈ (h.waiting room cfg).out, x.2 ≠ .placeholder := by
    intro x hx
    rw [hout] at hx
    obtain ⟨fs, hfs, hx⟩ := exists_of_mem_tagged hx
    obtain ⟨a, ha, rfl⟩ := List.mem_map.mp hfs
    exact not_placeholder_of_answered (hans a ha) hx
  subst hh
  refine ⟨htaken ▸ hle, htaken ▸ hclosed,
    ⟨((ts.map Prod.snd).take _).map (ShmAsk.answer cfg), ?_, hout, ?_⟩, ?_⟩
  · rw [htaken, List.length_map, List.length_take, List.length_map, Nat.min_eq_left hle]
  · intro i a fs ha hfs
    rw [List.getElem?_map, Option.map_eq_some_iff] at hfs
    obtain ⟨b, hb, rfl⟩ := hfs
    have hmem := List.mem_of_getElem? hb
    rw [List.getElem?_take] at hb
    split at hb
    · rw [ha] at hb
      cases hb
      exact hans a hmem
    · cases hb
  · intro x hx
    rcases List.mem_append.mp hx with hx | hx
    · exact hplain x (hpre.subset hx)
    · exact hplain x hx

/-- Three requests in flight, with the write pipeline. -/
def pipelined : ShmConfig := ⟨3, true, false, 100⟩

/-- A Put, a Get of one byte that is answered at once, a Delete of a missing key and a Stat. -/
theorem disciplined_of_mixed_run : Disciplined (fun _ => true) pipelined
    [(false, .put (some 1) (.ok ()) (.ok ()) (.ok ())),
      (false, .get (some ⟨0, 1, .ok oneByteObject, true, .ok oneByteObject, true,
        .ok oneByteObject, 0, fun _ => true⟩)),
      (false, .del (some (.error .notFound))),
      (true, .stat (some (.ok 1)))] := by
  have hnot : ¬ ShmGet.Queued pipelined ⟨0, 1, .ok oneByteObject, true, .ok oneByteObject, true,
      .ok oneByteObject, 0, fun _ => true⟩ := by
    decide
  refine disciplined_of_run (fun _ => rfl) ⟨fun _ _ _ => rfl, fun _ _ => ⟨fun _ => ?_, fun _ _ =>
    ⟨fun _ => trivial, fun _ _ => ⟨fun _ => trivial, fun _ _ => trivial⟩⟩⟩⟩
  refine ⟨fun hq => absurd hq hnot, fun _ => ⟨.inr ⟨by decide, ?_⟩, fun hb => nomatch hb⟩⟩
  intro q hq
  exact absurd hq List.not_mem_nil

/-- A Put is in flight; an empty Put behind it, which is done when it is queued, is answered
before it, and again when the queue is drained. -/
theorem empty_put_answered_twice : ¬ Disciplined (fun _ => true) pipelined
    [(false, .put (some 1) (.ok ()) (.ok ()) (.ok ())),
      (false, .put (some 0) (.ok ()) (.ok ()) (.ok ())),
      (false, .del (some (.ok ())))] := by
  intro hd
  obtain ⟨rs, -, hout, -⟩ := hd.responses
  have hnumbers := tagged_pairwise 0 rs
  rw [← hout, show ((handleStream (fun _ => true) pipelined
    [(false, .put (some 1) (.ok ()) (.ok ()) (.ok ())),
      (false, .put (some 0) (.ok ()) (.ok ()) (.ok ())),
      (false, .del (some (.ok ())))]).waiting (fun _ => true) pipelined).out =
        [(1, .resp .ok), (0, .resp .ok), (1, .resp .ok), (2, .resp .ok)] by decide +kernel]
    at hnumbers
  exact absurd hnumbers (by decide)

end ShmStream

end Taihu
