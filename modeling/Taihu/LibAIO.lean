/-
# Submitting to libaio

`submit`, `submitBatch`, `Wait` and `Close` of `internal/aio/ring_libaio_linux.go`.

A submission numbers its blocks behind the last number used, and hands them to the kernel while it
has the mutex; the kernel takes some first ones of them, at least one, or returns an errno and takes
none.  The numbers of what it has not taken are used again.  The kernel completes a block at any time;
`Wait` fetches completions in the order in which they have arrived.

The completion pump relies on a queue of completions (`Lib/Completion`), and libaio is one as long as
its numbers do not wrap: `libaio_accounted`.  The ring of the pump's model is another
(`CompletionPump.device_shows`), so that a caller of the device can have its submission answered by
libaio, and the pump be given what `Wait` returns (`pump_over_libaio`).
-/
import Taihu.Lib.Completion
import Taihu.CompletionPump
import Taihu.PumpSafety
import Taihu.Uring

namespace Taihu.LibAIO

open Transition Completion

/-! ## 1. The ring -/

/-- `ioEvent`, less what `Wait` does not read. -/
structure Event where
  data : UInt64
  res : Int64
  deriving DecidableEq, Repr

/-- `iocb`, less the fields that stay zero. -/
structure Iocb where
  data : UInt64
  lioOp : UInt16
  fildes : UInt32
  buf : UInt64
  nbytes : UInt64
  offset : Int64
  deriving DecidableEq, Repr

def opcodePread : UInt16 := 0
def opcodePwrite : UInt16 := 1

/-- `batchSpec`: the address and the length of the buffer, and the offset on the device. -/
structure BatchSpec where
  buf : UInt64
  len : Nat
  off : Int64
  deriving DecidableEq, Repr

/-- The block for a spec. -/
def fillIocb (fd : UInt32) (op : UInt16) (seq : UInt64) (sp : BatchSpec) : Iocb :=
  ⟨seq, op, fd, if 0 < sp.len then sp.buf else 0, UInt64.ofNat sp.len, sp.off⟩

/-- The blocks for specs, the `i`-th with the number `base + i + 1`. -/
def fillIocbs (fd : UInt32) (op : UInt16) (base : UInt64) (specs : List BatchSpec) : List Iocb :=
  specs.zipIdx.map fun x => fillIocb fd op (base + UInt64.ofNat (x.2 + 1)) x.1

inductive Errno where
  | eagain
  | other (n : Nat)
  deriving DecidableEq, Repr

/-- The error of a call: `ErrFull` or an errno. -/
inductive SubmitErr where
  | full
  | errno (e : Errno)
  deriving DecidableEq, Repr

def submitErr : Errno → SubmitErr
  | .eagain => .full
  | e => .errno e

/-- What io_submit returns: how many blocks it has taken, or an errno. -/
inductive Answer where
  | count (c : Nat)
  | errno (e : Errno)
  deriving DecidableEq, Repr

/-- A submission that has returned: `first` and `submitted` are its results. -/
structure Call where
  op : UInt16
  specs : List BatchSpec
  first : UInt64
  submitted : Nat
  err : Option SubmitErr
  deriving DecidableEq, Repr

/-- `ring`, with what the kernel has of it: the blocks it has to complete, and the completions that
have arrived and not been fetched.  `accepted`, `calls` and `seen` are its history. -/
structure State where
  seq : UInt64
  ctx : Bool
  queued : List Iocb
  events : List Event
  accepted : List Iocb
  calls : List Call
  seen : List Label

namespace State

/-- `newLibAIORing`. -/
def init : State where
  seq := 0
  ctx := true
  queued := []
  events := []
  accepted := []
  calls := []
  seen := []

variable (fd : UInt32) (s : State)

/-- The kernel has taken the first `n` blocks of a submission. -/
def taken (op : UInt16) (specs : List BatchSpec) (seq first : UInt64) (n : Nat) (cbs : List Iocb) : State :=
  { s with
    seq
    queued := s.queued ++ cbs.take n
    accepted := s.accepted ++ cbs.take n
    calls := s.calls ++ [⟨op, specs, first, n, none⟩]
    seen := s.seen ++ [.accept first.toNat n] }

/-- A submission returns with nothing accepted. -/
def untaken (op : UInt16) (specs : List BatchSpec) (seq : UInt64) (err : Option SubmitErr) : State :=
  { s with seq, calls := s.calls ++ [⟨op, specs, 0, 0, err⟩] }

/-- `submit`.  The kernel takes the one block or returns an errno. -/
def submit (op : UInt16) (sp : BatchSpec) (k : Answer) : Option State :=
  let seq := s.seq + 1
  let cb := fillIocb fd op seq sp
  match k with
  -- the number is taken back
  | .errno e => some (s.untaken op [sp] (seq - 1) (some (submitErr e)))
  | .count c => if s.ctx ∧ c = 1 then some (s.taken op [sp] seq seq 1 [cb]) else none

/-- `submitBatch`. -/
def submitBatch (op : UInt16) (specs : List BatchSpec) (k : Answer) : Option State :=
  let n := specs.length
  if n = 0 then some (s.untaken op specs s.seq none)
  else
    let base := s.seq
    let cbs := fillIocbs fd op base specs
    match k with
    | .errno e => some (s.untaken op specs s.seq (some (submitErr e)))
    | .count c =>
      if s.ctx ∧ 0 < c ∧ c ≤ n then
        let submitted := if c > n then n else c
        some (s.taken op specs (base + UInt64.ofNat submitted) (base + 1) submitted cbs)
      else none

/-- The kernel completes a block. -/
def complete (i : Nat) (res : Int64) : Option State :=
  (s.queued[i]?).map fun cb =>
    { s with queued := s.queued.eraseIdx i, events := s.events ++ [⟨cb.data, res⟩] }

/-- `Wait`: io_getevents returns an errno, or so many events. -/
def wait (max : Nat) (got : Except Errno Nat) : Option State :=
  if max = 0 then some s
  else
    match got with
    | .error _ => some s
    | .ok n =>
      if s.ctx ∧ n ≤ max ∧ n ≤ s.events.length then
        some { s with
          events := s.events.drop n
          seen := s.seen ++ [.deliver ((s.events.take n).map fun ev => ev.data.toNat)] }
      else none

/-- `Close`: the context is gone, whatever io_destroy returns. -/
def close : State := { s with ctx := false }

/-- The numbers of the blocks that have not been fetched. -/
def pending : List UInt64 := s.queued.map Iocb.data ++ s.events.map Event.data

/-- The ring as a queue of completions. -/
def queue : Queue where
  used := Finset.Ico 1 (1 + s.accepted.length)
  inflight := (s.pending.map UInt64.toNat).toFinset

end State

inductive Act where
  | submit (op : UInt16) (sp : BatchSpec) (k : Answer)
  | submitBatch (op : UInt16) (specs : List BatchSpec) (k : Answer)
  | complete (i : Nat) (res : Int64)
  | wait (max : Nat) (got : Except Errno Nat)
  | close

def step (fd : UInt32) (s : State) : Act → Option State
  | .submit op sp k => s.submit fd op sp k
  | .submitBatch op specs k => s.submitBatch fd op specs k
  | .complete i res => s.complete i res
  | .wait max got => s.wait max got
  | .close => some s.close

/-! ## 2. Numbers -/

/-- The blocks of a call that were accepted, the `i`-th with the number `first + i`. -/
def Call.taken (fd : UInt32) (c : Call) : List Iocb :=
  (c.specs.take c.submitted).zipIdx.map fun x => fillIocb fd c.op (c.first + UInt64.ofNat x.2) x.1

variable {fd : UInt32} {s s' : State} {op : UInt16} {specs : List BatchSpec}

theorem fillIocbs_length (base : UInt64) : (fillIocbs fd op base specs).length = specs.length := by
  simp [fillIocbs]

/-- The accepted blocks of a call are those it has filled first. -/
theorem taken_eq (base : UInt64) (n : Nat) (err : Option SubmitErr) :
    Call.taken fd ⟨op, specs, base + 1, n, err⟩ = (fillIocbs fd op base specs).take n := by
  rw [fillIocbs, ← List.map_take, ← Uring.zipIdx_take]
  refine List.map_congr_left fun x _ => ?_
  have hnum : base + 1 + UInt64.ofNat x.2 = base + UInt64.ofNat (x.2 + 1) := by
    rw [UInt64.ofNat_add, UInt64.add_assoc, UInt64.add_comm (UInt64.ofNat x.2)]
    rfl
  rw [hnum]

theorem taken_none (first : UInt64) (err : Option SubmitErr) :
    Call.taken fd ⟨op, specs, first, 0, err⟩ = [] := by
  simp [Call.taken]

/-- The numbers of blocks, as long as they do not wrap. -/
theorem data_fillIocbs {m : Nat} (h : m + specs.length < 2 ^ 64) :
    (fillIocbs fd op (UInt64.ofNat m) specs).map (fun cb => cb.data.toNat) =
      List.range' (m + 1) specs.length := by
  have hfun : ∀ x ∈ specs.zipIdx, (fillIocb fd op (UInt64.ofNat m + UInt64.ofNat (x.2 + 1)) x.1).data.toNat =
      m + 1 + x.2 := by
    intro x hx
    have hlt := List.snd_lt_of_mem_zipIdx hx
    have hnum : UInt64.ofNat m + UInt64.ofNat (x.2 + 1) = UInt64.ofNat (m + 1 + x.2) := by
      rw [← UInt64.ofNat_add]
      congr 1
      omega
    have hlt' : m + 1 + x.2 < 2 ^ 64 := by omega
    rw [fillIocb, hnum, UInt64.toNat_ofNat_of_lt' hlt']
  rw [fillIocbs, List.map_map, List.range'_eq_map_range, List.range_eq_range', ← List.zipIdx_map_snd 0 specs,
    List.map_map]
  exact List.map_congr_left hfun

/-! ## 3. The account -/

/-- **The invariant.**  The last number is that of the block accepted last; the blocks are those of the
calls; and what has been shown is a run of a queue of completions. -/
structure State.Inv (fd : UInt32) (s : State) : Prop where
  seq : s.seq = UInt64.ofNat s.accepted.length
  calls : s.accepted = s.calls.flatMap (Call.taken fd)
  bounded : ∀ c ∈ s.calls, c.submitted ≤ c.specs.length ∧ (c.err ≠ none → c.submitted = 0)
  nodup : s.accepted.length < 2 ^ 64 → (s.pending.map UInt64.toNat).Nodup
  shown : s.accepted.length < 2 ^ 64 → run Queue.step Queue.init s.seen = some s.queue

/-- A queue keeps what is in flight among what has been used. -/
theorem State.Inv.inflight (h : s.Inv fd) (hfew : s.accepted.length < 2 ^ 64) :
    ∀ x ∈ s.pending.map UInt64.toNat, x < 1 + s.accepted.length := by
  intro x hx
  have hkept := (deliveredOnce_of_run (h.shown hfew)).inflight
  have hmem : x ∈ s.queue.inflight := List.mem_toFinset.mpr hx
  rw [hkept] at hmem
  exact (Finset.mem_Ico.mp (Finset.mem_sdiff.mp hmem).1).2

/-- What the kernel takes is behind what it had. -/
theorem pending_taken (op : UInt16) (s : State) (specs : List BatchSpec) (seq first : UInt64) (n : Nat)
    (cbs : List Iocb) :
    ((s.taken op specs seq first n cbs).pending.map UInt64.toNat).Perm
      (s.pending.map UInt64.toNat ++ (cbs.take n).map fun cb => cb.data.toNat) := by
  have hpending : (s.taken op specs seq first n cbs).pending =
      s.queued.map Iocb.data ++ ((cbs.take n).map Iocb.data ++ s.events.map Event.data) := by
    rw [State.pending, State.taken, List.map_append, List.append_assoc]
  have hnew : ((cbs.take n).map fun cb => cb.data.toNat) = ((cbs.take n).map Iocb.data).map UInt64.toNat := by
    rw [List.map_map]
    rfl
  rw [hpending, hnew, State.pending, ← List.map_append, List.append_assoc]
  exact (List.Perm.append_left _ List.perm_append_comm).map _

theorem accepted_taken {n : Nat} (hn : n ≤ specs.length) (seq first base : UInt64) :
    (s.taken op specs seq first n (fillIocbs fd op base specs)).accepted.length = s.accepted.length + n := by
  rw [State.taken, List.length_append, List.length_take, fillIocbs_length, Nat.min_eq_left hn]

/-- The numbers of what the kernel takes. -/
theorem State.Inv.numbers (h : s.Inv fd) {n : Nat} (hn : n ≤ specs.length)
    (hfew : s.accepted.length + n < 2 ^ 64) :
    ((fillIocbs fd op s.seq specs).take n).map (fun cb => cb.data.toNat)
      = List.range' (s.accepted.length + 1) n := by
  have htake : (fillIocbs fd op s.seq specs).take n = fillIocbs fd op s.seq (specs.take n) := by
    rw [fillIocbs, fillIocbs, ← List.map_take, ← Uring.zipIdx_take]
  have hspecs : (specs.take n).length = n := by
    rw [List.length_take, Nat.min_eq_left hn]
  rw [htake, h.seq, data_fillIocbs (by omega), hspecs]

theorem toFinset_range' (first n : Nat) : (List.range' first n).toFinset = Finset.Ico first (first + n) := by
  ext x
  simp [List.mem_range'_1]

/-- The queue accepts what the kernel takes. -/
theorem State.Inv.taken_queue (h : s.Inv fd) {n : Nat} (hpos : 0 < n) (hn : n ≤ specs.length) (op : UInt16)
    (seq : UInt64) (hfew : s.accepted.length + n < 2 ^ 64) :
    s.queue.step (.accept (s.seq + 1).toNat n) =
      some (s.taken op specs seq (s.seq + 1) n (fillIocbs fd op s.seq specs)).queue := by
  have hperm := pending_taken op s specs seq (s.seq + 1) n (fillIocbs fd op s.seq specs)
  have hfirst : (s.seq + 1).toNat = s.accepted.length + 1 := by
    have hone : s.seq + 1 = UInt64.ofNat (s.accepted.length + 1) := by
      rw [h.seq, UInt64.ofNat_add]
      rfl
    have hlt : s.accepted.length + 1 < 2 ^ 64 := by omega
    rw [hone, UInt64.toNat_ofNat_of_lt' hlt]
  rw [hfirst]
  refine Queue.step_accept.mpr ⟨?_, ?_⟩
  · refine Finset.disjoint_left.mpr fun x hx hx' => ?_
    have hold := (Finset.mem_Ico.mp hx).2
    have hbehind := (Finset.mem_Ico.mp hx').1
    omega
  · have hused : Finset.Ico 1 (1 + (s.accepted.length + n)) =
        Finset.Ico 1 (1 + s.accepted.length) ∪
          Finset.Ico (s.accepted.length + 1) (s.accepted.length + 1 + n) := by
      ext x
      simp only [Finset.mem_union, Finset.mem_Ico]
      omega
    rw [State.queue, State.queue, accepted_taken hn, hused, List.toFinset_eq_of_perm _ _ hperm,
      h.numbers hn hfew, List.toFinset_append, toFinset_range']

/-- **The kernel takes some of a submission.** -/
theorem State.Inv.taken (h : s.Inv fd) {n : Nat} (hpos : 0 < n) (hn : n ≤ specs.length) :
    (s.taken op specs (s.seq + UInt64.ofNat n) (s.seq + 1) n (fillIocbs fd op s.seq specs)).Inv fd := by
  have hacc : (s.taken op specs (s.seq + UInt64.ofNat n) (s.seq + 1) n
      (fillIocbs fd op s.seq specs)).accepted.length = s.accepted.length + n := accepted_taken hn _ _ _
  refine ⟨?_, ?_, ?_, fun hfew => ?_, fun hfew => ?_⟩
  · rw [hacc, UInt64.ofNat_add, ← h.seq]
    rfl
  · rw [State.taken, List.flatMap_append, ← h.calls, List.flatMap_singleton, taken_eq]
  · intro c hc
    rcases List.mem_append.mp hc with hc | hc
    · exact h.bounded c hc
    · rw [List.mem_singleton.mp hc]
      exact ⟨hn, fun he => absurd rfl he⟩
  · rw [hacc] at hfew
    rw [(pending_taken _ _ _ _ _ _ _).nodup_iff, h.numbers hn hfew, List.nodup_append']
    refine ⟨h.nodup (by omega), List.nodup_range', fun x hx hx' => ?_⟩
    have hold := h.inflight (by omega) x hx
    have hbehind := (List.mem_range'_1.mp hx').1
    omega
  · rw [hacc] at hfew
    have hqueue := h.taken_queue hpos hn op (s.seq + UInt64.ofNat n) hfew
    rw [show (s.taken op specs _ _ n _).seen = s.seen ++ [.accept (s.seq + 1).toNat n] from rfl, run_append,
      h.shown (by omega), Option.bind_some, run_cons_of hqueue]
    rfl

/-- A submission of which the kernel has taken nothing. -/
theorem State.Inv.untaken (h : s.Inv fd) (err : Option SubmitErr) : (s.untaken op specs s.seq err).Inv fd where
  seq := h.seq
  calls := by
    rw [State.untaken, List.flatMap_append, ← h.calls, List.flatMap_singleton, taken_none, List.append_nil]
  bounded := by
    intro c hc
    rcases List.mem_append.mp hc with hc | hc
    · exact h.bounded c hc
    · rw [List.mem_singleton.mp hc]
      exact ⟨Nat.zero_le _, fun _ => rfl⟩
  nodup := h.nodup
  shown := h.shown

/-- What a submission can do: the kernel takes some first blocks of it, or none. -/
def Submits (fd : UInt32) (s s' : State) (op : UInt16) (specs : List BatchSpec) : Prop :=
  (∃ n, 0 < n ∧ n ≤ specs.length ∧
    s' = s.taken op specs (s.seq + UInt64.ofNat n) (s.seq + 1) n (fillIocbs fd op s.seq specs)) ∨
  ∃ err, s' = s.untaken op specs s.seq err

theorem submits_submit {sp : BatchSpec} {k : Answer} (hs : s.submit fd op sp k = some s') :
    Submits fd s s' op [sp] := by
  unfold State.submit at hs
  simp only at hs
  split at hs
  · cases hs
    rw [UInt64.add_sub_cancel]
    exact Or.inr ⟨_, rfl⟩
  · split at hs
    · cases hs
      exact Or.inl ⟨1, Nat.one_pos, Nat.le_refl 1, rfl⟩
    · cases hs

theorem submits_submitBatch {k : Answer} (hs : s.submitBatch fd op specs k = some s') :
    Submits fd s s' op specs := by
  unfold State.submitBatch at hs
  simp only at hs
  split at hs
  · cases hs
    exact Or.inr ⟨_, rfl⟩
  split at hs
  · cases hs
    exact Or.inr ⟨_, rfl⟩
  · split at hs
    · rename_i hc
      cases hs
      rw [if_neg (Nat.not_lt.mpr hc.2.2)]
      exact Or.inl ⟨_, hc.2.1, hc.2.2, rfl⟩
    · cases hs

theorem State.Inv.submits (h : s.Inv fd) (hs : Submits fd s s' op specs) : s'.Inv fd := by
  rcases hs with ⟨n, hpos, hn, rfl⟩ | ⟨err, rfl⟩
  · exact h.taken hpos hn
  · exact h.untaken err

/-- A completion arrives: its block is still in flight. -/
theorem complete_pending {i : Nat} {res : Int64} (hs : s.complete i res = some s') :
    s'.accepted = s.accepted ∧ (s'.pending.map UInt64.toNat).Perm (s.pending.map UInt64.toNat) := by
  obtain ⟨cb, hcb, rfl⟩ := Option.map_eq_some_iff.mp hs
  obtain ⟨hi, rfl⟩ := List.getElem?_eq_some_iff.mp hcb
  refine ⟨rfl, List.Perm.map _ ?_⟩
  rw [State.pending, State.pending, List.map_append]
  have hqueued : (s.queued.map Iocb.data).Perm (s.queued[i].data :: (s.queued.eraseIdx i).map Iocb.data) :=
    ((List.getElem_cons_eraseIdx_perm hi).map Iocb.data).symm
  refine List.Perm.trans ?_ (hqueued.append_right _).symm
  rw [← List.append_assoc]
  exact List.perm_append_singleton _ _

theorem complete_queue {i : Nat} {res : Int64} (hs : s.complete i res = some s') : s'.queue = s.queue := by
  obtain ⟨hacc, hperm⟩ := complete_pending hs
  rw [State.queue, State.queue, hacc, List.toFinset_eq_of_perm _ _ hperm]

theorem State.Inv.complete {i : Nat} {res : Int64} (h : s.Inv fd) (hs : s.complete i res = some s') :
    s'.Inv fd := by
  have hqueue := complete_queue hs
  have hperm := (complete_pending hs).2
  obtain ⟨cb, -, rfl⟩ := Option.map_eq_some_iff.mp hs
  exact ⟨h.seq, h.calls, h.bounded, fun hfew => hperm.nodup_iff.mpr (h.nodup hfew),
    fun hfew => (h.shown hfew).trans (congrArg some hqueue.symm)⟩

/-- What `Wait` returns to its caller. -/
def State.fetched (s : State) : Except Errno Nat → List Event
  | .ok n => s.events.take n
  | .error _ => []

/-- What `Wait` can do: it fetches the first events. -/
theorem wait_cases {max : Nat} {got : Except Errno Nat} (hmax : max ≠ 0) (hs : s.wait max got = some s') :
    (s.fetched got).length ≤ max ∧ s'.accepted = s.accepted ∧
      (s.pending.map UInt64.toNat).Perm
        ((s.fetched got).map (fun ev => ev.data.toNat) ++ s'.pending.map UInt64.toNat) := by
  unfold State.wait at hs
  rw [if_neg hmax] at hs
  split at hs
  · cases hs
    exact ⟨Nat.zero_le _, rfl, .rfl⟩
  split at hs
  · rename_i n hn
    cases hs
    refine ⟨?_, rfl, ?_⟩
    · rw [State.fetched, List.length_take]
      omega
    · have hids : ((s.events.take n).map fun ev => ev.data.toNat) =
          ((s.events.take n).map Event.data).map UInt64.toNat := by
        rw [List.map_map]
        rfl
      have hsplit : s.events.map Event.data =
          (s.events.take n).map Event.data ++ (s.events.drop n).map Event.data := by
        rw [← List.map_append, List.take_append_drop]
      rw [State.fetched, hids, ← List.map_append, State.pending, State.pending, hsplit, ← List.append_assoc,
        ← List.append_assoc]
      exact (List.perm_append_comm.append_right _).map _
  · cases hs

/-- The queue delivers what is fetched. -/
theorem State.Inv.wait_queue {max : Nat} {got : Except Errno Nat} (h : s.Inv fd) (hmax : max ≠ 0)
    (hs : s.wait max got = some s') (hfew : s.accepted.length < 2 ^ 64) :
    s.queue.step (.deliver ((s.fetched got).map fun ev => ev.data.toNat)) = some s'.queue := by
  obtain ⟨-, hacc, hperm⟩ := wait_cases hmax hs
  obtain ⟨hids, -, hapart⟩ := List.nodup_append'.mp (hperm.nodup_iff.mp (h.nodup hfew))
  have hinflight : (s.pending.map UInt64.toNat).toFinset = _ := List.toFinset_eq_of_perm _ _ hperm
  rw [List.toFinset_append] at hinflight
  refine Queue.step_deliver.mpr ⟨⟨hids, ?_⟩, ?_⟩
  · rw [State.queue, hinflight]
    exact Finset.subset_union_left
  · have hrest := Finset.disjoint_left.mpr fun x hx hx' =>
      hapart (List.mem_toFinset.mp hx) (List.mem_toFinset.mp hx')
    rw [State.queue, State.queue, hinflight, hacc, Finset.union_sdiff_cancel_left hrest]

/-- **Events are fetched.** -/
theorem State.Inv.wait {max : Nat} {got : Except Errno Nat} (h : s.Inv fd) (hs : s.wait max got = some s') :
    s'.Inv fd := by
  by_cases hmax : max = 0
  · subst hmax
    cases hs
    exact h
  obtain ⟨-, -, hperm⟩ := wait_cases hmax hs
  have hnodup : s.accepted.length < 2 ^ 64 → (s'.pending.map UInt64.toNat).Nodup :=
    fun hfew => (List.nodup_append'.mp (hperm.nodup_iff.mp (h.nodup hfew))).2.1
  have hqueue := fun hfew => h.wait_queue hmax hs hfew
  unfold State.wait at hs
  rw [if_neg hmax] at hs
  split at hs
  · cases hs
    exact h
  split at hs
  · cases hs
    refine ⟨h.seq, h.calls, h.bounded, hnodup, fun hfew => ?_⟩
    rw [run_append, h.shown hfew, Option.bind_some]
    exact run_cons_of (hqueue hfew) []
  · cases hs

theorem inv_step {a : Act} (h : s.Inv fd) (hs : step fd s a = some s') : s'.Inv fd := by
  cases a with
  | submit op sp k => exact h.submits (submits_submit hs)
  | submitBatch op specs k => exact h.submits (submits_submitBatch hs)
  | complete i res => exact h.complete hs
  | wait max got => exact h.wait hs
  | close =>
    cases hs
    exact ⟨h.seq, h.calls, h.bounded, h.nodup, h.shown⟩

theorem inv_init : State.init.Inv fd where
  seq := rfl
  calls := rfl
  bounded _ hc := absurd hc List.not_mem_nil
  nodup _ := List.nodup_nil
  shown _ := rfl

theorem inv_run {as : List Act} (hrun : run (step fd) State.init as = some s) : s.Inv fd :=
  run_invariant (fun _ _ _ h _ hs => inv_step h hs) inv_init
    (along_of_forall_mem (fun _ _ => True.intro) _) hrun

/-- **The account of a ring.**  Its blocks are those of its calls, each with the consecutive numbers from
`first` on; a call that fails has none; and each block is delivered once or in flight. -/
structure Accounted (fd : UInt32) (s : State) : Prop where
  calls : s.accepted = s.calls.flatMap (Call.taken fd)
  bounded : ∀ c ∈ s.calls, c.submitted ≤ c.specs.length ∧ (c.err ≠ none → c.submitted = 0)
  shown : run Queue.step Queue.init s.seen = some s.queue
  once : DeliveredOnce s.seen s.queue

/-- **libaio is a queue of completions.**  In every run in which fewer than `2 ^ 64` blocks are accepted,
whatever the kernel takes, completes and returns. -/
theorem libaio_accounted (fd : UInt32) (as : List Act) (s : State)
    (hrun : run (step fd) State.init as = some s) (hfew : s.accepted.length < 2 ^ 64) : Accounted fd s := by
  have h := inv_run hrun
  exact ⟨h.calls, h.bounded, h.shown hfew, deliveredOnce_of_run (h.shown hfew)⟩

/-- Three blocks, of which the kernel takes two; the second is completed first, and the third submitted
again when one event has been fetched. -/
def partly : List Act :=
  [.submitBatch opcodePwrite [⟨4096, 512, 0⟩, ⟨8192, 512, 512⟩, ⟨12288, 512, 1024⟩] (.count 2),
    .submit opcodePwrite ⟨12288, 512, 1024⟩ (.errno .eagain), .complete 1 512, .wait 64 (.ok 1),
    .submit opcodePwrite ⟨12288, 512, 1024⟩ (.count 1)]

theorem libaio_accounted_partly : ∃ s : State, run (step 5) State.init partly = some s ∧
    s.seen = [.accept 1 2, .deliver [2], .accept 3 1] ∧ Accounted 5 s := by
  obtain ⟨s, hs, hview⟩ := Option.map_eq_some_iff.mp
    (show (run (step 5) State.init partly).map (fun s => (s.accepted.length, s.seen)) =
      some (3, [.accept 1 2, .deliver [2], .accept 3 1]) by decide +kernel)
  obtain ⟨hlen, hseen⟩ := Prod.mk.inj hview
  exact ⟨s, hs, hseen, libaio_accounted 5 partly s hs (hlen ▸ by decide)⟩

end Taihu.LibAIO

namespace Taihu.CompletionPump

open Transition Completion

/-! ## 4. The ring of the pump's model -/

/-- The ring of a device as a queue of completions. -/
def Device.queue (d : Device) : Queue := ⟨(d.accepted.map Prod.fst).toFinset, d.inflight.toFinset⟩

/-- What the ring shows in a step of the device. -/
def Action.shows : Action → List Label
  | .answer _ (.accept first n) => [.accept first n]
  | .wait evs => [.deliver (evs.map Event.data)]
  | _ => []

variable {d d' : Device} {i : Nat} {c c' : Caller}

theorem queue_eq (ha : d'.accepted = d.accepted) (hi : d'.inflight = d.inflight) : d'.queue = d.queue := by
  rw [Device.queue, Device.queue, ha, hi]

/-- A step of a caller leaves the ring alone. -/
theorem go_queue (hgo : d.go c = some (d', c')) : d'.queue = d.queue := by
  by_cases hphase : ∃ p, c.phase = .ready p
  · obtain ⟨phase, got⟩ := c
    obtain ⟨p, rfl⟩ := hphase
    unfold Device.go at hgo
    cases p with
    | done => cases hgo
    | one k =>
      simp only at hgo
      split at hgo
      · cases hgo
        rfl
      · cases hgo
        rfl
    | batch len retry k =>
      simp only at hgo
      split at hgo
      · cases hgo
        rfl
      · cases hgo
        rfl
  · obtain ⟨-, hi, -, ha, -⟩ := go_work hgo fun p hp => hphase ⟨p, hp⟩
    exact queue_eq ha hi

theorem giveUp_queue (h : d.giveUp c = some (d', c')) : d'.queue = d.queue := by
  unfold Device.giveUp at h
  split at h
  · split at h
    · cases h
      rfl
    · cases h
  · cases h

theorem pumpStep_queue (h : d.pumpStep = some d') : d'.queue = d.queue := by
  unfold Device.pumpStep at h
  split at h
  · cases h
  · split at h
    · cases h
      rfl
    · cases h
      rfl
  · split at h
    · cases h
      rfl
    · cases h
      rfl
  · cases h
    rfl
  · cases h

theorem accepted_queue (i first n : Nat) :
    Device.queue { d with
      accepted := d.accepted ++ (List.range' first n).map fun s => (s, i)
      inflight := d.inflight ++ List.range' first n } =
      ⟨d.queue.used ∪ Finset.Ico first (first + n), d.queue.inflight ∪ Finset.Ico first (first + n)⟩ := by
  have hfst : ((List.range' first n).map fun s => (s, i)).map Prod.fst = List.range' first n := by
    rw [List.map_map]
    exact List.map_id _
  rw [Device.queue, Device.queue, List.map_append, hfst, List.toFinset_append, List.toFinset_append,
    LibAIO.toFinset_range' first n]

/-- **The numbers that the ring of a device may accept** are those that a queue may. -/
theorem accept_iff {first n : Nat} {q : Queue} : d.queue.step (.accept first n) = some q ↔
    ∃ d', d.accept i first n = some d' ∧ d'.queue = q := by
  have hfree : Disjoint d.queue.used (Finset.Ico first (first + n)) ↔
      ∀ s ∈ List.range' first n, s ∉ d.accepted.map Prod.fst := by
    rw [Finset.disjoint_right]
    refine forall_congr' fun s => ?_
    rw [Finset.mem_Ico, List.mem_range'_1, Device.queue, List.mem_toFinset]
  rw [Queue.step_accept, hfree, Device.accept]
  constructor
  · rintro ⟨h, rfl⟩
    exact ⟨_, if_pos h, accepted_queue i first n⟩
  · rintro ⟨d', hd', rfl⟩
    split at hd'
    · rename_i h
      cases hd'
      exact ⟨h, accepted_queue i first n⟩
    · cases hd'

/-- The events that `ring.Wait` may return are those that a queue may deliver. -/
theorem wait_iff {evs : List Event} {q : Queue} (hidle : d.pump = .idle) (hlen : evs.length ≤ 64) :
    d.queue.step (.deliver (evs.map Event.data)) = some q ↔ ∃ d', d.wait evs = some d' ∧ d'.queue = q := by
  have hin : (evs.map Event.data).toFinset ⊆ d.queue.inflight ↔ ∀ ev ∈ evs, ev.data ∈ d.inflight := by
    rw [Finset.subset_iff]
    simp [Device.queue]
  have hqueue : (d.inflight.filter (fun s => s ∉ evs.map Event.data)).toFinset =
      d.inflight.toFinset \ (evs.map Event.data).toFinset := by
    ext x
    simp
  rw [Queue.step_deliver, hin, Device.wait]
  constructor
  · rintro ⟨⟨hnodup, h⟩, rfl⟩
    refine ⟨_, if_pos ⟨hidle, hlen, hnodup, h⟩, ?_⟩
    rw [Device.queue, hqueue]
    rfl
  · rintro ⟨d', hd', rfl⟩
    split at hd'
    · rename_i h
      cases hd'
      refine ⟨⟨h.2.2.1, h.2.2.2⟩, ?_⟩
      rw [Device.queue, hqueue]
      rfl
    · cases hd'

theorem atCaller_eq_some {f : Caller → Option (Device × Caller)} (h : d.atCaller i f = some d') :
    ∃ c d₁ c', d.callers[i]? = some c ∧ f c = some (d₁, c') ∧ d'.queue = d₁.queue := by
  obtain ⟨⟨d₁, c'⟩, hf, rfl⟩ := Option.map_eq_some_iff.mp h
  obtain ⟨c, hc, hf⟩ := Option.bind_eq_some_iff.mp hf
  exact ⟨c, d₁, c', hc, hf, rfl⟩

theorem answer_shows {r : Answer} (h : d.answer i c r = some (d', c')) :
    run Queue.step d.queue (Action.answer i r).shows = some d'.queue := by
  have haccept : ∀ {first n : Nat} {d₁ : Device}, d.accept i first n = some d₁ →
      run Queue.step d.queue [.accept first n] = some d₁.queue :=
    fun ha => run_cons_of (accept_iff.mpr ⟨_, ha, rfl⟩) []
  unfold Device.answer at h
  split at h
  · split at h
    · rename_i hn
      subst hn
      obtain ⟨d₁, hd₁, he⟩ := Option.map_eq_some_iff.mp h
      cases he
      exact haccept hd₁
    · cases h
  · cases h
    rfl
  · split at h
    · obtain ⟨d₁, hd₁, he⟩ := Option.map_eq_some_iff.mp h
      cases he
      exact haccept hd₁
    · cases h
  · cases h
    rfl
  · cases h

/-- **The pump's ring is a queue of completions.** -/
theorem device_shows {a : Action} (h : d.step a = some d') :
    run Queue.step d.queue a.shows = some d'.queue := by
  cases a with
  | go i =>
    obtain ⟨c, d₁, c', -, hgo, hq⟩ := atCaller_eq_some h
    rw [hq, go_queue hgo]
    rfl
  | answer i r =>
    obtain ⟨c, d₁, c', -, ha, hq⟩ := atCaller_eq_some h
    rw [hq]
    exact answer_shows ha
  | giveUp i =>
    obtain ⟨c, d₁, c', -, hg, hq⟩ := atCaller_eq_some h
    rw [hq, giveUp_queue hg]
    rfl
  | wait evs =>
    have hw : d.wait evs = some d' := h
    have hguard := hw
    unfold Device.wait at hguard
    split at hguard
    · rename_i hg
      exact run_cons_of ((wait_iff hg.1 hg.2.1).mpr ⟨d', hw, rfl⟩) []
    · cases hguard
  | pump =>
    rw [pumpStep_queue h]
    rfl
  | close =>
    have h : (if d.closed then none else some { d with closed := true }) = some d' := h
    split at h
    · cases h
    · cases h
      rfl
  | destroy =>
    have h : (if d.closed ∧ d.pump = .exited ∧ d.destroyed = false then some { d with destroyed := true }
      else none) = some d' := h
    split at h
    · cases h
      rfl
    · cases h

end Taihu.CompletionPump

namespace Taihu.LibAIO

open Transition Completion

/-! ## 5. The pump over libaio -/

/-- What a submission has told its caller. -/
def Call.said (c : Call) : CompletionPump.Answer :=
  if 0 < c.submitted then .accept c.first.toNat c.submitted else .refuse (c.err = some .full)

/-- What `Wait` returns to the pump. -/
def State.given (s : State) (got : Except Errno Nat) : List CompletionPump.Event :=
  (s.fetched got).map fun ev => ⟨ev.data.toNat, ev.res.toInt⟩

/-- A device with libaio for its ring. -/
structure Pumped where
  dev : CompletionPump.Device
  ring : State

/-- What the caller asks of the ring: one block, or a batch of so many as it has. -/
def submission (fd : UInt32) (s : State) (c : CompletionPump.Caller) (op : UInt16) (specs : List BatchSpec)
    (k : Answer) : Option State :=
  match c.phase, specs with
  | .one _ .submitting, [sp] => s.submit fd op sp k
  | .batch len _ _ .submitting, specs => if specs.length = len then s.submitBatch fd op specs k else none
  | _, _ => none

inductive PumpedAct where
  /-- a step of the device in which it does not turn to its ring. -/
  | device (a : CompletionPump.Action)
  | submit (i : Nat) (op : UInt16) (specs : List BatchSpec) (k : Answer)
  | complete (i : Nat) (res : Int64)
  | wait (got : Except Errno Nat)

/-- The device keeps to itself. -/
def Alone : CompletionPump.Action → Prop
  | .answer _ _ => False
  | .wait _ => False
  | _ => True

instance : ∀ a, Decidable (Alone a)
  | .answer _ _ => .isFalse id
  | .wait _ => .isFalse id
  | .go _ | .giveUp _ | .pump | .close | .destroy => .isTrue True.intro

def Pumped.step (fd : UInt32) (x : Pumped) : PumpedAct → Option Pumped
  | .device a =>
    if Alone a then (x.dev.step a).map fun d => ⟨d, if a = .destroy then x.ring.close else x.ring⟩
    else none
  | .submit i op specs k =>
    ((x.dev.callers[i]?).bind fun c => submission fd x.ring c op specs k).bind fun s =>
      (s.calls.getLast?).bind fun call => (x.dev.step (.answer i call.said)).map fun d => ⟨d, s⟩
  | .complete i res => (x.ring.complete i res).map fun s => ⟨x.dev, s⟩
  | .wait got =>
    (x.ring.wait 64 got).bind fun s => (x.dev.step (.wait (x.ring.given got))).map fun d => ⟨d, s⟩

/-- The device and libaio before the first step. -/
def Pumped.start (calls : List CompletionPump.Call) : Pumped := ⟨.start calls, .init⟩

variable {fd : UInt32} {s s' : State} {op : UInt16} {specs : List BatchSpec} {x x' : Pumped}

theorem submits_of_submission {c : CompletionPump.Caller} {k : Answer}
    (hs : submission fd s c op specs k = some s') : Submits fd s s' op specs := by
  unfold submission at hs
  split at hs
  · exact submits_submit hs
  · split at hs
    · exact submits_submitBatch hs
    · cases hs
  · cases hs

theorem Submits.grows (h : Submits fd s s' op specs) : s.accepted.length ≤ s'.accepted.length := by
  rcases h with ⟨n, -, hn, rfl⟩ | ⟨err, rfl⟩
  · rw [accepted_taken hn]
    exact Nat.le_add_right _ _
  · exact Nat.le_refl _

/-- The device and libaio have the same IOs in flight. -/
def Pumped.Coupled (x : Pumped) : Prop := x.dev.queue = x.ring.queue

/-- The phase of a caller that has a submission for the ring. -/
def Submitting (c : CompletionPump.Caller) (specs : List BatchSpec) : Prop :=
  (∃ k, c.phase = .one k .submitting ∧ specs.length = 1) ∨
    ∃ retry k, c.phase = .batch specs.length retry k .submitting

theorem submitting_of_submission {c : CompletionPump.Caller} {k : Answer}
    (hs : submission fd s c op specs k = some s') : Submitting c specs := by
  unfold submission at hs
  split at hs
  · rename_i k' sp hp
    exact Or.inl ⟨k', hp, rfl⟩
  · rename_i len retry k' hp
    split at hs
    · rename_i hlen
      exact Or.inr ⟨retry, k', hlen ▸ hp⟩
    · cases hs
  · cases hs

theorem answer_accept {d d₁ : CompletionPump.Device} {c : CompletionPump.Caller} {i first n : Nat}
    (hc : Submitting c specs) (hpos : 0 < n) (hn : n ≤ specs.length) (hd₁ : d.accept i first n = some d₁) :
    ∃ c', d.answer i c (.accept first n) = some (d₁, c') := by
  unfold CompletionPump.Device.answer
  rcases hc with ⟨k', hp, hone⟩ | ⟨retry, k', hp⟩
  · obtain rfl : n = 1 := by omega
    rw [hp]
    simp [hd₁]
  · rw [hp]
    simp [hd₁, hpos, hn]

theorem answer_refuse {d : CompletionPump.Device} {c : CompletionPump.Caller} (i : Nat) (full : Bool)
    (hc : Submitting c specs) : ∃ c', d.answer i c (.refuse full) = some (d, c') := by
  unfold CompletionPump.Device.answer
  rcases hc with ⟨k', hp, -⟩ | ⟨retry, k', hp⟩
  · rw [hp]
    exact ⟨_, rfl⟩
  · rw [hp]
    exact ⟨_, rfl⟩

/-- **The device takes what libaio answers.** -/
theorem answer_taken {d : CompletionPump.Device} {c : CompletionPump.Caller} {i : Nat} {k : Answer}
    (h : s.Inv fd) (hd : d.queue = s.queue) (hc : d.callers[i]? = some c)
    (hs : submission fd s c op specs k = some s') (hfew : s'.accepted.length < 2 ^ 64) :
    ∃ call d', s'.calls.getLast? = some call ∧ d.step (.answer i call.said) = some d' ∧
      d'.queue = s'.queue := by
  have hphase := submitting_of_submission hs
  have hstep : ∀ {r : CompletionPump.Answer} {d₁ : CompletionPump.Device} {c' : CompletionPump.Caller},
      d.answer i c r = some (d₁, c') → ∃ d', d.step (.answer i r) = some d' ∧ d'.queue = d₁.queue := by
    intro r d₁ c' ha
    refine ⟨{ d₁ with callers := d₁.callers.set i c' }, ?_, rfl⟩
    rw [CompletionPump.Device.step, CompletionPump.Device.atCaller, hc, Option.bind_some, ha]
    rfl
  rcases submits_of_submission hs with ⟨n, hpos, hn, rfl⟩ | ⟨err, rfl⟩
  · rw [accepted_taken hn] at hfew
    have hqueue := h.taken_queue hpos hn op (s.seq + UInt64.ofNat n) hfew
    rw [← hd] at hqueue
    obtain ⟨d₁, hd₁, hq⟩ := (CompletionPump.accept_iff (i := i)).mp hqueue
    have hsaid : Call.said ⟨op, specs, s.seq + 1, n, none⟩ = .accept (s.seq + 1).toNat n := if_pos hpos
    obtain ⟨c', hans⟩ := answer_accept hphase hpos hn hd₁
    obtain ⟨d', hd', hq'⟩ := hstep hans
    exact ⟨_, d', List.getLast?_concat, hsaid ▸ hd', hq'.trans hq⟩
  · obtain ⟨c', hans⟩ := answer_refuse (d := d) i (err = some .full) hphase
    obtain ⟨d', hd', hq'⟩ := hstep hans
    exact ⟨_, d', List.getLast?_concat, hd', hq'.trans hd⟩

/-- **The pump takes what libaio has completed.** -/
theorem wait_taken {d : CompletionPump.Device} {got : Except Errno Nat} (h : s.Inv fd) (hd : d.queue = s.queue)
    (hidle : d.pump = .idle) (hs : s.wait 64 got = some s') (hfew : s.accepted.length < 2 ^ 64) :
    ∃ d', d.step (.wait (s.given got)) = some d' ∧ d'.queue = s'.queue := by
  have hqueue := h.wait_queue (by decide) hs hfew
  have hids : (s.given got).map CompletionPump.Event.data = (s.fetched got).map fun ev => ev.data.toNat := by
    rw [State.given, List.map_map]
    rfl
  have hlen : (s.given got).length ≤ 64 := by
    rw [State.given, List.length_map]
    exact (wait_cases (by decide) hs).1
  rw [← hids, ← hd] at hqueue
  exact (CompletionPump.wait_iff hidle hlen).mp hqueue

/-- What holds of the pair in a run. -/
structure Pumped.Kept (fd : UInt32) (calls : List CompletionPump.Call) (x : Pumped) : Prop where
  inv : x.ring.Inv fd
  coupled : x.ring.accepted.length < 2 ^ 64 → x.Coupled
  pump : ∃ bs, run CompletionPump.Device.step (.start calls) bs = some x.dev

theorem run_snoc {d d' : CompletionPump.Device} {calls : List CompletionPump.Call} {b : CompletionPump.Action}
    (h : ∃ bs, run CompletionPump.Device.step (.start calls) bs = some d) (hs : d.step b = some d') :
    ∃ bs, run CompletionPump.Device.step (.start calls) bs = some d' := by
  obtain ⟨bs, hbs⟩ := h
  refine ⟨bs ++ [b], ?_⟩
  rw [run_append, hbs, Option.bind_some, run_cons_of hs]
  rfl

theorem queue_alone {d d' : CompletionPump.Device} {a : CompletionPump.Action} (ha : Alone a)
    (hs : d.step a = some d') : d'.queue = d.queue := by
  have hshows := CompletionPump.device_shows hs
  cases a with
  | answer i r => exact absurd ha id
  | wait evs => exact absurd ha id
  | _ => exact (Option.some.inj hshows).symm

theorem Pumped.Kept.step {calls : List CompletionPump.Call} {a : PumpedAct} (h : x.Kept fd calls)
    (hs : x.step fd a = some x') : x'.Kept fd calls := by
  cases a with
  | device a =>
    unfold Pumped.step at hs
    simp only at hs
    split at hs
    · rename_i ha
      obtain ⟨d, hd, rfl⟩ := Option.map_eq_some_iff.mp hs
      have hqueue := queue_alone ha hd
      by_cases hdestroy : a = .destroy
      · rw [if_pos hdestroy]
        exact ⟨⟨h.inv.seq, h.inv.calls, h.inv.bounded, h.inv.nodup, h.inv.shown⟩,
          fun hfew => hqueue.trans (h.coupled hfew), run_snoc h.pump hd⟩
      · rw [if_neg hdestroy]
        exact ⟨h.inv, fun hfew => hqueue.trans (h.coupled hfew), run_snoc h.pump hd⟩
    · cases hs
  | submit i op specs k =>
    obtain ⟨s, hsub, hs⟩ := Option.bind_eq_some_iff.mp hs
    obtain ⟨call, hcall, hs⟩ := Option.bind_eq_some_iff.mp hs
    obtain ⟨d, hd, rfl⟩ := Option.map_eq_some_iff.mp hs
    obtain ⟨c, hc, hsub⟩ := Option.bind_eq_some_iff.mp hsub
    have hsubmits := submits_of_submission hsub
    refine ⟨h.inv.submits hsubmits, fun hfew => ?_, run_snoc h.pump hd⟩
    have hold : x.ring.accepted.length < 2 ^ 64 := Nat.lt_of_le_of_lt hsubmits.grows hfew
    obtain ⟨call', d', hcall', hd', hq⟩ := answer_taken h.inv (h.coupled hold) hc hsub hfew
    obtain rfl := Option.some.inj (hcall.symm.trans hcall')
    obtain rfl := Option.some.inj (hd.symm.trans hd')
    exact hq
  | complete i res =>
    obtain ⟨s, hc, rfl⟩ := Option.map_eq_some_iff.mp hs
    refine ⟨h.inv.complete hc, fun hfew => ?_, h.pump⟩
    have hacc : s.accepted = x.ring.accepted := (complete_pending hc).1
    exact (h.coupled (hacc ▸ hfew)).trans (complete_queue hc).symm
  | wait got =>
    obtain ⟨s, hw, hs⟩ := Option.bind_eq_some_iff.mp hs
    obtain ⟨d, hd, rfl⟩ := Option.map_eq_some_iff.mp hs
    refine ⟨h.inv.wait hw, fun hfew => ?_, run_snoc h.pump hd⟩
    have hacc : s.accepted = x.ring.accepted := (wait_cases (by decide) hw).2.1
    have hold : x.ring.accepted.length < 2 ^ 64 := hacc ▸ hfew
    have hidle : x.dev.pump = .idle := by
      have hguard : x.dev.wait (x.ring.given got) = some d := hd
      unfold CompletionPump.Device.wait at hguard
      split at hguard
      · rename_i hg
        exact hg.1
      · cases hguard
    obtain ⟨d', hd', hq⟩ := wait_taken h.inv (h.coupled hold) hidle hw hold
    obtain rfl := Option.some.inj (hd.symm.trans hd')
    exact hq

theorem coupled_start (calls : List CompletionPump.Call) : (Pumped.start calls).Coupled := by
  simp [Pumped.Coupled, Pumped.start, CompletionPump.Device.queue, CompletionPump.Device.start, State.queue,
    State.pending, State.init]

theorem pumped_of_run {calls : List CompletionPump.Call} {as : List PumpedAct}
    (hrun : run (Pumped.step fd) (Pumped.start calls) as = some x) : x.Kept fd calls := by
  have halong : Along (Pumped.step fd) (fun _ _ => True) (Pumped.start calls) as :=
    along_of_forall_mem (fun _ _ => True.intro) _
  exact run_invariant (fun _ _ _ h _ hs => h.step hs) ⟨inv_init, fun _ => coupled_start calls, [], rfl⟩ halong hrun

/-- **The pump over libaio.**  In every run of a device with libaio for its ring, as long as fewer than
`2 ^ 64` blocks have been accepted: the device is in a state of the pump's model; it has the same IOs in
flight as libaio; and it takes every answer of libaio to a submission of its callers, and whatever
`Wait` returns to the pump. -/
theorem pump_over_libaio (fd : UInt32) (calls : List CompletionPump.Call) (as : List PumpedAct) (x : Pumped)
    (hrun : run (Pumped.step fd) (Pumped.start calls) as = some x) (hfew : x.ring.accepted.length < 2 ^ 64) :
    (∃ bs, run CompletionPump.Device.step (.start calls) bs = some x.dev) ∧ x.Coupled ∧
      (∀ i c op specs k s', x.dev.callers[i]? = some c → submission fd x.ring c op specs k = some s' →
        s'.accepted.length < 2 ^ 64 → (x.step fd (.submit i op specs k)).isSome) ∧
      ∀ got s', x.dev.pump = .idle → x.ring.wait 64 got = some s' → (x.step fd (.wait got)).isSome := by
  have h := pumped_of_run hrun
  refine ⟨h.pump, h.coupled hfew, fun i c op specs k s' hc hs hfew' => ?_, fun got s' hidle hs => ?_⟩
  · obtain ⟨call, d', hcall, hd', -⟩ := answer_taken h.inv (h.coupled hfew) hc hs hfew'
    simp [Pumped.step, hc, hs, hcall, hd']
  · obtain ⟨d', hd', -⟩ := wait_taken h.inv (h.coupled hfew) hidle hs hfew
    simp [Pumped.step, hs, hd']

/-- A read is submitted, completed, and handed to its caller. -/
def readOnce : List PumpedAct :=
  [.device (.go 0), .submit 0 opcodePread [⟨4096, 512, 0⟩] (.count 1), .complete 0 512, .device (.go 0),
    .wait (.ok 1), .device .pump, .device .pump]

theorem pump_over_libaio_readOnce : ∃ x : Pumped,
    run (Pumped.step 5) (Pumped.start [.submitOp]) readOnce = some x ∧
      x.dev.completed = [⟨1, 512⟩] ∧ x.dev.queue = x.ring.queue := by
  obtain ⟨x, hx, hview⟩ := Option.map_eq_some_iff.mp
    (show (run (Pumped.step 5) (Pumped.start [.submitOp]) readOnce).map
      (fun x => (x.ring.accepted.length, x.dev.completed)) = some (1, [⟨1, 512⟩]) by decide +kernel)
  obtain ⟨hlen, hcompleted⟩ := Prod.mk.inj hview
  have hfew : x.ring.accepted.length < 2 ^ 64 := hlen ▸ by decide
  exact ⟨x, hx, hcompleted, (pump_over_libaio 5 [.submitOp] readOnce x hx hfew).2.1⟩

end Taihu.LibAIO
