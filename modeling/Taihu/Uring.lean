/-
# Submitting to io_uring

`submit`, `sqFree`, `rewind`, `consumedSince` and `reap` of `internal/aio/ring_uring_linux.go`.

`submit` fills slots of the submission ring, publishes them by moving the tail, enters the
kernel, and takes the tail back to behind the last entry that the kernel has consumed.  It runs
under a mutex; `reap` runs beside it without one, in the goroutine that waits for completions.
The kernel owns the head of the submission ring: it consumes entries in ring order, only when it
is entered, at most as many as it is told to; when it returns `EAGAIN`, `EBUSY` or `ENOMEM` it has
consumed none, when it succeeds it returns how many, and otherwise any number.  For each entry it
has consumed it posts one completion, at any time.

The head and the tail wrap at `2 ^ 32`, the numbers of the requests at `2 ^ 64`.  What the module
keeps besides the state of the code is the list of all entries that the kernel has consumed, each
with the call that it comes from, and the calls that have returned.
-/
import Taihu.Lib.Wrap
import Taihu.Lib.Framing
import Taihu.Lib.Transition

namespace Taihu.Uring

open Wrap Framing

/-! ## 1. The ring -/

/-- What does not change: `2 ^ order` is `sqEntries`, which the kernel has rounded up from
`depth`. -/
structure Setup where
  depth : Nat
  order : Nat
  devFD : Int32
  order_lt : order < 32
  depth_le : depth ≤ 2 ^ order

/-- `ReadSpec`: the address and the length of the buffer, and the offset on the device. -/
structure ReadSpec where
  buf : UInt64
  len : Nat
  off : Int64
  deriving DecidableEq, Repr

/-- `ioUringSQE`, less the fields that stay zero. -/
structure SQE where
  opcode : UInt8
  fd : Int32
  off : UInt64
  addr : UInt64
  len : UInt32
  userData : UInt64
  deriving DecidableEq, Repr

/-- What io_uring_enter and `submit` return when they fail. -/
inductive Errno where
  | eagain
  | ebusy
  | enomem
  | ebadf
  | eintr
  | other (n : Nat)
  deriving DecidableEq, Repr

/-- The error of a call: `ErrFull` or an errno. -/
inductive SubmitErr where
  | full
  | errno (e : Errno)
  deriving DecidableEq, Repr

/-- What a call of `submit` is for. -/
structure Request where
  op : UInt8
  specs : List ReadSpec
  deriving DecidableEq, Repr

/-- A call that has returned: `first` and `accepted` are its results. -/
structure Call where
  req : Request
  first : UInt64
  accepted : Nat
  err : Option SubmitErr
  deriving DecidableEq, Repr

/-- How far the call that holds the mutex is. -/
inductive Phase where
  /-- no call holds the mutex. -/
  | idle
  /-- it has found room for `n` entries. -/
  | room (req : Request) (n : Nat)
  /-- they are published. -/
  | published (req : Request) (n : Nat) (base : UInt64) (tail0 : UInt32)
  /-- the kernel has returned `ret` and `errno`. -/
  | entered (req : Request) (n : Nat) (base : UInt64) (tail0 : UInt32) (ret : Nat)
    (errno : Option Errno)
  deriving DecidableEq, Repr

/-- `reap` in its loop: `head`, `tail`, `len(out)` and `max`. -/
structure Reap where
  head : UInt32
  tail : UInt32
  len : Nat
  max : Nat
  deriving DecidableEq, Repr

structure State where
  /-- the entries of the ring, each with the number of the call it is of. -/
  sqes : Nat → Nat × SQE
  sqHead : UInt32
  sqTail : UInt32
  sqeTail : UInt32
  cqHead : UInt32
  cqTail : UInt32
  inflight : UInt32
  seq : UInt64
  closed : Bool
  phase : Phase
  reap : Option Reap
  /-- what the kernel has consumed, how much of it is complete, and how much of that is reaped. -/
  consumed : List (Nat × SQE)
  posted : Nat
  reaped : Nat
  calls : List Call

namespace State

/-- A new ring. -/
def init : State where
  sqes := fun _ => (0, ⟨0, 0, 0, 0, 0, 0⟩)
  sqHead := 0
  sqTail := 0
  sqeTail := 0
  cqHead := 0
  cqTail := 0
  inflight := 0
  seq := 0
  closed := false
  phase := .idle
  reap := none
  consumed := []
  posted := 0
  reaped := 0
  calls := []

variable (p : Setup) (s : State)

/-- `sqFree`. -/
def sqFree : Int := ((UInt32.ofNat (2 ^ p.order) - (s.sqeTail - s.sqHead)).toNat : Int)

/-- `rewind`. -/
def rewind (tail : UInt32) : State := { s with sqeTail := tail, sqTail := tail }

/-- `consumedSince`. -/
def consumedSince (tail0 : UInt32) : Nat := (s.sqHead - tail0).toNat

/-- The call that holds the mutex returns. -/
def ret (req : Request) (first : UInt64) (accepted : Nat) (err : Option SubmitErr) : State :=
  { s with calls := s.calls ++ [⟨req, first, accepted, err⟩], phase := .idle }

/-! ## 2. The steps -/

/-- `submit` up to the number of entries it will fill.  Without specs it returns at once, without
the mutex. -/
def submit (req : Request) : Option State :=
  if req.specs = [] then some s
  else if s.phase ≠ .idle then none
  else if s.closed then some (s.ret req 0 0 (some (.errno .ebadf)))
  else
    let free := s.sqFree p
    let lim := (p.depth : Int) - (s.inflight.toNat : Int)
    let free := if lim < free then lim else free
    if free ≤ 0 then some (s.ret req 0 0 (some .full))
    else
      let n := req.specs.length
      let n := if (n : Int) > free then free.toNat else n
      some { s with phase := .room req n }

/-- The entry for a spec. -/
def sqe (op : UInt8) (sp : ReadSpec) (userData : UInt64) : SQE :=
  ⟨op, p.devFD, sp.off.toUInt64, if 0 < sp.len then sp.buf else 0, UInt32.ofNat sp.len, userData⟩

/-- The entries for specs, the `i`-th with the number `base + i + 1`. -/
def entries (op : UInt8) (base : UInt64) (specs : List ReadSpec) : List SQE :=
  specs.zipIdx.map (fun x => sqe p op x.1 (base + UInt64.ofNat x.2 + 1))

/-- The loop of `submit`, and the stores of the tail. -/
def fill : Option State :=
  match s.phase with
  | .room req n =>
    let sqes := writeFrom p.order s.sqeTail
      (tag s.calls.length (entries p req.op s.seq (req.specs.take n))) s.sqes
    let tail := s.sqeTail + UInt32.ofNat n
    some { s with
      sqes := sqes
      sqTail := tail
      sqeTail := tail
      phase := .published req n s.seq s.sqeTail }
  | _ => none

/-- io_uring_enter: the kernel consumes `k` of the published entries, and returns. -/
def enter (k : Nat) (errno : Option Errno) : Option State :=
  match s.phase with
  | .published req n base tail0 =>
    if k ≤ n ∧ k ≤ (s.sqTail - s.sqHead).toNat ∧
        (errno = some .eagain ∨ errno = some .ebusy ∨ errno = some .enomem → k = 0) then
      some { s with
        sqHead := s.sqHead + UInt32.ofNat k
        consumed := s.consumed ++ readFrom p.order s.sqes s.sqHead k
        phase := .entered req n base tail0 (if errno = none then k else 0) errno }
    else none
  | _ => none

/-- The rest of `submit`, where `consumed` entries have been consumed. -/
def settleWith (req : Request) (n : Nat) (base : UInt64) (tail0 : UInt32) (consumed : Nat) : State :=
  let consumed := if consumed > n then n else consumed
  let s := s.rewind (tail0 + UInt32.ofNat consumed)
  ({ s with
    inflight := s.inflight + UInt32.ofNat consumed
    seq := base + UInt64.ofNat consumed }).ret req (base + 1) consumed none

/-- `submit` behind io_uring_enter. -/
def settle : Option State :=
  match s.phase with
  | .entered req n base tail0 ret errno =>
    match errno with
    | none => some (s.settleWith req n base tail0 ret)
    | some .eagain => some ((s.rewind tail0).ret req 0 0 (some .full))
    | some .ebusy => some ((s.rewind tail0).ret req 0 0 (some .full))
    | some .enomem => some ((s.rewind tail0).ret req 0 0 (some .full))
    | some e =>
      let consumed := s.consumedSince tail0
      if consumed = 0 then some ((s.rewind tail0).ret req 0 0 (some (.errno e)))
      else some (s.settleWith req n base tail0 consumed)
  | _ => none

/-- `Close`, as far as `submit` is concerned. -/
def close : Option State := if s.phase = .idle then some { s with closed := true } else none

/-- The kernel posts the completion of an entry. -/
def post : Option State :=
  if s.posted < s.consumed.length then
    some { s with posted := s.posted + 1, cqTail := s.cqTail + 1 }
  else none

/-- `reap` begins, with `len` events in `out`. -/
def reapBegin (len max : Nat) : Option State :=
  match s.reap with
  | none => some { s with reap := some ⟨s.cqHead, s.cqTail, len, max⟩ }
  | some _ => none

/-- One round of the loop of `reap`. -/
def reapNext : Option State :=
  match s.reap with
  | some r =>
    if r.head ≠ r.tail ∧ r.len < r.max then
      some { s with
        reap := some { r with head := r.head + 1, len := r.len + 1 }
        inflight := s.inflight - 1
        reaped := s.reaped + 1 }
    else none
  | none => none

/-- `reap` returns. -/
def reapEnd : Option State :=
  match s.reap with
  | some r =>
    if r.head ≠ r.tail ∧ r.len < r.max then none
    else some { s with reap := none, cqHead := r.head }
  | none => none

end State

/-- What can happen next. -/
inductive Act where
  | submit (req : Request)
  | fill
  | enter (k : Nat) (errno : Option Errno)
  | settle
  | close
  | post
  | reapBegin (len max : Nat)
  | reapNext
  | reapEnd
  deriving DecidableEq, Repr

def step (p : Setup) (s : State) : Act → Option State
  | .submit req => s.submit p req
  | .fill => s.fill p
  | .enter k errno => s.enter p k errno
  | .settle => s.settle
  | .close => s.close
  | .post => s.post
  | .reapBegin len max => s.reapBegin len max
  | .reapNext => s.reapNext
  | .reapEnd => s.reapEnd

/-! ## 3. The account -/

/-- The entries of a call that were accepted, the `i`-th with the number `first + i`. -/
def Call.taken (p : Setup) (c : Call) : List SQE :=
  (c.req.specs.take c.accepted).zipIdx.map
    (fun x => State.sqe p c.req.op x.1 (c.first + UInt64.ofNat x.2))

/-- `1`, `2`, and so on, as the numbers of requests. -/
def numbers (n : Nat) : List UInt64 := (List.range n).map (fun i => UInt64.ofNat (i + 1))

/-- **The account of a ring.** -/
structure Accounted (p : Setup) (s : State) : Prop where
  /-- of a call that has returned, the accepted specs have been consumed, each once and under the
  number reported, and no other. -/
  taken : ∀ (id : Nat) (c : Call), s.calls[id]? = some c → c.accepted ≤ c.req.specs.length ∧
    itemsOf id s.consumed = c.taken p
  /-- the numbers of a call are different. -/
  unique : ∀ c ∈ s.calls, ((c.taken p).map SQE.userData).Nodup
  /-- the numbers of all calls are consecutive. -/
  consecutive : s.consumed.map (fun x => x.2.userData) = numbers s.consumed.length
  /-- what is consumed and not reaped is within the depth. -/
  bounded : s.consumed.length ≤ s.reaped + p.depth

/-- No slot that is published and not consumed is written to. -/
def Undisturbed (p : Setup) (s s' : State) : Prop :=
  ∀ j < (s.sqTail - s.sqHead).toNat,
    s'.sqes (slot p.order (s.sqHead + UInt32.ofNat j)) =
      s.sqes (slot p.order (s.sqHead + UInt32.ofNat j))

namespace State

variable (p : Setup) (s : State)

/-- What has been consumed of the calls that have returned. -/
def done : List (Nat × SQE) := tagged 0 (s.calls.map (Call.taken p))

/-- There is room for `n` entries, in the ring and within the depth. -/
structure Fits (req : Request) (n : Nat) : Prop where
  specs : n ≤ req.specs.length
  ring : n ≤ 2 ^ p.order
  depth : s.consumed.length + n ≤ s.reaped + p.depth

/-- Nothing is published. -/
structure Empty : Prop where
  consumed : s.consumed = s.done p
  sqTail : s.sqTail = s.sqHead
  sqeTail : s.sqeTail = s.sqHead

structure Published (req : Request) (n : Nat) (base : UInt64) (tail0 : UInt32) : Prop where
  consumed : s.consumed = s.done p
  head : s.sqHead = tail0
  base_eq : base = s.seq
  sqTail : s.sqTail = tail0 + UInt32.ofNat n
  fits : s.Fits p req n
  slots : ∃ mem, s.sqes = writeFrom p.order tail0
    (tag s.calls.length (entries p req.op base (req.specs.take n))) mem

/-- The kernel has consumed `k` entries. -/
structure Entered (req : Request) (n : Nat) (base : UInt64) (tail0 : UInt32) (ret : Nat)
    (errno : Option Errno) (k : Nat) : Prop where
  consumed : s.consumed =
    s.done p ++ tag s.calls.length (entries p req.op base (req.specs.take k))
  le : k ≤ n
  head : s.sqHead = tail0 + UInt32.ofNat k
  base_eq : base = s.seq
  specs : n ≤ req.specs.length
  ring : n ≤ 2 ^ p.order
  ret_eq : errno = none → ret = k
  none_of_retry : errno = some .eagain ∨ errno = some .ebusy ∨ errno = some .enomem → k = 0

/-- What a phase knows. -/
def PhaseOk : Prop :=
  match s.phase with
  | .idle => s.Empty p
  | .room req n => s.Empty p ∧ s.Fits p req n
  | .published req n base tail0 => s.Published p req n base tail0
  | .entered req n base tail0 ret errno => ∃ k, s.Entered p req n base tail0 ret errno k

/-- What `reap` knows of the ring of completions. -/
def ReapOk : Prop :=
  match s.reap with
  | none => s.cqHead = UInt32.ofNat s.reaped
  | some r => r.head = UInt32.ofNat s.reaped ∧
      ∃ t, r.tail = UInt32.ofNat t ∧ s.reaped ≤ t ∧ t ≤ s.posted

structure Inv : Prop where
  phase : s.PhaseOk p
  reap : s.ReapOk
  head : s.sqHead = UInt32.ofNat s.consumed.length
  seq : s.seq = UInt64.ofNat (s.done p).length
  inflight : s.inflight = UInt32.ofNat (s.done p).length - UInt32.ofNat s.reaped
  accepted : ∀ c ∈ s.calls, c.accepted ≤ c.req.specs.length ∧ c.accepted ≤ 2 ^ p.order
  consecutive : s.consumed.map (fun x => x.2.userData) = numbers s.consumed.length
  bounded : s.consumed.length ≤ s.reaped + p.depth
  reaped : s.reaped ≤ s.posted
  posted : s.posted ≤ s.consumed.length
  cqTail : s.cqTail = UInt32.ofNat s.posted

end State

/-! ## 4. Entries and their numbers -/

open State

variable {p : Setup} {s s' : State} {req : Request} {n k ret : Nat} {base : UInt64}
  {tail0 : UInt32} {errno : Option Errno}

theorem entries_length (p : Setup) (op : UInt8) (base : UInt64) (specs : List ReadSpec) :
    (entries p op base specs).length = specs.length := by
  simp [entries]

theorem zipIdx_take {α : Type} (l : List α) (k : Nat) : ∀ n,
    (l.take k).zipIdx n = (l.zipIdx n).take k := by
  induction l generalizing k with
  | nil => simp
  | cons a l ih =>
    intro n
    cases k with
    | zero => rfl
    | succ k => rw [List.take_succ_cons, List.zipIdx_cons, List.zipIdx_cons, List.take_succ_cons, ih]

/-- The accepted entries of a call are those it has filled first. -/
theorem taken_eq (req : Request) (base : UInt64) (k : Nat) (err : Option SubmitErr) :
    Call.taken p ⟨req, base + 1, k, err⟩ = entries p req.op base (req.specs.take k) := by
  unfold Call.taken entries
  refine List.map_congr_left fun x _ => ?_
  simp only
  rw [UInt64.add_assoc, UInt64.add_comm 1, ← UInt64.add_assoc]

theorem taken_none (req : Request) (first : UInt64) (err : Option SubmitErr) :
    Call.taken p ⟨req, first, 0, err⟩ = [] := by
  simp [Call.taken]

theorem numbers_entries (m : Nat) (op : UInt8) (specs : List ReadSpec) :
    numbers m ++ (entries p op (UInt64.ofNat m) specs).map SQE.userData =
      numbers (m + specs.length) := by
  have hright : (entries p op (UInt64.ofNat m) specs).map SQE.userData =
      (List.range specs.length).map (fun i => UInt64.ofNat (m + i + 1)) := by
    unfold entries
    rw [List.map_map]
    have : (SQE.userData ∘ fun x : ReadSpec × Nat =>
        sqe p op x.1 (UInt64.ofNat m + UInt64.ofNat x.2 + 1)) =
        (fun i => UInt64.ofNat (m + i + 1)) ∘ Prod.snd := by
      funext x
      simp [sqe]
    rw [this, ← List.map_map, List.zipIdx_map_snd, List.range_eq_range']
  rw [hright, numbers, numbers, List.range_add, List.map_append, List.map_map]
  rfl

theorem numbers_nodup_of_le {m : Nat} (first : UInt64) (h : m ≤ 2 ^ 64) :
    ((List.range m).map (fun i => first + UInt64.ofNat i)).Nodup := by
  refine List.Nodup.map_on ?_ List.nodup_range
  intro i hi j hj he
  have hi := List.mem_range.mp hi
  have hj := List.mem_range.mp hj
  have he := congrArg UInt64.toNat (UInt64.add_right_inj first |>.mp he)
  rwa [UInt64.toNat_ofNat_of_lt' (Nat.lt_of_lt_of_le hi h),
    UInt64.toNat_ofNat_of_lt' (Nat.lt_of_lt_of_le hj h)] at he

/-- The numbers within a call. -/
theorem taken_unique {c : Call} (h : c.accepted ≤ 2 ^ p.order) :
    ((c.taken p).map SQE.userData).Nodup := by
  have heq : (c.taken p).map SQE.userData =
      (List.range (c.req.specs.take c.accepted).length).map (fun i => c.first + UInt64.ofNat i) := by
    unfold Call.taken
    rw [List.map_map]
    have : (SQE.userData ∘ fun x : ReadSpec × Nat =>
        sqe p c.req.op x.1 (c.first + UInt64.ofNat x.2)) =
        (fun i => c.first + UInt64.ofNat i) ∘ Prod.snd := rfl
    rw [this, ← List.map_map, List.zipIdx_map_snd, List.range_eq_range']
  rw [heq]
  refine numbers_nodup_of_le c.first ?_
  have horder : 2 ^ p.order ≤ 2 ^ 64 := Nat.pow_le_pow_right (by decide) (by have := p.order_lt; omega)
  rw [List.length_take]
  omega

/-! ## 5. Steps beside the mutex -/

/-- What the other side does leaves a call its phase: what is reaped makes room. -/
theorem State.PhaseOk.beside (h : s.PhaseOk p) {r : Nat} (hr : s.reaped ≤ r) (a b c : UInt32)
    (d : Option Reap) (e : Nat) :
    ({ s with cqHead := a, cqTail := b, inflight := c, reap := d, posted := e, reaped := r } :
      State).PhaseOk p := by
  unfold PhaseOk at h ⊢
  have hroom : ∀ {req : Request} {n : Nat}, s.Fits p req n → s.consumed.length + n ≤ r + p.depth :=
    fun hf => Nat.le_trans hf.depth (Nat.add_le_add_right hr p.depth)
  cases hp : s.phase with
  | idle =>
    rw [hp] at h
    exact ⟨h.consumed, h.sqTail, h.sqeTail⟩
  | room req n =>
    rw [hp] at h
    exact ⟨⟨h.1.consumed, h.1.sqTail, h.1.sqeTail⟩, h.2.specs, h.2.ring, hroom h.2⟩
  | published req n base tail0 =>
    rw [hp] at h
    exact ⟨h.consumed, h.head, h.base_eq, h.sqTail, ⟨h.fits.specs, h.fits.ring, hroom h.fits⟩, h.slots⟩
  | entered req n base tail0 ret errno =>
    rw [hp] at h
    obtain ⟨k, hk⟩ := h
    exact ⟨k, hk.consumed, hk.le, hk.head, hk.base_eq, hk.specs, hk.ring, hk.ret_eq,
      hk.none_of_retry⟩

theorem State.Inv.post (h : s.Inv p) (hs : s.post = some s') : s'.Inv p := by
  unfold State.post at hs
  split at hs
  · rename_i hlt
    cases hs
    have hreap := h.reap
    constructor
    · exact h.phase.beside (Nat.le_refl _) s.cqHead (s.cqTail + 1) s.inflight s.reap
        (s.posted + 1)
    · unfold ReapOk at hreap ⊢
      cases hr : s.reap with
      | none =>
        rw [hr] at hreap
        exact hreap
      | some r =>
        rw [hr] at hreap
        obtain ⟨hhead, t, ht, hle, htp⟩ := hreap
        exact ⟨hhead, t, ht, hle, Nat.le_succ_of_le htp⟩
    · exact h.head
    · exact h.seq
    · exact h.inflight
    · exact h.accepted
    · exact h.consecutive
    · exact h.bounded
    · exact Nat.le_succ_of_le h.reaped
    · exact hlt
    · simp only
      rw [h.cqTail, UInt32.ofNat_add]
      rfl
  · cases hs

theorem State.Inv.reapBegin (h : s.Inv p) {len max : Nat} (hs : s.reapBegin len max = some s') :
    s'.Inv p := by
  unfold State.reapBegin at hs
  split at hs
  · rename_i hr
    cases hs
    have hreap := h.reap
    unfold ReapOk at hreap
    rw [hr] at hreap
    constructor
    · exact h.phase.beside (Nat.le_refl _) s.cqHead s.cqTail s.inflight _ s.posted
    · exact ⟨hreap, s.posted, h.cqTail, h.reaped, Nat.le_refl _⟩
    · exact h.head
    · exact h.seq
    · exact h.inflight
    · exact h.accepted
    · exact h.consecutive
    · exact h.bounded
    · exact h.reaped
    · exact h.posted
    · exact h.cqTail
  · cases hs

/-- While the loop of `reap` goes on there is a completion to reap. -/
theorem State.Inv.reapNext (h : s.Inv p) (hs : s.reapNext = some s') : s'.Inv p := by
  unfold State.reapNext at hs
  split at hs
  · rename_i r hr
    split at hs
    · rename_i hgo
      cases hs
      have hreap := h.reap
      unfold ReapOk at hreap
      rw [hr] at hreap
      obtain ⟨hhead, t, ht, hle, htp⟩ := hreap
      have hlt : s.reaped < t := by
        refine Nat.lt_of_le_of_ne hle fun he => hgo.1 ?_
        rw [hhead, ht, he]
      constructor
      · exact h.phase.beside (Nat.le_succ _) s.cqHead s.cqTail _ _ s.posted
      · refine ⟨?_, t, ht, hlt, htp⟩
        simp only
        rw [hhead, UInt32.ofNat_add]
        rfl
      · exact h.head
      · exact h.seq
      · simp only
        rw [h.inflight, UInt32.ofNat_add]
        exact sub_sub_add _ _ 1
      · exact h.accepted
      · exact h.consecutive
      · have := h.bounded
        simp only
        omega
      · exact Nat.le_trans hlt htp
      · exact h.posted
      · exact h.cqTail
    · cases hs
  · cases hs

theorem State.Inv.reapEnd (h : s.Inv p) (hs : s.reapEnd = some s') : s'.Inv p := by
  unfold State.reapEnd at hs
  split at hs
  · rename_i r hr
    split at hs
    · cases hs
    · cases hs
      have hreap := h.reap
      unfold ReapOk at hreap
      rw [hr] at hreap
      constructor
      · exact h.phase.beside (Nat.le_refl _) r.head s.cqTail s.inflight _ s.posted
      · exact hreap.1
      · exact h.head
      · exact h.seq
      · exact h.inflight
      · exact h.accepted
      · exact h.consecutive
      · exact h.bounded
      · exact h.reaped
      · exact h.posted
      · exact h.cqTail
  · cases hs

/-! ## 6. Steps of `submit` -/

theorem done_ret (req : Request) (first : UInt64) (accepted : Nat) (err : Option SubmitErr) :
    (s.ret req first accepted err).done p =
      s.done p ++ tag s.calls.length (Call.taken p ⟨req, first, accepted, err⟩) := by
  unfold State.ret State.done
  rw [List.map_append, List.map_singleton, tagged_concat, Nat.zero_add, List.length_map]

theorem mem_ret {req : Request} {first : UInt64} {accepted : Nat} {err : Option SubmitErr} {c : Call}
    (hc : c ∈ (s.ret req first accepted err).calls) :
    c ∈ s.calls ∨ c = ⟨req, first, accepted, err⟩ := by
  rcases List.mem_append.mp hc with hc | hc
  · exact Or.inl hc
  · exact Or.inr (List.mem_singleton.mp hc)

/-- A call that returns with nothing accepted. -/
theorem State.Inv.ret_none (h : s.Inv p) (he : s.Empty p) (req : Request) (first : UInt64)
    (err : Option SubmitErr) : (s.ret req first 0 err).Inv p := by
  have hdone : (s.ret req first 0 err).done p = s.done p := by
    rw [done_ret, taken_none, tag_nil, List.append_nil]
  constructor
  · constructor
    · rw [hdone]
      exact he.consumed
    · exact he.sqTail
    · exact he.sqeTail
  · exact h.reap
  · exact h.head
  · rw [hdone]
    exact h.seq
  · rw [hdone]
    exact h.inflight
  · intro c hc
    rcases mem_ret hc with hc | rfl
    · exact h.accepted c hc
    · exact ⟨Nat.zero_le _, Nat.zero_le _⟩
  · exact h.consecutive
  · exact h.bounded
  · exact h.reaped
  · exact h.posted
  · exact h.cqTail

theorem order_lt_size (p : Setup) : 2 ^ p.order < 2 ^ 32 :=
  Nat.pow_lt_pow_right (by decide) p.order_lt

/-- **What `submit` reads**, when no other call is at it: the ring is free, and `inflight` is what
is consumed and not reaped. -/
theorem State.Inv.loads (h : s.Inv p) (he : s.Empty p) :
    s.sqFree p = ((2 ^ p.order : Nat) : Int) ∧ s.inflight.toNat = s.consumed.length - s.reaped := by
  constructor
  · unfold State.sqFree
    rw [he.sqeTail, UInt32.sub_self, UInt32.sub_zero, UInt32.toNat_ofNat_of_lt' (order_lt_size p)]
  · have hdepth := p.depth_le
    have hsize := order_lt_size p
    have hbound := h.bounded
    rw [h.inflight, ← he.consumed]
    exact toNat_distance (Nat.le_trans h.reaped h.posted) (by omega)

theorem State.Inv.submit (h : s.Inv p) (hs : s.submit p req = some s') : s'.Inv p := by
  unfold State.submit at hs
  split at hs
  · cases hs
    exact h
  split at hs
  · cases hs
  rename_i hidle
  have hidle : s.phase = .idle := not_not.mp hidle
  have he : s.Empty p := by
    have := h.phase
    unfold PhaseOk at this
    rwa [hidle] at this
  split at hs
  · cases hs
    exact h.ret_none he req 0 _
  obtain ⟨hfree, hin⟩ := h.loads he
  have hrp := Nat.le_trans h.reaped h.posted
  have hbound := h.bounded
  simp only [hfree, hin] at hs
  -- the smaller of the two bounds
  obtain ⟨free, heq, hring, hdepth⟩ : ∃ free : Int,
      (if (p.depth : Int) - ((s.consumed.length - s.reaped : Nat) : Int) < ((2 ^ p.order : Nat) : Int)
        then (p.depth : Int) - ((s.consumed.length - s.reaped : Nat) : Int)
        else ((2 ^ p.order : Nat) : Int)) = free ∧ free ≤ ((2 ^ p.order : Nat) : Int) ∧
      free ≤ (p.depth : Int) - ((s.consumed.length - s.reaped : Nat) : Int) := by
    refine ⟨_, rfl, ?_, ?_⟩
    · split <;> omega
    · split <;> omega
  rw [heq] at hs
  split at hs
  · cases hs
    exact h.ret_none he req 0 _
  · rename_i hpos
    cases hs
    constructor
    · refine ⟨⟨he.consumed, he.sqTail, he.sqeTail⟩, ?_, ?_, ?_⟩
      · split <;> omega
      · split <;> omega
      · simp only
        split <;> omega
    · exact h.reap
    · exact h.head
    · exact h.seq
    · exact h.inflight
    · exact h.accepted
    · exact h.consecutive
    · exact h.bounded
    · exact h.reaped
    · exact h.posted
    · exact h.cqTail

theorem State.Inv.fill (h : s.Inv p) (hs : s.fill p = some s') : s'.Inv p := by
  unfold State.fill at hs
  split at hs
  · rename_i req n hp
    cases hs
    have hphase := h.phase
    unfold PhaseOk at hphase
    rw [hp] at hphase
    obtain ⟨he, hf⟩ := hphase
    constructor
    · exact ⟨he.consumed, he.sqeTail.symm, rfl, rfl, ⟨hf.specs, hf.ring, hf.depth⟩, s.sqes, rfl⟩
    · exact h.reap
    · exact h.head
    · exact h.seq
    · exact h.inflight
    · exact h.accepted
    · exact h.consecutive
    · exact h.bounded
    · exact h.reaped
    · exact h.posted
    · exact h.cqTail
  · cases hs

/-- **The kernel consumes what the call has filled.** -/
theorem State.Inv.enter (h : s.Inv p) (hs : s.enter p k errno = some s') : s'.Inv p := by
  unfold State.enter at hs
  split at hs
  · rename_i req n base tail0 hp
    split at hs
    · rename_i hk
      cases hs
      have hphase := h.phase
      unfold PhaseOk at hphase
      rw [hp] at hphase
      obtain ⟨hcons, rfl, rfl, htail, hf, mem, hmem⟩ := hphase
      have hlen : (tag s.calls.length (entries p req.op s.seq (req.specs.take n))).length = n := by
        rw [tag, List.length_map, entries_length, List.length_take]
        exact Nat.min_eq_left hf.specs
      have hread : readFrom p.order s.sqes s.sqHead k =
          tag s.calls.length (entries p req.op s.seq (req.specs.take k)) := by
        rw [hmem, readFrom_writeFrom (Nat.le_of_lt p.order_lt) (by rw [hlen]; exact hf.ring)
          (by rw [hlen]; exact hk.1)]
        unfold tag entries
        rw [← List.map_take, ← List.map_take, ← zipIdx_take, List.take_take, Nat.min_eq_left hk.1]
      have hklen : (tag s.calls.length (entries p req.op s.seq (req.specs.take k))).length = k := by
        rw [tag, List.length_map, entries_length, List.length_take]
        exact Nat.min_eq_left (Nat.le_trans hk.1 hf.specs)
      rw [hread]
      constructor
      · refine ⟨k, ?_, hk.1, rfl, rfl, hf.specs, hf.ring, fun hn => if_pos hn, hk.2.2⟩
        exact congrArg (· ++ tag s.calls.length (entries p req.op s.seq (req.specs.take k))) hcons
      · exact h.reap
      · simp only
        rw [List.length_append, hklen, h.head, UInt32.ofNat_add]
      · exact h.seq
      · exact h.inflight
      · exact h.accepted
      · simp only
        rw [List.map_append, h.consecutive, List.length_append, hklen]
        have hnum := numbers_entries (p := p) s.consumed.length req.op (req.specs.take k)
        have hseq : s.seq = UInt64.ofNat s.consumed.length := by rw [h.seq, hcons]
        rw [← hseq, List.length_take, Nat.min_eq_left (Nat.le_trans hk.1 hf.specs)] at hnum
        rw [← hnum]
        congr 1
        rw [tag, List.map_map]
        rfl
      · have := hf.depth
        simp only
        rw [List.length_append, hklen]
        omega
      · exact h.reaped
      · simp only
        rw [List.length_append]
        exact Nat.le_trans h.posted (Nat.le_add_right _ _)
      · exact h.cqTail
    · cases hs
  · cases hs

/-- The tail is taken back while a call settles. -/
theorem State.Inv.rewind (h : s.Inv p) (hp : s.phase = .entered req n base tail0 ret errno)
    (tail : UInt32) : (s.rewind tail).Inv p := by
  have hphase := h.phase
  constructor
  · unfold PhaseOk at hphase ⊢
    have hp' : (s.rewind tail).phase = .entered req n base tail0 ret errno := hp
    rw [hp] at hphase
    rw [hp']
    obtain ⟨k, hk⟩ := hphase
    exact ⟨k, hk.consumed, hk.le, hk.head, hk.base_eq, hk.specs, hk.ring, hk.ret_eq,
      hk.none_of_retry⟩
  · exact h.reap
  · exact h.head
  · exact h.seq
  · exact h.inflight
  · exact h.accepted
  · exact h.consecutive
  · exact h.bounded
  · exact h.reaped
  · exact h.posted
  · exact h.cqTail

/-- Nothing was consumed: the whole batch is taken back. -/
theorem State.Inv.settle_none (h : s.Inv p) (hp : s.phase = .entered req n base tail0 ret errno)
    (hk : s.Entered p req n base tail0 ret errno 0) (err : Option SubmitErr) :
    ((s.rewind tail0).ret req 0 0 err).Inv p := by
  have hhead : s.sqHead = tail0 := hk.head.trans (add_ofNat_zero tail0)
  refine (h.rewind hp tail0).ret_none ⟨?_, hhead.symm, hhead.symm⟩ req 0 err
  exact hk.consumed.trans (List.append_nil _)

/-- The ring when a call settles that has had `k` entries accepted. -/
def State.accept (s : State) (base : UInt64) (tail0 : UInt32) (k : Nat) : State :=
  { s.rewind (tail0 + UInt32.ofNat k) with
    inflight := s.inflight + UInt32.ofNat k
    seq := base + UInt64.ofNat k }

theorem settleWith_eq (h : k ≤ n) :
    s.settleWith req n base tail0 k = (s.accept base tail0 k).ret req (base + 1) k none := by
  unfold State.settleWith
  simp only [if_neg (Nat.not_lt_of_ge h)]
  rfl

/-- **What was consumed is accepted**, and the rest of the batch taken back. -/
theorem State.Inv.settleWith (h : s.Inv p)
    (hk : s.Entered p req n base tail0 ret errno k) : (s.settleWith req n base tail0 k).Inv p := by
  rw [settleWith_eq hk.le]
  have hdone : ((s.accept base tail0 k).ret req (base + 1) k none).done p =
      s.done p ++ tag s.calls.length (entries p req.op base (req.specs.take k)) := by
    rw [done_ret, taken_eq]
    rfl
  have hlen : (s.done p ++ tag s.calls.length (entries p req.op base (req.specs.take k))).length =
      (s.done p).length + k := by
    rw [List.length_append, tag, List.length_map, entries_length, List.length_take,
      Nat.min_eq_left (Nat.le_trans hk.le hk.specs)]
  constructor
  · constructor
    · rw [hdone]
      exact hk.consumed
    · exact hk.head.symm
    · exact hk.head.symm
  · exact h.reap
  · exact h.head
  · rw [hdone, hlen, UInt64.ofNat_add, ← h.seq, hk.base_eq]
    rfl
  · rw [hdone, hlen, UInt32.ofNat_add]
    show s.inflight + UInt32.ofNat k = _
    rw [h.inflight, sub_add_comm]
    rfl
  · intro c hc
    rcases mem_ret hc with hc | rfl
    · exact h.accepted c hc
    · exact ⟨Nat.le_trans hk.le hk.specs, Nat.le_trans hk.le hk.ring⟩
  · exact h.consecutive
  · exact h.bounded
  · exact h.reaped
  · exact h.posted
  · exact h.cqTail

/-- The head tells how many entries the kernel has consumed, whatever it has returned. -/
theorem consumedSince_eq (hk : s.Entered p req n base tail0 ret errno k) :
    s.consumedSince tail0 = k := by
  have hsize := order_lt_size p
  have hle := hk.le
  have hring := hk.ring
  unfold State.consumedSince
  rw [hk.head, add_sub_self]
  exact UInt32.toNat_ofNat_of_lt' (by show k < 2 ^ 32; omega)

theorem State.Inv.settle (h : s.Inv p) (hs : s.settle = some s') : s'.Inv p := by
  unfold State.settle at hs
  split at hs
  · rename_i req n base tail0 ret errno hp
    have hphase := h.phase
    unfold PhaseOk at hphase
    rw [hp] at hphase
    obtain ⟨k, hk⟩ := hphase
    split at hs
    · -- the kernel has returned how many
      cases hs
      rw [hk.ret_eq rfl]
      exact h.settleWith hk
    · cases hs
      obtain rfl := hk.none_of_retry (Or.inl rfl)
      exact h.settle_none hp hk _
    · cases hs
      obtain rfl := hk.none_of_retry (Or.inr (Or.inl rfl))
      exact h.settle_none hp hk _
    · cases hs
      obtain rfl := hk.none_of_retry (Or.inr (Or.inr rfl))
      exact h.settle_none hp hk _
    · simp only [consumedSince_eq hk] at hs
      split at hs
      · rename_i hzero
        subst hzero
        cases hs
        exact h.settle_none hp hk _
      · cases hs
        exact h.settleWith hk
  · cases hs

theorem State.Inv.close (h : s.Inv p) (hs : s.close = some s') : s'.Inv p := by
  unfold State.close at hs
  split at hs
  · rename_i hidle
    cases hs
    have hphase := h.phase
    unfold PhaseOk at hphase
    rw [hidle] at hphase
    constructor
    · unfold PhaseOk
      simp only [hidle]
      exact ⟨hphase.consumed, hphase.sqTail, hphase.sqeTail⟩
    · exact h.reap
    · exact h.head
    · exact h.seq
    · exact h.inflight
    · exact h.accepted
    · exact h.consecutive
    · exact h.bounded
    · exact h.reaped
    · exact h.posted
    · exact h.cqTail
  · cases hs

/-! ## 7. Runs -/

theorem inv_init (p : Setup) : State.init.Inv p := by
  constructor
  · exact ⟨rfl, rfl, rfl⟩
  · rfl
  · rfl
  · rfl
  · exact (UInt32.sub_self (UInt32.ofNat 0)).symm
  · exact fun c hc => absurd hc List.not_mem_nil
  · rfl
  · exact Nat.zero_le _
  · exact Nat.le_refl _
  · exact Nat.le_refl _
  · rfl

theorem inv_step {a : Act} (h : s.Inv p) (hs : step p s a = some s') : s'.Inv p := by
  cases a with
  | submit req => exact h.submit hs
  | fill => exact h.fill hs
  | enter k errno => exact h.enter hs
  | settle => exact h.settle hs
  | close => exact h.close hs
  | post => exact h.post hs
  | reapBegin len max => exact h.reapBegin hs
  | reapNext => exact h.reapNext hs
  | reapEnd => exact h.reapEnd hs

theorem inv_run {as : List Act} (hrun : Transition.run (step p) State.init as = some s) :
    s.Inv p := by
  have hstep : ∀ (s : State) (a : Act) (s' : State), s.Inv p → True → step p s a = some s' →
      s'.Inv p := fun _ _ _ h _ hs => inv_step h hs
  exact Transition.run_invariant hstep (inv_init p)
    (Transition.along_of_forall_mem (fun _ _ => trivial) _) hrun

/-- What a phase adds to what is done is of the call that holds the mutex. -/
theorem consumed_eq (h : s.PhaseOk p) :
    ∃ l, s.consumed = s.done p ++ tag s.calls.length l := by
  unfold PhaseOk at h
  cases hp : s.phase with
  | idle =>
    rw [hp] at h
    exact ⟨[], h.consumed.trans (List.append_nil _).symm⟩
  | room req n =>
    rw [hp] at h
    exact ⟨[], h.1.consumed.trans (List.append_nil _).symm⟩
  | published req n base tail0 =>
    rw [hp] at h
    exact ⟨[], h.consumed.trans (List.append_nil _).symm⟩
  | entered req n base tail0 ret errno =>
    rw [hp] at h
    obtain ⟨k, hk⟩ := h
    exact ⟨_, hk.consumed⟩

theorem State.Inv.accounted (h : s.Inv p) : Accounted p s where
  taken := by
    intro id c hc
    refine ⟨(h.accepted c (List.mem_of_getElem? hc)).1, ?_⟩
    obtain ⟨l, hl⟩ := consumed_eq h.phase
    have hlt : id < s.calls.length := (List.getElem?_eq_some_iff.mp hc).1
    have hat : (s.calls.map (Call.taken p))[id]? = some (c.taken p) := by
      rw [List.getElem?_map, hc]
      rfl
    have hdone := itemsOf_tagged (n := 0) hat
    rw [Nat.zero_add] at hdone
    rw [hl, itemsOf_append, itemsOf_tag_of_ne (Nat.ne_of_gt hlt), List.append_nil]
    exact hdone
  unique := fun c hc => taken_unique (h.accepted c hc).2
  consecutive := h.consecutive
  bounded := h.bounded

/-- Only `submit` writes to slots, and it does so while nothing is published. -/
theorem undisturbed_step {a : Act} (h : s.Inv p) (hs : step p s a = some s') :
    Undisturbed p s s' := by
  have hsame : s'.sqes = s.sqes → Undisturbed p s s' := fun he j _ => by rw [he]
  cases a with
  | submit req =>
    refine hsame ?_
    simp only [step, State.submit] at hs
    repeat' split at hs
    all_goals cases hs
    all_goals rfl
  | fill =>
    simp only [step, State.fill] at hs
    split at hs
    · rename_i req n hp
      have hphase := h.phase
      unfold PhaseOk at hphase
      rw [hp] at hphase
      intro j hj
      rw [hphase.1.sqTail, UInt32.sub_self] at hj
      exact absurd hj (Nat.not_lt_zero j)
    · cases hs
  | enter k errno =>
    refine hsame ?_
    simp only [step, State.enter] at hs
    repeat' split at hs
    all_goals cases hs
    all_goals rfl
  | settle =>
    refine hsame ?_
    simp only [step, State.settle] at hs
    repeat' split at hs
    all_goals cases hs
    all_goals rfl
  | close =>
    refine hsame ?_
    simp only [step, State.close] at hs
    split at hs
    all_goals cases hs
    all_goals rfl
  | post =>
    refine hsame ?_
    simp only [step, State.post] at hs
    split at hs
    all_goals cases hs
    all_goals rfl
  | reapBegin len max =>
    refine hsame ?_
    simp only [step, State.reapBegin] at hs
    split at hs
    all_goals cases hs
    all_goals rfl
  | reapNext =>
    refine hsame ?_
    simp only [step, State.reapNext] at hs
    repeat' split at hs
    all_goals cases hs
    all_goals rfl
  | reapEnd =>
    refine hsame ?_
    simp only [step, State.reapEnd] at hs
    repeat' split at hs
    all_goals cases hs
    all_goals rfl

/-- **The accounting of submissions.**  In every run, whatever the kernel consumes and returns and
whenever completions are posted and reaped, the account holds, and no step writes to a slot that
is published and not consumed. -/
theorem submissions_accounted (p : Setup) (as : List Act) (s : State)
    (hrun : Transition.run (step p) State.init as = some s) :
    Accounted p s ∧ ∀ a s', step p s a = some s' → Undisturbed p s s' :=
  ⟨(inv_run hrun).accounted, fun _ _ hs => undisturbed_step (inv_run hrun) hs⟩

/-- Three specs for a ring of two: the kernel consumes one and is interrupted, and its completion
is reaped before the call has returned. -/
def interrupted : List Act :=
  [.submit ⟨22, [⟨4096, 512, 0⟩, ⟨8192, 512, 512⟩, ⟨0, 0, 1024⟩]⟩, .fill, .enter 1 (some .eintr),
    .post, .reapBegin 0 8, .reapNext, .reapEnd, .settle]

def pair : Setup := ⟨2, 1, 7, by decide, by decide⟩

theorem submissions_accounted_interrupted : ∃ s : State,
    Transition.run (step pair) State.init interrupted = some s ∧ s.inflight = 0 ∧
      s.calls.map (fun c => (c.first, c.accepted, c.err)) = [(1, 1, none)] ∧ Accounted pair s := by
  obtain ⟨s, hs, hview⟩ := Option.map_eq_some_iff.mp
    (show (Transition.run (step pair) State.init interrupted).map
      (fun s => (s.inflight, s.calls.map (fun c => (c.first, c.accepted, c.err)))) =
        some (0, [(1, 1, none)]) by decide +kernel)
  simp only [Prod.mk.injEq] at hview
  exact ⟨s, hs, hview.1, hview.2, (submissions_accounted pair interrupted s hs).1⟩

end Taihu.Uring
