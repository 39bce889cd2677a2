/-
# What a Put allocates

`handlePut` of `internal/transport/server.go` and `handleShmPut` of
`internal/transport/server_shm_linux.go`, with `Put`, `PutBegin`, `PutAppend` and `PutCommit` of
`internal/storage/write.go`.

The operations here are the calls of the store, of the device and of the write pipeline; their
replies are whatever the rest of the server makes them.  A run of a handler is judged by its
trace: the extents it was given, and the mappings that were committed for it.  `interp_put`
says that `Put` here is the one of `Storage.lean`, with the calls replaced by their code.
-/
import Taihu.Lib.Trace
import Taihu.WriteTasks
import Taihu.GetStream

namespace Taihu.PutAllocation

open Concur

/-! ## 1. The calls -/

/-- `writeTask`; `value` is history: the bytes of the object. -/
structure WriteTask where
  key : Key
  seg : Int
  off : Int
  size : Int
  jobs : List WriteJob
  value : Bytes

/-- `AllocateSegment`, `Device.Append`, `PutMapping`, the send to a queue of the write pipeline,
and the receive of what its worker answers.  `value` is history. -/
inductive PutOp where
  | allocate (size : Int)
  | append (seg off size : Int) (data : Bytes)
  | commit (key : Key) (md : ObjectMeta) (value : Bytes)
  | enqueue (t : WriteTask)
  | done (t : WriteTask)

@[reducible] def PutOp.Reply : PutOp → Type
  | .allocate _ => Res (Int × Int)
  | .append _ _ _ _ => Res Unit
  | .commit _ _ _ => Res Unit
  | .enqueue _ => Unit
  | .done _ => Res Unit

abbrev putSig : Signature := ⟨PutOp, PutOp.Reply⟩

/-- A procedure over these calls. -/
abbrev PutProc (α : Type) : Type := Program putSig α

abbrev call (o : PutOp) : PutProc o.Reply := @Program.perform putSig o

/-! ## 2. The storage -/

/-- `PutBegin`. -/
def putBegin (L : Layout) (size : Int) : PutProc (Res (Int × Int)) :=
  if size < 0 then pure (.error .invalidRange)
  else if size > L.segmentSizeBytes then pure (.error .tooLarge)
  else call (.allocate size)

/-- `PutAppend`. -/
def putAppend (seg off size : Int) (data : Bytes) : PutProc (Res Unit) :=
  if (data.length : Int) < size then pure (.error .shortWrite)
  else call (.append seg off size data)

/-- `PutCommit`. -/
def putCommit (key : Key) (seg off size : Int) (value : Bytes) : PutProc (Res Unit) :=
  call (.commit key ⟨seg, off, size⟩ value)

/-- `Put`. -/
def put (L : Layout) (key : Key) (size : Int) (data : Bytes) : PutProc (Res Unit) := do
  match ← putBegin L size with
  | .error e => pure (.error e)
  | .ok (seg, off) =>
    let appended ← (if 0 < size then putAppend seg off size data else pure (.ok ()))
    match appended with
    | .error e => pure (.error e)
    | .ok () => putCommit key seg off size (putValue size data)

/-! ## 3. The write pipeline -/

/-- `submitAsync`. -/
def submitAsync (t : WriteTask) : PutProc Unit := call (.enqueue t)

/-- `submit`. -/
def submit (t : WriteTask) : PutProc (Res Unit) := do
  call (.enqueue t)
  call (.done t)

/-- The code of an answer. -/
def codeOf : Res Unit → ErrCode
  | .error e => mapStorageErr e
  | .ok () => .ok

/-- `awaitPending` for a put, whose code `fillPutResp` writes. -/
def awaitPending (t : WriteTask) : PutProc ErrCode := do
  let r ← call (.done t)
  pure (codeOf r)

/-! ## 4. The handlers -/

/-- The frames behind the header. -/
inductive PutFrame where
  | data (p : Bytes)
  | last
  | other
  deriving DecidableEq, Repr

/-- How the frame loop ends: with the payloads of a whole object, with a refusal, or with the
connection. -/
inductive Gathered where
  | whole (ps : List Bytes)
  | refused
  | lost

/-- The frame loop of both handlers. -/
def gather (size : Int) : Int → List Bytes → List PutFrame → Gathered
  | _, _, [] => .lost
  | pos, ps, .data p :: fs =>
    if pos + p.length > size then .refused else gather size (pos + p.length) (ps ++ [p]) fs
  | pos, ps, .last :: _ => if pos ≠ size then .refused else .whole ps
  | _, _, .other :: _ => .refused

/-- What the server is configured with: the write pipeline, and the limit of requests in
flight. -/
structure Config where
  writer : Bool
  inflight : Int
  deriving DecidableEq, Repr

/-- `handlePut`: the code it answers, `none` where the connection ends before.  `header` is what
`ParsePutHeader` returns. -/
def handlePut (L : Layout) (cfg : Config) (header : Option (Key × Int)) (frames : List PutFrame) :
    PutProc (Option ErrCode) := do
  match header with
  | none => pure (some .invalidArgument)
  | some (key, size) =>
    if size < 0 then pure (some .invalidArgument)
    else if size > L.segmentSizeBytes then pure (some .tooLarge)
    else if size = 0 then
      let r ← put L key 0 []
      pure (some (codeOf r))
    else
      match ← putBegin L size with
      | .error e => pure (some (mapStorageErr e))
      | .ok (seg, off) =>
        match gather size 0 [] frames with
        | .lost => pure none
        | .refused => pure (some .invalidArgument)
        | .whole ps =>
          let buf := ps.flatten
          if cfg.writer then
            let r ← submit ⟨key, seg, off, size, [⟨seg, off, buf, size⟩], buf⟩
            pure (some (codeOf r))
          else
            let r ← put L key size buf
            pure (some (codeOf r))

/-- `PutAppend` for each job, up to the first error. -/
def appendJobs : List WriteJob → PutProc (Res Unit)
  | [] => pure (.ok ())
  | j :: js => do
    match ← putAppend j.seg j.off j.size j.data with
    | .error e => pure (.error e)
    | .ok () => appendJobs js

/-- `handleShmPut`.  An answer that is queued has the code of one that is written at once. -/
def handleShmPut (L : Layout) (cfg : Config) (header : Option (Key × Int))
    (frames : List PutFrame) : PutProc (Option ErrCode) := do
  match header with
  | none => pure (some .invalidArgument)
  | some (key, size) =>
    if size < 0 then pure (some .invalidArgument)
    else if size > L.segmentSizeBytes then pure (some .tooLarge)
    else
      match ← putBegin L size with
      | .error e => pure (some (mapStorageErr e))
      | .ok (seg, off) =>
        if size = 0 then
          match frames with
          | [] => pure none
          | .last :: _ =>
            let r ← putCommit key seg off 0 []
            pure (some (codeOf r))
          | _ :: _ => pure (some .invalidArgument)
        else
          match gather size 0 [] frames with
          | .lost => pure none
          | .refused => pure (some .invalidArgument)
          | .whole ps =>
            let jobs := jobsFrom seg off 0 ps
            let t : WriteTask := ⟨key, seg, off, size, jobs, ps.flatten⟩
            if cfg.writer then
              if 0 < cfg.inflight then
                submitAsync t
                let code ← awaitPending t
                pure (some code)
              else
                let r ← submit t
                pure (some (codeOf r))
            else
              match ← appendJobs jobs with
              | .error e => pure (some (mapStorageErr e))
              | .ok () =>
                let r ← putCommit key seg off size ps.flatten
                pure (some (codeOf r))

/-! ## 5. Accounts -/

/-- The extent a call gives. -/
def extentOf : Event putSig → Option ObjectMeta
  | ⟨.allocate size, .ok (seg, off)⟩ => some ⟨seg, off, size⟩
  | _ => none

/-- The mapping that a call commits. -/
def mappingOf : Event putSig → Option (Key × ObjectMeta)
  | ⟨.commit key md _, .ok ()⟩ => some (key, md)
  | ⟨.done t, .ok ()⟩ => some (t.key, ⟨t.seg, t.off, t.size⟩)
  | _ => none

/-- The extents allocated in a trace. -/
def allocated (tr : List (Event putSig)) : List ObjectMeta := tr.filterMap extentOf

/-- The mappings committed in a trace. -/
def committed (tr : List (Event putSig)) : List (Key × ObjectMeta) := tr.filterMap mappingOf

/-- The way a Put comes in. -/
inductive DataPath where
  | tcp
  | shm
  deriving DecidableEq, Repr

/-- The handler of a path. -/
def handle (L : Layout) (cfg : Config) : DataPath → Option (Key × Int) → List PutFrame →
    PutProc (Option ErrCode)
  | .tcp => handlePut L cfg
  | .shm => handleShmPut L cfg

/-- A Put that was answered `CodeOK`, with the replies that its calls have got. -/
structure Served (L : Layout) where
  path : DataPath
  cfg : Config
  key : Key
  size : Int
  frames : List PutFrame
  replies : Nat → (o : PutOp) → o.Reply
  answered : ((handle L cfg path (some (key, size)) frames).play replies 0).2 = some .ok

namespace Served

variable {L : Layout} (p : Served L)

def trace : List (Event putSig) :=
  ((handle L p.cfg p.path (some (p.key, p.size)) p.frames).play p.replies 0).1

/-- One extent is allocated, and the mapping that is committed is of that extent. -/
def OneExtent : Prop :=
  ∃ x, allocated p.trace = [x] ∧ committed p.trace = [(p.key, x)]

/-- `PutBegin` has run, and its extent is not handed on. -/
def BeginsTwice : Prop := p.path = .tcp ∧ p.cfg.writer = false ∧ p.size ≠ 0

instance : Decidable p.BeginsTwice := inferInstanceAs (Decidable (_ ∧ _))

end Served

/-! ## 6. The calls and their code -/

/-- What the calls stand for; the worker of the pipeline has taken no other task. -/
def code (L : Layout) : (o : PutOp) → Proc o.Reply
  | .allocate size => allocate L size false
  | .append seg off size data => devAppend L seg off size data
  | .commit key md value => putMapping key md (some value)
  | .enqueue _ => pure ()
  | .done t => do
    match ← devAppendBatch L t.jobs with
    | .error e => pure (.error e)
    | .ok () => batchPutMapping [⟨t.key, ⟨t.seg, t.off, t.size⟩, some t.value⟩]

variable {L : Layout}

theorem interp_putBegin (size : Int) :
    (putBegin L size).interp (code L) = Taihu.putBegin L size := by
  unfold putBegin Taihu.putBegin
  split
  · rfl
  split
  · rfl
  · exact Program.interp_perform _

theorem interp_putAppend (seg off size : Int) (data : Bytes) :
    (putAppend seg off size data).interp (code L) = Taihu.putAppend L seg off size data := by
  unfold putAppend Taihu.putAppend
  split
  · rfl
  · exact Program.interp_perform _

theorem interp_putCommit (key : Key) (seg off size : Int) (value : Bytes) :
    (putCommit key seg off size value).interp (code L) = Taihu.putCommit key seg off size value :=
  Program.interp_perform _

/-- **`Put` is the one of the storage layer**, in terms of its calls. -/
theorem interp_put (key : Key) (size : Int) (data : Bytes) :
    (put L key size data).interp (code L) = Taihu.put L key size data := by
  unfold put Taihu.put
  rw [Program.interp_bind, interp_putBegin]
  congr 1
  funext r
  rcases r with e | ⟨seg, off⟩
  · rfl
  dsimp only
  rw [Program.interp_bind]
  have happend : (if 0 < size then putAppend seg off size data else pure (.ok ())).interp
      (code L) = (if 0 < size then Taihu.putAppend L seg off size data else pure (.ok ())) := by
    split
    · exact interp_putAppend seg off size data
    · rfl
  rw [happend]
  congr 1
  funext r
  rcases r with e | u
  · rfl
  · exact interp_putCommit key seg off size _

/-! ## 7. What the parts of a handler do to the accounts -/

@[simp] theorem allocated_append (tr tr' : List (Event putSig)) :
    allocated (tr ++ tr') = allocated tr ++ allocated tr' := List.filterMap_append

@[simp] theorem committed_append (tr tr' : List (Event putSig)) :
    committed (tr ++ tr') = committed tr ++ committed tr' := List.filterMap_append

@[simp] theorem allocated_nil : allocated [] = [] := rfl

@[simp] theorem committed_nil : committed [] = [] := rfl

section Accounts

variable {f : Nat → (o : PutOp) → o.Reply} {n : Nat} {key : Key} {size : Int}

/-- `PutBegin` gives one extent when it succeeds, and commits nothing. -/
theorem accounts_putBegin {seg off : Int}
    (h : ((putBegin L size).play f n).2 = .ok (seg, off)) :
    allocated ((putBegin L size).play f n).1 = [⟨seg, off, size⟩] ∧
      committed ((putBegin L size).play f n).1 = [] := by
  unfold putBegin at h ⊢
  split at h
  · cases h
  split at h
  · cases h
  · rename_i h0 h1
    rw [if_neg h0, if_neg h1, Program.play_perform]
    have hreply : f n (.allocate size) = .ok (seg, off) := h
    rw [hreply]
    exact ⟨rfl, rfl⟩

/-- `PutAppend` touches no account. -/
theorem accounts_putAppend (seg off size : Int) (data : Bytes) :
    allocated ((putAppend seg off size data).play f n).1 = [] ∧
      committed ((putAppend seg off size data).play f n).1 = [] := by
  unfold putAppend
  split
  · exact ⟨rfl, rfl⟩
  · rw [Program.play_perform]
    exact ⟨rfl, rfl⟩

theorem accounts_appendJobs (js : List WriteJob) :
    allocated ((appendJobs js).play f n).1 = [] ∧
      committed ((appendJobs js).play f n).1 = [] := by
  induction js generalizing n with
  | nil => exact ⟨rfl, rfl⟩
  | cons j js ih =>
    obtain ⟨ha, hc⟩ := accounts_putAppend (f := f) (n := n) j.seg j.off j.size j.data
    unfold appendJobs
    rw [Program.play_bind]
    rw [allocated_append, committed_append, ha, hc]
    cases ((putAppend j.seg j.off j.size j.data).play f n).2 with
    | error e => exact ⟨rfl, rfl⟩
    | ok u => exact ih

/-- `PutCommit` commits the mapping when it succeeds. -/
theorem accounts_putCommit {seg off : Int} {value : Bytes}
    (h : ((putCommit key seg off size value).play f n).2 = .ok ()) :
    allocated ((putCommit key seg off size value).play f n).1 = [] ∧
      committed ((putCommit key seg off size value).play f n).1 = [(key, ⟨seg, off, size⟩)] := by
  have hreply : f n (.commit key ⟨seg, off, size⟩ value) = .ok () := h
  unfold putCommit
  rw [Program.play_perform, hreply]
  exact ⟨rfl, rfl⟩

/-- **`Put` allocates one extent and commits it** when it succeeds. -/
theorem accounts_put {data : Bytes} (h : ((put L key size data).play f n).2 = .ok ()) :
    ∃ x, allocated ((put L key size data).play f n).1 = [x] ∧
      committed ((put L key size data).play f n).1 = [(key, x)] := by
  unfold put at h ⊢
  rw [Program.play_bind] at h ⊢
  cases hbegin : ((putBegin L size).play f n).2 with
  | error e =>
    rw [hbegin] at h
    cases h
  | ok x =>
    obtain ⟨seg, off⟩ := x
    obtain ⟨ha, hc⟩ := accounts_putBegin hbegin
    refine ⟨⟨seg, off, size⟩, ?_⟩
    rw [hbegin] at h
    simp only [allocated_append, committed_append, ha, hc]
    dsimp only at h ⊢
    rw [Program.play_bind] at h ⊢
    simp only [allocated_append, committed_append]
    generalize n + ((putBegin L size).play f n).1.length = m at h ⊢
    have happend : ∀ p : PutProc (Res Unit),
        p = (if 0 < size then putAppend seg off size data else pure (.ok ())) →
          allocated (p.play f m).1 = [] ∧ committed (p.play f m).1 = [] := by
      rintro p rfl
      split
      · exact accounts_putAppend seg off size data
      · exact ⟨rfl, rfl⟩
    obtain ⟨ha', hc'⟩ := happend _ rfl
    rw [ha', hc']
    generalize (if 0 < size then putAppend seg off size data else pure (.ok ()) :
      PutProc (Res Unit)) = p at h ⊢
    cases hr : (p.play f m).2 with
    | error e =>
      rw [hr] at h
      cases h
    | ok u =>
      rw [hr] at h
      obtain ⟨ha'', hc''⟩ := accounts_putCommit h
      dsimp only
      rw [ha'', hc'']
      exact ⟨rfl, rfl⟩

/-- The pipeline commits the extent of its task when it succeeds. -/
theorem accounts_submit {t : WriteTask} (h : ((submit t).play f n).2 = .ok ()) :
    allocated ((submit t).play f n).1 = [] ∧
      committed ((submit t).play f n).1 = [(t.key, ⟨t.seg, t.off, t.size⟩)] := by
  have hreply : f (n + 1) (.done t) = .ok () := h
  have htr : ((submit t).play f n).1 = [⟨.enqueue t, f n (.enqueue t)⟩,
      ⟨.done t, f (n + 1) (.done t)⟩] := rfl
  rw [htr, hreply]
  exact ⟨rfl, rfl⟩

theorem mapStorageErr_ne_ok (e : Err) : mapStorageErr e ≠ .ok := by
  cases e <;> exact fun h => by cases h

/-- A handler that answers with the outcome of `p`. -/
theorem accounts_answer {p : PutProc (Res Unit)}
    (h : ((p >>= fun r => pure (some (codeOf r))).play f n).2 = some .ok) :
    (p.play f n).2 = .ok () ∧
      allocated ((p >>= fun r => pure (some (codeOf r))).play f n).1 = allocated (p.play f n).1 ∧
      committed ((p >>= fun r => pure (some (codeOf r))).play f n).1 = committed (p.play f n).1 := by
  rw [Program.play_bind] at h ⊢
  refine ⟨?_, ?_, ?_⟩
  · have hcode := Option.some.inj h
    cases hr : (p.play f n).2 with
    | error e =>
      rw [hr] at hcode
      exact absurd hcode (mapStorageErr_ne_ok e)
    | ok u => rfl
  · rw [allocated_append, Program.play_pure, allocated_nil, List.append_nil]
  · rw [committed_append, Program.play_pure, committed_nil, List.append_nil]

/-- A handler that begins with `PutBegin`. -/
theorem accounts_begin {k : Int → Int → PutProc (Option ErrCode)} {p : PutProc (Option ErrCode)}
    (hp : p = putBegin L size >>= fun r =>
      match r with
      | .error e => pure (some (mapStorageErr e))
      | .ok (seg, off) => k seg off)
    (h : (p.play f n).2 = some .ok) :
    ∃ seg off m, ((k seg off).play f m).2 = some .ok ∧
      allocated (p.play f n).1 = ⟨seg, off, size⟩ :: allocated ((k seg off).play f m).1 ∧
      committed (p.play f n).1 = committed ((k seg off).play f m).1 := by
  subst hp
  rw [Program.play_bind] at h ⊢
  cases hbegin : ((putBegin L size).play f n).2 with
  | error e =>
    rw [hbegin] at h
    exact absurd (Option.some.inj h) (mapStorageErr_ne_ok e)
  | ok x =>
    obtain ⟨seg, off⟩ := x
    obtain ⟨ha, hc⟩ := accounts_putBegin hbegin
    rw [hbegin] at h
    refine ⟨seg, off, _, h, ?_, ?_⟩
    · rw [allocated_append, ha]
      rfl
    · rw [committed_append, hc]
      rfl

end Accounts

/-! ## 8. The handlers -/

section Handlers

variable {f : Nat → (o : PutOp) → o.Reply} {n : Nat} {key : Key} {size : Int} {cfg : Config}
  {frames : List PutFrame}

/-- An answer that is queued is the outcome of the task, too. -/
theorem async_eq (t : WriteTask) :
    (do
      submitAsync t
      let code ← awaitPending t
      pure (some code) : PutProc (Option ErrCode)) =
      submit t >>= fun r => pure (some (codeOf r)) := rfl

/-- **The TCP handler**: without the write pipeline it begins twice. -/
theorem accounts_handlePut
    (h : ((handlePut L cfg (some (key, size)) frames).play f n).2 = some .ok) :
    ∃ x, committed ((handlePut L cfg (some (key, size)) frames).play f n).1 = [(key, x)] ∧
      if cfg.writer = false ∧ size ≠ 0 then
        ∃ y, allocated ((handlePut L cfg (some (key, size)) frames).play f n).1 = [y, x]
      else allocated ((handlePut L cfg (some (key, size)) frames).play f n).1 = [x] := by
  generalize hp : handlePut L cfg (some (key, size)) frames = p at h ⊢
  unfold handlePut at hp
  simp only at hp
  split at hp
  · subst hp
    cases h
  split at hp
  · subst hp
    cases h
  split at hp
  · rename_i hzero
    subst hp
    obtain ⟨hr, ha, hc⟩ := accounts_answer h
    obtain ⟨x, hx, hx'⟩ := accounts_put hr
    refine ⟨x, hc.trans hx', ?_⟩
    rw [if_neg (fun hn => hn.2 hzero)]
    exact ha.trans hx
  · rename_i hzero
    obtain ⟨seg, off, m, hk, ha, hc⟩ := accounts_begin hp.symm h
    rw [ha, hc]
    cases hg : gather size 0 [] frames with
    | lost =>
      rw [hg] at hk
      cases hk
    | refused =>
      rw [hg] at hk
      cases hk
    | whole ps =>
      rw [hg] at hk
      simp only at hk ⊢
      cases hw : cfg.writer with
      | true =>
        simp only [hw, if_true] at hk ⊢
        obtain ⟨hr, ha', hc'⟩ := accounts_answer hk
        obtain ⟨hx, hx'⟩ := accounts_submit hr
        refine ⟨⟨seg, off, size⟩, hc'.trans hx', ?_⟩
        rw [ha', hx]
        simp
      | false =>
        simp only [hw, Bool.false_eq_true, if_false] at hk ⊢
        obtain ⟨hr, ha', hc'⟩ := accounts_answer hk
        obtain ⟨x, hx, hx'⟩ := accounts_put hr
        refine ⟨x, hc'.trans hx', ?_⟩
        rw [if_pos ⟨trivial, hzero⟩, ha', hx]
        exact ⟨_, rfl⟩

/-- **The shm handler** begins once. -/
theorem accounts_handleShmPut
    (h : ((handleShmPut L cfg (some (key, size)) frames).play f n).2 = some .ok) :
    ∃ x, allocated ((handleShmPut L cfg (some (key, size)) frames).play f n).1 = [x] ∧
      committed ((handleShmPut L cfg (some (key, size)) frames).play f n).1 = [(key, x)] := by
  generalize hp : handleShmPut L cfg (some (key, size)) frames = p at h ⊢
  unfold handleShmPut at hp
  simp only at hp
  split at hp
  · subst hp
    cases h
  split at hp
  · subst hp
    cases h
  obtain ⟨seg, off, m, hk, ha, hc⟩ := accounts_begin hp.symm h
  refine ⟨⟨seg, off, size⟩, ?_⟩
  rw [ha, hc]
  split at hk
  · rename_i hzero
    subst hzero
    simp only [if_true]
    split at hk
    · cases hk
    · obtain ⟨hr, ha', hc'⟩ := accounts_answer hk
      obtain ⟨hx, hx'⟩ := accounts_putCommit hr
      exact ⟨congrArg (_ :: ·) (ha'.trans hx), hc'.trans hx'⟩
    · cases hk
  · rename_i hzero
    simp only [if_neg hzero]
    cases hg : gather size 0 [] frames with
    | lost =>
      rw [hg] at hk
      cases hk
    | refused =>
      rw [hg] at hk
      cases hk
    | whole ps =>
      rw [hg] at hk
      simp only at hk ⊢
      by_cases hw : cfg.writer
      · simp only [if_pos hw] at hk ⊢
        by_cases hin : 0 < cfg.inflight
        · simp only [if_pos hin] at hk ⊢
          rw [async_eq] at hk ⊢
          obtain ⟨hr, ha', hc'⟩ := accounts_answer hk
          obtain ⟨hx, hx'⟩ := accounts_submit hr
          exact ⟨congrArg (_ :: ·) (ha'.trans hx), hc'.trans hx'⟩
        · simp only [if_neg hin] at hk ⊢
          obtain ⟨hr, ha', hc'⟩ := accounts_answer hk
          obtain ⟨hx, hx'⟩ := accounts_submit hr
          exact ⟨congrArg (_ :: ·) (ha'.trans hx), hc'.trans hx'⟩
      · simp only [if_neg hw] at hk ⊢
        rw [Program.play_bind] at hk ⊢
        obtain ⟨hja, hjc⟩ := accounts_appendJobs (f := f) (n := m) (jobsFrom seg off 0 ps)
        rw [allocated_append, committed_append, hja, hjc]
        cases hr : ((appendJobs (jobsFrom seg off 0 ps)).play f m).2 with
        | error e =>
          rw [hr] at hk
          exact absurd (Option.some.inj hk) (mapStorageErr_ne_ok e)
        | ok u =>
          rw [hr] at hk
          obtain ⟨hr', ha', hc'⟩ := accounts_answer hk
          obtain ⟨hx, hx'⟩ := accounts_putCommit hr'
          exact ⟨congrArg (_ :: ·) (ha'.trans hx), hc'.trans hx'⟩

end Handlers

/-! ## 9. One Put, one extent -/

namespace Served

variable (p : Served L)

/-- **A Put allocates the one extent that it commits** exactly when it does not begin twice. -/
theorem oneExtent_iff : p.OneExtent ↔ ¬ p.BeginsTwice := by
  obtain ⟨path, cfg, key, size, frames, replies, h⟩ := p
  cases path with
  | tcp =>
    obtain ⟨x, hc, ha⟩ := accounts_handlePut h
    by_cases hb : cfg.writer = false ∧ size ≠ 0
    · rw [if_pos hb] at ha
      obtain ⟨y, ha⟩ := ha
      refine ⟨?_, fun hn => absurd ⟨rfl, hb⟩ hn⟩
      rintro ⟨z, hz, -⟩
      cases ha.symm.trans hz
    · rw [if_neg hb] at ha
      exact ⟨fun _ hn => hb hn.2, fun _ => ⟨x, ha, hc⟩⟩
  | shm =>
    obtain ⟨x, ha, hc⟩ := accounts_handleShmPut h
    exact ⟨fun _ hn => (nomatch hn.1), fun _ => ⟨x, ha, hc⟩⟩

end Served

/-- The extents that a sequence of Puts has allocated. -/
def allocatedBy (ps : List (Served L)) : List ObjectMeta :=
  ps.flatMap (fun p => allocated p.trace)

/-- The mappings that it has committed. -/
def committedBy (ps : List (Served L)) : List (Key × ObjectMeta) :=
  ps.flatMap (fun p => committed p.trace)

/-- **In a sequence of Puts that were answered `CodeOK`** each allocates one extent, the one of
its mapping, and every extent belongs to a mapping, exactly when none of them begins twice. -/
theorem puts_allocate_once_iff (ps : List (Served L)) :
    ((∀ p ∈ ps, p.OneExtent) ∧
        ∀ x ∈ allocatedBy ps, ∃ p ∈ ps, (p.key, x) ∈ committedBy ps) ↔
      ∀ p ∈ ps, ¬ p.BeginsTwice := by
  constructor
  · rintro ⟨hone, -⟩ p hp
    exact p.oneExtent_iff.mp (hone p hp)
  · intro h
    have hone : ∀ p ∈ ps, p.OneExtent := fun p hp => p.oneExtent_iff.mpr (h p hp)
    refine ⟨hone, fun x hx => ?_⟩
    obtain ⟨p, hp, hx⟩ := List.mem_flatMap.mp hx
    obtain ⟨y, ha, hc⟩ := hone p hp
    rw [ha] at hx
    rw [← List.mem_singleton.mp hx] at hc
    exact ⟨p, hp, List.mem_flatMap.mpr ⟨p, hp, by rw [hc]; exact List.mem_singleton.mpr rfl⟩⟩

/-- The replies to a Put of three bytes over TCP without a write pipeline: all calls succeed, the
second extent lies behind the first. -/
def plainReplies (n : Nat) : (o : PutOp) → o.Reply
  | .allocate _ => .ok (0, if n = 0 then 0 else 4096)
  | .append _ _ _ _ => .ok ()
  | .commit _ _ _ => .ok ()
  | .enqueue _ => ()
  | .done _ => .ok ()

def plainPut : Served ⟨16384, 4⟩ where
  path := .tcp
  cfg := ⟨false, 0⟩
  key := [9]
  size := 3
  frames := [.data [1, 2, 3], .last]
  replies := plainReplies
  answered := by decide +kernel

/-- **Without the write pipeline a Put over TCP allocates twice.** -/
theorem plain_put_allocates_twice :
    ¬ ∀ p : Served ⟨16384, 4⟩, p.OneExtent := by
  intro h
  obtain ⟨x, hx, -⟩ := h plainPut
  have hlen : (allocated plainPut.trace).length = 1 := congrArg List.length hx
  exact absurd hlen (by decide +kernel)

end Taihu.PutAllocation
