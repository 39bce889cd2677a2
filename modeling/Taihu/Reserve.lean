/-
# The reserve

`reserveSegs` of `internal/metastore/kv_pebble.go`: the last two segments are for compaction.
The bound stands in one place, the check before the cursor moves on to the next segment.  But the
calls of users and of compaction share the cursor and the pool, so there are two ways past it:
compaction has left the cursor in the reserve and an item still fits behind it, or a segment of
the reserve has been reclaimed and is the head of the pool.

`reserve_kept_of_run` says that there is no third way.  In every run in which no allocation of a
user finds the cursor or the head of the pool so, none returns a segment of the reserve, and no
put in progress has an extent there.
-/
import Taihu.FailedAllocation

namespace Taihu

open Concur Program

/-! ## 1. Calls that may use the reserve -/

/-- The first segment of the reserve. -/
def Layout.userEnd (L : Layout) : Int := L.segmentCount - reserveSegs

/-- The calls that allocate for compaction. -/
def Call.compacts : Call → Bool
  | .allocateSegmentReserve _ => true
  | .moveObject _ => true
  | .compactOnce _ _ => true
  | _ => false

/-- The calls of users that return extents. -/
def Call.allocates : Call → Bool
  | .allocateSegment _ => true
  | .allocateSegmentBatch _ => true
  | _ => false

theorem Call.not_compacts_of_allocates {call : Call} (h : call.allocates = true) :
    call.compacts = false := by
  cases call <;> first | rfl | cases h

/-- The extents in a result lie before `last`. -/
def Before (last : Int) : Result → Prop
  | .ok (.extent seg _) => seg < last
  | .ok (.extents xs) => ∀ x ∈ xs, x.1 < last
  | _ => True

/-- Segments are checked only up to `last`. -/
def Op.ChecksBefore (last : Int) : Op → Prop
  | .segs (.canUse id) => id < last
  | _ => True

variable {L : Layout} {s s' : Sys} {l l' : Local} {rest : List Local} {last : Int}

/-! ## 2. The calls of users check only up to the reserve -/

theorem Op.OffAlloc.checksBefore {o : Op} (h : o.OffAlloc) : o.ChecksBefore last := by
  cases o with
  | segs o => cases o <;> first | exact True.intro | exact absurd h id
  | _ => exact True.intro

section

variable {α : Type}

theorem before_of_plain {p : Proc α} (h : Uses Op.Plain p) : Uses (Op.ChecksBefore last) p :=
  h.mono fun _ ho => ho.offAlloc.checksBefore

theorem before_of_quiet {p : Proc α} (h : Uses Op.Quiet p) : Uses (Op.ChecksBefore last) p :=
  before_of_plain (h.mono fun _ ho => ho.plain)

theorem before_of_offAlloc {p : Proc α} (h : Uses Op.OffAlloc p) :
    Uses (Op.ChecksBefore last) p := h.mono fun _ ho => ho.checksBefore

end

theorem before_rollSegment (a : Allocator) :
    Uses (Op.ChecksBefore L.userEnd) (rollSegment L a false) := by
  refine Uses.bind (.ite (uses_perform True.intro) True.intro) fun marked => .ite ?_ True.intro
  simp only [Bool.false_eq_true, if_false]
  refine Uses.bind ?_ fun next => .ite ?_ ?_
  · split
    · rename_i h
      have hlt : (Op.segs (.canUse (a.curSeg + 1))).ChecksBefore L.userEnd := h
      exact uses_perform hlt
    · exact True.intro
  · exact .step True.intro fun _ => .step True.intro fun ok => .ite True.intro True.intro
  · refine .step True.intro fun x => ?_
    cases x with
    | none => exact True.intro
    | some seg => exact .step True.intro fun _ => True.intro

theorem before_allocOneLocked (size : Int) :
    Uses (Op.ChecksBefore L.userEnd) (allocOneLocked L size false) := by
  refine .step True.intro fun a => ?_
  refine Uses.bind (.ite (before_rollSegment a) True.intro) fun rolled => ?_
  cases rolled with
  | error e => exact True.intro
  | ok u => exact .step True.intro fun _ => True.intro

theorem before_allocate (size : Int) :
    Uses (Op.ChecksBefore L.userEnd) (allocate L size false) := by
  refine .step True.intro fun _ => .step True.intro fun _ => ?_
  refine (before_allocOneLocked size).bind fun r => ?_
  cases r with
  | error e => exact .step True.intro fun _ => True.intro
  | ok x =>
    exact .step True.intro fun _ => .step True.intro fun ok => .step True.intro fun _ =>
      .ite True.intro True.intro

theorem before_allocBatchLoop (sizes : List Int) :
    Uses (Op.ChecksBefore L.userEnd) (allocBatchLoop L sizes) := by
  induction sizes with
  | nil => exact True.intro
  | cons size sizes ih =>
    refine (before_allocOneLocked size).bind fun r => ?_
    cases r with
    | error e => exact True.intro
    | ok x =>
      refine ih.bind fun rs => ?_
      cases rs <;> exact True.intro

theorem before_allocateSegmentBatch (sizes : List Int) :
    Uses (Op.ChecksBefore L.userEnd) (allocateSegmentBatch L sizes) := by
  refine .step True.intro fun _ => .step True.intro fun _ => ?_
  refine (before_allocBatchLoop sizes).bind fun r => ?_
  cases r with
  | error e => exact .step True.intro fun _ => True.intro
  | ok xs =>
    refine .ite (.step True.intro fun _ => True.intro) ?_
    exact .step True.intro fun _ => .step True.intro fun ok => .step True.intro fun _ =>
      .ite True.intro True.intro

theorem before_putBegin (size : Int) : Uses (Op.ChecksBefore L.userEnd) (putBegin L size) :=
  .ite True.intro (.ite True.intro (before_allocate size))

theorem before_put (key : Key) (size : Int) (data : Bytes) :
    Uses (Op.ChecksBefore L.userEnd) (put L key size data) := by
  refine (before_putBegin size).bind fun r => ?_
  cases r with
  | error e => exact True.intro
  | ok x =>
    refine Uses.bind (.ite ?_ True.intro) fun r => ?_
    · exact .ite True.intro (before_of_plain (plain_devAppend _ _ _ _))
    · cases r with
      | error e => exact True.intro
      | ok u => exact before_of_offAlloc (offAlloc_putMapping _ _ _)

theorem before_writeAndCommit (xs : List (PutItem × (Int × Int))) :
    Uses (Op.ChecksBefore last) (writeAndCommit L xs) := by
  refine (before_of_plain (plain_devAppendBatch _)).bind fun r => ?_
  cases r with
  | error e => exact True.intro
  | ok u => exact before_of_offAlloc (offAlloc_batchPutMapping _)

theorem before_batchPut (items : List PutItem) :
    Uses (Op.ChecksBefore L.userEnd) (batchPut L items) := by
  refine .ite True.intro ?_
  split
  · exact True.intro
  · refine (before_allocateSegmentBatch _).bind fun r => ?_
    cases r with
    | error e => exact True.intro
    | ok exts => exact before_writeAndCommit _

theorem before_pipelineBegin (items : List PutItem) :
    Uses (Op.ChecksBefore L.userEnd) (pipelineBegin L items) := by
  induction items with
  | nil => exact True.intro
  | cons it items ih =>
    refine (before_putBegin it.size).bind fun r => ?_
    cases r with
    | error e => exact True.intro
    | ok x =>
      refine ih.bind fun rs => ?_
      cases rs <;> exact True.intro

theorem before_pipelinePut (items : List PutItem) :
    Uses (Op.ChecksBefore L.userEnd) (pipelinePut L items) := by
  refine (before_pipelineBegin items).bind fun r => ?_
  cases r with
  | error e => exact True.intro
  | ok xs => exact before_writeAndCommit xs

/-- Every call but those of compaction. -/
theorem code_before (L : Layout) {call : Call} (h : call.compacts = false) :
    Uses (Op.ChecksBefore L.userEnd) (code L call) := by
  have hmap : ∀ {α β : Type} {p : Proc α} {f : α → β}, Uses (Op.ChecksBefore L.userEnd) p →
      Uses (Op.ChecksBefore L.userEnd) (p >>= fun a => Pure.pure (f a)) :=
    fun hp => hp.bind fun a => True.intro
  cases call with
  | getMapping key => exact hmap (before_of_quiet (quiet_getMapping key))
  | getMappingRef key => exact hmap (before_of_quiet (quiet_getMappingRef key))
  | putMapping key md => exact hmap (before_of_offAlloc (offAlloc_putMapping key md none))
  | deleteMapping key => exact hmap (before_of_offAlloc (offAlloc_deleteMapping key))
  | moveMapping key old new => exact hmap (before_of_offAlloc (offAlloc_moveMapping key old new))
  | batchGetMapping keys order => exact hmap (before_of_quiet (quiet_batchGetMapping keys order))
  | batchPutMapping items => exact hmap (before_of_offAlloc (offAlloc_batchPutMapping items))
  | batchDeleteMapping keys => exact hmap (before_of_offAlloc (offAlloc_batchDeleteMapping keys))
  | loadCache => exact hmap (before_of_quiet quiet_loadCache)
  | allocateSegment size => exact hmap (before_allocate size)
  | allocateSegmentReserve size => exact absurd h (by simp [Call.compacts])
  | allocateSegmentBatch sizes => exact hmap (before_allocateSegmentBatch sizes)
  | markCompacting id => exact hmap (before_of_quiet (quiet_markCompacting id))
  | reclaimOnce order => exact hmap (before_of_quiet (quiet_reclaimOnce order))
  | put key size data => exact hmap (before_put key size data)
  | batchPut items => exact hmap (before_batchPut items)
  | pipelinePut items => exact hmap (before_pipelinePut items)
  | stat key => exact hmap (before_of_quiet (quiet_stat key))
  | readAt key off size => exact hmap (before_of_quiet (quiet_readAt key off size))
  | asyncGet key off =>
    refine Uses.bind (before_of_quiet (quiet_asyncGet key off)) fun r => ?_
    cases r <;> exact True.intro
  | batchRead blocks order => exact hmap (before_of_quiet (quiet_batchRead blocks order))
  | moveObject key => exact absurd h (by simp [Call.compacts])
  | compactOnce cfg order => exact absurd h (by simp [Call.compacts])

/-! ## 3. What a user's allocation returns -/

/-- Every extent a user takes lies before `last`, if each step of the thread gives it one. -/
def fence (last : Int) : Contract sig Local where
  pre := fun o l => l.hist.call.compacts = false → o.ChecksBefore last
  gives := fun o l r l' => l'.hist.call = l.hist.call ∧ match o, r with
    | .alloc (.take _), x => l.hist.call.compacts = false → x.1 < last
    | _, _ => True

theorem fence_call {o : Op} {r : o.Reply} (h : (fence last).gives o l r l') :
    l'.hist.call = l.hist.call := h.1

section

variable {α : Type} {call : Call}

/-- A program that checks no segment of the reserve keeps to its call. -/
theorem keeps_fence {p : Proc α} (h : Uses (Op.ChecksBefore last) p) (hl : l.hist.call = call) :
    Keeps (fence last) (fun _ l' => l'.hist.call = call) p l := by
  refine h.keeps (I := fun l : Local => l.hist.call = call) hl fun o l ho hl => ⟨fun _ => ho, ?_⟩
  exact fun r l' hg => (fence_call hg).trans hl

/-- A call of compaction is not fenced. -/
theorem keeps_unfenced (p : Proc α) : ∀ l : Local, l.hist.call = call → call.compacts = true →
    Keeps (fence last) (fun _ l' => l'.hist.call = call) p l := by
  induction p with
  | pure a => exact fun l hl _ => hl
  | request o next ih =>
    intro l hl hc
    refine ⟨fun hn => ?_, fun r l' hg => ih r l' ((fence_call hg).trans hl) hc⟩
    rw [hl, hc] at hn
    exact absurd hn (by simp)

/-- The extents in what an allocation returns lie before `last`. -/
def OkAll {β : Type} (P : β → Prop) : Res β → Prop
  | .ok b => P b
  | .error _ => True

theorem fence_allocOneLocked (size : Int) (hl : l.hist.call = call) (hc : call.compacts = false) :
    Keeps (fence L.userEnd) (fun r l' => l'.hist.call = call ∧ OkAll (fun x => x.1 < L.userEnd) r)
      (allocOneLocked L size false) l := by
  refine ⟨fun _ => True.intro, fun a l1 h1 => ?_⟩
  have hl1 := (fence_call h1).trans hl
  have hroll : Uses (Op.ChecksBefore L.userEnd)
      (if a.curOff + align4k size > L.segmentSizeBytes then rollSegment L a false
        else Pure.pure (.ok ())) := .ite (before_rollSegment a) True.intro
  refine (keeps_fence hroll hl1).bind fun rolled l2 hl2 => ?_
  cases rolled with
  | error e => exact ⟨hl2, True.intro⟩
  | ok u =>
    refine ⟨fun _ => True.intro, fun x l3 h3 => ?_⟩
    refine ⟨(fence_call h3).trans hl2, h3.2 ?_⟩
    rw [hl2]
    exact hc

theorem fence_allocate (size : Int) (hl : l.hist.call = call) (hc : call.compacts = false) :
    Keeps (fence L.userEnd) (fun r l' => l'.hist.call = call ∧ OkAll (fun x => x.1 < L.userEnd) r)
      (allocate L size false) l := by
  refine ⟨fun _ => True.intro, fun _ l1 h1 => ⟨fun _ => True.intro, fun _ l2 h2 => ?_⟩⟩
  have hl2 := (fence_call h2).trans ((fence_call h1).trans hl)
  refine (fence_allocOneLocked size hl2 hc).bind fun r l3 h3 => ?_
  cases r with
  | error e =>
    exact ⟨fun _ => True.intro, fun _ l4 h4 => ⟨(fence_call h4).trans h3.1, True.intro⟩⟩
  | ok x =>
    refine ⟨fun _ => True.intro, fun a l4 h4 => ⟨fun _ => True.intro, fun ok l5 h5 => ?_⟩⟩
    refine ⟨fun _ => True.intro, fun _ l6 h6 => ?_⟩
    have hl6 := (fence_call h6).trans ((fence_call h5).trans ((fence_call h4).trans h3.1))
    cases ok with
    | true => exact ⟨hl6, h3.2⟩
    | false => exact ⟨hl6, True.intro⟩

theorem fence_allocBatchLoop (sizes : List Int) (hc : call.compacts = false) :
    ∀ l : Local, l.hist.call = call →
      Keeps (fence L.userEnd)
        (fun r l' => l'.hist.call = call ∧ OkAll (fun xs => ∀ x ∈ xs, x.1 < L.userEnd) r)
        (allocBatchLoop L sizes) l := by
  induction sizes with
  | nil => exact fun l hl => ⟨hl, fun x hx => absurd hx List.not_mem_nil⟩
  | cons size sizes ih =>
    intro l hl
    refine (fence_allocOneLocked size hl hc).bind fun r l1 h1 => ?_
    cases r with
    | error e => exact ⟨h1.1, True.intro⟩
    | ok x =>
      refine (ih l1 h1.1).bind fun rs l2 h2 => ?_
      cases rs with
      | error e => exact ⟨h2.1, True.intro⟩
      | ok xs => exact ⟨h2.1, List.forall_mem_cons.mpr ⟨h1.2, h2.2⟩⟩

theorem fence_allocateSegmentBatch (sizes : List Int) (hl : l.hist.call = call)
    (hc : call.compacts = false) :
    Keeps (fence L.userEnd)
      (fun r l' => l'.hist.call = call ∧ OkAll (fun xs => ∀ x ∈ xs, x.1 < L.userEnd) r)
      (allocateSegmentBatch L sizes) l := by
  refine ⟨fun _ => True.intro, fun _ l1 h1 => ⟨fun _ => True.intro, fun _ l2 h2 => ?_⟩⟩
  have hl2 := (fence_call h2).trans ((fence_call h1).trans hl)
  refine (fence_allocBatchLoop sizes hc l2 hl2).bind fun r l3 h3 => ?_
  cases r with
  | error e =>
    exact ⟨fun _ => True.intro, fun _ l4 h4 => ⟨(fence_call h4).trans h3.1, True.intro⟩⟩
  | ok xs =>
    refine Keeps.ite (fun _ => ?_) (fun _ => ?_)
    · exact ⟨fun _ => True.intro, fun _ l4 h4 => ⟨(fence_call h4).trans h3.1, h3.2⟩⟩
    · refine ⟨fun _ => True.intro, fun a l4 h4 => ⟨fun _ => True.intro, fun ok l5 h5 => ?_⟩⟩
      refine ⟨fun _ => True.intro, fun _ l6 h6 => ?_⟩
      have hl6 := (fence_call h6).trans ((fence_call h5).trans ((fence_call h4).trans h3.1))
      cases ok with
      | true => exact ⟨hl6, h3.2⟩
      | false => exact ⟨hl6, True.intro⟩

end

/-- What a thread has when its call returns. -/
def Fenced (last : Int) (v : Result) (l : Local) : Prop :=
  l.hist.call.allocates = true → Before last v

/-- **Every call keeps to the fence.** -/
theorem code_fenced (L : Layout) (call : Call) (l : Local) (hl : l.hist.call = call) :
    Keeps (fence L.userEnd) (Fenced L.userEnd) (code L call) l := by
  cases hc : call.compacts with
  | true =>
    refine (keeps_unfenced (code L call) l hl hc).mono fun v l' hl' ha => ?_
    rw [hl'] at ha
    exact absurd (Call.not_compacts_of_allocates ha) (by simp [hc])
  | false =>
    cases ha : call.allocates with
    | false =>
      refine (keeps_fence (code_before L hc) hl).mono fun v l' hl' hal => ?_
      rw [hl', ha] at hal
      exact absurd hal (by simp)
    | true =>
      cases call with
      | allocateSegment size =>
        refine (fence_allocate size hl hc).bind fun r l' h => ?_
        cases r with
        | error e => exact fun _ => True.intro
        | ok x => exact fun _ => h.2
      | allocateSegmentBatch sizes =>
        refine (fence_allocateSegmentBatch sizes hl hc).bind fun r l' h => ?_
        cases r with
        | error e => exact fun _ => True.intro
        | ok xs => exact fun _ => h.2
      | _ => exact absurd ha (by simp [Call.allocates])

/-! ## 4. Runs -/

/-- The allocations of users do not go wrong: an item that fits behind the cursor finds it before
the reserve, and so is the segment taken from the pool. -/
def KeepsReserve (L : Layout) (s : Sys) (l : Local) : Op → Prop
  | .alloc (.take _) =>
    l.hist.call.compacts = false → l.hist.roll = none → s.alloc.curSeg < L.userEnd
  | .segs .popFree =>
    l.hist.call.compacts = false → ∀ id ∈ s.segs.free.head?, id < L.userEnd
  | _ => True

instance (L : Layout) (s : Sys) (l : Local) (o : Op) : Decidable (KeepsReserve L s l o) :=
  match o with
  | .alloc (.take _) => by unfold KeepsReserve; infer_instance
  | .alloc .lock => inferInstanceAs (Decidable True)
  | .alloc .unlock => inferInstanceAs (Decidable True)
  | .alloc .ensureLoaded => inferInstanceAs (Decidable True)
  | .alloc .read => inferInstanceAs (Decidable True)
  | .alloc (.setCursor _ _) => inferInstanceAs (Decidable True)
  | .alloc (.persist _ _) => inferInstanceAs (Decidable True)
  | .segs .popFree => by unfold KeepsReserve; infer_instance
  | .segs .lock => inferInstanceAs (Decidable True)
  | .segs .unlock => inferInstanceAs (Decidable True)
  | .segs (.putObjectLocked _ _ _ _) => inferInstanceAs (Decidable True)
  | .segs (.delObjectLocked _ _) => inferInstanceAs (Decidable True)
  | .segs (.ref _ _) => inferInstanceAs (Decidable True)
  | .segs (.unref _) => inferInstanceAs (Decidable True)
  | .segs (.canUse _) => inferInstanceAs (Decidable True)
  | .segs (.activate _) => inferInstanceAs (Decidable True)
  | .segs (.markFull _) => inferInstanceAs (Decidable True)
  | .segs (.markCompacting _) => inferInstanceAs (Decidable True)
  | .segs (.gcCandidates _) => inferInstanceAs (Decidable True)
  | .segs (.gcFinalize _) => inferInstanceAs (Decidable True)
  | .cache _ => inferInstanceAs (Decidable True)
  | .pebble _ => inferInstanceAs (Decidable True)
  | .dev _ => inferInstanceAs (Decidable True)

/-- What a user's thread has stays before `last`: the segment it rolls to, and its extents. -/
structure Local.Before (last : Int) (l : Local) : Prop where
  roll : ∀ id b, l.hist.roll = some (id, b) → id < last
  opens : ∀ x ∈ l.hist.opens, x.span.region < last

/-- The invariant: the allocator's views are right, and users' threads stay before the reserve. -/
structure ReserveKept (L : Layout) (s : Sys) (ls : List Local) : Prop where
  alloc : AllocSound s ls
  users : ∀ l ∈ ls, l.hist.call.compacts = false → l.Before L.userEnd

/-- Only `take` opens an extent. -/
theorem opens_spans {o : Op} {r : o.Reply} (h : exec L s l o = some (s', l', r))
    (ho : ∀ n, o ≠ .alloc (.take n)) {x : Opened} (hx : x ∈ l'.hist.opens) :
    ∃ y ∈ l.hist.opens, y.span = x.span := by
  rcases opens_cases h with heq | ⟨n, rfl, -⟩ | ⟨seg, off, -, heq⟩ | ⟨seg, off, block, -, heq⟩ |
    ⟨-, heq⟩
  · exact ⟨x, heq ▸ hx, rfl⟩
  · exact absurd rfl (ho n)
  · rw [heq] at hx
    obtain ⟨y, hy, rfl⟩ := List.mem_map.mp hx
    exact ⟨y, hy, rfl⟩
  · rw [heq] at hx
    obtain ⟨y, hy, rfl⟩ := List.mem_map.mp hx
    exact ⟨y, hy, (y.extend_span seg off block).symm⟩
  · rw [heq] at hx
    exact ⟨x, (List.mem_filter.mp hx).1, rfl⟩

/-- `popFree` takes the head of the pool. -/
theorem popFree_head {db db' : DB} {m m' : SegmentManager} {id : Int}
    (h : SegmentManager.popFree db m = some (some id, db', m')) : m.free.head? = some id := by
  rcases SegmentManager.popFree_cases h with ⟨-, hx⟩ | ⟨i, rest, e, ok, db1, hfree, -, -, hcase⟩
  · cases hx
  rcases hcase with ⟨-, hx⟩ | ⟨-, hx⟩
  · cases hx
    rw [hfree]
    rfl
  · cases hx

/-- What a step leaves a user's thread with. -/
theorem Local.Before.step (h : l.Before last) (ha : AllocSound s (l :: rest)) {o : Op}
    {r : o.Reply} (hp : o.allocPre l.view) (hc : o.ChecksBefore last)
    (htake : ∀ n, o = .alloc (.take n) → l.hist.roll = none → s.alloc.curSeg < last)
    (hpop : o = .segs .popFree → ∀ id ∈ s.segs.free.head?, id < last)
    (hx : exec L s l o = some (s', l', r)) : l'.Before last := by
  constructor
  · intro id b hr
    have hroll : l'.view.roll = some (id, b) := hr
    have off : o.OffAlloc → id < last := by
      intro ho
      rw [view_frame hx ho] at hroll
      exact h.roll id b hroll
    cases o with
    | cache o => exact off True.intro
    | pebble o => exact off True.intro
    | dev o => exact off True.intro
    | segs o =>
      cases o with
      | canUse i =>
        rw [view_canUse hx] at hroll
        cases r with
        | true =>
          cases hroll
          exact hc
        | false => exact h.roll id b hroll
      | activate i =>
        rw [view_activate hx] at hroll
        cases hroll
        exact h.roll id false hp.1
      | markFull i =>
        rw [view_markFull hx] at hroll
        exact h.roll id b hroll
      | popFree =>
        rw [view_popFree hx] at hroll
        cases r with
        | none => exact h.roll id b hroll
        | some i =>
          cases hroll
          exact hpop rfl id (popFree_head (exec_popFree hx))
      | _ => exact off True.intro
    | alloc o =>
      cases o with
      | lock =>
        rw [view_lock hx] at hroll
        exact h.roll id b hroll
      | unlock =>
        rw [view_unlock hx] at hroll
        cases hroll
      | ensureLoaded =>
        rw [view_ensureLoaded hx] at hroll
        exact h.roll id b hroll
      | read =>
        rw [(view_read hx).1] at hroll
        exact h.roll id b hroll
      | setCursor seg off =>
        rw [view_setCursor hx] at hroll
        exact h.roll id b hroll
      | take n =>
        rw [(view_take hx).1] at hroll
        cases hroll
      | persist seg off =>
        rw [view_persist hx] at hroll
        exact h.roll id b hroll
  · intro x hin
    by_cases ho : ∃ n, o = .alloc (.take n)
    · obtain ⟨n, rfl⟩ := ho
      -- the extent lies in the segment under the cursor
      obtain ⟨he, rfl⟩ := exec_allocOp hx
      cases he
      rcases List.mem_cons.mp hin with rfl | hin
      · obtain ⟨-, -, a, hcur, hroll⟩ := hp
        rcases hroll with hroll | hroll
        · exact htake n rfl hroll
        · have hlt := h.roll a.curSeg true hroll
          rwa [← ha.knows a hcur] at hlt
      · exact h.opens x hin
    · obtain ⟨y, hy, he⟩ := opens_spans hx (fun n hn => ho ⟨n, hn⟩) hin
      rw [← he]
      exact h.opens y hy

theorem ReserveKept.step (h : ReserveKept L s (l :: rest)) {o : Op} {r : o.Reply}
    (hp : o.allocPre l.view) (hc : l.hist.call.compacts = false → o.ChecksBefore L.userEnd)
    (hok : KeepsReserve L s l o) (hx : exec L s l o = some (s', l', r)) :
    ReserveKept L s' (l' :: rest) := by
  refine ⟨h.alloc.step hp hx, fun x hin hcall => ?_⟩
  rcases List.mem_cons.mp hin with rfl | hin
  · rw [exec_call hx] at hcall
    refine (h.users l List.mem_cons_self hcall).step h.alloc hp (hc hcall) ?_ ?_ hx
    · rintro n rfl
      exact hok hcall
    · rintro rfl
      exact hok hcall
  · exact h.users x (List.mem_cons_of_mem _ hin) hcall

/-- The extent a user has just been given. -/
theorem ReserveKept.taken {n : Int} {x : Int × Int} (h : ReserveKept L s' (l' :: rest))
    (hx : exec L s l (.alloc (.take n)) = some (s', l', x)) (hc : l.hist.call.compacts = false) :
    x.1 < L.userEnd := by
  have hcall : l'.hist.call.compacts = false := by rw [exec_call hx, hc]
  have hb := h.users l' List.mem_cons_self hcall
  obtain ⟨he, rfl⟩ := exec_allocOp hx
  cases he
  exact hb.opens _ List.mem_cons_self

/-- Any call may start and the store may be reopened at any time; the allocations of users keep
to `KeepsReserve`. -/
def keepingReserve (L : Layout) : Rule sig Sys Local Call where
  permit := fun _ => True
  restarts := True
  allow := fun s l _ o => KeepsReserve L s l o

instance (call : Call) : Decidable ((keepingReserve L).permit call) :=
  inferInstanceAs (Decidable True)
instance : Decidable (keepingReserve L).restarts := inferInstanceAs (Decidable True)
instance (ls : List Local) (o : Op) : Decidable ((keepingReserve L).allow s l ls o) :=
  inferInstanceAs (Decidable (KeepsReserve L s l o))

theorem reserveKept_initial (h : s.allocMu = false) : ReserveKept L s [] :=
  ⟨allocSound_initial h, fun _ hl => absurd hl List.not_mem_nil⟩

/-- The reserve as an invariant of runs. -/
def reserveDiscipline (L : Layout) : Discipline (machine L) where
  toRule := keepingReserve L
  contract := (allocProtocol L).both (fence L.userEnd)
  inv := ReserveKept L
  post := fun v l => l.view = .idle ∧ Fenced L.userEnd v l
  perm := fun _ _ _ hp h => ⟨h.alloc.perm hp, fun l hl => h.users l (hp.mem_iff.mpr hl)⟩
  spawn := by
    intro s ls call _ h
    refine ⟨h.alloc.spawn rfl, fun l hl hc => ?_⟩
    rcases List.mem_cons.mp hl with rfl | hl
    · exact ⟨fun _ _ hr => absurd hr (by simp [machine]), fun x hx => absurd hx List.not_mem_nil⟩
    · exact h.users l hl hc
  starts := fun call _ => (code_allocates L call _ rfl).both (code_fenced L call _ rfl)
  retire := by
    intro s l rest a hv h
    refine ⟨⟨h.alloc.frame rfl rfl rfl rfl rfl fun _ => hv.1, ?_⟩, hv⟩
    intro x hx hc
    rcases List.mem_cons.mp hx with rfl | hx
    · exact ⟨(h.users l List.mem_cons_self hc).roll, fun x hx => absurd hx List.not_mem_nil⟩
    · exact h.users x (List.mem_cons_of_mem _ hx) hc
  restart := fun _ _ _ _ => reserveKept_initial rfl
  sound := by
    intro s l rest o s' l' r h hp hok hx
    have hnext := h.step hp.1 hp.2 hok hx
    refine ⟨hnext, ⟨s, s', h.alloc.knows, hx⟩, exec_call hx, ?_⟩
    split
    · exact hnext.taken hx
    · exact True.intro

end Taihu
