/-
# Every call returns

The calls share two mutexes.  `allocOneLocked` takes the one of the allocator and, holding it, calls
methods of the segment manager that take the other; commits hold the segment manager's while they
stage a batch; and every method that reads or counts takes it for a moment.  A thread that waits for a
mutex that it holds, or two that wait for each other, would stop the store.  So would a nil
dereference in `popFree`, for which the model has no step.

None of it happens.  Whoever holds the segment manager's mutex asks for no other (`Op.MayWait`), so it
can go on; whoever holds the allocator's waits for it at most; and what is in the free pool has an
entry (`Pooled`).  Some thread is therefore always enabled, and `Taihu.Lib.Progress` does the rest.
-/
import Taihu.Lib.Progress
import Taihu.Reclamation

namespace Taihu

open Concur
open Program hiding pure

variable {L : Layout} {s s' : Sys} {l l' : Local} {ls ls' rest : List Local} {α β : Type}

/-! ## 1. The locks that a thread holds -/

structure Locks where
  segs : Bool
  alloc : Bool
  deriving DecidableEq

def Locks.none : Locks := ⟨false, false⟩

def Local.locks (l : Local) : Locks := ⟨l.hist.inSegs, l.hist.inAlloc⟩

def Op.locksAfter (k : Locks) : Op → Locks
  | .segs .lock => { k with segs := true }
  | .segs .unlock => { k with segs := false }
  | .alloc .lock => { k with alloc := true }
  | .alloc .unlock => { k with alloc := false }
  | _ => k

/-- What a thread that holds these locks may ask for: it gives back what it has, asks for no lock that
it has, and for nothing else while it has the segment manager's. -/
def Op.MayWait (k : Locks) : Op → Prop
  | .segs .unlock => k.segs = true
  | .segs (.putObjectLocked _ _ _ _) => True
  | .segs (.delObjectLocked _ _) => True
  | .segs _ => k.segs = false
  | .alloc .lock => k = .none
  | .alloc .unlock => k.alloc = true
  | _ => True

theorem locks_of_duty (h : l'.duty = l.duty) : l'.locks = l.locks := by
  unfold Local.locks
  rw [show l'.hist.inSegs = l.hist.inSegs from congrArg Duty.inSegs h,
    show l'.hist.inAlloc = l.hist.inAlloc from congrArg Duty.inAlloc h]

theorem Op.Calm.locksAfter {o : Op} (h : o.Calm) (k : Locks) : o.locksAfter k = k := by
  cases o with
  | segs o => cases o <;> first | rfl | exact absurd h id
  | alloc o => cases o <;> first | rfl | exact absurd h id
  | _ => rfl

theorem Op.Calm.mayWait {o : Op} (h : o.Calm) {k : Locks} (hk : k.segs = false) : o.MayWait k := by
  cases o with
  | segs o => cases o <;> first | exact hk | exact absurd h id
  | alloc o => cases o <;> first | exact True.intro | exact absurd h id
  | _ => exact True.intro

theorem exec_locks {o : Op} {r : o.Reply} (hx : exec L s l o = some (s', l', r)) :
    l'.locks = o.locksAfter l.locks := by
  have hcalm : (∀ c, o ≠ .cache c) → o.Calm → l'.locks = o.locksAfter l.locks := by
    intro hc ho
    rw [ho.locksAfter]
    exact locks_of_duty (duty_frame hx hc ho)
  have hduty : ∀ {d : Duty}, l'.duty = d → l'.locks = ⟨d.inSegs, d.inAlloc⟩ := by
    rintro d rfl
    rfl
  cases o with
  | cache o =>
    cases o with
    | get key => exact hduty (duty_cacheGet hx)
    | put key md => exact hduty (duty_cachePut hx)
    | del key => exact hduty (duty_cacheDel hx)
  | pebble o =>
    cases o with
    | apply => exact hduty (duty_apply hx)
    | _ => exact hcalm (by simp) True.intro
  | segs o =>
    cases o with
    | lock => exact hduty (duty_segsLock hx)
    | unlock => exact hduty (duty_segsUnlock hx)
    | putObjectLocked key md old v => exact hduty (duty_putObjectLocked hx)
    | delObjectLocked key md => exact hduty (duty_delObjectLocked hx)
    | _ => exact hcalm (by simp) True.intro
  | alloc o =>
    cases o with
    | lock => exact hduty (duty_allocLock hx)
    | unlock => exact hduty (duty_allocUnlock hx)
    | _ => exact hcalm (by simp) True.intro
  | dev o => exact hcalm (by simp) True.intro

/-! ## 2. The order of the locks -/

/-- The contract: locks are asked for in order. -/
def ordering : Contract sig Local where
  pre := fun o l => o.MayWait l.locks
  gives := fun o l _ l' => l'.locks = o.locksAfter l.locks

variable {k : Locks}

/-- One operation, and what follows it. -/
theorem ordered_step {o : Op} {f : o.Reply → Proc β} {post : β → Local → Prop} (hl : l.locks = k)
    (ho : o.MayWait k) (hf : ∀ r l', l'.locks = o.locksAfter k → Keeps ordering post (f r) l') :
    Keeps ordering post (perform o >>= f) l :=
  ⟨show o.MayWait l.locks from hl ▸ ho, fun r l' hg => hf r l' (hg.trans (hl ▸ rfl))⟩

/-- Calm procedures run under any locks but the segment manager's. -/
theorem ordered_calm {p : Proc α} (hu : Uses Op.Calm p) (hl : l.locks = k) (hk : k.segs = false) :
    Keeps ordering (fun _ l' => l'.locks = k) p l :=
  hu.keeps (C := ordering) (I := fun l : Local => l.locks = k) hl fun _ l ho hl =>
    ⟨ho.mayWait (show l.locks.segs = false from hl ▸ hk), fun _ _ hg => (hg.trans (ho.locksAfter _)).trans hl⟩

theorem ordered_quiet {p : Proc α} (hu : Uses Op.Quiet p) (hl : l.locks = .none) :
    Keeps ordering (fun _ l' => l'.locks = .none) p l :=
  ordered_calm (hu.mono fun _ ho => ho.plain.calm) hl rfl

/-- The end of a commit: the batch is applied, and the cache follows. -/
theorem ordered_apply {f : Bool → Proc β} {post : β → Local → Prop} (hl : l.locks = k)
    (hf : ∀ ok l', l'.locks = k → Keeps ordering post (f ok) l') :
    Keeps ordering post (apply >>= f) l := ordered_step hl True.intro hf

theorem ordered_putMapping (key : Key) (md : ObjectMeta) (v : Option Bytes) (l : Local) (hl : l.locks = .none) :
    Keeps ordering (fun _ l' => l'.locks = .none) (putMapping key md v) l := by
  refine Keeps.bind (m := fun _ l' => l'.locks = .none) ?_ fun old l1 h1 => ?_
  · refine ordered_step hl True.intro fun r l1 h1 => ?_
    cases r with
    | some om => exact h1
    | none => exact ordered_step h1 True.intro fun _ _ h2 => h2
  · refine ordered_step h1 rfl fun _ l2 h2 => ordered_step h2 True.intro fun _ l3 h3 =>
      ordered_step h3 rfl fun _ l4 h4 => ordered_apply h4 fun ok l5 h5 => ?_
    cases ok with
    | false => exact h5
    | true => exact ordered_step h5 True.intro fun _ _ h6 => h6

theorem ordered_deleteMapping (key : Key) (l : Local) (hl : l.locks = .none) :
    Keeps ordering (fun _ l' => l'.locks = .none) (deleteMapping key) l := by
  refine (ordered_quiet (quiet_getMapping key) hl).bind fun r l1 h1 => ?_
  cases r with
  | error e => exact h1
  | ok old =>
    refine ordered_step h1 rfl fun _ l2 h2 => ordered_step h2 True.intro fun _ l3 h3 =>
      ordered_step h3 rfl fun _ l4 h4 => ordered_apply h4 fun ok l5 h5 => ?_
    cases ok with
    | false => exact h5
    | true => exact ordered_step h5 True.intro fun _ _ h6 => h6

theorem ordered_batchPutLocked (items : List PutMappingItem) : ∀ l : Local, l.locks = k →
    Keeps ordering (fun _ l' => l'.locks = k) (batchPutLocked items) l := by
  induction items with
  | nil => exact fun _ hl => hl
  | cons it items ih =>
    exact fun l hl => ordered_step hl True.intro fun _ l1 h1 => ordered_step h1 True.intro fun _ l2 h2 => ih l2 h2

theorem ordered_batchPutMapping (items : List PutMappingItem) (l : Local) (hl : l.locks = .none) :
    Keeps ordering (fun _ l' => l'.locks = .none) (batchPutMapping items) l := by
  refine Keeps.ite (fun _ => hl) fun _ => ordered_step hl rfl fun _ l1 h1 => ?_
  refine (ordered_batchPutLocked items l1 h1).bind fun _ l2 h2 => ?_
  refine ordered_step h2 rfl fun _ l3 h3 => ordered_apply h3 fun ok l4 h4 => ?_
  cases ok with
  | false => exact h4
  | true => exact (ordered_quiet (quiet_cachePutAll _) h4).bind fun _ _ h5 => h5

theorem ordered_batchDeleteLocked (dels : List (Key × ObjectMeta)) : ∀ l : Local, l.locks = k →
    Keeps ordering (fun _ l' => l'.locks = k) (batchDeleteLocked dels) l := by
  induction dels with
  | nil => exact fun _ hl => hl
  | cons d dels ih => exact fun l hl => ordered_step hl True.intro fun _ l1 h1 => ih l1 h1

theorem ordered_cacheDelAll (keys : List Key) : ∀ l : Local, l.locks = k →
    Keeps ordering (fun _ l' => l'.locks = k) (cacheDelAll keys) l := by
  induction keys with
  | nil => exact fun _ hl => hl
  | cons key keys ih => exact fun l hl => ordered_step hl True.intro fun _ l1 h1 => ih l1 h1

theorem ordered_batchDeleteMapping (keys : List Key) (l : Local) (hl : l.locks = .none) :
    Keeps ordering (fun _ l' => l'.locks = .none) (batchDeleteMapping keys) l := by
  refine (ordered_quiet (quiet_batchDeleteLookup keys) hl).bind fun found l1 h1 => ?_
  refine Keeps.ite (fun _ => h1) fun _ => ordered_step h1 rfl fun _ l2 h2 => ?_
  refine (ordered_batchDeleteLocked _ l2 h2).bind fun _ l3 h3 => ?_
  refine ordered_step h3 rfl fun _ l4 h4 => ordered_apply h4 fun ok l5 h5 => ?_
  cases ok with
  | false => exact h5
  | true => exact (ordered_cacheDelAll _ l5 h5).bind fun _ _ h6 => h6

theorem ordered_moveMapping (key : Key) (old new : ObjectMeta) (l : Local) (hl : l.locks = .none) :
    Keeps ordering (fun _ l' => l'.locks = .none) (moveMapping key old new) l := by
  refine ordered_step hl rfl fun _ l1 h1 => ordered_step h1 True.intro fun cur l2 h2 => Keeps.ite ?_ ?_
  · intro _
    refine ordered_step h2 True.intro fun _ l3 h3 => ordered_apply h3 fun ok l4 h4 => ?_
    cases ok with
    | false => exact ordered_step h4 rfl fun _ _ h5 => h5
    | true => exact ordered_step h4 rfl fun _ l5 h5 => ordered_step h5 True.intro fun _ _ h6 => h6
  · exact fun _ => ordered_step h2 rfl fun _ _ h3 => h3

/-- What runs between `lock` and `unlock` of the allocator takes the segment manager's mutex only for
a moment at a time. -/
theorem ordered_underAlloc {p : Proc α} {f : α → Proc β} {post : β → Local → Prop} (hp : Uses Op.Calm p)
    (hl : l.locks = .none) (hf : ∀ a l', l'.locks = ⟨false, true⟩ → Keeps ordering post (f a) l') :
    Keeps ordering post (allocLock >>= fun _ => ensureLoaded >>= fun _ => p >>= f) l :=
  ordered_step hl rfl fun _ _ h1 => ordered_step h1 True.intro fun _ _ h2 =>
    (ordered_calm hp h2 rfl).bind fun a l' h3 => hf a l' h3

theorem ordered_allocUnlock {a : α} (hl : l.locks = ⟨false, true⟩) :
    Keeps ordering (fun _ l' => l'.locks = .none) (allocUnlock >>= fun _ => (Pure.pure a : Proc α)) l :=
  ordered_step hl rfl fun _ _ h1 => h1

/-- The cursor write at the end of an allocation. -/
theorem ordered_persist {seg : Allocator → Int} {f : Bool → Res α} (hl : l.locks = ⟨false, true⟩) :
    Keeps ordering (fun _ l' => l'.locks = .none)
      (allocator >>= fun a => persistCursor (seg a) a.curOff >>= fun ok =>
        allocUnlock >>= fun _ => if ok then (Pure.pure (f true) : Proc (Res α))
          else Pure.pure (f false)) l :=
  ordered_step hl True.intro fun _ _ h1 => ordered_step h1 True.intro fun _ _ h2 =>
    ordered_step h2 rfl fun _ _ h3 => Keeps.ite (fun _ => h3) fun _ => h3

theorem ordered_allocate (size : Int) (useReserve : Bool) (l : Local) (hl : l.locks = .none) :
    Keeps ordering (fun _ l' => l'.locks = .none) (allocate L size useReserve) l := by
  refine ordered_underAlloc (calm_allocOneLocked size useReserve) hl fun r l1 h1 => ?_
  cases r with
  | error e => exact ordered_allocUnlock h1
  | ok x => exact ordered_persist (f := fun ok => if ok then .ok x else .error .io) h1

theorem ordered_allocateSegmentBatch (sizes : List Int) (l : Local) (hl : l.locks = .none) :
    Keeps ordering (fun _ l' => l'.locks = .none) (allocateSegmentBatch L sizes) l := by
  refine ordered_underAlloc (calm_allocBatchLoop sizes) hl fun r l1 h1 => ?_
  cases r with
  | error e => exact ordered_allocUnlock h1
  | ok xs =>
    refine Keeps.ite (fun _ => ordered_allocUnlock h1) fun _ => ?_
    exact ordered_persist (f := fun ok => if ok then .ok xs else .error .io) h1

/-- Between allocations and commits a call holds no lock. -/
theorem restored_ordering (L : Layout) : Restored L ordering (fun l => l.locks = .none) where
  plain := fun _ l ho hl => ⟨ho.calm.mayWait (show l.locks.segs = false from hl ▸ rfl),
    fun _ _ hg => (hg.trans (ho.calm.locksAfter _)).trans hl⟩
  allocate := ordered_allocate
  allocateSegmentBatch := ordered_allocateSegmentBatch
  putMapping := ordered_putMapping
  deleteMapping := ordered_deleteMapping
  batchPutMapping := ordered_batchPutMapping
  batchDeleteMapping := ordered_batchDeleteMapping
  moveMapping := ordered_moveMapping

/-- **Every call takes its locks in order**, and returns without any. -/
theorem code_ordered (L : Layout) (call : Call) (l : Local) (hl : l.locks = .none) :
    Keeps ordering (fun _ l' => l'.locks = .none) (code L call) l :=
  (code_shaped L call).keeps (restored_ordering L) l hl

/-! ## 3. The free pool -/

/-- The segments in the free pool have entries. -/
def SegmentManager.Pooled (m : SegmentManager) : Prop := ∀ id ∈ m.free, ∃ e, m.segs.find? id = some e

namespace SegmentManager

variable {m : SegmentManager} {id : Int}

theorem Pooled.setEntry (h : m.Pooled) (id : Int) (e : SegEntry) : (m.setEntry id e).Pooled := by
  intro x hx
  rw [find?_setEntry]
  split
  · exact ⟨e, rfl⟩
  · exact h x hx

theorem Pooled.removeFree (h : m.Pooled) (id : Int) : (m.removeFree id).Pooled :=
  fun x hx => h x (List.mem_of_mem_erase hx)

theorem Pooled.unpool (h : m.Pooled) (id : Int) : (m.unpool id).Pooled := by
  unfold SegmentManager.unpool
  split
  · exact h.removeFree id
  · exact h

/-- A segment enters the pool with its entry. -/
theorem Pooled.enter (h : m.Pooled) (id : Int) (e : SegEntry) :
    (SegmentManager.setEntry { m with free := m.free ++ [id] } id e).Pooled := by
  intro x hx
  rw [find?_setEntry]
  split
  · exact ⟨e, rfl⟩
  · rename_i hne
    rcases List.mem_append.mp hx with hx | hx
    · exact h x hx
    · exact absurd (List.mem_singleton.mp hx) hne

theorem Pooled.dropObject (h : m.Pooled) (b : Batch) (id : Int) : (m.dropObject b id).2.Pooled := by
  unfold SegmentManager.dropObject
  split
  · exact h.setEntry id _
  · exact h

theorem Pooled.putObjectLocked (h : m.Pooled) (b : Batch) (key : Key) (md : ObjectMeta)
    (old : Option ObjectMeta) : (m.putObjectLocked b key md old).2.Pooled := by
  have hadd : ∀ same, (m.addObject md.segmentID same).2.Pooled := by
    intro same
    rw [addObject_snd]
    exact (h.unpool _).setEntry _ _
  rw [putObjectLocked_snd]
  split
  · split
    · exact hadd _
    · exact (hadd _).dropObject _ _
  · exact hadd _

theorem Pooled.popFree (h : m.Pooled) {db : DB} {x : Option Int × DB × SegmentManager}
    (hx : popFree db m = some x) : x.2.2.Pooled := by
  rcases popFree_cases hx with ⟨-, rfl⟩ | ⟨id, rest, e, ok, db', hfree, he, -, hcase⟩
  · exact h
  · rcases hcase with ⟨-, rfl⟩ | ⟨-, rfl⟩
    · refine Pooled.setEntry (m := { m with free := rest }) (fun y hy => h y ?_) id _
      rw [hfree]
      exact List.mem_cons_of_mem _ hy
    · exact h.setEntry id _

/-- **`popFree` meets no nil entry.** -/
theorem Pooled.pops (h : m.Pooled) (db : DB) : ∃ x, SegmentManager.popFree db m = some x := by
  unfold SegmentManager.popFree
  split
  · exact ⟨_, rfl⟩
  · rename_i id rest hfree
    obtain ⟨e, he⟩ := h id (hfree ▸ List.mem_cons_self)
    rw [he]
    exact ⟨_, rfl⟩

/-- Every method keeps the pool so. -/
theorem Pooled.after (h : m.Pooled) (db : DB) (o : SegsOp) : (o.after db m).Pooled := by
  cases o with
  | putObjectLocked key md old v => exact h.putObjectLocked [] key md old
  | delObjectLocked key md => exact h.dropObject [] md.segmentID
  | ref id reader =>
    simp only [SegsOp.after, SegmentManager.ref]
    split
    · exact h.setEntry id _
    · exact h
  | unref id =>
    simp only [SegsOp.after, SegmentManager.unref]
    split
    · split
      · exact h.setEntry id _
      · exact h
    · exact h
  | activate id =>
    simp only [SegsOp.after]
    rw [activate_snd]
    exact (h.unpool id).setEntry id _
  | markFull id =>
    simp only [SegsOp.after, SegmentManager.markFull]
    split
    · exact h
    · exact h.setEntry id _
  | markCompacting id =>
    simp only [SegsOp.after, SegmentManager.markCompacting]
    split
    · exact h
    · split
      · exact h.setEntry id _
      · exact h
  | popFree =>
    simp only [SegsOp.after]
    cases hp : SegmentManager.popFree db m with
    | none => exact h
    | some x => exact h.popFree hp
  | gcFinalize ids =>
    exact gcFinalize_keeps (fun m id e h _ _ => h.enter id _)
      (fun m id e h _ _ => (h.setEntry id _).removeFree id) h db ids
  | _ => exact h

/-- Reopening finds in the pool what it has found recorded. -/
theorem pooled_rebuild (d : Disk) : (rebuild d).Pooled := by
  intro id hid
  obtain ⟨e, he, -⟩ := state?_eq_some.mp (((poolCoherent_rebuild d).mem_iff id).mp hid)
  exact ⟨e, he⟩

end SegmentManager

/-! ## 4. The invariant -/

/-- Each mutex is taken exactly while one thread holds it. -/
structure LocksKept (s : Sys) (ls : List Local) : Prop where
  segs : Exclusive (fun l : Local => l.hist.inSegs) s.segMu ls
  alloc : Exclusive (fun l : Local => l.hist.inAlloc) s.allocMu ls
  pool : s.segs.Pooled

/-- The mutexes after an operation. -/
theorem exec_mutexes {o : Op} {r : o.Reply} (hx : exec L s l o = some (s', l', r)) :
    (⟨s'.segMu, s'.allocMu⟩ : Locks) = o.locksAfter ⟨s.segMu, s.allocMu⟩ := by
  cases o with
  | cache o => cases hx; rfl
  | pebble o => cases o <;> cases hx <;> rfl
  | segs o =>
    obtain ⟨b, hx, -⟩ := exec_segsOp hx
    cases o
    case popFree =>
      simp only [SegsOp.exec] at hx
      split at hx
      · cases hx
      · obtain ⟨x, -, he⟩ := Option.map_eq_some_iff.mp hx
        cases he
        rfl
    case unlock => cases hx; rfl
    case putObjectLocked key md old v => cases hx; rfl
    case delObjectLocked key md => cases hx; rfl
    all_goals
      simp only [SegsOp.exec] at hx
      split at hx <;> cases hx
      rfl
  | alloc o =>
    obtain ⟨hx, -⟩ := exec_allocOp hx
    cases o <;> simp only [AllocOp.exec] at hx
    case lock => split at hx <;> cases hx; rfl
    all_goals cases hx; rfl
  | dev o => cases hx; rfl

/-- A mutex that is taken was free. -/
theorem mutex_free {o : Op} {r : o.Reply} (hx : exec L s l o = some (s', l', r)) :
    (o = .segs .lock → s.segMu = false) ∧ (o = .alloc .lock → s.allocMu = false) := by
  constructor
  · rintro rfl
    obtain ⟨b, hx, -⟩ := exec_segsOp hx
    by_contra hmu
    simp [SegsOp.exec, hmu] at hx
  · rintro rfl
    obtain ⟨hx, -⟩ := exec_allocOp hx
    by_contra hmu
    simp [AllocOp.exec, hmu] at hx

/-- **The step lemma.** -/
theorem LocksKept.step (h : LocksKept s (l :: rest)) {o : Op} {r : o.Reply} (ho : o.MayWait l.locks)
    (hx : exec L s l o = some (s', l', r)) : LocksKept s' (l' :: rest) := by
  have hlocks := exec_locks hx
  have hmu := exec_mutexes hx
  obtain ⟨hsegs, halloc⟩ := mutex_free hx
  have hin : l'.hist.inSegs = (o.locksAfter l.locks).segs := congrArg Locks.segs hlocks
  have hin' : l'.hist.inAlloc = (o.locksAfter l.locks).alloc := congrArg Locks.alloc hlocks
  have hseg : s'.segMu = (o.locksAfter ⟨s.segMu, s.allocMu⟩).segs := congrArg Locks.segs hmu
  have hal : s'.allocMu = (o.locksAfter ⟨s.segMu, s.allocMu⟩).alloc := congrArg Locks.alloc hmu
  refine ⟨?_, ?_, exec_segs hx ▸ ?_⟩
  · by_cases hlock : o = .segs .lock
    · subst hlock
      rw [show s'.segMu = true from hseg]
      exact (hsegs rfl ▸ h.segs).lock hin
    · by_cases hunlock : o = .segs .unlock
      · subst hunlock
        rw [show s'.segMu = false from hseg]
        exact h.segs.unlock ho hin
      · have hsame : ∀ k, (o.locksAfter k).segs = k.segs := by
          intro k
          cases o with
          | segs o => cases o <;> first | rfl | exact absurd rfl hlock | exact absurd rfl hunlock
          | alloc o => cases o <;> rfl
          | _ => rfl
        rw [show s'.segMu = s.segMu from hseg.trans (hsame _)]
        exact h.segs.same (hin.trans (hsame _))
  · by_cases hlock : o = .alloc .lock
    · subst hlock
      rw [show s'.allocMu = true from hal]
      exact (halloc rfl ▸ h.alloc).lock hin'
    · by_cases hunlock : o = .alloc .unlock
      · subst hunlock
        rw [show s'.allocMu = false from hal]
        exact h.alloc.unlock ho hin'
      · have hsame : ∀ k, (o.locksAfter k).alloc = k.alloc := by
          intro k
          cases o with
          | alloc o => cases o <;> first | rfl | exact absurd rfl hlock | exact absurd rfl hunlock
          | segs o => cases o <;> rfl
          | _ => rfl
        rw [show s'.allocMu = s.allocMu from hal.trans (hsame _)]
        exact h.alloc.same (hin'.trans (hsame _))
  · cases o with
    | segs o => exact h.pool.after s.db o
    | _ => exact h.pool

/-- The order of the locks in every run. -/
def locksDiscipline (L : Layout) : Discipline (machine L) where
  toRule := unrestricted
  contract := ordering
  inv := LocksKept
  post := fun _ l => l.locks = .none
  perm := fun _ _ _ hp h => ⟨h.segs.perm hp, h.alloc.perm hp, h.pool⟩
  spawn := fun _ _ _ _ h => ⟨h.segs.cons rfl, h.alloc.cons rfl, h.pool⟩
  starts := fun call _ => code_ordered L call _ rfl
  retire := fun _ _ _ _ hl h => ⟨⟨h.segs.same rfl, h.alloc.same rfl, h.pool⟩, hl⟩
  restart := fun _ s _ _ => ⟨rfl, rfl, SegmentManager.pooled_rebuild s.db.disk⟩
  sound := fun _ _ _ _ _ _ _ h ho _ hx => ⟨h.step ho hx, exec_locks hx⟩

/-! ## 5. Nobody waits for good -/

/-- **What an operation waits for.**  It is enabled if the segment manager's mutex is free, or its
thread has it, and if it is not the allocator's that it asks for, or this one is free too. -/
theorem exec_enabled (hp : s.segs.Pooled) {o : Op} (ho : o.MayWait l.locks)
    (hs : s.segMu = true → l.hist.inSegs = true) (ha : s.allocMu = true → o ≠ .alloc .lock) :
    ∃ x, exec L s l o = some x := by
  cases o with
  | cache o => exact ⟨_, rfl⟩
  | pebble o => cases o <;> exact ⟨_, rfl⟩
  | dev o => exact ⟨_, rfl⟩
  | alloc o =>
    have hop : ∃ x, o.exec s = some x := by
      cases o with
      | lock =>
        have hmu : s.allocMu = false := Bool.eq_false_iff.mpr fun hmu => ha hmu rfl
        exact ⟨_, by rw [AllocOp.exec, hmu]; rfl⟩
      | _ => exact ⟨_, rfl⟩
    obtain ⟨x, hx⟩ := hop
    exact ⟨_, congrArg (Option.map _) hx⟩
  | segs o =>
    have hfree : l.hist.inSegs = false → s.segMu = false :=
      fun hin => Bool.eq_false_iff.mpr fun hmu => absurd ((hs hmu).symm.trans hin) (by simp)
    have hop : ∃ x, o.exec s l.batch = some x := by
      cases o with
      | unlock => exact ⟨_, rfl⟩
      | putObjectLocked key md old v => exact ⟨_, rfl⟩
      | delObjectLocked key md => exact ⟨_, rfl⟩
      | popFree =>
        obtain ⟨x, hx⟩ := hp.pops s.db
        exact ⟨_, by rw [SegsOp.exec, hfree ho, hx]; rfl⟩
      | _ => exact ⟨_, by rw [SegsOp.exec, hfree ho]; rfl⟩
    obtain ⟨x, hx⟩ := hop
    exact ⟨_, congrArg (Option.map _) hx⟩

/-- **Some thread is enabled**, as long as one has not returned. -/
theorem enabled_of_holds {c : SysConf} (h : (locksDiscipline L).Holds c) (hc : ¬ c.Finished) :
    ∃ c', (machine L).Next c' c := by
  have hgo : ∀ th ∈ c.threads, ∀ o next, th.2 = .request o next →
      (c.shared.segMu = true → th.1.hist.inSegs = true) →
        (c.shared.allocMu = true → o ≠ .alloc .lock) → ∃ c', (machine L).Next c' c := by
    rintro ⟨l, p⟩ hth o next rfl hs ha
    obtain ⟨t, ht⟩ := List.getElem?_of_mem hth
    obtain ⟨x, hx⟩ := exec_enabled (L := L) h.inv.pool (h.keeps _ hth).1 hs ha
    exact (machine L).next_of_enabled ht hx
  -- a thread that holds a lock has not returned
  have hholder : ∀ l ∈ c.locals, l.locks ≠ .none → ∃ o next, (l, Program.request o next) ∈ c.threads := by
    intro l hl hne
    obtain ⟨⟨l', p⟩, hth, rfl⟩ := List.mem_map.mp hl
    cases p with
    | pure a => exact absurd (h.keeps _ hth) hne
    | request o next => exact ⟨o, next, hth⟩
  cases hseg : c.shared.segMu with
  | true =>
    obtain ⟨l, hl, hin⟩ := (hseg ▸ h.inv.segs).holder
    obtain ⟨o, next, hth⟩ := hholder l hl fun hn => absurd (hin.symm.trans (congrArg Locks.segs hn)) (by decide)
    refine hgo _ hth o next rfl (fun _ => hin) ?_
    rintro - rfl
    exact absurd (hin.symm.trans (congrArg Locks.segs (show l.locks = .none from (h.keeps _ hth).1))) (by decide)
  | false =>
    cases halloc : c.shared.allocMu with
    | true =>
      obtain ⟨l, hl, hin⟩ := (halloc ▸ h.inv.alloc).holder
      obtain ⟨o, next, hth⟩ := hholder l hl fun hn => absurd (hin.symm.trans (congrArg Locks.alloc hn)) (by decide)
      refine hgo _ hth o next rfl (fun hs => absurd (hseg.symm.trans hs) (by decide)) ?_
      rintro - rfl
      exact absurd (hin.symm.trans (congrArg Locks.alloc (show l.locks = .none from (h.keeps _ hth).1)))
        (by decide)
    | false =>
      obtain ⟨⟨l, p⟩, hth, hp⟩ : ∃ th ∈ c.threads, ¬ th.2.isDone = true := by
        simpa [Conf.Finished] using hc
      cases p with
      | pure a => exact absurd rfl hp
      | request o next =>
        exact hgo _ hth o next rfl (fun hs => absurd (hseg.symm.trans hs) (by decide))
          fun ha => absurd (halloc.symm.trans ha) (by decide)

/-- The calls of a run keep the order of the locks. -/
theorem locksKept_of_run {bytes : Int → Byte} {dbFaults devFaults : List Bool} {as : List (Act Call)} {c : SysConf}
    (hrun : (machine L).run (SysConf.init bytes dbFaults devFaults) as = some c) : (locksDiscipline L).Holds c :=
  (locksDiscipline L).run
    ((locksDiscipline L).holds_initial (show LocksKept (Sys.init bytes dbFaults devFaults) [] from
      ⟨rfl, rfl, fun _ hid => absurd hid List.not_mem_nil⟩))
    ((machine L).along_of_forall unrestricted_admits as _) hrun

/-- A call has the allocator's mutex while another, between the staging of its batch and the commit,
has the segment manager's. -/
def bothLocked : List (Act Call) :=
  Act.calls (.put [1] 1 [7]) 0 15 ++ Act.calls (.deleteMapping [1]) 1 2 ++ Act.calls (.put [2] 1 [9]) 2 1

end Taihu
