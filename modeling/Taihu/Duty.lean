/-
# What a call still owes

Between its steps a call carries obligations: writes it has encoded and not applied, keys it has
written and whose cache entry it has still to refresh, locks it holds.  They are the DUTY of its
local state.  Every call starts without any and, on every path and whatever runs beside it,
returns without any (`code_settles`).  So in a quiescent state nothing is owed, which is where
the properties that hold only between calls come from.

Most procedures do not touch the duty at all; for them it is enough to list the operations they
use (`Calm`).  The ones that commit are followed operation by operation.
-/
import Taihu.Shape
import Taihu.Frame

namespace Taihu

open Concur Program

/-- The obligations of a thread. -/
structure Duty where
  batch : Batch
  stage : List Key
  refresh : List Key
  inSegs : Bool
  inAlloc : Bool
  deriving DecidableEq

def Duty.none : Duty := ⟨[], [], [], false, false⟩

def Local.duty (l : Local) : Duty :=
  ⟨l.batch, l.hist.stage.map Prod.fst, l.hist.refresh, l.hist.inSegs, l.hist.inAlloc⟩

/-! ## 1. Operations and the duty -/

/-- Operations that leave a duty without refreshes alone. -/
def Op.Calm : Op → Prop
  | .cache _ => True
  | .pebble .apply => False
  | .pebble _ => True
  | .segs .lock => False
  | .segs .unlock => False
  | .segs (.putObjectLocked _ _ _ _) => False
  | .segs (.delObjectLocked _ _) => False
  | .segs _ => True
  | .alloc .lock => False
  | .alloc .unlock => False
  | .alloc _ => True
  | .dev _ => True

variable {L : Layout} {s s' : Sys} {l l' : Local}

theorem CacheOp.note_get (h : Hist) (key : Key) (r : Option ObjectMeta) (b : Batch) :
    Local.duty ⟨b, (CacheOp.get key).note h r⟩ = Local.duty ⟨b, h⟩ := by
  cases r <;> rfl

theorem CacheOp.note_calm (h : Hist) (o : CacheOp) (r : o.Reply) (hr : h.refresh = []) (b : Batch) :
    Local.duty ⟨b, o.note h r⟩ = Local.duty ⟨b, h⟩ := by
  cases o with
  | get key => exact CacheOp.note_get h key r b
  | put key md => simp [CacheOp.note, Local.duty, hr]
  | del key => simp [CacheOp.note, Local.duty, hr]

theorem PebbleOp.note_calm (s : Sys) (b' : Batch) (h : Hist) (o : PebbleOp) (r : o.Reply)
    (ho : (Op.pebble o).Calm) (b : Batch) :
    Local.duty ⟨b, o.note s b' h r⟩ = Local.duty ⟨b, h⟩ := by
  cases o with
  | getMapping key site =>
    cases site <;> cases r <;> simp only [PebbleOp.note] <;> (try split) <;> rfl
  | getMany keys => cases r <;> rfl
  | iterMapping => rfl
  | getSegment id => rfl
  | apply => exact absurd ho id

theorem SegsOp.note_calm (s : Sys) (h : Hist) (o : SegsOp) (r : o.Reply)
    (ho : (Op.segs o).Calm) (b : Batch) :
    Local.duty ⟨b, o.note s h r⟩ = Local.duty ⟨b, h⟩ := by
  cases o with
  | ref id reader => cases reader <;> simp only [SegsOp.note] <;> (try split) <;> rfl
  | canUse id => cases r <;> rfl
  | markFull id => cases r <;> rfl
  | popFree => cases r <;> rfl
  | lock => exact absurd ho id
  | unlock => exact absurd ho id
  | putObjectLocked key md old v => exact absurd ho id
  | delObjectLocked key md => exact absurd ho id
  | _ => rfl

theorem AllocOp.note_calm (h : Hist) (o : AllocOp) (r : o.Reply) (ho : (Op.alloc o).Calm)
    (b : Batch) : Local.duty ⟨b, o.note h r⟩ = Local.duty ⟨b, h⟩ := by
  cases o with
  | persist seg off => cases r <;> rfl
  | lock => exact absurd ho id
  | unlock => exact absurd ho id
  | _ => rfl

theorem DevOp.note_calm (h : Hist) (o : DevOp) (r : o.Reply) (b : Batch) :
    Local.duty ⟨b, o.note h r⟩ = Local.duty ⟨b, h⟩ := by
  cases o with
  | write seg off block => cases r <;> rfl
  | read seg off => rfl

theorem Op.Calm.batches {o : Op} (h : o.Calm) : o.Batches = false := by
  cases o with
  | pebble o => cases o <;> first | rfl | exact absurd h id
  | segs o => cases o <;> first | rfl | exact absurd h id
  | _ => rfl

/-- Off the cache a calm operation leaves the duty as it is. -/
theorem duty_frame {o : Op} {r : o.Reply} (h : exec L s l o = some (s', l', r))
    (hc : ∀ c, o ≠ .cache c) (ho : o.Calm) : l'.duty = l.duty := by
  cases o with
  | cache o => exact absurd rfl (hc o)
  | pebble o =>
    cases o with
    | apply => exact absurd ho id
    | getMapping key site => cases h; exact PebbleOp.note_calm _ _ _ _ _ ho _
    | getMany keys => cases h; exact PebbleOp.note_calm _ _ _ _ _ ho _
    | iterMapping => cases h; exact PebbleOp.note_calm _ _ _ _ _ ho _
    | getSegment id => cases h; exact PebbleOp.note_calm _ _ _ _ _ ho _
  | segs o =>
    have hb : l'.batch = l.batch := exec_batch h ho.batches
    obtain ⟨b, -, rfl⟩ := exec_segsOp h
    rw [show b = l.batch from hb]
    exact SegsOp.note_calm s l.hist o r ho l.batch
  | alloc o =>
    obtain ⟨-, rfl⟩ := exec_allocOp h
    exact AllocOp.note_calm l.hist o r ho l.batch
  | dev o => cases h; exact DevOp.note_calm _ o _ _

/-- **A calm operation leaves a duty without refreshes as it is.** -/
theorem duty_of_calm {o : Op} {r : o.Reply} (h : exec L s l o = some (s', l', r))
    (hr : l.hist.refresh = []) (ho : o.Calm) : l'.duty = l.duty := by
  cases o with
  | cache o => cases h; exact CacheOp.note_calm _ o _ hr _
  | pebble o => exact duty_frame h (by simp) ho
  | segs o => exact duty_frame h (by simp) ho
  | alloc o => exact duty_frame h (by simp) ho
  | dev o => exact duty_frame h (by simp) ho

/-! The operations that are not calm, and the cache writes in general. -/

theorem duty_segsLock {r : Unit} (h : exec L s l (.segs .lock) = some (s', l', r)) :
    l'.duty = { l.duty with inSegs := true } := by
  obtain ⟨x, hx, he⟩ := Option.map_eq_some_iff.mp h
  simp only [SegsOp.exec] at hx
  split at hx <;> cases hx
  cases he
  rfl

theorem duty_segsUnlock {r : Unit} (h : exec L s l (.segs .unlock) = some (s', l', r)) :
    l'.duty = { l.duty with inSegs := false } := by
  cases h
  rfl

theorem duty_putObjectLocked {key : Key} {md : ObjectMeta} {old : Option ObjectMeta}
    {v : Option Bytes} {r : Unit}
    (h : exec L s l (.segs (.putObjectLocked key md old v)) = some (s', l', r)) :
    l'.duty = { l.duty with batch := l'.batch, stage := l.duty.stage ++ [key] } := by
  cases h
  cases v <;> simp [Local.duty, SegsOp.note]

theorem duty_delObjectLocked {key : Key} {md : ObjectMeta} {r : Unit}
    (h : exec L s l (.segs (.delObjectLocked key md)) = some (s', l', r)) :
    l'.duty = { l.duty with batch := l'.batch, stage := l.duty.stage ++ [key] } := by
  cases h
  simp [Local.duty, SegsOp.note]

theorem duty_apply {ok : Bool} (h : exec L s l (.pebble .apply) = some (s', l', ok)) :
    l'.duty = { l.duty with
      batch := []
      stage := []
      refresh := if ok then l.duty.refresh ++ l.duty.stage else l.duty.refresh } := by
  rcases hx : PebbleOp.exec s.db l.batch .apply with ⟨db, b, ok'⟩
  have hb : b = [] := (congrArg (fun x => x.2.1) hx).symm
  simp only [exec, hx] at h
  cases h
  cases ok <;> simp [Local.duty, PebbleOp.note, hb]

theorem duty_cacheGet {key : Key} {r : Option ObjectMeta}
    (h : exec L s l (.cache (.get key)) = some (s', l', r)) : l'.duty = l.duty := by
  cases h
  exact CacheOp.note_get _ _ _ _

theorem duty_cachePut {key : Key} {md : ObjectMeta} {r : Unit}
    (h : exec L s l (.cache (.put key md)) = some (s', l', r)) :
    l'.duty = { l.duty with refresh := l.duty.refresh.erase key } := by
  cases h
  rfl

theorem duty_cacheDel {key : Key} {r : Unit}
    (h : exec L s l (.cache (.del key)) = some (s', l', r)) :
    l'.duty = { l.duty with refresh := l.duty.refresh.erase key } := by
  cases h
  rfl

theorem duty_allocLock {r : Unit} (h : exec L s l (.alloc .lock) = some (s', l', r)) :
    l'.duty = { l.duty with inAlloc := true } := by
  obtain ⟨x, hx, he⟩ := Option.map_eq_some_iff.mp h
  cases he
  rfl

theorem duty_allocUnlock {r : Unit} (h : exec L s l (.alloc .unlock) = some (s', l', r)) :
    l'.duty = { l.duty with inAlloc := false } := by
  cases h
  rfl

/-! ## 2. Calm procedures -/

theorem Op.Plain.calm {o : Op} (h : o.Plain) : o.Calm := by
  cases o with
  | pebble o => cases o <;> first | exact True.intro | exact absurd h id
  | segs o => cases o <;> first | exact True.intro | exact absurd h id
  | alloc o => exact absurd h id
  | _ => exact True.intro

theorem calm_rollSegment (a : Allocator) (useReserve : Bool) :
    Uses Op.Calm (rollSegment L a useReserve) := by
  refine Uses.bind (.ite (.step True.intro fun _ => True.intro) True.intro) fun marked => ?_
  · split
    · refine Uses.bind (.ite (.step True.intro fun _ => True.intro) True.intro) fun next => ?_
      · split
        · refine ⟨True.intro, fun _ => .step True.intro fun ok => ?_⟩
          cases ok <;> exact True.intro
        · refine .step True.intro fun r => ?_
          cases r with
          | none => exact True.intro
          | some seg => exact ⟨True.intro, fun _ => True.intro⟩
    · exact True.intro

theorem calm_allocOneLocked (size : Int) (useReserve : Bool) :
    Uses Op.Calm (allocOneLocked L size useReserve) := by
  refine .step True.intro fun a => ?_
  refine Uses.bind ?_ fun rolled => ?_
  · split
    · exact calm_rollSegment a useReserve
    · exact True.intro
  · cases rolled with
    | error e => exact True.intro
    | ok _ => exact ⟨True.intro, fun _ => True.intro⟩

theorem calm_allocBatchLoop (sizes : List Int) : Uses Op.Calm (allocBatchLoop L sizes) := by
  induction sizes with
  | nil => exact True.intro
  | cons size sizes ih =>
    refine (calm_allocOneLocked size false).bind fun r => ?_
    cases r with
    | error e => exact True.intro
    | ok x =>
      refine ih.bind fun rs => ?_
      cases rs <;> exact True.intro

/-! ## 3. Procedures that settle what they owe -/

/-- From a state that owes nothing the procedure gets back to one. -/
def Settles (L : Layout) {α : Type} (p : Proc α) : Prop :=
  ∀ l : Local, l.duty = .none → Keeps (machine L).possible (fun _ l' => l'.duty = .none) p l

variable {α β : Type}

/-- A calm procedure keeps any duty without refreshes. -/
theorem keeps_calm {p : Proc α} (h : Uses Op.Calm p) (hl : l.hist.refresh = []) :
    Keeps (machine L).possible (fun _ l' => l'.duty = l.duty) p l := by
  refine h.keeps (I := fun l' : Local => l'.duty = l.duty) rfl ?_
  intro o l' ho hd
  refine ⟨True.intro, ?_⟩
  rintro r l'' ⟨s, s', -, hx⟩
  have hr : l'.hist.refresh = [] := (congrArg Duty.refresh hd).trans hl
  exact (duty_of_calm hx hr ho).trans hd

theorem refresh_of_none (h : l.duty = .none) : l.hist.refresh = [] := congrArg Duty.refresh h

theorem Settles.of_calm {p : Proc α} (h : Uses Op.Calm p) : Settles L p :=
  fun _ hl => (keeps_calm h (refresh_of_none hl)).mono fun _ _ hd => hd.trans hl

theorem Settles.pure (a : α) : Settles L (Pure.pure a : Proc α) := fun _ hl => hl

theorem Settles.bind {p : Proc α} {f : α → Proc β} (hp : Settles L p)
    (hf : ∀ a, Settles L (f a)) : Settles L (p >>= f) :=
  fun l hl => (hp l hl).bind fun a l' hl' => hf a l' hl'

/-- The last of the owed refreshes. -/
theorem keeps_cachePutAll (xs : List (Key × ObjectMeta)) :
    ∀ l : Local, l.duty = { Duty.none with refresh := xs.map Prod.fst } →
      Keeps (machine L).possible (fun _ l' => l'.duty = .none) (cachePutAll xs) l := by
  induction xs with
  | nil => exact fun l hl => hl
  | cons x xs ih =>
    intro l hl
    refine keeps_step True.intro fun s s' r l' _ hx => ih l' ?_
    rw [duty_cachePut hx, hl]
    simp

theorem keeps_cacheDelAll (keys : List Key) :
    ∀ l : Local, l.duty = { Duty.none with refresh := keys } →
      Keeps (machine L).possible (fun _ l' => l'.duty = .none) (cacheDelAll keys) l := by
  induction keys with
  | nil => exact fun l hl => hl
  | cons key keys ih =>
    intro l hl
    refine keeps_step True.intro fun s s' r l' _ hx => ih l' ?_
    rw [duty_cacheDel hx, hl]
    simp

/-- A committed write owes the refresh of its key, a failed one nothing. -/
theorem keeps_putObject {key : Key} {md : ObjectMeta} {old : Option ObjectMeta}
    {v : Option Bytes} (hl : l.duty = .none) :
    Keeps (machine L).possible
      (fun ok l' => l'.duty = if ok then { Duty.none with refresh := [key] } else .none)
      (putObject key md old v) l := by
  refine keeps_step True.intro fun _ _ _ l1 _ h1 => ?_
  refine keeps_step True.intro fun _ _ _ l2 _ h2 => ?_
  refine keeps_step True.intro fun _ _ _ l3 _ h3 => ?_
  refine keeps_last True.intro fun _ _ ok l4 _ h4 => ?_
  rw [duty_apply h4, duty_segsUnlock h3, duty_putObjectLocked h2, duty_segsLock h1, hl]
  cases ok <;> rfl

theorem keeps_delObject {key : Key} {md : ObjectMeta} (hl : l.duty = .none) :
    Keeps (machine L).possible
      (fun ok l' => l'.duty = if ok then { Duty.none with refresh := [key] } else .none)
      (delObject key md) l := by
  refine keeps_step True.intro fun _ _ _ l1 _ h1 => ?_
  refine keeps_step True.intro fun _ _ _ l2 _ h2 => ?_
  refine keeps_step True.intro fun _ _ _ l3 _ h3 => ?_
  refine keeps_last True.intro fun _ _ ok l4 _ h4 => ?_
  rw [duty_apply h4, duty_segsUnlock h3, duty_delObjectLocked h2, duty_segsLock h1, hl]
  cases ok <;> rfl

theorem settles_putMapping (key : Key) (md : ObjectMeta) (v : Option Bytes) :
    Settles L (putMapping key md v) := by
  refine Settles.bind (.of_calm (.step True.intro fun r => ?_)) fun old l hl => ?_
  · cases r with
    | some om => exact True.intro
    | none => exact ⟨True.intro, fun _ => True.intro⟩
  · refine (keeps_putObject hl).bind fun ok l' hl' => ?_
    cases ok with
    | true =>
      refine keeps_step True.intro fun _ _ _ l'' _ hx => ?_
      show l''.duty = .none
      rw [duty_cachePut hx, hl']
      simp [Duty.none]
    | false => exact hl'

theorem settles_deleteMapping (key : Key) : Settles L (deleteMapping key) := by
  refine Settles.bind (.of_calm ((quiet_getMapping key).mono fun _ h => h.plain.calm)) fun r l hl => ?_
  cases r with
  | error e => exact hl
  | ok old =>
    refine (keeps_delObject hl).bind fun ok l' hl' => ?_
    cases ok with
    | true =>
      refine keeps_step True.intro fun _ _ _ l'' _ hx => ?_
      show l''.duty = .none
      rw [duty_cacheDel hx, hl']
      simp [Duty.none]
    | false => exact hl'

/-- The loop under the lock stages the keys of its items. -/
theorem keeps_batchPutLocked (items : List PutMappingItem) :
    ∀ l : Local, l.hist.refresh = [] → Keeps (machine L).possible
      (fun _ l' => l'.duty = { l.duty with
        batch := l'.batch, stage := l.duty.stage ++ items.map PutMappingItem.key })
      (batchPutLocked items) l := by
  induction items with
  | nil =>
    intro l _
    simp [batchPutLocked, Local.duty]
  | cons it items ih =>
    intro l hl
    refine keeps_step True.intro fun _ _ _ l1 _ h1 => ?_
    refine keeps_step True.intro fun _ _ _ l2 _ h2 => ?_
    have d1 := duty_of_calm h1 hl True.intro
    have d2 := duty_putObjectLocked h2
    rw [d1] at d2
    have hr : l2.hist.refresh = [] := (congrArg Duty.refresh d2).trans hl
    refine (ih l2 hr).mono fun _ l' hl' => ?_
    rw [hl', d2]
    simp

theorem keeps_batchDeleteLocked (dels : List (Key × ObjectMeta)) :
    ∀ l : Local, Keeps (machine L).possible
      (fun _ l' => l'.duty = { l.duty with
        batch := l'.batch, stage := l.duty.stage ++ dels.map Prod.fst })
      (batchDeleteLocked dels) l := by
  induction dels with
  | nil =>
    intro l
    simp [batchDeleteLocked, Local.duty]
  | cons x dels ih =>
    intro l
    refine keeps_step True.intro fun _ _ _ l1 _ h1 => ?_
    refine (ih l1).mono fun _ l' hl' => ?_
    rw [hl', duty_delObjectLocked h1]
    simp

theorem settles_batchPutMapping (items : List PutMappingItem) :
    Settles L (batchPutMapping items) := by
  unfold batchPutMapping
  split
  · exact .pure _
  · intro l hl
    refine keeps_step True.intro fun _ _ _ l1 _ h1 => ?_
    have hr : l1.hist.refresh = [] := by
      have he := congrArg Duty.refresh (duty_segsLock h1)
      exact he.trans (refresh_of_none hl)
    refine (keeps_batchPutLocked items l1 hr).bind fun _ l2 h2 => ?_
    refine keeps_step True.intro fun _ _ _ l3 _ h3 => ?_
    refine keeps_step True.intro fun _ _ ok l4 _ h4 => ?_
    have hd := duty_apply h4
    rw [duty_segsUnlock h3, h2, duty_segsLock h1, hl] at hd
    cases ok with
    | true =>
      refine (keeps_cachePutAll _ l4 ?_).bind fun _ _ hl' => hl'
      rw [hd]
      simp [Duty.none]
    | false => exact hd

theorem settles_batchDeleteMapping (keys : List Key) : Settles L (batchDeleteMapping keys) := by
  refine Settles.bind (.of_calm ((quiet_batchDeleteLookup keys).mono fun _ h => h.plain.calm)) fun found => ?_
  dsimp only
  split
  · exact .pure _
  · intro l hl
    refine keeps_step True.intro fun _ _ _ l1 _ h1 => ?_
    refine (keeps_batchDeleteLocked _ l1).bind fun _ l2 h2 => ?_
    refine keeps_step True.intro fun _ _ _ l3 _ h3 => ?_
    refine keeps_step True.intro fun _ _ ok l4 _ h4 => ?_
    have hd := duty_apply h4
    rw [duty_segsUnlock h3, h2, duty_segsLock h1, hl] at hd
    cases ok with
    | true =>
      refine (keeps_cacheDelAll _ l4 ?_).bind fun _ _ hl' => hl'
      rw [hd]
      simp [Duty.none]
    | false => exact hd

theorem settles_moveMapping (key : Key) (old new : ObjectMeta) :
    Settles L (moveMapping key old new) := by
  intro l hl
  refine keeps_step True.intro fun _ _ _ l1 _ h1 => ?_
  refine keeps_step True.intro fun _ _ cur l2 _ h2 => ?_
  have d1 := duty_segsLock h1
  have hr : l1.hist.refresh = [] := (congrArg Duty.refresh d1).trans (refresh_of_none hl)
  have d2 := duty_of_calm h2 hr True.intro
  split
  · refine keeps_step True.intro fun _ _ _ l3 _ h3 => ?_
    refine keeps_step True.intro fun _ _ ok l4 _ h4 => ?_
    have hd := duty_apply h4
    rw [duty_putObjectLocked h3, d2, d1, hl] at hd
    cases ok with
    | true =>
      refine keeps_step True.intro fun _ _ _ l5 _ h5 => keeps_step True.intro fun _ _ _ l6 _ h6 => ?_
      show l6.duty = .none
      rw [duty_cachePut h6, duty_segsUnlock h5, hd]
      simp [Duty.none]
    | false =>
      refine keeps_step True.intro fun _ _ _ l5 _ h5 => ?_
      show l5.duty = .none
      rw [duty_segsUnlock h5, hd]
      rfl
  · refine keeps_step True.intro fun _ _ _ l5 _ h5 => ?_
    show l5.duty = .none
    rw [duty_segsUnlock h5, d2, d1, hl]
    rfl

/-- What runs between `lock` and `unlock` of the allocator is calm. -/
theorem settles_underAlloc {p : Proc α} {f : α → Proc β} (hp : Uses Op.Calm p)
    (hf : ∀ a l, l.duty = { Duty.none with inAlloc := true } →
      Keeps (machine L).possible (fun _ l' => l'.duty = .none) (f a) l) :
    Settles L (allocLock >>= fun _ => ensureLoaded >>= fun _ => p >>= f) := by
  intro l hl
  refine keeps_step True.intro fun _ _ _ l1 _ h1 => keeps_step True.intro fun _ _ _ l2 _ h2 => ?_
  have d1 := duty_allocLock h1
  rw [hl] at d1
  have d2 := (duty_of_calm h2 (congrArg Duty.refresh d1) True.intro).trans d1
  exact (keeps_calm hp (congrArg Duty.refresh d2)).bind fun a l' hd => hf a l' (hd.trans d2)

theorem keeps_allocUnlock {a : α} (hl : l.duty = { Duty.none with inAlloc := true }) :
    Keeps (machine L).possible (fun _ l' => l'.duty = .none)
      (allocUnlock >>= fun _ => (Pure.pure a : Proc α)) l := by
  refine keeps_step True.intro fun _ _ _ l1 _ h1 => ?_
  show l1.duty = .none
  rw [duty_allocUnlock h1, hl]
  rfl

/-- The cursor write at the end of an allocation. -/
theorem keeps_persist {seg : Allocator → Int} {f : Bool → Res α}
    (hl : l.duty = { Duty.none with inAlloc := true }) :
    Keeps (machine L).possible (fun _ l' => l'.duty = .none)
      (allocator >>= fun a => persistCursor (seg a) a.curOff >>= fun ok =>
        allocUnlock >>= fun _ => if ok then (Pure.pure (f true) : Proc (Res α))
          else Pure.pure (f false)) l := by
  refine keeps_step True.intro fun _ _ a l1 _ h1 => keeps_step True.intro fun _ _ ok l2 _ h2 => ?_
  have d1 := (duty_of_calm h1 (congrArg Duty.refresh hl) True.intro).trans hl
  have d2 := (duty_of_calm h2 (congrArg Duty.refresh d1) True.intro).trans d1
  refine keeps_step True.intro fun _ _ _ l3 _ h3 => ?_
  have d3 : l3.duty = .none := by
    rw [duty_allocUnlock h3, d2]
    rfl
  cases ok <;> exact d3

theorem settles_allocate (size : Int) (useReserve : Bool) :
    Settles L (allocate L size useReserve) := by
  refine settles_underAlloc (calm_allocOneLocked size useReserve) fun r l hl => ?_
  cases r with
  | error e => exact keeps_allocUnlock hl
  | ok x => exact keeps_persist (f := fun ok => if ok then .ok x else .error .io) hl

theorem settles_allocateSegmentBatch (sizes : List Int) :
    Settles L (allocateSegmentBatch L sizes) := by
  refine settles_underAlloc (calm_allocBatchLoop sizes) fun r l hl => ?_
  cases r with
  | error e => exact keeps_allocUnlock hl
  | ok xs =>
    dsimp only
    split
    · exact keeps_allocUnlock hl
    · exact keeps_persist (f := fun ok => if ok then .ok xs else .error .io) hl

/-- What a call owes between its allocations and commits: nothing. -/
theorem restored_settled (L : Layout) :
    Restored L (machine L).possible (fun l => l.duty = .none) where
  plain := by
    refine fun o l ho hl => ⟨True.intro, ?_⟩
    rintro r l' ⟨s, s', -, hx⟩
    exact (duty_of_calm hx (refresh_of_none hl) ho.calm).trans hl
  allocate := settles_allocate
  allocateSegmentBatch := settles_allocateSegmentBatch
  putMapping := settles_putMapping
  deleteMapping := settles_deleteMapping
  batchPutMapping := settles_batchPutMapping
  batchDeleteMapping := settles_batchDeleteMapping
  moveMapping := settles_moveMapping

/-- **Every call settles.** -/
theorem code_settles (L : Layout) (call : Call) : Settles L (code L call) :=
  (code_shaped L call).keeps (restored_settled L)

end Taihu
