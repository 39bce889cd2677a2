/-
# Only updates change the store

`Taihu.Contents` says what the store holds, and most of the calls are to leave it alone.  A round of
compaction writes the bytes of live objects elsewhere and moves their mappings; reclamation takes
segments away; allocations write the cursor; reads fill the cache; reopening starts with nothing but
pebble and the device.  All of these change the disk, and none of them what a client can read.

A call stages what its batch will do before it commits it.  `UpdatesKept` says that what is staged is
what the call may give the keys, so that a commit does nothing else.
-/
import Taihu.Contents

namespace Taihu

open Concur
open Program hiding pure

variable {L : Layout} {s s' : Sys} {l l' : Local} {ls ls' rest : List Local} {strict : Bool}

/-! ## 1. What the calls give the keys -/

/-- What a call may give a key: a put its bytes, a delete nothing, and the others have nothing to
give. -/
def Call.Updates : Call → Key → Option Bytes → Prop
  | .put key size data, k, v => k = key ∧ v = some (putValue size data)
  | .batchPut items, k, v => ∃ it ∈ items, k = it.key ∧ v = some (putValue it.size it.data)
  | .pipelinePut items, k, v => ∃ it ∈ items, k = it.key ∧ v = some (putValue it.size it.data)
  | .batchPutMapping items, k, v => ∃ it ∈ items, k = it.key ∧ v = it.value
  | .deleteMapping key, k, v => k = key ∧ v = none
  | .batchDeleteMapping keys, k, v => k ∈ keys ∧ v = none
  | _, _, _ => False

/-- What the operation stages may be given to its key. -/
def Op.Within (U : Key → Option Bytes → Prop) : Op → Prop
  | .segs (.putObjectLocked key _ _ (some v)) => U key (some v)
  | .segs (.delObjectLocked key _) => U key none
  | _ => True

section

variable {U : Key → Option Bytes → Prop} {α : Type}

theorem Op.Within.of_batches {o : Op} (h : o.Batches = false) : o.Within U := by
  cases o with
  | segs o => cases o <;> first | exact True.intro | exact absurd h (by simp [Op.Batches])
  | _ => exact True.intro

theorem within_plain {p : Proc α} (hu : Uses Op.Plain p) : Uses (Op.Within U) p :=
  hu.mono fun _ ho => .of_batches ho.calm.batches

theorem within_quiet {p : Proc α} (hu : Uses Op.Quiet p) : Uses (Op.Within U) p :=
  within_plain (hu.mono fun _ ho => ho.plain)

theorem within_allocation {p : Proc α} (hu : Uses Op.IsAllocation p) : Uses (Op.Within U) p :=
  hu.mono fun _ ho => .of_batches ho.idle.batches

theorem within_putMapping (key : Key) (md : ObjectMeta) {value : Option Bytes}
    (hU : ∀ v, value = some v → U key (some v)) : Uses (Op.Within U) (putMapping key md value) := by
  refine Uses.bind (.step True.intro fun r => ?_) fun old => ?_
  · cases r with
    | some om => exact True.intro
    | none => exact ⟨True.intro, fun _ => True.intro⟩
  · refine .step True.intro fun _ => .step ?_ fun _ => .step True.intro fun _ => .step True.intro fun ok => ?_
    · cases value with
      | none => exact True.intro
      | some v => exact hU v rfl
    · cases ok with
      | false => exact True.intro
      | true => exact .step True.intro fun _ => True.intro

theorem within_deleteMapping {key : Key} (hU : U key none) : Uses (Op.Within U) (deleteMapping key) := by
  refine (within_quiet (quiet_getMapping key)).bind fun r => ?_
  cases r with
  | error e => exact True.intro
  | ok old =>
    refine .step True.intro fun _ => .step hU fun _ => .step True.intro fun _ => .step True.intro fun ok => ?_
    cases ok with
    | false => exact True.intro
    | true => exact .step True.intro fun _ => True.intro

theorem within_batchPutMapping (items : List PutMappingItem)
    (hU : ∀ it ∈ items, ∀ v, it.value = some v → U it.key (some v)) :
    Uses (Op.Within U) (batchPutMapping items) := by
  have hlocked : Uses (Op.Within U) (batchPutLocked items) := by
    induction items with
    | nil => exact True.intro
    | cons it items ih =>
      obtain ⟨hit, hitems⟩ := List.forall_mem_cons.mp hU
      refine .step True.intro fun _ => .step ?_ fun _ => ih hitems
      obtain ⟨key, md, value⟩ := it
      cases value with
      | none => exact True.intro
      | some v => exact hit v rfl
  refine Uses.ite True.intro (.step True.intro fun _ => hlocked.bind fun _ => ?_)
  refine .step True.intro fun _ => .step True.intro fun ok => ?_
  cases ok with
  | false => exact True.intro
  | true => exact (within_quiet (quiet_cachePutAll _)).bind fun _ => True.intro

theorem within_cacheDelAll (keys : List Key) : Uses (Op.Within U) (cacheDelAll keys) := by
  induction keys with
  | nil => exact True.intro
  | cons key keys ih => exact .step True.intro fun _ => ih

theorem within_batchDeleteLocked (dels : List (Key × ObjectMeta)) (hU : ∀ d ∈ dels, U d.1 none) :
    Uses (Op.Within U) (batchDeleteLocked dels) := by
  induction dels with
  | nil => exact True.intro
  | cons d dels ih =>
    obtain ⟨hd, hdels⟩ := List.forall_mem_cons.mp hU
    exact .step hd fun _ => ih hdels

theorem within_writeAndCommit (xs : List (PutItem × (Int × Int)))
    (hU : ∀ x ∈ xs, U x.1.key (some (putValue x.1.size x.1.data))) :
    Uses (Op.Within U) (writeAndCommit L xs) := by
  refine (within_plain (plain_devAppendBatch _)).bind fun r => ?_
  cases r with
  | error e => exact True.intro
  | ok u =>
    refine within_batchPutMapping _ fun it hit v hv => ?_
    obtain ⟨x, hx, rfl⟩ := List.mem_map.mp hit
    obtain rfl : putValue x.1.size x.1.data = v := Option.some.inj hv
    exact hU x hx

theorem within_put {key : Key} {size : Int} {data : Bytes} (hU : U key (some (putValue size data))) :
    Uses (Op.Within U) (put L key size data) := by
  refine (within_allocation (uses_putBegin size)).bind fun r => ?_
  cases r with
  | error e => exact True.intro
  | ok ext =>
    have happend : Uses Op.Plain (if 0 < size then putAppend L ext.1 ext.2 size data
        else (Pure.pure (.ok ()) : Proc (Res Unit))) :=
      .ite (.ite True.intro (plain_devAppend _ _ _ _)) True.intro
    refine (within_plain happend).bind fun r => ?_
    cases r with
    | error e => exact True.intro
    | ok u =>
      refine within_putMapping key _ fun v hv => ?_
      obtain rfl : putValue size data = v := Option.some.inj hv
      exact hU

theorem within_batchPut (items : List PutItem)
    (hU : ∀ it ∈ items, U it.key (some (putValue it.size it.data))) : Uses (Op.Within U) (batchPut L items) := by
  refine Uses.ite True.intro ?_
  split
  · exact True.intro
  · refine (within_allocation (uses_allocateSegmentBatch _)).bind fun r => ?_
    cases r with
    | error e => exact True.intro
    | ok exts => exact within_writeAndCommit _ fun x hx => hU x.1 (List.of_mem_zip hx).1

/-- **Moving an object gives its key nothing.** -/
theorem within_moveMapping (key : Key) (old new : ObjectMeta) : Uses (Op.Within U) (moveMapping key old new) := by
  refine .step True.intro fun _ => .step True.intro fun cur => Uses.ite ?_ ?_
  · refine .step True.intro fun _ => .step True.intro fun ok => ?_
    cases ok with
    | false => exact .step True.intro fun _ => True.intro
    | true => exact .step True.intro fun _ => .step True.intro fun _ => True.intro
  · exact .step True.intro fun _ => True.intro

theorem within_moveObject (key : Key) : Uses (Op.Within U) (moveObject L key) := by
  refine (within_quiet (quiet_getMapping key)).bind fun r => ?_
  split
  · exact True.intro
  · exact True.intro
  · refine (within_quiet (quiet_readAt _ _ _)).bind fun r => ?_
    split
    · exact True.intro
    · exact True.intro
    · refine Uses.ite True.intro ((within_allocation (uses_allocate _ true)).bind fun r => ?_)
      cases r with
      | error e => exact True.intro
      | ok x =>
        refine (within_plain (plain_devAppend _ _ _ _)).bind fun r => ?_
        cases r with
        | error e => exact True.intro
        | ok u =>
          refine (within_moveMapping key _ _).bind fun r => ?_
          cases r <;> exact True.intro

end

/-! ## 2. Every call keeps to its updates -/

/-- The contract: what is staged is what the call may give. -/
def updating (L : Layout) : Contract sig Local where
  pre := fun o l => o.Within l.hist.call.Updates
  gives := fun o l r l' => ∃ s s', exec L s l o = some (s', l', r)

section

variable {α : Type} {call : Call}

theorem keeps_within {p : Proc α} (hu : Uses (Op.Within call.Updates) p) (h : l.hist.call = call) :
    Keeps (updating L) (fun _ l' => l'.hist.call = call) p l :=
  hu.keeps (C := updating L) (I := fun l : Local => l.hist.call = call) h
    fun _ l ho hl => ⟨show Op.Within l.hist.call.Updates _ from hl ▸ ho,
      fun _ _ ⟨_, _, hx⟩ => (exec_call hx).trans hl⟩

/-- The lookups of a batch answer for the keys that it was given. -/
theorem within_batchDeleteLookup (keys : List Key) : ∀ {l : Local}, l.hist.call = call →
    Keeps (updating L) (fun found l' => l'.hist.call = call ∧ found.map Prod.fst = keys)
      (batchDeleteLookup keys) l := by
  induction keys with
  | nil => exact fun h => ⟨h, rfl⟩
  | cons key keys ih =>
    intro l h
    refine (keeps_within (within_quiet (quiet_getMapping key)) h).bind fun r l1 h1 => ?_
    exact (ih h1).bind fun rs l2 h2 => ⟨h2.1, congrArg (key :: ·) h2.2⟩

theorem within_batchDeleteMapping (keys : List Key) (hU : ∀ key ∈ keys, call.Updates key none)
    (h : l.hist.call = call) :
    Keeps (updating L) (fun _ l' => l'.hist.call = call) (batchDeleteMapping keys) l := by
  refine (within_batchDeleteLookup keys h).bind fun found l1 h1 => ?_
  obtain ⟨h1, hfst⟩ := h1
  refine Keeps.ite (fun _ => h1) fun _ => keeps_within ?_ h1
  refine .step True.intro fun _ => (within_batchDeleteLocked _ fun d hd => ?_).bind fun _ => ?_
  · obtain ⟨e, he, hmd⟩ := List.mem_filterMap.mp hd
    obtain ⟨md, -, rfl⟩ := Option.map_eq_some_iff.mp hmd
    refine hU e.1 ?_
    rw [← hfst]
    exact List.mem_map_of_mem he
  · refine .step True.intro fun _ => .step True.intro fun ok => ?_
    cases ok with
    | false => exact True.intro
    | true =>
      exact (within_cacheDelAll _).bind fun _ => True.intro

/-- The puts that a pipeline gathers are those that it was given. -/
theorem within_pipelineBegin (items : List PutItem) : ∀ {l : Local}, l.hist.call = call →
    Keeps (updating L) (fun r l' => l'.hist.call = call ∧ OkAll (fun xs => xs.map Prod.fst = items) r)
      (pipelineBegin L items) l := by
  induction items with
  | nil => exact fun h => ⟨h, rfl⟩
  | cons it items ih =>
    intro l h
    refine (keeps_within (within_allocation (uses_putBegin it.size)) h).bind fun r l1 h1 => ?_
    cases r with
    | error e => exact ⟨h1, True.intro⟩
    | ok a =>
      refine (ih h1).bind fun rs l2 h2 => ?_
      cases rs with
      | error e => exact ⟨h2.1, True.intro⟩
      | ok xs => exact ⟨h2.1, congrArg (it :: ·) h2.2⟩

theorem within_pipelinePut (items : List PutItem)
    (hU : ∀ it ∈ items, call.Updates it.key (some (putValue it.size it.data))) (h : l.hist.call = call) :
    Keeps (updating L) (fun _ l' => l'.hist.call = call) (pipelinePut L items) l := by
  refine (within_pipelineBegin items h).bind fun r l1 h1 => ?_
  obtain ⟨h1, hfst⟩ := h1
  cases r with
  | error e => exact h1
  | ok xs =>
    have hfst : xs.map Prod.fst = items := hfst
    refine keeps_within (within_writeAndCommit xs fun x hx => hU x.1 ?_) h1
    rw [← hfst]
    exact List.mem_map_of_mem hx

theorem within_compactOnce (cfg : CompactorConfig) (order : List Int) (h : l.hist.call = call) :
    Keeps (updating L) (fun _ l' => l'.hist.call = call) (compactOnce L cfg order) l :=
  keeps_compactOnce (C := updating L) (I := fun l : Local => l.hist.call = call)
    (fun key _ h1 => keeps_within (within_moveObject key) h1)
    (fun _ _ ho h1 => ⟨.of_batches ho.batches, fun _ _ ⟨_, _, hx⟩ => (exec_call hx).trans h1⟩) cfg order h

end

/-- **What a call stages, it may give.** -/
theorem code_within (L : Layout) (call : Call) (h : l.hist.call = call) :
    Keeps (updating L) (fun _ l' => l'.hist.call = call) (code L call) l := by
  have hmap : ∀ {α : Type} {p : Proc α} {f : α → Result},
      Keeps (updating L) (fun _ l' => l'.hist.call = call) p l →
        Keeps (updating L) (fun _ l' => l'.hist.call = call) (p >>= fun a => Pure.pure (f a)) l :=
    fun hp => hp.bind fun _ _ h' => h'
  have hquiet : ∀ {α : Type} {p : Proc α} {f : α → Result}, Uses Op.Quiet p →
      Keeps (updating L) (fun _ l' => l'.hist.call = call) (p >>= fun a => Pure.pure (f a)) l :=
    fun hu => hmap (keeps_within (within_quiet hu) h)
  have halloc : ∀ {α : Type} {p : Proc α} {f : α → Result}, Uses Op.IsAllocation p →
      Keeps (updating L) (fun _ l' => l'.hist.call = call) (p >>= fun a => Pure.pure (f a)) l :=
    fun hu => hmap (keeps_within (within_allocation hu) h)
  cases call with
  | getMapping key => exact hquiet (quiet_getMapping key)
  | getMappingRef key => exact hquiet (quiet_getMappingRef key)
  | putMapping key md => exact hmap (keeps_within (within_putMapping key md fun _ hv => by cases hv) h)
  | deleteMapping key => exact hmap (keeps_within (within_deleteMapping ⟨rfl, rfl⟩) h)
  | moveMapping key old new => exact hmap (keeps_within (within_moveMapping key old new) h)
  | batchGetMapping keys order => exact hquiet (quiet_batchGetMapping keys order)
  | batchPutMapping items =>
    refine hmap (keeps_within (within_batchPutMapping items fun it hit v hv => ?_) h)
    exact ⟨it, hit, rfl, hv.symm⟩
  | batchDeleteMapping keys => exact hmap (within_batchDeleteMapping keys (fun _ hk => ⟨hk, rfl⟩) h)
  | loadCache => exact hquiet quiet_loadCache
  | allocateSegment size => exact halloc (uses_allocate size false)
  | allocateSegmentReserve size => exact halloc (uses_allocate size true)
  | allocateSegmentBatch sizes => exact halloc (uses_allocateSegmentBatch sizes)
  | markCompacting id => exact hquiet (quiet_markCompacting id)
  | reclaimOnce order => exact hquiet (quiet_reclaimOnce order)
  | put key size data => exact hmap (keeps_within (within_put ⟨rfl, rfl⟩) h)
  | batchPut items => exact hmap (keeps_within (within_batchPut items fun it hit => ⟨it, hit, rfl, rfl⟩) h)
  | pipelinePut items => exact hmap (within_pipelinePut items (fun it hit => ⟨it, hit, rfl, rfl⟩) h)
  | stat key => exact hquiet (quiet_stat key)
  | readAt key off size => exact hquiet (quiet_readAt key off size)
  | asyncGet key off =>
    refine (keeps_within (within_quiet (quiet_asyncGet key off)) h).bind fun r _ h1 => ?_
    cases r <;> exact h1
  | batchRead blocks order => exact hquiet (quiet_batchRead blocks order)
  | moveObject key => exact hmap (keeps_within (within_moveObject key) h)
  | compactOnce cfg order => exact hmap (within_compactOnce cfg order h)

/-! ## 3. The invariant -/

/-- What the threads have staged, their calls may give. -/
def UpdatesKept (ls : List Local) : Prop :=
  ∀ l ∈ ls, ∀ e ∈ l.hist.stage, e.2 ≠ .keep → l.hist.call.Updates e.1 (e.2.on none)

/-- What an operation stages is its own. -/
theorem stage_cases {o : Op} {r : o.Reply} (hx : exec L s l o = some (s', l', r)) {e : Key × Effect}
    (he : e ∈ l'.hist.stage) : e ∈ l.hist.stage ∨ e.2 = .keep ∨
      ∀ U : Key → Option Bytes → Prop, o.Within U → U e.1 (e.2.on none) := by
  by_cases hbatch : o.Batches = false
  · exact Or.inl (stage_same hx hbatch ▸ he)
  cases o with
  | segs o =>
    cases o with
    | putObjectLocked key md old v =>
      obtain ⟨-, rfl⟩ := exec_putObjectLocked hx
      cases v with
      | some v =>
        rcases List.mem_append.mp he with he | he
        · exact Or.inl he
        · rw [List.mem_singleton.mp he]
          exact Or.inr (Or.inr fun U hU => hU)
      | none =>
        rcases List.mem_append.mp he with he | he
        · exact Or.inl he
        · rw [List.mem_singleton.mp he]
          exact Or.inr (Or.inl rfl)
    | delObjectLocked key md =>
      obtain ⟨-, rfl⟩ := exec_delObjectLocked hx
      rcases List.mem_append.mp he with he | he
      · exact Or.inl he
      · rw [List.mem_singleton.mp he]
        exact Or.inr (Or.inr fun U hU => hU)
    | _ => exact absurd rfl hbatch
  | pebble o =>
    cases o with
    | apply =>
      obtain ⟨fs, rfl, -⟩ := exec_apply hx
      cases r <;> exact absurd he List.not_mem_nil
    | _ => exact absurd rfl hbatch
  | _ => exact absurd rfl hbatch

/-- **The step lemma.** -/
theorem UpdatesKept.step (h : UpdatesKept (l :: rest)) {o : Op} {r : o.Reply}
    (ho : o.Within l.hist.call.Updates) (hx : exec L s l o = some (s', l', r)) : UpdatesKept (l' :: rest) := by
  obtain ⟨hl, hrest⟩ := List.forall_mem_cons.mp h
  refine List.forall_mem_cons.mpr ⟨fun e he hk => ?_, hrest⟩
  rw [exec_call hx]
  rcases stage_cases hx he with he | he | hU
  · exact hl e he hk
  · exact absurd he hk
  · exact hU _ ho

/-- What is staged, in every run: nothing is asked of the steps. -/
def updatesDiscipline (L : Layout) : Discipline (machine L) where
  toRule := unrestricted
  contract := updating L
  inv := fun _ ls => UpdatesKept ls
  post := fun _ _ => True
  perm := fun _ _ _ hp h l hl => h l (hp.mem_iff.mpr hl)
  spawn := fun _ _ _ _ h => List.forall_mem_cons.mpr ⟨fun _ he => absurd he List.not_mem_nil, h⟩
  starts := fun call _ => (code_within L call rfl).mono fun _ _ _ => True.intro
  retire := by
    intro s l rest a _ h
    obtain ⟨hl, hrest⟩ := List.forall_mem_cons.mp h
    exact ⟨List.forall_mem_cons.mpr ⟨hl, hrest⟩, True.intro⟩
  restart := fun _ _ _ _ _ hl => absurd hl List.not_mem_nil
  sound := fun s _ _ _ s' _ _ h ho _ hx => ⟨h.step ho hx, s, s', hx⟩

/-! ## 4. The store -/

/-- A key has after a batch what it had, or what the batch gives it. -/
theorem applyEffects_cases (es : List (Key × Effect)) : ∀ (value : Key → Option Bytes) (k : Key),
    applyEffects value es k = value k ∨ ∃ e ∈ es, e.1 = k ∧ e.2 ≠ .keep ∧ applyEffects value es k = e.2.on none := by
  induction es using List.reverseRecOn with
  | nil => exact fun _ _ => Or.inl rfl
  | append_singleton es e ih =>
    intro value k
    rw [applyEffects_append]
    split
    · rename_i hk
      obtain ⟨key, e⟩ := e
      cases e with
      | keep =>
        refine (ih value k).imp_right ?_
        rintro ⟨x, hx, hkey⟩
        exact ⟨x, List.mem_append_left _ hx, hkey⟩
      | store v => exact Or.inr ⟨_, List.mem_append_right _ (List.mem_singleton_self _), hk.symm, by simp, rfl⟩
      | drop => exact Or.inr ⟨_, List.mem_append_right _ (List.mem_singleton_self _), hk.symm, by simp, rfl⟩
    · refine (ih value k).imp_right ?_
      rintro ⟨x, hx, hkey⟩
      exact ⟨x, List.mem_append_left _ hx, hkey⟩

/-- A step changes the committed values of keys by what its call may give them. -/
theorem value_cases (h : UpdatesKept (l :: rest)) {o : Op} {r : o.Reply}
    (hx : exec L s l o = some (s', l', r)) (key : Key) :
    s'.value key = s.value key ∨ l.hist.call.Updates key (s'.value key) := by
  by_cases ha : o = .pebble .apply
  · subst ha
    obtain ⟨fs, -, hs⟩ := exec_apply hx
    cases r with
    | false =>
      subst hs
      exact Or.inl rfl
    | true =>
      have hval : s'.value = applyEffects s.value l.hist.stage := by
        rw [hs]
        rfl
      rw [hval]
      rcases applyEffects_cases l.hist.stage s.value key with hsame | ⟨e, he, rfl, hk, hgives⟩
      · exact Or.inl hsame
      · exact Or.inr (hgives ▸ h l List.mem_cons_self e he hk)
  · exact Or.inl (congrFun (exec_value hx ha) key)

/-- An object is moved, and then its key is written. -/
def movedThenWritten : List (Act Call) :=
  Act.calls (.put [1] 1 [7]) 0 15 ++ Act.calls (.moveObject [1]) 1 22 ++ Act.calls (.put [1] 1 [9]) 2 12

end Taihu
