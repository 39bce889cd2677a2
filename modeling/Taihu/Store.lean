/-
# The store: lookups, commits, allocation, garbage collection

`internal/metastore/kv_pebble.go`, and `reclaimOnce` of `segments.go`, as programs over the
atomic operations.  One program per method, with the source's error returns written out; loops
over a slice are recursions on the list.
-/
import Taihu.System

namespace Taihu

open Concur

/-- A procedure of the system. -/
abbrev Proc (α : Type) : Type := Program sig α

/-- What a procedure returns: a value, or the error the source returns. -/
abbrev Res (α : Type) : Type := Except Err α

/-! ## 1. The operations as procedures -/

abbrev perform (o : Op) : Proc o.Reply := @Program.perform sig o

def cacheGet (key : Key) : Proc (Option ObjectMeta) := perform (.cache (.get key))
def cachePut (key : Key) (md : ObjectMeta) : Proc Unit := perform (.cache (.put key md))
def cacheDel (key : Key) : Proc Unit := perform (.cache (.del key))

def mappingGet (key : Key) (site : ReadSite) : Proc (Option ObjectMeta) :=
  perform (.pebble (.getMapping key site))
def mappingGetMany (keys : List Key) : Proc (Option (SortedMap Key ObjectMeta)) :=
  perform (.pebble (.getMany keys))
def iterMapping : Proc (List (Key × ObjectMeta)) := perform (.pebble .iterMapping)
def getSegment (id : Int) : Proc (Option SegmentMeta) := perform (.pebble (.getSegment id))
def apply : Proc Bool := perform (.pebble .apply)

def segsLock : Proc Unit := perform (.segs .lock)
def segsUnlock : Proc Unit := perform (.segs .unlock)
def putObjectLocked (key : Key) (md : ObjectMeta) (old : Option ObjectMeta) (value : Option Bytes) :
    Proc Unit := perform (.segs (.putObjectLocked key md old value))
def delObjectLocked (key : Key) (md : ObjectMeta) : Proc Unit :=
  perform (.segs (.delObjectLocked key md))
def refSegment (id : Int) (reader : Option (Key × ObjectMeta)) : Proc Unit :=
  perform (.segs (.ref id reader))
def unrefSegment (id : Int) : Proc Unit := perform (.segs (.unref id))
def canUse (id : Int) : Proc Bool := perform (.segs (.canUse id))
def activate (id : Int) : Proc Bool := perform (.segs (.activate id))
def markFull (id : Int) : Proc Bool := perform (.segs (.markFull id))
def markCompactingOp (id : Int) : Proc Bool := perform (.segs (.markCompacting id))
def popFree : Proc (Option Int) := perform (.segs .popFree)
def gcCandidates (order : List Int) : Proc (List Int) := perform (.segs (.gcCandidates order))
def gcFinalize (ids : List Int) : Proc Nat := perform (.segs (.gcFinalize ids))

def allocLock : Proc Unit := perform (.alloc .lock)
def allocUnlock : Proc Unit := perform (.alloc .unlock)
def ensureLoaded : Proc Unit := perform (.alloc .ensureLoaded)
def allocator : Proc Allocator := perform (.alloc .read)
def setCursor (seg off : Int) : Proc Unit := perform (.alloc (.setCursor seg off))
def takeExtent (aligned : Int) : Proc (Int × Int) := perform (.alloc (.take aligned))
def persistCursor (seg off : Int) : Proc Bool := perform (.alloc (.persist seg off))

def devWrite (seg off : Int) (block : Bytes) : Proc Bool := perform (.dev (.write seg off block))
def devRead (seg off : Int) : Proc (Option Bytes) := perform (.dev (.read seg off))

/-! ## 2. Lookups -/

/-- `GetMapping`: the cache, then pebble; a hit in pebble fills the cache. -/
def getMapping (key : Key) : Proc (Res ObjectMeta) := do
  match ← cacheGet key with
  | some md => pure (.ok md)
  | none =>
    match ← mappingGet key .lookup with
    | none => pure (.error .notFound)
    | some md =>
      cachePut key md
      pure (.ok md)

/-- `getMappingRefRetries`. -/
def getMappingRefRetries : Nat := 8

/-- The loop of `GetMappingRef`, with the retries left.  Each round takes a reference for the
mapping at hand and reads pebble again; after the last round the reference is taken without
reading again. -/
def getMappingRefLoop (key : Key) : Nat → ObjectMeta → Proc (Res ObjectMeta)
  | 0, md => do
    refSegment md.segmentID (some (key, md))
    pure (.ok md)
  | n + 1, md => do
    refSegment md.segmentID none
    match ← mappingGet key (.revalidate md) with
    | none =>
      unrefSegment md.segmentID
      pure (.error .notFound)
    | some cur =>
      if cur = md then pure (.ok md)
      else
        unrefSegment md.segmentID
        getMappingRefLoop key n cur

/-- `GetMappingRef`. -/
def getMappingRef (key : Key) : Proc (Res ObjectMeta) := do
  match ← getMapping key with
  | .error e => pure (.error e)
  | .ok md => getMappingRefLoop key getMappingRefRetries md

/-- The first loop of `BatchGetMapping`: what the cache has. -/
def batchGetCached : List Key → Proc (List (Key × Option ObjectMeta))
  | [] => pure []
  | key :: keys => do
    let r ← cacheGet key
    let rs ← batchGetCached keys
    pure ((key, r) :: rs)

/-- Fill the cache with what pebble had. -/
def cachePutAll : List (Key × ObjectMeta) → Proc Unit
  | [] => pure ()
  | (key, md) :: rest => do
    cachePut key md
    cachePutAll rest

/-- The elements of `xs` in some range order: `order` first, then the rest. -/
def rangeOrder {β : Type} (key : β → Key) (order : List Key) (xs : List β) : List β :=
  order.dedup.flatMap (fun k => xs.filter (fun x => key x = k))
    ++ xs.filter (fun x => key x ∉ order)

theorem mem_rangeOrder_iff {γ : Type} {f : γ → Key} {order : List Key} {xs : List γ} {y : γ} :
    y ∈ rangeOrder f order xs ↔ y ∈ xs := by
  simp only [rangeOrder, List.mem_append, List.mem_flatMap, List.mem_dedup, List.mem_filter,
    decide_eq_true_eq]
  constructor
  · rintro (⟨k, -, hy, -⟩ | ⟨hy, -⟩)
    · exact hy
    · exact hy
  · intro hy
    by_cases hk : f y ∈ order
    · exact Or.inl ⟨f y, hk, hy, rfl⟩
    · exact Or.inr ⟨hy, hk⟩

/-- `BatchGetMapping`; `order` is the range order of the map `found`. -/
def batchGetMapping (keys : List Key) (order : List Key) : Proc (Res (List ObjectMeta)) := do
  let cached ← batchGetCached keys
  let missed := ((cached.filter (fun x => x.2.isNone)).map Prod.fst).dedup
  if missed = [] then pure (.ok (cached.filterMap Prod.snd))
  else
    match ← mappingGetMany missed with
    | none => pure (.error .notFound)
    | some found =>
      cachePutAll (rangeOrder Prod.fst order found.entries)
      pure (.ok (cached.filterMap (fun x => x.2 <|> found.find? x.1)))

/-- `LoadCache`. -/
def loadCache : Proc Unit := do
  let all ← iterMapping
  cachePutAll all

/-! ## 3. Commits -/

/-- `putObject`. -/
def putObject (key : Key) (md : ObjectMeta) (old : Option ObjectMeta) (value : Option Bytes) :
    Proc Bool := do
  segsLock
  putObjectLocked key md old value
  segsUnlock
  apply

/-- `PutMapping`. -/
def putMapping (key : Key) (md : ObjectMeta) (value : Option Bytes) : Proc (Res Unit) := do
  let old ← (do
    match ← cacheGet key with
    | some om => pure (some om)
    | none => mappingGet key .lookup)
  if ← putObject key md old value then
    cachePut key md
    pure (.ok ())
  else pure (.error .io)

/-- `delObject`. -/
def delObject (key : Key) (md : ObjectMeta) : Proc Bool := do
  segsLock
  delObjectLocked key md
  segsUnlock
  apply

/-- `DeleteMapping`. -/
def deleteMapping (key : Key) : Proc (Res Unit) := do
  match ← getMapping key with
  | .error e => pure (.error e)
  | .ok old =>
    if ← delObject key old then
      cacheDel key
      pure (.ok ())
    else pure (.error .io)

/-- The loop of `BatchPutMapping` under the lock: the old mapping comes from the cache only. -/
def batchPutLocked : List PutMappingItem → Proc Unit
  | [] => pure ()
  | it :: items => do
    let old ← cacheGet it.key
    putObjectLocked it.key it.md old it.value
    batchPutLocked items

/-- `BatchPutMapping`. -/
def batchPutMapping (items : List PutMappingItem) : Proc (Res Unit) := do
  if items = [] then pure (.ok ())
  else
    segsLock
    batchPutLocked items
    segsUnlock
    if ← apply then
      cachePutAll (items.map (fun it => (it.key, it.md)))
      pure (.ok ())
    else pure (.error .io)

/-- The lookups of `BatchDeleteMapping`: for each key its mapping, or `none` where it has
none. -/
def batchDeleteLookup : List Key → Proc (List (Key × Option ObjectMeta))
  | [] => pure []
  | key :: keys => do
    let r ← getMapping key
    let rs ← batchDeleteLookup keys
    pure ((key, r.toOption) :: rs)

/-- The deletions of `BatchDeleteMapping` under the lock. -/
def batchDeleteLocked : List (Key × ObjectMeta) → Proc Unit
  | [] => pure ()
  | (key, md) :: dels => do
    delObjectLocked key md
    batchDeleteLocked dels

def cacheDelAll : List Key → Proc Unit
  | [] => pure ()
  | key :: keys => do
    cacheDel key
    cacheDelAll keys

/-- `BatchDeleteMapping`: the errors of the keys, in order. -/
def batchDeleteMapping (keys : List Key) : Proc (Res (List (Option Err))) := do
  let found ← batchDeleteLookup keys
  let errs := found.map (fun x => if x.2.isNone then some Err.notFound else none)
  let dels := found.filterMap (fun x => x.2.map (fun md => (x.1, md)))
  if dels = [] then pure (.ok errs)
  else
    segsLock
    batchDeleteLocked dels
    segsUnlock
    if ← apply then
      cacheDelAll (dels.map Prod.fst)
      pure (.ok errs)
    else pure (.error .io)

/-- `MoveMapping`: compare with pebble and commit, all under the lock. -/
def moveMapping (key : Key) (old new : ObjectMeta) : Proc (Res Unit) := do
  segsLock
  let cur ← mappingGet key (.check old)
  if cur = some old then
    putObjectLocked key new (some old) none
    if ← apply then
      segsUnlock
      cachePut key new
      pure (.ok ())
    else
      segsUnlock
      pure (.error .io)
  else
    segsUnlock
    pure (.error .conflict)

/-! ## 4. Allocation -/

/-- `reserveSegs`. -/
def reserveSegs : Int := 2

/-- The rolling branch of `allocOneLocked`: the request does not fit behind the cursor `a`. -/
def rollSegment (L : Layout) (a : Allocator) (useReserve : Bool) : Proc (Res Unit) := do
  let marked ← (if 0 < a.curOff then markFull a.curSeg else pure true)
  if marked then
    let upper := if useReserve then L.segmentCount else L.segmentCount - reserveSegs
    let next ← (if a.curSeg + 1 < upper then canUse (a.curSeg + 1) else pure false)
    if next then
      setCursor (a.curSeg + 1) 0
      if ← activate (a.curSeg + 1) then pure (.ok ()) else pure (.error .io)
    else
      match ← popFree with
      | none => pure (.error .noSpace)
      | some seg =>
        setCursor seg 0
        pure (.ok ())
  else pure (.error .io)

/-- `allocOneLocked`. -/
def allocOneLocked (L : Layout) (size : Int) (useReserve : Bool) : Proc (Res (Int × Int)) := do
  let aligned := align4k size
  let a ← allocator
  let rolled ← (if a.curOff + aligned > L.segmentSizeBytes then rollSegment L a useReserve
    else pure (.ok ()))
  match rolled with
  | .error e => pure (.error e)
  | .ok () =>
    let x ← takeExtent aligned
    pure (.ok x)

/-- `allocate`. -/
def allocate (L : Layout) (size : Int) (useReserve : Bool) : Proc (Res (Int × Int)) := do
  allocLock
  ensureLoaded
  match ← allocOneLocked L size useReserve with
  | .error e =>
    allocUnlock
    pure (.error e)
  | .ok (seg, off) =>
    let a ← allocator
    let ok ← persistCursor seg a.curOff
    allocUnlock
    if ok then pure (.ok (seg, off)) else pure (.error .io)

/-- The loop of `AllocateSegmentBatch`. -/
def allocBatchLoop (L : Layout) : List Int → Proc (Res (List (Int × Int)))
  | [] => pure (.ok [])
  | size :: sizes => do
    match ← allocOneLocked L size false with
    | .error e => pure (.error e)
    | .ok x =>
      match ← allocBatchLoop L sizes with
      | .error e => pure (.error e)
      | .ok xs => pure (.ok (x :: xs))

/-- `AllocateSegmentBatch`: one cursor write for the whole batch. -/
def allocateSegmentBatch (L : Layout) (sizes : List Int) : Proc (Res (List (Int × Int))) := do
  allocLock
  ensureLoaded
  match ← allocBatchLoop L sizes with
  | .error e =>
    allocUnlock
    pure (.error e)
  | .ok xs =>
    if xs = [] then
      allocUnlock
      pure (.ok xs)
    else
      let a ← allocator
      let ok ← persistCursor a.curSeg a.curOff
      allocUnlock
      if ok then pure (.ok xs) else pure (.error .io)

/-! ## 5. Compaction marks and garbage collection -/

/-- `MarkCompacting`. -/
def markCompacting (id : Int) : Proc (Res Unit) := do
  if ← markCompactingOp id then pure (.ok ()) else pure (.error .io)

/-- Phase 2 of `reclaimOnce`: the candidates whose `Reclaiming` state is durable. -/
def durableReclaiming : List Int → Proc (List Int)
  | [] => pure []
  | id :: ids => do
    let md ← getSegment id
    let rest ← durableReclaiming ids
    pure (if md.map SegmentMeta.state = some .reclaiming then id :: rest else rest)

/-- `reclaimOnce`. -/
def reclaimOnce (order : List Int) : Proc Nat := do
  let ids ← gcCandidates order
  if ids = [] then pure 0
  else
    let durable ← durableReclaiming ids
    if durable = [] then pure 0 else gcFinalize durable

end Taihu
