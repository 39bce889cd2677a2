/-
# The shared state and the atomic operations

What is atomic is what the source makes atomic: a method of the cache (it locks one shard), a
read of pebble, an `Apply` or `Set` of pebble, a method of the segment manager that holds
`segmentManager.mu` from its first line to its last, one access to the allocator under
`allocator.mu`, and one 4 KiB block of a device transfer.  Everything longer is a program over
these operations and may be interrupted between any two of them; the two mutexes that are held
across operations are part of the state.

Besides the state of the program there are HISTORY variables: `Sys.value`, the bytes last
committed for each key, and the record `Hist` a thread keeps of what it has done.  No operation
reads them.  They exist so that a statement can say "the extents of the puts still open" or "the
object this reader holds a reference for".  A few operations carry an argument that is only
copied into the history; each says so.
-/
import Taihu.Cache
import Taihu.Segments
import Taihu.Lib.Machine
import Taihu.Lib.Span

namespace Taihu

open Concur

abbrev Bytes := List Byte

/-! ## 1. The calls a client can make -/

/-- `PutMappingItem`; `value` is history: the bytes of the object, where the call knows them. -/
structure PutMappingItem where
  key : Key
  md : ObjectMeta
  value : Option Bytes
  deriving DecidableEq, Repr

/-- `putItem`. -/
structure PutItem where
  key : Key
  size : Int
  data : Bytes
  deriving DecidableEq, Repr

/-- `BatchReadBlock`; of `Dst` only the length matters. -/
structure BatchReadBlock where
  key : Key
  off : Int
  size : Int
  dst : Int
  deriving DecidableEq, Repr

/-- `CompactorConfig`, less the interval.  The thresholds are `float64` in the source; they are
kept as the comparisons made with them, which may be any functions.
`holeReached alive segSize` is `1 - alive/segSize ≥ HoleThreshold`, `forced used segCount` is
`used/segCount ≥ ForceWatermark`, and `moreHole a b segSize` compares the hole ratios of two
segments with `a` and `b` bytes alive: -1 for less, 0 for equal, 1 for greater. -/
structure CompactorConfig where
  holeReached : Int → Int → Bool
  forced : Nat → Int → Bool
  moreHole : Int → Int → Int → Int
  maxMovePerRound : Int

/-- The exported methods of the store and of the storage layer that the model covers.  `order`
is the range order of a Go map. -/
inductive Call where
  | getMapping (key : Key)
  | getMappingRef (key : Key)
  | putMapping (key : Key) (md : ObjectMeta)
  | deleteMapping (key : Key)
  | moveMapping (key : Key) (old new : ObjectMeta)
  | batchGetMapping (keys : List Key) (order : List Key)
  | batchPutMapping (items : List PutMappingItem)
  | batchDeleteMapping (keys : List Key)
  | loadCache
  | allocateSegment (size : Int)
  | allocateSegmentReserve (size : Int)
  | allocateSegmentBatch (sizes : List Int)
  | markCompacting (id : Int)
  | reclaimOnce (order : List Int)
  | put (key : Key) (size : Int) (data : Bytes)
  | batchPut (items : List PutItem)
  | pipelinePut (items : List PutItem)
  | stat (key : Key)
  | readAt (key : Key) (off size : Int)
  | asyncGet (key : Key) (off : Int)
  | batchRead (blocks : List BatchReadBlock) (order : List Key)
  | moveObject (key : Key)
  | compactOnce (cfg : CompactorConfig) (order : List Int)

/-! ## 2. State -/

/-- `allocator`, less its layout. -/
structure Allocator where
  curSeg : Int
  curOff : Int
  cursorLoaded : Bool
  deriving DecidableEq, Repr

/-- The raw device: its bytes, and the outcomes of the coming block transfers as in `DB`. -/
structure Dev where
  bytes : Int → Byte
  faults : List Bool

/-- Everything the threads share. -/
structure Sys where
  db : DB
  segs : SegmentManager
  segMu : Bool
  alloc : Allocator
  allocMu : Bool
  cache : MetaCache
  dev : Dev
  /-- history: the bytes of the last committed `Put` of each key, if no delete followed it. -/
  value : Key → Option Bytes

/-- The extent an object occupies. -/
def ObjectMeta.span (md : ObjectMeta) : Span := ⟨md.segmentID, md.offset, align4k md.size⟩

/-- An extent that a thread has allocated and not committed: what it has written there, from
the start on, and whether the cursor behind the extent is durable. -/
structure Opened where
  span : Span
  written : Bytes
  durable : Bool
  deriving DecidableEq, Repr

/-- An object a reader holds a reference for, with the bytes committed for its key when the
reference became effective. -/
structure Held where
  key : Key
  md : ObjectMeta
  value : Option Bytes
  deriving DecidableEq, Repr

/-- What an encoded write will do to the committed value of its key. -/
inductive Effect where
  | store (v : Bytes)
  | drop
  | keep
  deriving DecidableEq, Repr

/-- The history of one thread. -/
structure Hist where
  call : Call
  /-- it holds `segmentManager.mu`. -/
  inSegs : Bool := false
  /-- it holds `allocator.mu`. -/
  inAlloc : Bool := false
  /-- the mappings its lookups have returned. -/
  seen : List (Key × ObjectMeta) := []
  /-- the segments it holds references for. -/
  refs : List Int := []
  held : List Held := []
  opens : List Opened := []
  /-- the keys written by its batch, in order. -/
  stage : List (Key × Effect) := []
  /-- the keys it has applied a write of and whose cache entry it has still to refresh. -/
  refresh : List Key := []
  /-- it has loaded the cursor since it took `allocator.mu`. -/
  loaded : Bool := false
  /-- the cursor, as it knows it from reading and moving it under the lock. -/
  cur : Option Allocator := none
  /-- it has marked the segment under the cursor `Full` and not moved the cursor off yet. -/
  sealed : Bool := false
  /-- the segment its allocation is rolling to, and whether that has been made `Active`. -/
  roll : Option (Int × Bool) := none
  /-- the object it last took a reference for, if it has not looked a key up since. -/
  copy : Option Held := none
  /-- the key and mapping a move has found unchanged under the lock. -/
  cas : Option (Key × ObjectMeta) := none
  /-- the values it took references for. -/
  snaps : List (Key × Option Bytes) := []

/-- What a thread has of its own: the pebble batch it is filling, and its history. -/
structure Local where
  batch : Batch := []
  hist : Hist

/-! ## 3. The operations -/

/-- Methods of `metaCache`. -/
inductive CacheOp where
  | get (key : Key)
  | put (key : Key) (md : ObjectMeta)
  | del (key : Key)

/-- Why `mappingModel.get` is called: to look the key up, in `GetMappingRef` after taking a
reference for `md`, or in `MoveMapping` to compare with `old`.  History only. -/
inductive ReadSite where
  | lookup
  | revalidate (md : ObjectMeta)
  | check (old : ObjectMeta)

/-- Reads of pebble, and the `Apply` of the caller's batch. -/
inductive PebbleOp where
  | getMapping (key : Key) (site : ReadSite)
  | getMany (keys : List Key)
  | iterMapping
  | getSegment (id : Int)
  | apply

/-- Methods of `segmentManager`, and the lock and unlock of its mutex.  `value` in
`putObjectLocked` and `reader` in `ref` are history only: the bytes the object is committed
with (`none` when a move commits it), and the object the reference is taken for, where the
caller goes on to use it without looking again. -/
inductive SegsOp where
  | lock
  | unlock
  | putObjectLocked (key : Key) (md : ObjectMeta) (old : Option ObjectMeta) (value : Option Bytes)
  | delObjectLocked (key : Key) (md : ObjectMeta)
  | ref (id : Int) (reader : Option (Key × ObjectMeta))
  | unref (id : Int)
  | canUse (id : Int)
  | activate (id : Int)
  | markFull (id : Int)
  | markCompacting (id : Int)
  | popFree
  | gcCandidates (order : List Int)
  | gcFinalize (ids : List Int)

/-- Accesses to the allocator under its mutex. -/
inductive AllocOp where
  | lock
  | unlock
  | ensureLoaded
  | read
  | setCursor (seg off : Int)
  | take (aligned : Int)
  | persist (seg off : Int)

/-- One block to or from the device. -/
inductive DevOp where
  | write (seg off : Int) (block : Bytes)
  | read (seg off : Int)

inductive Op where
  | cache (o : CacheOp)
  | pebble (o : PebbleOp)
  | segs (o : SegsOp)
  | alloc (o : AllocOp)
  | dev (o : DevOp)

@[reducible] def CacheOp.Reply : CacheOp → Type
  | .get _ => Option ObjectMeta
  | .put _ _ => Unit
  | .del _ => Unit

@[reducible] def PebbleOp.Reply : PebbleOp → Type
  | .getMapping _ _ => Option ObjectMeta
  | .getMany _ => Option (SortedMap Key ObjectMeta)
  | .iterMapping => List (Key × ObjectMeta)
  | .getSegment _ => Option SegmentMeta
  | .apply => Bool

@[reducible] def SegsOp.Reply : SegsOp → Type
  | .lock => Unit
  | .unlock => Unit
  | .putObjectLocked _ _ _ _ => Unit
  | .delObjectLocked _ _ => Unit
  | .ref _ _ => Unit
  | .unref _ => Unit
  | .canUse _ => Bool
  | .activate _ => Bool
  | .markFull _ => Bool
  | .markCompacting _ => Bool
  | .popFree => Option Int
  | .gcCandidates _ => List Int
  | .gcFinalize _ => Nat

@[reducible] def AllocOp.Reply : AllocOp → Type
  | .lock => Unit
  | .unlock => Unit
  | .ensureLoaded => Unit
  | .read => Allocator
  | .setCursor _ _ => Unit
  | .take _ => Int × Int
  | .persist _ _ => Bool

@[reducible] def DevOp.Reply : DevOp → Type
  | .write _ _ _ => Bool
  | .read _ _ => Option Bytes

@[reducible] def Op.Reply : Op → Type
  | .cache o => o.Reply
  | .pebble o => o.Reply
  | .segs o => o.Reply
  | .alloc o => o.Reply
  | .dev o => o.Reply

/-- The signature of the system's programs. -/
abbrev sig : Signature := ⟨Op, Op.Reply⟩

/-! ## 4. What the operations do to the state -/

def CacheOp.exec (c : MetaCache) : (o : CacheOp) → MetaCache × o.Reply
  | .get key => let (r, c) := c.get key; (c, r)
  | .put key md => (c.put key md, ())
  | .del key => (c.del key, ())

/-- `getMany`: one iterator, so one moment, for all the keys; `none` if one is missing. -/
def Disk.getMany (d : Disk) : List Key → Option (SortedMap Key ObjectMeta)
  | [] => some .empty
  | key :: keys =>
    match d.mapping.find? key with
    | some md => (d.getMany keys).map (fun out => out.insert key md)
    | none => none

def PebbleOp.exec (db : DB) (b : Batch) : (o : PebbleOp) → DB × Batch × o.Reply
  | .getMapping key _ => (db, b, db.disk.mapping.find? key)
  | .getMany keys => (db, b, db.disk.getMany keys)
  | .iterMapping => (db, b, db.disk.mapping.entries)
  | .getSegment id => (db, b, db.disk.segment.find? id)
  | .apply => let (ok, db) := db.write (fun d => d.apply b); (db, [], ok)

/-- The methods of the segment manager.  One that locks waits while the mutex is taken; the
ones named `…Locked` are called by its holder. -/
def SegsOp.exec (s : Sys) (b : Batch) : (o : SegsOp) → Option (Sys × Batch × o.Reply)
  | .lock => if s.segMu then none else some ({ s with segMu := true }, b, ())
  | .unlock => some ({ s with segMu := false }, b, ())
  | .putObjectLocked key md old _ =>
    let (b, m) := s.segs.putObjectLocked b key md old
    some ({ s with segs := m }, b, ())
  | .delObjectLocked key md =>
    let (b, m) := s.segs.delObjectLocked b key md
    some ({ s with segs := m }, b, ())
  | .ref id _ => if s.segMu then none else some ({ s with segs := s.segs.ref id }, b, ())
  | .unref id => if s.segMu then none else some ({ s with segs := s.segs.unref id }, b, ())
  | .canUse id => if s.segMu then none else some (s, b, s.segs.canUse id)
  | .activate id =>
    if s.segMu then none
    else
      let (ok, db, m) := SegmentManager.activate s.db s.segs id
      some ({ s with db := db, segs := m }, b, ok)
  | .markFull id =>
    if s.segMu then none
    else
      let (ok, db, m) := SegmentManager.markFull s.db s.segs id
      some ({ s with db := db, segs := m }, b, ok)
  | .markCompacting id =>
    if s.segMu then none
    else
      let (ok, db, m) := SegmentManager.markCompacting s.db s.segs id
      some ({ s with db := db, segs := m }, b, ok)
  | .popFree =>
    if s.segMu then none
    else (SegmentManager.popFree s.db s.segs).map
      (fun x => ({ s with db := x.2.1, segs := x.2.2 }, b, x.1))
  | .gcCandidates order => if s.segMu then none else some (s, b, s.segs.gcCandidates order)
  | .gcFinalize ids =>
    if s.segMu then none
    else
      let (n, db, m) := SegmentManager.gcFinalize s.db s.segs ids
      some ({ s with db := db, segs := m }, b, n)

/-- Where allocation continues: `loadCursor` once, then the cursor in memory. -/
def Sys.cursor (s : Sys) : WriteCursor :=
  if s.alloc.cursorLoaded then ⟨s.alloc.curSeg, s.alloc.curOff⟩
  else s.db.disk.cursor.getD ⟨s.alloc.curSeg, s.alloc.curOff⟩

def AllocOp.exec (s : Sys) : (o : AllocOp) → Option (Sys × o.Reply)
  | .lock => if s.allocMu then none else some ({ s with allocMu := true }, ())
  | .unlock => some ({ s with allocMu := false }, ())
  | .ensureLoaded =>
    some ({ s with alloc := ⟨s.cursor.segmentID, s.cursor.offset, true⟩ }, ())
  | .read => some (s, s.alloc)
  | .setCursor seg off => some ({ s with alloc := { s.alloc with curSeg := seg, curOff := off } }, ())
  | .take aligned =>
    some ({ s with alloc := { s.alloc with curOff := s.alloc.curOff + aligned } },
      (s.alloc.curSeg, s.alloc.curOff))
  | .persist seg off =>
    let (ok, db) := s.db.write (fun d => d.setCursor ⟨seg, off⟩)
    some ({ s with db := db }, ok)

/-- `segmentBase` plus the offset. -/
def devPos (L : Layout) (seg off : Int) : Int := Span.address L.segmentSizeBytes (seg, off)

/-- `n` bytes from `pos` on. -/
def bytesFrom (f : Int → Byte) : Nat → Int → Bytes
  | 0, _ => []
  | n + 1, pos => f pos :: bytesFrom f n (pos + 1)

/-- The next outcome: does the transfer succeed, and what is left. -/
def Dev.outcome (d : Dev) : Bool × List Bool :=
  match d.faults with
  | [] => (true, [])
  | f :: fs => (!f, fs)

/-- A block transfer.  A failed one changes nothing. -/
def DevOp.exec (L : Layout) (d : Dev) : (o : DevOp) → Dev × o.Reply
  | .write seg off block =>
    let base := devPos L seg off
    if d.outcome.1 then
      (⟨fun p => if base ≤ p ∧ p < base + blockSize then block.getD (p - base).toNat 0 else d.bytes p,
        d.outcome.2⟩, true)
    else (⟨d.bytes, d.outcome.2⟩, false)
  | .read seg off =>
    (⟨d.bytes, d.outcome.2⟩,
      if d.outcome.1 then some (bytesFrom d.bytes blockSize.toNat (devPos L seg off)) else none)

/-! ## 5. What the operations add to the history -/

def CacheOp.note (h : Hist) : (o : CacheOp) → o.Reply → Hist
  | .get key, some md => { h with seen := (key, md) :: h.seen, copy := none }
  | .get _, none => { h with copy := none }
  | .put key _, _ => { h with refresh := h.refresh.erase key }
  | .del key, _ => { h with refresh := h.refresh.erase key }

/-- The thread's reference now protects the object `md` of `key`. -/
def Hist.hold (h : Hist) (key : Key) (md : ObjectMeta) (v : Option Bytes) : Hist :=
  { h with
    held := ⟨key, md, v⟩ :: h.held
    copy := some ⟨key, md, v⟩
    snaps := (key, v) :: h.snaps }

/-- The extents of the mappings a batch sets. -/
def Batch.spans (b : Batch) : List Span :=
  b.filterMap (fun o => match o with
    | .setMapping _ md => some md.span
    | _ => none)

def PebbleOp.note (s : Sys) (b : Batch) (h : Hist) : (o : PebbleOp) → o.Reply → Hist
  | .getMapping key .lookup, some md => { h with seen := (key, md) :: h.seen, copy := none }
  | .getMapping _ .lookup, none => { h with copy := none }
  | .getMapping key (.revalidate md), some cur =>
    if cur = md then h.hold key md (s.value key) else { h with seen := (key, cur) :: h.seen }
  | .getMapping _ (.revalidate _), none => h
  | .getMapping key (.check old), some cur => if cur = old then { h with cas := some (key, old) } else h
  | .getMapping _ (.check _), none => h
  | .getMany _, some found => { h with seen := found.entries ++ h.seen }
  | .getMany _, none => h
  | .iterMapping, all => { h with seen := all ++ h.seen }
  | .getSegment _, _ => h
  | .apply, true =>
    { h with
      opens := h.opens.filter (fun o => o.span ∉ b.spans)
      refresh := h.refresh ++ h.stage.map Prod.fst
      stage := []
      cas := none }
  | .apply, false => { h with stage := [], cas := none }

def SegsOp.note (s : Sys) (h : Hist) : (o : SegsOp) → o.Reply → Hist
  | .lock, _ => { h with inSegs := true }
  | .unlock, _ => { h with inSegs := false }
  | .putObjectLocked key _ _ (some v), _ => { h with stage := h.stage ++ [(key, .store v)] }
  | .putObjectLocked key _ _ none, _ => { h with stage := h.stage ++ [(key, .keep)] }
  | .delObjectLocked key _, _ => { h with stage := h.stage ++ [(key, .drop)] }
  | .ref id none, _ => { h with refs := id :: h.refs }
  | .ref id (some (key, md)), _ =>
    let h := { h with refs := id :: h.refs }
    if s.db.disk.mapping.find? key = some md then h.hold key md (s.value key) else h
  | .unref id, _ =>
    let refs := h.refs.erase id
    { h with refs := refs, held := h.held.filter (fun x => x.md.segmentID ∈ refs) }
  | .canUse id, true => { h with roll := some (id, false) }
  | .canUse _, false => h
  | .activate id, _ => { h with roll := some (id, true) }
  | .markFull _, true => { h with sealed := true }
  | .markFull _, false => h
  | .markCompacting _, _ => h
  | .popFree, some id => { h with roll := some (id, true) }
  | .popFree, none => { h with sealed := false }
  | .gcCandidates _, _ => h
  | .gcFinalize _, _ => h

def AllocOp.note (h : Hist) : (o : AllocOp) → o.Reply → Hist
  | .lock, _ => { h with inAlloc := true }
  | .unlock, _ =>
    { h with inAlloc := false, loaded := false, cur := none, sealed := false, roll := none }
  | .ensureLoaded, _ => { h with loaded := true, cur := none }
  | .read, a => { h with cur := some a }
  | .setCursor seg off, _ =>
    { h with
      cur := h.cur.map (fun a => { a with curSeg := seg, curOff := off })
      sealed := false }
  | .take aligned, (seg, off) =>
    { h with
      opens := ⟨⟨seg, off, aligned⟩, [], false⟩ :: h.opens
      cur := h.cur.map (fun a => { a with curOff := a.curOff + aligned })
      roll := none }
  | .persist _ _, true => { h with opens := h.opens.map (fun o => { o with durable := true }) }
  | .persist _ _, false => h

/-- The extent after a block has been written at `seg`, `off`: it grows if that is where its
next block belongs. -/
def Opened.extend (o : Opened) (seg off : Int) (block : Bytes) : Opened :=
  if o.span.region = seg ∧ o.span.start + o.written.length = off ∧ o.written.length < o.span.len
  then { o with written := o.written ++ block }
  else o

def DevOp.note (h : Hist) : (o : DevOp) → o.Reply → Hist
  | .write seg off block, true => { h with opens := h.opens.map (fun o => o.extend seg off block) }
  | .write _ _ _, false => h
  | .read _ _, _ => h

/-- The committed values after the effects of a batch. -/
def applyEffects (value : Key → Option Bytes) : List (Key × Effect) → Key → Option Bytes
  | [] => value
  | (key, e) :: es =>
    applyEffects (fun k => if k = key then
      (match e with
        | .store v => some v
        | .drop => none
        | .keep => value k) else value k) es

/-! ## 6. One step -/

/-- The operation, with its history. -/
def exec (L : Layout) (s : Sys) (l : Local) : (o : Op) → Option (Sys × Local × o.Reply)
  | .cache o =>
    let (c, r) := o.exec s.cache
    some ({ s with cache := c }, { l with hist := o.note l.hist r }, r)
  | .pebble .apply =>
    let (db, b, r) := PebbleOp.apply.exec s.db l.batch
    some ({ s with db := db, value := if r then applyEffects s.value l.hist.stage else s.value },
      { batch := b, hist := PebbleOp.apply.note s l.batch l.hist r }, r)
  | .pebble o =>
    let (db, b, r) := o.exec s.db l.batch
    some ({ s with db := db }, { batch := b, hist := o.note s l.batch l.hist r }, r)
  | .segs o => (o.exec s l.batch).map
      (fun x => (x.1, { batch := x.2.1, hist := o.note s l.hist x.2.2 }, x.2.2))
  | .alloc o => (o.exec s).map (fun x => (x.1, { l with hist := o.note l.hist x.2 }, x.2))
  | .dev o =>
    let (d, r) := o.exec L s.dev
    some ({ s with dev := d }, { l with hist := o.note l.hist r }, r)

/-- `Open`: the segment manager is rebuilt from pebble, the cache is empty, the cursor is not
loaded. -/
def Sys.reopen (s : Sys) : Sys :=
  { s with
    segs := SegmentManager.rebuild s.db.disk
    segMu := false
    alloc := ⟨0, 0, false⟩
    allocMu := false
    cache := .empty }

/-- A store that has never been written, on a device with content `bytes`; `dbFaults` and
`devFaults` are the failures to come. -/
def Sys.init (bytes : Int → Byte) (dbFaults devFaults : List Bool) : Sys where
  db := ⟨.empty, dbFaults⟩
  segs := .empty
  segMu := false
  alloc := ⟨0, 0, false⟩
  allocMu := false
  cache := .empty
  dev := ⟨bytes, devFaults⟩
  value := fun _ => none

/-! ## 7. The effect on the segment manager -/

/-- The segment manager after one of its methods. -/
def SegsOp.after (db : DB) (m : SegmentManager) : SegsOp → SegmentManager
  | .putObjectLocked key md old _ => (m.putObjectLocked [] key md old).2
  | .delObjectLocked _ md => (m.dropObject [] md.segmentID).2
  | .ref id _ => m.ref id
  | .unref id => m.unref id
  | .activate id => (SegmentManager.activate db m id).2.2
  | .markFull id => (SegmentManager.markFull db m id).2.2
  | .markCompacting id => (SegmentManager.markCompacting db m id).2.2
  | .popFree => ((SegmentManager.popFree db m).map (fun x => x.2.2)).getD m
  | .gcFinalize ids => (SegmentManager.gcFinalize db m ids).2.2
  | _ => m

/-- The segment manager after an operation. -/
def Op.segsAfter (s : Sys) : Op → SegmentManager
  | .segs o => o.after s.db s.segs
  | _ => s.segs

theorem SegmentManager.dropObject_snd (m : SegmentManager) (b b' : Batch) (id : Int) :
    (m.dropObject b id).2 = (m.dropObject b' id).2 := by
  unfold dropObject
  split <;> rfl

theorem SegmentManager.putObjectLocked_snd_batch (m : SegmentManager) (b b' : Batch) (key : Key)
    (md : ObjectMeta) (old : Option ObjectMeta) :
    (m.putObjectLocked b key md old).2 = (m.putObjectLocked b' key md old).2 := by
  rw [putObjectLocked_snd, putObjectLocked_snd]

theorem SegsOp.exec_segs {s s' : Sys} {b b' : Batch} {o : SegsOp} {r : o.Reply}
    (h : o.exec s b = some (s', b', r)) : s'.segs = o.after s.db s.segs := by
  cases o
  case lock => simp only [SegsOp.exec] at h; split at h <;> cases h; rfl
  case unlock => cases h; rfl
  case putObjectLocked key md old v =>
    cases h
    exact SegmentManager.putObjectLocked_snd_batch _ _ _ _ _ _
  case delObjectLocked key md =>
    cases h
    exact SegmentManager.dropObject_snd _ _ _ _
  case popFree =>
    simp only [SegsOp.exec] at h
    split at h
    · cases h
    · obtain ⟨x, hx, he⟩ := Option.map_eq_some_iff.mp h
      cases he
      simp only [SegsOp.after, hx, Option.map_some, Option.getD_some]
  all_goals
    simp only [SegsOp.exec] at h
    split at h <;> cases h
    rfl

/-- Only the methods of the segment manager change it. -/
theorem exec_segs {L : Layout} {s s' : Sys} {l l' : Local} {o : Op} {r : o.Reply}
    (h : exec L s l o = some (s', l', r)) : s'.segs = o.segsAfter s := by
  cases o with
  | cache o => cases h; rfl
  | pebble o => cases o <;> cases h <;> rfl
  | segs o =>
    obtain ⟨x, hx, he⟩ := Option.map_eq_some_iff.mp h
    cases he
    exact SegsOp.exec_segs hx
  | alloc o =>
    obtain ⟨x, hx, he⟩ := Option.map_eq_some_iff.mp h
    cases he
    cases o <;> simp only [AllocOp.exec] at hx
    case lock => split at hx <;> cases hx; rfl
    all_goals cases hx; rfl
  | dev o => cases h; rfl

/-- The segment an operation charges: one of its objects goes away. -/
def Op.charged? : Op → Option Int
  | .segs (.putObjectLocked _ md (some o) _) =>
    if o.segmentID = md.segmentID then none else some o.segmentID
  | .segs (.delObjectLocked _ md) => some md.segmentID
  | _ => none

/-- The segment an operation marks `Full`. -/
def Op.marked? : Op → Option Int
  | .segs (.markFull id) => some id
  | _ => none

end Taihu
