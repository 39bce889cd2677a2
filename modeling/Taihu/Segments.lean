/-
# The segment manager

`internal/metastore/segments.go`: the state, the alive count and the reader references of every
segment, and the FIFO pool of free segments.  One function here per method there.  A method that
takes `segmentManager.mu` for its whole body is one function on the manager and, where it
persists, on the pebble handle; the methods named `…Locked` run inside their caller's critical
section and extend the caller's batch.

The Go map `segs` is ranged over in an unspecified order.  Where the order matters
(`reclaimOnce`) it is an argument.
-/
import Taihu.Records

namespace Taihu

/-- `segEntry`. -/
structure SegEntry where
  md : SegmentMeta
  refCount : Nat
  deriving DecidableEq, Repr

namespace SegEntry

/-- The record `ensureLocked` creates. -/
def new : SegEntry := ⟨⟨.active, 0, 0⟩, 0⟩

def withState (e : SegEntry) (st : SegmentState) : SegEntry :=
  { e with md := { e.md with state := st } }

/-- What `putObjectLocked` does to the entry of the object's segment.  The count grows unless
the old object lies in the same segment; a `Free` or `Reclaiming` segment becomes `Active`. -/
def entered (e : SegEntry) (oldSame : Bool) : SegEntry :=
  let e := if oldSame then e else { e with md := { e.md with aliveCount := e.md.aliveCount + 1 } }
  if e.md.state = .free ∨ e.md.state = .reclaiming then e.withState .active else e

/-- An entry that one object leaves: at zero it turns `Reclaiming`, whatever its state was. -/
def charged (e : SegEntry) : SegEntry :=
  if e.md.aliveCount - 1 ≤ 0 then { e with md := { e.md with aliveCount := 0, state := .reclaiming } }
  else { e with md := { e.md with aliveCount := e.md.aliveCount - 1 } }

/-- What `reclaimOnce` makes of an entry it frees. -/
def reclaimed (e : SegEntry) : SegEntry := { e with md := ⟨.free, 0, e.md.reclaimSeq + 1⟩ }

/-- What the rollback of `reclaimOnce` makes of an entry. -/
def unreclaimed (e : SegEntry) : SegEntry :=
  { e with md := { e.md with state := .reclaiming, reclaimSeq := e.md.reclaimSeq - 1 } }

/-- `rebuildMapping`, the entry of a segment with one more mapping. -/
def counted (e : SegEntry) : SegEntry :=
  let e := { e with md := { e.md with aliveCount := e.md.aliveCount + 1 } }
  if e.md.state = .free then e.withState .active else e

/-- Step 3 of `rebuild`: an interrupted move. -/
def healed (e : SegEntry) : SegEntry :=
  if e.md.state = .compacting then
    if e.md.aliveCount ≤ 0 then e.withState .reclaiming else e.withState .full
  else e

end SegEntry

/-- `segmentManager`: the segment table and the free pool. -/
structure SegmentManager where
  segs : SortedMap Int SegEntry
  free : List Int

namespace SegmentManager

def empty : SegmentManager := ⟨.empty, []⟩

/-- The state of a segment; `none` for a segment without a record. -/
def state? (m : SegmentManager) (id : Int) : Option SegmentState :=
  (m.segs.find? id).map (fun e => e.md.state)

def setEntry (m : SegmentManager) (id : Int) (e : SegEntry) : SegmentManager :=
  { m with segs := m.segs.insert id e }

/-- `removeFree`. -/
def removeFree (m : SegmentManager) (id : Int) : SegmentManager :=
  { m with free := m.free.erase id }

/-- `ensureLocked`. -/
def ensureLocked (m : SegmentManager) (id : Int) : SegEntry × SegmentManager :=
  match m.segs.find? id with
  | some e => (e, m)
  | none => (.new, m.setEntry id .new)

/-! ## 1. Objects enter and leave a segment -/

/-- The first half of `putObjectLocked`: the object's segment. -/
def addObject (m : SegmentManager) (id : Int) (oldSame : Bool) : SegEntry × SegmentManager :=
  let (e, m) := m.ensureLocked id
  let m := if e.md.state = .free then m.removeFree id else m
  (e.entered oldSame, m.setEntry id (e.entered oldSame))

/-- One object leaves segment `id`; the new record goes into the batch.  Nothing happens when
the segment has no entry. -/
def dropObject (m : SegmentManager) (b : Batch) (id : Int) : Batch × SegmentManager :=
  match m.segs.find? id with
  | some e => (b ++ [.setSegment id e.charged.md], m.setEntry id e.charged)
  | none => (b, m)

/-- `oldSame`: the overwritten object lies in the segment of the new one. -/
def oldSame (md : ObjectMeta) (old : Option ObjectMeta) : Bool :=
  match old with
  | some o => o.segmentID == md.segmentID
  | none => false

/-- `putObjectLocked`. -/
def putObjectLocked (m : SegmentManager) (b : Batch) (key : Key) (md : ObjectMeta)
    (old : Option ObjectMeta) : Batch × SegmentManager :=
  let b := b ++ [.setMapping key md]
  let (e, m) := m.addObject md.segmentID (oldSame md old)
  let b := b ++ [.setSegment md.segmentID e.md]
  match old with
  | some o => if oldSame md old then (b, m) else m.dropObject b o.segmentID
  | none => (b, m)

/-- `delObjectLocked`. -/
def delObjectLocked (m : SegmentManager) (b : Batch) (key : Key) (md : ObjectMeta) :
    Batch × SegmentManager :=
  m.dropObject (b ++ [.delMapping key]) md.segmentID

/-! ## 2. Reader references -/

/-- `Ref`. -/
def ref (m : SegmentManager) (id : Int) : SegmentManager :=
  match m.segs.find? id with
  | some e => m.setEntry id { e with refCount := e.refCount + 1 }
  | none => m

/-- `Unref`. -/
def unref (m : SegmentManager) (id : Int) : SegmentManager :=
  match m.segs.find? id with
  | some e => if 0 < e.refCount then m.setEntry id { e with refCount := e.refCount - 1 } else m
  | none => m

/-! ## 3. The allocator's transitions -/

/-- `canUse`. -/
def canUse (m : SegmentManager) (id : Int) : Bool :=
  match m.segs.find? id with
  | some e => e.md.state == .free
  | none => true

/-- `persistLocked`. -/
def persist (db : DB) (id : Int) (e : SegEntry) : Bool × DB :=
  db.write (fun d => d.applyOp (.setSegment id e.md))

/-- `activate`.  The in-memory state changes even when persisting it fails. -/
def activate (db : DB) (m : SegmentManager) (id : Int) : Bool × DB × SegmentManager :=
  let (e, m) := m.ensureLocked id
  let m := if e.md.state = .free then m.removeFree id else m
  let (ok, db) := persist db id (e.withState .active)
  (ok, db, m.setEntry id (e.withState .active))

/-- `markFull`. -/
def markFull (db : DB) (m : SegmentManager) (id : Int) : Bool × DB × SegmentManager :=
  match m.segs.find? id with
  | none => (true, db, m)
  | some e =>
    let (ok, db) := persist db id (e.withState .full)
    (ok, db, m.setEntry id (e.withState .full))

/-- `markCompacting`. -/
def markCompacting (db : DB) (m : SegmentManager) (id : Int) : Bool × DB × SegmentManager :=
  match m.segs.find? id with
  | none => (true, db, m)
  | some e =>
    if e.md.state = .full then
      let (ok, db) := persist db id (e.withState .compacting)
      (ok, db, m.setEntry id (e.withState .compacting))
    else (true, db, m)

/-- `popFree`.  The outer `none` is the nil dereference of an id without an entry. -/
def popFree (db : DB) (m : SegmentManager) : Option (Option Int × DB × SegmentManager) :=
  match m.free with
  | [] => some (none, db, m)
  | id :: rest =>
    (m.segs.find? id).map fun e =>
      let (ok, db) := persist db id (e.withState .active)
      if ok then (some id, db, { m with free := rest }.setEntry id (e.withState .active))
      else (none, db, m.setEntry id (e.withState .free))

/-! ## 4. Garbage collection -/

/-- The keys of the table in some range order: `order` first, then the rest. -/
def rangeKeys (m : SegmentManager) (order : List Int) : List Int :=
  let first := (order.filter (fun id => id ∈ m.segs.keys)).dedup
  first ++ m.segs.keys.filter (fun id => id ∉ first)

/-- A segment `reclaimOnce` may free: `Reclaiming` and without readers. -/
def reclaimable (m : SegmentManager) (id : Int) : Bool :=
  match m.segs.find? id with
  | some e => e.md.state == .reclaiming && e.refCount == 0
  | none => false

/-- Phase 1 of `reclaimOnce`. -/
def gcCandidates (m : SegmentManager) (order : List Int) : List Int :=
  (m.rangeKeys order).filter (m.reclaimable ·)

/-- Phase 3 of `reclaimOnce`, the loop: the segments freed, with their new records. -/
def finalize (m : SegmentManager) : List Int → List (Int × SegmentMeta) × SegmentManager
  | [] => ([], m)
  | id :: ids =>
    match m.segs.find? id with
    | some e =>
      if e.md.state = .reclaiming ∧ e.refCount = 0 then
        let (done, m) := finalize ({ m with free := m.free ++ [id] }.setEntry id e.reclaimed) ids
        ((id, e.reclaimed.md) :: done, m)
      else finalize m ids
    | none => finalize m ids

/-- The rollback when the `Apply` of phase 3 fails. -/
def rollback (m : SegmentManager) : List Int → SegmentManager
  | [] => m
  | id :: ids =>
    match m.segs.find? id with
    | some e =>
      if e.md.state = .free then
        rollback ((m.setEntry id e.unreclaimed).removeFree id) ids
      else rollback m ids
    | none => rollback m ids

/-- Phase 3 of `reclaimOnce`: recheck, free and commit under the lock. -/
def gcFinalize (db : DB) (m : SegmentManager) (ids : List Int) : Nat × DB × SegmentManager :=
  let (done, m) := m.finalize ids
  if done = [] then (0, db, m)
  else
    let (ok, db) := db.write (fun d => d.apply (done.map (fun x => .setSegment x.1 x.2)))
    if ok then (done.length, db, m)
    else (0, db, m.rollback (done.map Prod.fst))

/-! ## 5. Rebuilding the manager when the store is opened -/

/-- Step 1 of `rebuild`: the persisted states, with the counts dropped. -/
def loadSegment (m : SegmentManager) (x : Int × SegmentMeta) : SegmentManager :=
  let e : SegEntry := ⟨{ x.2 with aliveCount := 0 }, 0⟩
  { segs := m.segs.insert x.1 e
    free := if x.2.state = .free then m.free ++ [x.1] else m.free }

/-- `rebuildMapping`, the callback for one mapping. -/
def countMapping (m : SegmentManager) (md : ObjectMeta) : SegmentManager :=
  let id := md.segmentID
  let (e, m) := m.ensureLocked id
  let m := if e.md.state = .free then m.removeFree id else m
  m.setEntry id e.counted

/-- `rebuild`. -/
def rebuild (d : Disk) : SegmentManager :=
  let m := d.iterSegment.foldl loadSegment empty
  let m := (d.mapping.entries.map Prod.snd).foldl countMapping m
  { m with segs := m.segs.mapValues SegEntry.healed }

/-! ## 6. What the methods leave -/

/-- The entry `ensureLocked` gives. -/
def entry (m : SegmentManager) (id : Int) : SegEntry := (m.segs.find? id).getD .new

/-- The manager after `id` has left the pool, if its state says it is there. -/
def unpool (m : SegmentManager) (id : Int) : SegmentManager :=
  if (m.entry id).md.state = .free then m.removeFree id else m

@[simp] theorem find?_setEntry (m : SegmentManager) (id id' : Int) (e : SegEntry) :
    (m.setEntry id e).segs.find? id' = if id' = id then some e else m.segs.find? id' := by
  simp [setEntry]

@[simp] theorem free_setEntry (m : SegmentManager) (id : Int) (e : SegEntry) :
    (m.setEntry id e).free = m.free := rfl

@[simp] theorem segs_removeFree (m : SegmentManager) (id : Int) :
    (m.removeFree id).segs = m.segs := rfl

@[simp] theorem free_removeFree (m : SegmentManager) (id : Int) :
    (m.removeFree id).free = m.free.erase id := rfl

@[simp] theorem segs_unpool (m : SegmentManager) (id : Int) : (m.unpool id).segs = m.segs := by
  unfold unpool
  split <;> rfl

theorem free_unpool (m : SegmentManager) (id : Int) :
    (m.unpool id).free = if (m.entry id).md.state = .free then m.free.erase id else m.free := by
  unfold unpool
  split <;> rfl

@[simp] theorem state?_setEntry (m : SegmentManager) (id id' : Int) (e : SegEntry) :
    (m.setEntry id e).state? id' = if id' = id then some e.md.state else m.state? id' := by
  unfold state?
  rw [find?_setEntry]
  split <;> rfl

theorem state?_eq_some {m : SegmentManager} {id : Int} {st : SegmentState} :
    m.state? id = some st ↔ ∃ e, m.segs.find? id = some e ∧ e.md.state = st :=
  Option.map_eq_some_iff

theorem state?_of_find? {m : SegmentManager} {id : Int} {e : SegEntry}
    (h : m.segs.find? id = some e) : m.state? id = some e.md.state := by
  unfold state?
  rw [h]
  rfl

theorem setEntry_setEntry (m : SegmentManager) (id : Int) (e e' : SegEntry) :
    (m.setEntry id e).setEntry id e' = m.setEntry id e' := by
  unfold setEntry
  rw [SortedMap.insert_insert]

theorem entry_of_find? {m : SegmentManager} {id : Int} {e : SegEntry}
    (h : m.segs.find? id = some e) : m.entry id = e := by
  rw [entry, h]
  rfl

/-- Only a recorded segment can be `Free`. -/
theorem entry_free {m : SegmentManager} {id : Int} :
    (m.entry id).md.state = .free ↔ m.state? id = some .free := by
  unfold entry state?
  cases m.segs.find? id with
  | none => simp [SegEntry.new]
  | some e => simp

theorem unpool_of_none {m : SegmentManager} {id : Int} (h : m.segs.find? id = none) :
    m.unpool id = m := by
  unfold unpool
  rw [if_neg]
  rw [entry, h]
  decide

/-- `ensureLocked`, followed by what every caller does with the entry: the segment leaves the
pool if it was `Free`, and the entry is stored again. -/
theorem ensureLocked_setEntry (m : SegmentManager) (id : Int) (e' : SegEntry) :
    (if (m.ensureLocked id).1.md.state = .free then (m.ensureLocked id).2.removeFree id
      else (m.ensureLocked id).2).setEntry id e' = (m.unpool id).setEntry id e' := by
  unfold ensureLocked
  cases h : m.segs.find? id with
  | none =>
    rw [unpool_of_none h]
    simp only [SegEntry.new, reduceCtorEq, if_false]
    exact setEntry_setEntry m id _ e'
  | some e =>
    unfold unpool
    rw [entry_of_find? h]

theorem ensureLocked_fst (m : SegmentManager) (id : Int) : (m.ensureLocked id).1 = m.entry id := by
  unfold ensureLocked entry
  cases m.segs.find? id <;> rfl

theorem addObject_snd (m : SegmentManager) (id : Int) (same : Bool) :
    (m.addObject id same).2 = (m.unpool id).setEntry id ((m.entry id).entered same) := by
  rw [← ensureLocked_setEntry, ← ensureLocked_fst]
  rfl

theorem activate_snd (db : DB) (m : SegmentManager) (id : Int) :
    (activate db m id).2.2 = (m.unpool id).setEntry id ((m.entry id).withState .active) := by
  rw [← ensureLocked_setEntry, ← ensureLocked_fst]
  rfl

theorem countMapping_eq (m : SegmentManager) (md : ObjectMeta) :
    m.countMapping md = (m.unpool md.segmentID).setEntry md.segmentID (m.entry md.segmentID).counted := by
  rw [← ensureLocked_setEntry, ← ensureLocked_fst]
  rfl

theorem dropObject_none {m : SegmentManager} {id : Int} (h : m.segs.find? id = none) (b : Batch) :
    m.dropObject b id = (b, m) := by
  unfold dropObject
  rw [h]

theorem dropObject_some {m : SegmentManager} {id : Int} {e : SegEntry}
    (h : m.segs.find? id = some e) (b : Batch) :
    m.dropObject b id = (b ++ [.setSegment id e.charged.md], m.setEntry id e.charged) := by
  unfold dropObject
  rw [h]

/-- `putObjectLocked`: the object enters its segment, and an overwritten object in another
segment leaves that. -/
theorem putObjectLocked_snd (m : SegmentManager) (b : Batch) (key : Key) (md : ObjectMeta)
    (old : Option ObjectMeta) :
    (m.putObjectLocked b key md old).2 =
      match old with
      | some o =>
        if o.segmentID = md.segmentID then (m.addObject md.segmentID true).2
        else ((m.addObject md.segmentID false).2.dropObject [] o.segmentID).2
      | none => (m.addObject md.segmentID false).2 := by
  unfold putObjectLocked
  cases old with
  | none => rfl
  | some o =>
    by_cases h : o.segmentID = md.segmentID
    · simp [oldSame, h]
    · simp only [oldSame, beq_iff_eq, h, if_false]
      unfold dropObject
      simp only [beq_eq_false_iff_ne.mpr h]
      split <;> rfl

/-! ## 7. Rules for the loops -/

/-- **What `popFree` does**: nothing with an empty pool, and otherwise its first segment is handed
out, or it stays where its record cannot be written. -/
theorem popFree_cases {db : DB} {m : SegmentManager} {x : Option Int × DB × SegmentManager}
    (h : popFree db m = some x) :
    (m.free = [] ∧ x = (none, db, m)) ∨ ∃ id rest e ok db', m.free = id :: rest ∧
      m.segs.find? id = some e ∧ persist db id (e.withState .active) = (ok, db') ∧
      ((ok = true ∧ x = (some id, db', { m with free := rest }.setEntry id (e.withState .active))) ∨
        (ok = false ∧ x = (none, db', m.setEntry id (e.withState .free)))) := by
  unfold popFree at h
  split at h
  · rename_i hfree
    cases h
    exact Or.inl ⟨hfree, rfl⟩
  · rename_i id rest hfree
    obtain ⟨e, he, rfl⟩ := Option.map_eq_some_iff.mp h
    rcases hp : persist db id (e.withState .active) with ⟨ok, db'⟩
    refine Or.inr ⟨id, rest, e, ok, db', hfree, he, hp, ?_⟩
    cases ok with
    | true => exact Or.inl ⟨rfl, rfl⟩
    | false => exact Or.inr ⟨rfl, rfl⟩

variable {P : SegmentManager → Prop}

/-- What survives the freeing of one segment survives `finalize`. -/
theorem finalize_keeps (hfree : ∀ m id e, P m → m.segs.find? id = some e →
      e.md.state = .reclaiming → P ({ m with free := m.free ++ [id] }.setEntry id e.reclaimed))
    (ids : List Int) : ∀ {m : SegmentManager}, P m → P (m.finalize ids).2 := by
  induction ids with
  | nil => exact fun h => h
  | cons id ids ih =>
    intro m h
    unfold finalize
    split
    · rename_i e he
      split
      · rename_i hc
        exact ih (hfree m id e h he hc.1)
      · exact ih h
    · exact ih h

/-- What survives the return of one segment survives `rollback`. -/
theorem rollback_keeps (hback : ∀ m id e, P m → m.segs.find? id = some e →
      e.md.state = .free → P ((m.setEntry id e.unreclaimed).removeFree id))
    (ids : List Int) : ∀ {m : SegmentManager}, P m → P (m.rollback ids) := by
  induction ids with
  | nil => exact fun h => h
  | cons id ids ih =>
    intro m h
    unfold rollback
    split
    · rename_i e he
      split
      · rename_i hf
        exact ih (hback m id e h he hf)
      · exact ih h
    · exact ih h

/-- `reclaimOnce`, phase 3, with its rollback. -/
theorem gcFinalize_keeps (hfree : ∀ m id e, P m → m.segs.find? id = some e →
      e.md.state = .reclaiming → P ({ m with free := m.free ++ [id] }.setEntry id e.reclaimed))
    (hback : ∀ m id e, P m → m.segs.find? id = some e →
      e.md.state = .free → P ((m.setEntry id e.unreclaimed).removeFree id))
    {m : SegmentManager} (h : P m) (db : DB) (ids : List Int) : P (gcFinalize db m ids).2.2 := by
  have hfin : P (m.finalize ids).2 := finalize_keeps hfree ids h
  unfold gcFinalize
  dsimp only
  split
  · exact hfin
  · split
    · exact hfin
    · exact rollback_keeps hback _ hfin

end SegmentManager

end Taihu
