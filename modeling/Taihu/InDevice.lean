/-
# Places on the device

Segment numbers are kept in many places: the cursor in memory and its record in pebble, the table
and the pool of the segment manager, the segment records, the mappings of objects, and the batches
that threads are about to apply.  `InDevice` says that all of them are segments of the device, and
that neither cursor is behind the end of its segment.  Every operation keeps that, if the segments
and places it is given are on the device (`InDevice.step`), and so does reopening the store, which
rebuilds the table and the pool from the records and the mappings (`InDevice.reopen`).
-/
import Taihu.AllocatorLock
import Taihu.Recovery

namespace Taihu

open Concur Program

/-! ## 1. Places on the device -/

namespace Layout

/-- A segment of the device. -/
def HasSegment (L : Layout) (id : Int) : Prop := 0 ≤ id ∧ id < L.segmentCount

instance (L : Layout) (id : Int) : Decidable (L.HasSegment id) :=
  inferInstanceAs (Decidable (0 ≤ id ∧ id < L.segmentCount))

/-- The `n` bytes from `x` on lie in a segment of the device, and begin on a block. -/
structure Fits (L : Layout) (n : Int) (x : Int × Int) : Prop where
  segment : L.HasSegment x.1
  nonneg : 0 ≤ x.2
  aligned : x.2 % blockSize = 0
  within : x.2 + n ≤ L.segmentSizeBytes

/-- Segments of whole blocks, and at least one of them; their number is an `int64`. -/
structure Regular (L : Layout) : Prop where
  size_pos : 0 < L.segmentSizeBytes
  size_aligned : L.segmentSizeBytes % blockSize = 0
  count_pos : 1 ≤ L.segmentCount
  count_lt : L.segmentCount < 2 ^ 63

variable {L : Layout} {m n id : Int} {x : Int × Int}

theorem Fits.mono (h : L.Fits n x) (hm : m ≤ n) : L.Fits m x where
  segment := h.segment
  nonneg := h.nonneg
  aligned := h.aligned
  within := by
    have := h.within
    omega

/-- The beginning of a segment. -/
theorem HasSegment.fits (h : L.HasSegment id) : L.Fits L.segmentSizeBytes (id, 0) where
  segment := h
  nonneg := Int.le_refl 0
  aligned := rfl
  within := by simp

/-- The place behind an extent of whole blocks. -/
theorem Fits.behind (h : L.Fits n x) (hn : 0 ≤ n) (ha : n % blockSize = 0) :
    L.Fits 0 (x.1, x.2 + n) where
  segment := h.segment
  nonneg := Int.add_nonneg h.nonneg hn
  aligned := by
    have := h.aligned
    unfold blockSize at *
    omega
  within := by
    have := h.within
    simpa using this

/-- An extent is a piece of the device. -/
theorem Fits.address (h : L.Fits n x) (hs : 0 ≤ L.segmentSizeBytes) :
    x.1 * L.segmentSizeBytes ≤ devPos L x.1 x.2 ∧
      devPos L x.1 x.2 + n ≤ (x.1 + 1) * L.segmentSizeBytes ∧
      0 ≤ devPos L x.1 x.2 ∧ devPos L x.1 x.2 + n ≤ L.segmentCount * L.segmentSizeBytes := by
  obtain ⟨⟨h0, hlt⟩, hoff, -, hw⟩ := h
  have hbase : 0 ≤ x.1 * L.segmentSizeBytes := Int.mul_nonneg h0 hs
  have hnext : (x.1 + 1) * L.segmentSizeBytes = x.1 * L.segmentSizeBytes + L.segmentSizeBytes := by
    rw [Int.add_mul, Int.one_mul]
  have hlast : (x.1 + 1) * L.segmentSizeBytes ≤ L.segmentCount * L.segmentSizeBytes :=
    Int.mul_le_mul_of_nonneg_right hlt hs
  have hpos : devPos L x.1 x.2 = x.1 * L.segmentSizeBytes + x.2 := rfl
  rw [hpos]
  omega

end Layout

/-! ## 2. The invariant -/

variable {L : Layout} {s s' : Sys} {l l' : Local} {rest : List Local} {α β : Type}

/-- The records of a batch are about segments of the device. -/
def BatchOp.InDevice (L : Layout) : BatchOp → Prop
  | .setMapping _ md => L.HasSegment md.segmentID
  | .delMapping _ => True
  | .setSegment id _ => L.HasSegment id

/-- Pebble names only segments of the device. -/
structure Disk.InDevice (L : Layout) (d : Disk) : Prop where
  mapping : ∀ key md, d.mapping.find? key = some md → L.HasSegment md.segmentID
  record : ∀ id sm, d.segment.find? id = some sm → L.HasSegment id
  cursor : ∀ pos, d.cursor = some pos → L.Fits 0 (pos.segmentID, pos.offset)

/-- The segment manager knows only segments of the device. -/
structure SegmentManager.InDevice (L : Layout) (m : SegmentManager) : Prop where
  entry : ∀ id e, m.segs.find? id = some e → L.HasSegment id
  free : ∀ id ∈ m.free, L.HasSegment id

/-- The state names only segments of the device, and the cursor is in one. -/
structure InDevice (L : Layout) (s : Sys) : Prop where
  disk : s.db.disk.InDevice L
  segs : s.segs.InDevice L
  cursor : L.Fits 0 (s.alloc.curSeg, s.alloc.curOff)

/-! ### Pebble -/

namespace Disk

variable {d : Disk}

theorem InDevice.applyOp (h : d.InDevice L) {o : BatchOp} (ho : o.InDevice L) :
    (d.applyOp o).InDevice L := by
  cases o with
  | setMapping key md =>
    refine ⟨fun k x hk => ?_, h.record, h.cursor⟩
    simp only [Disk.applyOp, SortedMap.find?_insert] at hk
    split at hk
    · cases hk
      exact ho
    · exact h.mapping k x hk
  | delMapping key =>
    refine ⟨fun k x hk => ?_, h.record, h.cursor⟩
    simp only [Disk.applyOp, SortedMap.find?_erase] at hk
    split at hk
    · cases hk
    · exact h.mapping k x hk
  | setSegment id sm =>
    refine ⟨h.mapping, fun i x hi => ?_, h.cursor⟩
    simp only [Disk.applyOp, SortedMap.find?_insert] at hi
    split at hi
    · rename_i he
      rw [he]
      exact ho
    · exact h.record i x hi

theorem InDevice.apply {b : Batch} (hb : ∀ o ∈ b, o.InDevice L) (h : d.InDevice L) :
    (d.apply b).InDevice L := by
  induction b generalizing d with
  | nil => exact h
  | cons o b ih =>
    rw [Disk.apply_cons]
    exact ih (fun o' ho' => hb o' (List.mem_cons_of_mem _ ho')) (h.applyOp (hb o List.mem_cons_self))

theorem InDevice.setCursor (h : d.InDevice L) {pos : WriteCursor}
    (hp : L.Fits 0 (pos.segmentID, pos.offset)) : (d.setCursor pos).InDevice L := by
  refine ⟨h.mapping, h.record, fun p hpos => ?_⟩
  cases hpos
  exact hp

theorem inDevice_empty : Disk.empty.InDevice L where
  mapping := fun key md h => absurd h (by simp [Disk.empty])
  record := fun id sm h => absurd h (by simp [Disk.empty])
  cursor := fun pos h => absurd h (by simp [Disk.empty])

/-- A write keeps what both of its outcomes keep. -/
theorem InDevice.write {db : DB} {f : Disk → Disk} (h : db.disk.InDevice L)
    (hf : (f db.disk).InDevice L) : (db.write f).2.disk.InDevice L := by
  rw [DB.write_disk]
  split
  · exact hf
  · exact h

end Disk

/-! ### The segment manager -/

namespace SegmentManager

variable {m : SegmentManager} {id : Int} {db : DB}

theorem InDevice.setEntry (h : m.InDevice L) (hid : L.HasSegment id) (e : SegEntry) :
    (m.setEntry id e).InDevice L := by
  refine ⟨fun i x hi => ?_, h.free⟩
  rw [find?_setEntry] at hi
  split at hi
  · rename_i he
    rw [he]
    exact hid
  · exact h.entry i x hi

/-- A segment that is in the table may change. -/
theorem InDevice.update (h : m.InDevice L) {e : SegEntry} (he : m.segs.find? id = some e)
    (e' : SegEntry) : (m.setEntry id e').InDevice L := h.setEntry (h.entry id e he) e'

theorem InDevice.removeFree (h : m.InDevice L) (id : Int) : (m.removeFree id).InDevice L :=
  ⟨h.entry, fun i hi => h.free i (List.mem_of_mem_erase hi)⟩

theorem InDevice.unpool (h : m.InDevice L) (id : Int) : (m.unpool id).InDevice L := by
  unfold SegmentManager.unpool
  split
  · exact h.removeFree id
  · exact h

/-- A segment enters the pool from the table. -/
theorem InDevice.pool (h : m.InDevice L) {e : SegEntry} (he : m.segs.find? id = some e) :
    InDevice L { m with free := m.free ++ [id] } := by
  refine ⟨h.entry, fun i hi => ?_⟩
  rcases List.mem_append.mp hi with hi | hi
  · exact h.free i hi
  · rw [List.mem_singleton.mp hi]
    exact h.entry id e he

theorem InDevice.addObject (h : m.InDevice L) (hid : L.HasSegment id) (same : Bool) :
    (m.addObject id same).2.InDevice L := by
  rw [addObject_snd]
  exact (h.unpool id).setEntry hid _

theorem InDevice.dropObject (h : m.InDevice L) (b : Batch) (id : Int) :
    (m.dropObject b id).2.InDevice L := by
  unfold SegmentManager.dropObject
  split
  · rename_i e he
    exact h.update he _
  · exact h

theorem InDevice.putObjectLocked (h : m.InDevice L) (b : Batch) (key : Key) {md : ObjectMeta}
    (hmd : L.HasSegment md.segmentID) (old : Option ObjectMeta) :
    (m.putObjectLocked b key md old).2.InDevice L := by
  rw [putObjectLocked_snd]
  cases old with
  | none => exact h.addObject hmd false
  | some o =>
    dsimp only
    split
    · exact h.addObject hmd true
    · exact (h.addObject hmd false).dropObject [] _

theorem InDevice.ref (h : m.InDevice L) (id : Int) : (m.ref id).InDevice L := by
  unfold SegmentManager.ref
  split
  · rename_i e he
    exact h.update he _
  · exact h

theorem InDevice.unref (h : m.InDevice L) (id : Int) : (m.unref id).InDevice L := by
  unfold SegmentManager.unref
  split
  · rename_i e he
    split
    · exact h.update he _
    · exact h
  · exact h

theorem InDevice.finalize (ids : List Int) : ∀ {m : SegmentManager}, m.InDevice L →
    (m.finalize ids).2.InDevice L ∧ ∀ x ∈ (m.finalize ids).1, L.HasSegment x.1 := by
  induction ids with
  | nil => exact fun h => ⟨h, fun x hx => absurd hx List.not_mem_nil⟩
  | cons id ids ih =>
    intro m h
    unfold SegmentManager.finalize
    split
    · rename_i e he
      split
      · obtain ⟨hm, hx⟩ := ih ((h.pool he).setEntry (h.entry id e he) e.reclaimed)
        exact ⟨hm, List.forall_mem_cons.mpr ⟨h.entry id e he, hx⟩⟩
      · exact ih h
    · exact ih h

/-- What the methods that write segment records leave, in pebble and in memory. -/
def Stored (L : Layout) (db : DB) (m : SegmentManager) : Prop := db.disk.InDevice L ∧ m.InDevice L

theorem Stored.persist (h : Stored L db m) (hid : L.HasSegment id) (e : SegEntry) :
    (SegmentManager.persist db id e).2.disk.InDevice L :=
  h.1.write (h.1.applyOp (o := .setSegment id e.md) hid)

theorem Stored.activate (h : Stored L db m) (hid : L.HasSegment id) :
    Stored L (SegmentManager.activate db m id).2.1 (SegmentManager.activate db m id).2.2 := by
  constructor
  · exact h.persist hid _
  · rw [activate_snd]
    exact (h.2.unpool id).setEntry hid _

theorem Stored.markFull (h : Stored L db m) (id : Int) :
    Stored L (SegmentManager.markFull db m id).2.1 (SegmentManager.markFull db m id).2.2 := by
  unfold SegmentManager.markFull
  split
  · exact h
  · rename_i e he
    exact ⟨h.persist (h.2.entry id e he) _, h.2.update he _⟩

theorem Stored.markCompacting (h : Stored L db m) (id : Int) :
    Stored L (SegmentManager.markCompacting db m id).2.1
      (SegmentManager.markCompacting db m id).2.2 := by
  unfold SegmentManager.markCompacting
  split
  · exact h
  · rename_i e he
    split
    · exact ⟨h.persist (h.2.entry id e he) _, h.2.update he _⟩
    · exact h

theorem Stored.popFree (h : Stored L db m) {x : Option Int × DB × SegmentManager}
    (hx : SegmentManager.popFree db m = some x) : Stored L x.2.1 x.2.2 := by
  rcases popFree_cases hx with ⟨-, rfl⟩ | ⟨id, ids, e, ok, db', hfree, he, hp, hcase⟩
  · exact h
  have hid := h.2.entry id e he
  have hdisk := h.persist hid (e.withState .active)
  rw [hp] at hdisk
  have hrest : InDevice L { m with free := ids } :=
    ⟨h.2.entry, fun i hi => h.2.free i (by rw [hfree]; exact List.mem_cons_of_mem _ hi)⟩
  rcases hcase with ⟨-, rfl⟩ | ⟨-, rfl⟩
  · exact ⟨hdisk, hrest.setEntry hid _⟩
  · exact ⟨hdisk, h.2.setEntry hid _⟩

theorem Stored.gcFinalize (h : Stored L db m) (ids : List Int) :
    Stored L (SegmentManager.gcFinalize db m ids).2.1 (SegmentManager.gcFinalize db m ids).2.2 := by
  obtain ⟨hm, hdone⟩ := InDevice.finalize ids h.2
  have hdisk : (db.write (fun d => d.apply ((m.finalize ids).1.map
      (fun x => .setSegment x.1 x.2)))).2.disk.InDevice L := by
    refine h.1.write (h.1.apply fun o ho => ?_)
    obtain ⟨x, hx, rfl⟩ := List.mem_map.mp ho
    exact hdone x hx
  unfold SegmentManager.gcFinalize
  dsimp only
  split
  · exact ⟨h.1, hm⟩
  · split
    · exact ⟨hdisk, hm⟩
    · exact ⟨hdisk, rollback_keeps (P := fun m => m.InDevice L)
          (fun m id e h he _ => (h.update he _).removeFree id) _ hm⟩

theorem inDevice_empty : empty.InDevice L where
  entry := fun id e h => absurd h (by simp [empty])
  free := fun id h => absurd h List.not_mem_nil

/-- The manager `Open` builds. -/
theorem inDevice_rebuild {d : Disk} (h : d.InDevice L) : (rebuild d).InDevice L := by
  have hload : (d.iterSegment.foldl loadSegment empty).InDevice L := by
    refine List.foldlRecOn _ _ inDevice_empty fun m hm x hx => ?_
    have hid : L.HasSegment x.1 :=
      h.record x.1 x.2 (SortedMap.mem_entries.mp (d.iterSegment_perm.mem_iff.mp hx))
    refine ⟨(hm.setEntry hid (loaded x.2)).entry, fun i hi => ?_⟩
    dsimp only [loadSegment] at hi
    split at hi
    · rcases List.mem_append.mp hi with hi | hi
      · exact hm.free i hi
      · rw [List.mem_singleton.mp hi]
        exact hid
    · exact hm.free i hi
  have hcount : ((d.mapping.entries.map Prod.snd).foldl countMapping
      (d.iterSegment.foldl loadSegment empty)).InDevice L := by
    refine List.foldlRecOn _ _ hload fun m hm md hmd => ?_
    obtain ⟨x, hx, rfl⟩ := List.mem_map.mp hmd
    rw [countMapping_eq]
    exact (hm.unpool _).setEntry (h.mapping x.1 x.2 (SortedMap.mem_entries.mp hx)) _
  refine ⟨fun id e he => ?_, hcount.free⟩
  unfold rebuild at he
  dsimp only at he
  rw [SortedMap.find?_mapValues] at he
  obtain ⟨e', he', -⟩ := Option.map_eq_some_iff.mp he
  exact hcount.entry id e' he'

end SegmentManager

/-- The state after `Open`. -/
theorem InDevice.reopen (h : InDevice L s) (hL : L.Regular) : InDevice L s.reopen where
  disk := h.disk
  segs := SegmentManager.inDevice_rebuild h.disk
  cursor := by
    have hseg : L.HasSegment 0 := ⟨Int.le_refl 0, hL.count_pos⟩
    exact hseg.fits.mono (Int.le_of_lt hL.size_pos)

theorem inDevice_init (hL : L.Regular) (bytes : Int → Byte) (dbFaults devFaults : List Bool) :
    InDevice L (Sys.init bytes dbFaults devFaults) where
  disk := Disk.inDevice_empty
  segs := SegmentManager.inDevice_empty
  cursor := by
    have hseg : L.HasSegment 0 := ⟨Int.le_refl 0, hL.count_pos⟩
    exact hseg.fits.mono (Int.le_of_lt hL.size_pos)

/-! ## 3. What the operations keep -/

/-- What a thread owes before an operation: the segments and places it names are on the device,
and an extent is taken where it fits behind the cursor the thread has read. -/
def Op.Proper (L : Layout) (l : Local) : Op → Prop
  | .segs (.putObjectLocked _ md _ _) => L.HasSegment md.segmentID
  | .segs (.activate id) => L.HasSegment id
  | .alloc (.setCursor seg off) => L.Fits 0 (seg, off)
  | .alloc (.persist seg off) => L.Fits 0 (seg, off)
  | .alloc (.take n) =>
    0 ≤ n ∧ n % blockSize = 0 ∧ ∃ a, l.hist.cur = some a ∧ L.Fits n (a.curSeg, a.curOff)
  | .dev (.write seg off _) => L.Fits blockSize (seg, off)
  | _ => True

/-- The contract: what is read from the state is on the device. -/
def geometry (L : Layout) : Contract sig Local :=
  (machine L).under (fun o l => o.Proper L l) (fun s l _ => InDevice L s ∧ Knows s l)

/-- A batch in the making is about the device. -/
def Local.InDevice (L : Layout) (l : Local) : Prop := ∀ o ∈ l.batch, o.InDevice L

theorem Batch.inDevice_dropObject {m : SegmentManager} (h : m.InDevice L) {b : Batch}
    (hb : ∀ o ∈ b, o.InDevice L) (id : Int) : ∀ o ∈ (m.dropObject b id).1, o.InDevice L := by
  unfold SegmentManager.dropObject
  split
  · rename_i e he
    intro o ho
    rcases List.mem_append.mp ho with ho | ho
    · exact hb o ho
    · rw [List.mem_singleton.mp ho]
      exact h.entry id e he
  · exact hb

theorem Batch.inDevice_putObjectLocked {m : SegmentManager} (h : m.InDevice L) {b : Batch}
    (hb : ∀ o ∈ b, o.InDevice L) (key : Key) {md : ObjectMeta} (hmd : L.HasSegment md.segmentID)
    (old : Option ObjectMeta) : ∀ o ∈ (m.putObjectLocked b key md old).1, o.InDevice L := by
  have hb' : ∀ o ∈ b ++ [.setMapping key md] ++
      [BatchOp.setSegment md.segmentID (m.addObject md.segmentID (SegmentManager.oldSame md old)).1.md],
      o.InDevice L := by
    intro o ho
    rcases List.mem_append.mp ho with ho | ho
    · rcases List.mem_append.mp ho with ho | ho
      · exact hb o ho
      · rw [List.mem_singleton.mp ho]
        exact hmd
    · rw [List.mem_singleton.mp ho]
      exact hmd
  unfold SegmentManager.putObjectLocked
  cases old with
  | none => exact hb'
  | some o =>
    dsimp only at hb' ⊢
    split
    · exact hb'
    · exact Batch.inDevice_dropObject (h.addObject hmd _) hb' _

/-- Where allocation continues, whether or not the cursor record has been loaded. -/
theorem InDevice.fits_cursor (h : InDevice L s) :
    L.Fits 0 (s.cursor.segmentID, s.cursor.offset) := by
  unfold Sys.cursor
  split
  · exact h.cursor
  · cases hd : s.db.disk.cursor with
    | none => exact h.cursor
    | some pos => exact h.disk.cursor pos hd

/-- An operation of the segment manager. -/
theorem InDevice.stepSegs (h : InDevice L s) (hb : l.InDevice L) {o : SegsOp}
    (hp : (Op.segs o).Proper L l) {b : Batch} {r : o.Reply}
    (hx : o.exec s l.batch = some (s', b, r)) : InDevice L s' ∧ ∀ o ∈ b, o.InDevice L := by
  have hst : SegmentManager.Stored L s.db s.segs := ⟨h.disk, h.segs⟩
  cases o with
  | lock =>
    simp only [SegsOp.exec] at hx
    split at hx <;> cases hx
    exact ⟨⟨h.disk, h.segs, h.cursor⟩, hb⟩
  | unlock =>
    cases hx
    exact ⟨⟨h.disk, h.segs, h.cursor⟩, hb⟩
  | putObjectLocked key md old v =>
    cases hx
    exact ⟨⟨h.disk, h.segs.putObjectLocked _ key hp old, h.cursor⟩,
      Batch.inDevice_putObjectLocked h.segs hb key hp old⟩
  | delObjectLocked key md =>
    cases hx
    refine ⟨⟨h.disk, h.segs.dropObject _ _, h.cursor⟩, Batch.inDevice_dropObject h.segs ?_ _⟩
    intro o ho
    rcases List.mem_append.mp ho with ho | ho
    · exact hb o ho
    · rw [List.mem_singleton.mp ho]
      exact True.intro
  | ref id reader =>
    simp only [SegsOp.exec] at hx
    split at hx <;> cases hx
    exact ⟨⟨h.disk, h.segs.ref id, h.cursor⟩, hb⟩
  | unref id =>
    simp only [SegsOp.exec] at hx
    split at hx <;> cases hx
    exact ⟨⟨h.disk, h.segs.unref id, h.cursor⟩, hb⟩
  | canUse id =>
    simp only [SegsOp.exec] at hx
    split at hx <;> cases hx
    exact ⟨h, hb⟩
  | activate id =>
    simp only [SegsOp.exec] at hx
    split at hx <;> cases hx
    exact ⟨⟨(hst.activate hp).1, (hst.activate hp).2, h.cursor⟩, hb⟩
  | markFull id =>
    simp only [SegsOp.exec] at hx
    split at hx <;> cases hx
    exact ⟨⟨(hst.markFull id).1, (hst.markFull id).2, h.cursor⟩, hb⟩
  | markCompacting id =>
    simp only [SegsOp.exec] at hx
    split at hx <;> cases hx
    exact ⟨⟨(hst.markCompacting id).1, (hst.markCompacting id).2, h.cursor⟩, hb⟩
  | popFree =>
    simp only [SegsOp.exec] at hx
    split at hx
    · cases hx
    · obtain ⟨x, hpop, he⟩ := Option.map_eq_some_iff.mp hx
      cases he
      exact ⟨⟨(hst.popFree hpop).1, (hst.popFree hpop).2, h.cursor⟩, hb⟩
  | gcCandidates order =>
    simp only [SegsOp.exec] at hx
    split at hx <;> cases hx
    exact ⟨h, hb⟩
  | gcFinalize ids =>
    simp only [SegsOp.exec] at hx
    split at hx <;> cases hx
    exact ⟨⟨(hst.gcFinalize ids).1, (hst.gcFinalize ids).2, h.cursor⟩, hb⟩

/-- An operation of the allocator. -/
theorem InDevice.stepAlloc (h : InDevice L s) (hk : Knows s l) {o : AllocOp}
    (hp : (Op.alloc o).Proper L l) {r : o.Reply} (hx : o.exec s = some (s', r)) :
    InDevice L s' := by
  cases o with
  | lock =>
    simp only [AllocOp.exec] at hx
    split at hx <;> cases hx
    exact ⟨h.disk, h.segs, h.cursor⟩
  | unlock =>
    cases hx
    exact ⟨h.disk, h.segs, h.cursor⟩
  | ensureLoaded =>
    cases hx
    exact ⟨h.disk, h.segs, h.fits_cursor⟩
  | read =>
    cases hx
    exact h
  | setCursor seg off =>
    cases hx
    exact ⟨h.disk, h.segs, hp⟩
  | take n =>
    cases hx
    obtain ⟨hn, hal, a, ha, hfit⟩ := hp
    have hcur := hk a ha
    subst hcur
    exact ⟨h.disk, h.segs, hfit.behind hn hal⟩
  | persist seg off =>
    have hd : (s.db.write (fun d => d.setCursor ⟨seg, off⟩)).2.disk.InDevice L :=
      h.disk.write (h.disk.setCursor hp)
    cases hx
    exact ⟨hd, h.segs, h.cursor⟩

/-- **The step lemma.** -/
theorem InDevice.step (h : InDevice L s) (hb : l.InDevice L) (hk : Knows s l) {o : Op}
    {r : o.Reply} (hp : o.Proper L l) (hx : exec L s l o = some (s', l', r)) :
    InDevice L s' ∧ l'.InDevice L := by
  cases o with
  | cache o =>
    cases hx
    exact ⟨⟨h.disk, h.segs, h.cursor⟩, hb⟩
  | pebble o =>
    cases o with
    | apply =>
      have hd : (s.db.write (fun d => d.apply l.batch)).2.disk.InDevice L :=
        h.disk.write (h.disk.apply hb)
      cases hx
      exact ⟨⟨hd, h.segs, h.cursor⟩, fun o ho => absurd ho List.not_mem_nil⟩
    | _ =>
      cases hx
      exact ⟨⟨h.disk, h.segs, h.cursor⟩, hb⟩
  | segs o =>
    obtain ⟨b, hs, rfl⟩ := exec_segsOp hx
    exact h.stepSegs hb hp hs
  | alloc o =>
    obtain ⟨hs, rfl⟩ := exec_allocOp hx
    exact ⟨h.stepAlloc hk hp hs, hb⟩
  | dev o =>
    cases hx
    exact ⟨⟨h.disk, h.segs, h.cursor⟩, hb⟩

end Taihu
