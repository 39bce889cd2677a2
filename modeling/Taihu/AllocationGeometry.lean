/-
# The geometry of allocation

`allocOneLocked` of `internal/metastore/kv_pebble.go` moves a cursor by the sizes it is asked for
and takes segment numbers from three places: the cursor in memory, the cursor record in pebble,
and the pool of free segments, which is filled from segment records and from the mappings of
objects.  What it returns is not checked by anybody.

**`allocation_geometry`**: every extent that is handed out starts on a block of a segment of the
device and ends in that segment, and so does every block that a put writes.  The invariant is
`InDevice`.  What has to be shown of the code is that it asks for an extent only where one fits
behind the cursor it has read, and that the cursors it sets and the mappings it commits are those
of extents it has been given (`code_geometry`).

The source computes with `int64`.  That changes nothing (`allocFrom64_eq`) as long as two segments
are less than `int64` can count; `wide_segment_overflows` is a device of one segment of `2 ^ 62`
bytes, where the sum in the check of `allocOneLocked` wraps.
-/
import Taihu.DeviceRead
import Taihu.InDevice
import Taihu.Reserve

namespace Taihu

open Concur
open Program hiding pure
open DeviceRead (align4k64 align4k64_of_lt)

variable {L : Layout} {s s' : Sys} {l l' : Local} {rest : List Local} {α : Type}

/-! ## 1. Commits and device writes -/

/-- Operations that are no part of an allocation, and whose segments and places are on the
device. -/
def Op.Inside (L : Layout) : Op → Prop
  | .segs (.putObjectLocked _ md _ _) => L.HasSegment md.segmentID
  | .segs (.activate _) => False
  | .alloc _ => False
  | .dev (.write seg off _) => L.Fits blockSize (seg, off)
  | _ => True

theorem Op.Inside.proper {o : Op} (h : o.Inside L) : o.Proper L l := by
  cases o with
  | segs o => cases o <;> first | exact True.intro | exact h | exact absurd h id
  | alloc o => exact absurd h id
  | dev o => cases o <;> first | exact True.intro | exact h
  | _ => exact True.intro

theorem Op.Quiet.inside {o : Op} (h : o.Quiet) : o.Inside L := by
  cases o with
  | segs o => cases o <;> first | exact True.intro | exact absurd h id
  | alloc o => exact absurd h id
  | dev o => cases o <;> first | exact True.intro | exact absurd h id
  | _ => exact True.intro

theorem inside_of_quiet {p : Proc α} (h : Uses Op.Quiet p) : Uses (Op.Inside L) p :=
  h.mono fun _ ho => ho.inside

theorem keeps_inside {p : Proc α} (h : Uses (Op.Inside L) p) (l : Local) :
    Keeps (geometry L) (fun _ _ => True) p l :=
  h.keeps (I := fun _ => True) True.intro fun _ _ ho _ => ⟨ho.proper, fun _ _ _ => True.intro⟩

theorem inside_putMapping (key : Key) {md : ObjectMeta} (hmd : L.HasSegment md.segmentID)
    (v : Option Bytes) : Uses (Op.Inside L) (putMapping key md v) := by
  refine Uses.bind (.step True.intro fun r => ?_) fun old => ?_
  · cases r with
    | some om => exact True.intro
    | none => exact ⟨True.intro, fun _ => True.intro⟩
  · refine ⟨True.intro, fun _ => ⟨hmd, fun _ => ⟨True.intro, fun _ => .step True.intro
      fun ok => ?_⟩⟩⟩
    cases ok with
    | true => exact ⟨True.intro, fun _ => True.intro⟩
    | false => exact True.intro

theorem inside_cacheDelAll (keys : List Key) : Uses (Op.Inside L) (cacheDelAll keys) := by
  induction keys with
  | nil => exact True.intro
  | cons key keys ih => exact ⟨True.intro, fun _ => ih⟩

theorem inside_deleteMapping (key : Key) : Uses (Op.Inside L) (deleteMapping key) := by
  refine (inside_of_quiet (quiet_getMapping key)).bind fun r => ?_
  cases r with
  | error e => exact True.intro
  | ok old =>
    refine ⟨True.intro, fun _ => ⟨True.intro, fun _ => ⟨True.intro, fun _ => .step True.intro
      fun ok => ?_⟩⟩⟩
    cases ok with
    | true => exact ⟨True.intro, fun _ => True.intro⟩
    | false => exact True.intro

theorem inside_batchPutLocked {items : List PutMappingItem}
    (h : ∀ it ∈ items, L.HasSegment it.md.segmentID) :
    Uses (Op.Inside L) (batchPutLocked items) := by
  induction items with
  | nil => exact True.intro
  | cons it items ih =>
    obtain ⟨hit, hitems⟩ := List.forall_mem_cons.mp h
    exact ⟨True.intro, fun _ => ⟨hit, fun _ => ih hitems⟩⟩

theorem inside_batchPutMapping {items : List PutMappingItem}
    (h : ∀ it ∈ items, L.HasSegment it.md.segmentID) :
    Uses (Op.Inside L) (batchPutMapping items) := by
  refine Uses.ite True.intro ⟨True.intro, fun _ => (inside_batchPutLocked h).bind fun _ =>
    ⟨True.intro, fun _ => .step True.intro fun ok => ?_⟩⟩
  cases ok with
  | true => exact (inside_of_quiet (quiet_cachePutAll _)).bind fun _ => True.intro
  | false => exact True.intro

theorem inside_batchDeleteLocked (dels : List (Key × ObjectMeta)) :
    Uses (Op.Inside L) (batchDeleteLocked dels) := by
  induction dels with
  | nil => exact True.intro
  | cons x dels ih => exact ⟨True.intro, fun _ => ih⟩

theorem inside_batchDeleteMapping (keys : List Key) :
    Uses (Op.Inside L) (batchDeleteMapping keys) := by
  refine (inside_of_quiet (quiet_batchDeleteLookup keys)).bind fun found => ?_
  refine Uses.ite True.intro ⟨True.intro, fun _ => (inside_batchDeleteLocked _).bind fun _ =>
    ⟨True.intro, fun _ => .step True.intro fun ok => ?_⟩⟩
  cases ok with
  | true => exact (inside_cacheDelAll _).bind fun _ => True.intro
  | false => exact True.intro

theorem inside_moveMapping (key : Key) (old : ObjectMeta) {new : ObjectMeta}
    (h : L.HasSegment new.segmentID) : Uses (Op.Inside L) (moveMapping key old new) := by
  refine ⟨True.intro, fun _ => .step True.intro fun cur => Uses.ite ?_ ?_⟩
  · refine ⟨h, fun _ => .step True.intro fun ok => ?_⟩
    cases ok with
    | true => exact ⟨True.intro, fun _ => ⟨True.intro, fun _ => True.intro⟩⟩
    | false => exact ⟨True.intro, fun _ => True.intro⟩
  · exact ⟨True.intro, fun _ => True.intro⟩

/-- A transfer stays in the extent it is for. -/
theorem inside_writeBlocks {seg : Int} (n : Nat) : ∀ (off : Int) (data : Bytes),
    L.Fits (n * blockSize) (seg, off) → Uses (Op.Inside L) (writeBlocks seg n off data) := by
  induction n with
  | zero => exact fun _ _ _ => True.intro
  | succ n ih =>
    intro off data h
    have hlen : ((n + 1 : Nat) : Int) * blockSize = n * blockSize + blockSize := by
      rw [Int.natCast_succ, Int.add_mul, Int.one_mul]
    have hnonneg : 0 ≤ (n : Int) * blockSize := Int.mul_nonneg (Int.natCast_nonneg n) (by decide)
    have hblock : L.Fits blockSize (seg, off) := h.mono (by omega)
    have hrest : L.Fits (n * blockSize) (seg, off + blockSize) := by
      have hb := hblock.behind (by decide) (by decide)
      refine ⟨hb.segment, hb.nonneg, hb.aligned, ?_⟩
      have hw := h.within
      show off + blockSize + n * blockSize ≤ L.segmentSizeBytes
      rw [hlen] at hw
      dsimp only at hw
      omega
    refine .step hblock fun ok => ?_
    cases ok with
    | true => exact ih _ _ hrest
    | false => exact True.intro

theorem blocksOf_mul (size : Int) : (blocksOf size : Int) * blockSize = align4k size := by
  have h0 := align4k_nonneg size
  have hm := align4k_mod size
  unfold blocksOf
  unfold blockSize at *
  omega

theorem inside_devAppend {seg off size : Int} (data : Bytes)
    (h : L.Fits (align4k size) (seg, off)) :
    Uses (Op.Inside L) (devAppend L seg off size data) := by
  unfold devAppend
  split
  · exact True.intro
  · rw [← blocksOf_mul] at h
    refine (inside_writeBlocks _ off _ h).bind fun ok => ?_
    cases ok <;> exact True.intro

theorem inside_writeJobs {js : List WriteJob}
    (h : ∀ j ∈ js, L.Fits (align4k j.size) (j.seg, j.off)) :
    Uses (Op.Inside L) (writeJobs js) := by
  induction js with
  | nil => exact True.intro
  | cons j js ih =>
    obtain ⟨hj, hjs⟩ := List.forall_mem_cons.mp h
    rw [← blocksOf_mul] at hj
    exact (inside_writeBlocks _ _ _ hj).bind fun _ => (ih hjs).bind fun _ => True.intro

theorem inside_devAppendBatch {js : List WriteJob}
    (h : ∀ j ∈ js, L.Fits (align4k j.size) (j.seg, j.off)) :
    Uses (Op.Inside L) (devAppendBatch L js) := by
  unfold devAppendBatch
  split
  · exact True.intro
  · refine (inside_writeJobs h).bind fun ok => ?_
    cases ok <;> exact True.intro

theorem inside_writeAndCommit {xs : List (PutItem × (Int × Int))}
    (h : ∀ x ∈ xs, L.Fits (align4k x.1.size) x.2) : Uses (Op.Inside L) (writeAndCommit L xs) := by
  refine (inside_devAppendBatch fun j hj => ?_).bind fun r => ?_
  · obtain ⟨x, hx, rfl⟩ := List.mem_map.mp hj
    exact h x (List.mem_filter.mp hx).1
  · cases r with
    | error e => exact True.intro
    | ok u =>
      refine inside_batchPutMapping fun it hit => ?_
      obtain ⟨x, hx, rfl⟩ := List.mem_map.mp hit
      exact (h x hx).segment

/-! ## 2. Allocations -/

/-- The segment manager does not move the cursor a thread has read. -/
theorem cur_of_segs {o : SegsOp} {r : o.Reply} (h : exec L s l (.segs o) = some (s', l', r)) :
    l'.hist.cur = l.hist.cur := by
  obtain ⟨b, -, rfl⟩ := exec_segsOp h
  exact (SegsOp.note_rest s l.hist o r).2.2

/-- After a roll: the cursor is at the beginning of a segment of the device. -/
def RolledTo (L : Layout) : Res Unit → Local → Prop
  | .ok _, l => ∃ a, l.hist.cur = some a ∧ L.Fits L.segmentSizeBytes (a.curSeg, a.curOff)
  | .error _, _ => True

theorem geometry_setCursor {a : Allocator} {id : Int} (hL : 0 ≤ L.segmentSizeBytes)
    (hid : L.HasSegment id) (hc : l.hist.cur = some a) {f : Unit → Proc (Res Unit)}
    (h : ∀ l', (∃ a', l'.hist.cur = some a' ∧ L.Fits L.segmentSizeBytes (a'.curSeg, a'.curOff)) →
      Keeps (geometry L) (RolledTo L) (f ()) l') :
    Keeps (geometry L) (RolledTo L) (setCursor id 0 >>= f) l := by
  refine keeps_step (hid.fits.mono hL) fun s s' r l1 _ h1 => ?_
  have hv := congrArg AllocView.cur (view_setCursor h1)
  refine h l1 ⟨{ a with curSeg := id, curOff := 0 }, ?_, hid.fits⟩
  have hc' : l.view.cur = some a := hc
  rw [hc'] at hv
  exact hv

theorem geometry_rollSegment {a : Allocator} (hL : 0 ≤ L.segmentSizeBytes)
    (ha : L.HasSegment a.curSeg) (hc : l.hist.cur = some a) (useReserve : Bool) :
    Keeps (geometry L) (RolledTo L) (rollSegment L a useReserve) l := by
  refine Keeps.bind (m := fun _ l1 => l1.hist.cur = some a) ?_ fun marked l1 hc1 => ?_
  · refine Keeps.ite (fun _ => ?_) (fun _ => hc)
    exact keeps_last True.intro fun s s' ok l1 _ h1 => (cur_of_segs h1).trans hc
  · refine Keeps.ite (fun _ => ?_) (fun _ => True.intro)
    -- `canUse` is asked about a segment before `upper`, which the device has
    refine Keeps.bind (m := fun next l2 => l2.hist.cur = some a ∧
      (next = true → L.HasSegment (a.curSeg + 1))) ?_ fun next l2 h2 => ?_
    · refine Keeps.ite (fun hlt => ?_) (fun _ => ⟨hc1, fun h => absurd h (by simp)⟩)
      refine keeps_last True.intro fun s s' ok l2 _ h2 => ⟨(cur_of_segs h2).trans hc1, fun _ => ?_⟩
      refine ⟨by have := ha.1; omega, ?_⟩
      have hupper : (if useReserve then L.segmentCount else L.segmentCount - reserveSegs)
          ≤ L.segmentCount := by
        unfold reserveSegs
        split <;> omega
      exact Int.lt_of_lt_of_le hlt hupper
    · refine Keeps.ite (fun hnext => ?_) (fun _ => ?_)
      · refine geometry_setCursor hL (h2.2 hnext) h2.1 fun l3 hc3 => ?_
        refine keeps_step (h2.2 hnext) fun s s' ok l4 _ h4 => ?_
        cases ok with
        | false => exact True.intro
        | true =>
          obtain ⟨a', hc', hfit⟩ := hc3
          exact ⟨a', (cur_of_segs h4).trans hc', hfit⟩
      · -- the pool has segments of the device only
        refine keeps_step True.intro fun s s' x l3 hs h3 => ?_
        cases x with
        | none => exact True.intro
        | some id =>
          have hid : L.HasSegment id :=
            hs.1.segs.free id (List.mem_of_head? (popFree_head (exec_popFree h3)))
          exact geometry_setCursor hL hid ((cur_of_segs h3).trans h2.1) fun l4 hc4 => hc4

/-- An extent for `size` bytes, on the device. -/
abbrev Extent (L : Layout) (size : Int) (x : Int × Int) : Prop := L.Fits (align4k size) x

/-- **One allocation.**  The extent it returns fits. -/
theorem geometry_allocOneLocked (hL : L.Regular) {size : Int} (hs : size ≤ L.segmentSizeBytes)
    (useReserve : Bool) (l : Local) :
    Keeps (geometry L) (fun r _ => OkAll (Extent L size) r) (allocOneLocked L size useReserve) l := by
  have hle : align4k size ≤ L.segmentSizeBytes :=
    align4k_le_of_mod (Int.le_of_lt hL.size_pos) hL.size_aligned hs
  refine keeps_step True.intro fun s s' a l1 hin h1 => ?_
  obtain ⟨hv1, rfl⟩ := view_read h1
  have hc1 : l1.hist.cur = some s.alloc := congrArg AllocView.cur hv1
  have hcur := hin.1.cursor
  refine Keeps.bind (m := fun r l2 => OkAll (fun _ => ∃ a, l2.hist.cur = some a ∧
    Extent L size (a.curSeg, a.curOff)) r) ?_ fun r l2 h2 => ?_
  · refine Keeps.ite (fun _ => ?_) (fun hfit => ?_)
    · have hroll := geometry_rollSegment (l := l1) (Int.le_of_lt hL.size_pos) hcur.segment hc1
        useReserve
      refine hroll.mono fun r l2 h2 => ?_
      cases r with
      | error e => exact True.intro
      | ok u =>
        obtain ⟨a, hc, hfit⟩ := h2
        exact ⟨a, hc, hfit.mono hle⟩
    · exact ⟨s.alloc, hc1, hcur.segment, hcur.nonneg, hcur.aligned, Int.not_lt.mp hfit⟩
  · cases r with
    | error e => exact True.intro
    | ok u =>
      obtain ⟨a, hc, hfit⟩ := h2
      refine keeps_step ⟨align4k_nonneg size, align4k_mod size, a, hc, hfit⟩
        fun s s' x l3 hin3 h3 => ?_
      have hx := (view_take h3).2
      have ha := hin3.2 a hc
      subst ha
      rw [hx]
      exact hfit

theorem geometry_allocate (hL : L.Regular) {size : Int} (hs : size ≤ L.segmentSizeBytes)
    (useReserve : Bool) (l : Local) :
    Keeps (geometry L) (fun r _ => OkAll (Extent L size) r) (allocate L size useReserve) l := by
  refine keeps_step True.intro fun _ _ _ l1 _ _ => keeps_step True.intro fun _ _ _ l2 _ _ => ?_
  refine (geometry_allocOneLocked hL hs useReserve l2).bind fun r l3 h3 => ?_
  cases r with
  | error e => exact keeps_step True.intro fun _ _ _ _ _ _ => True.intro
  | ok x =>
    refine keeps_step True.intro fun s s' a l4 hin h4 => ?_
    obtain ⟨-, rfl⟩ := view_read h4
    have hcur := hin.1.cursor
    -- the record names the segment of the extent and the offset of the cursor
    have hpos : L.Fits 0 (x.1, s.alloc.curOff) :=
      ⟨h3.segment, hcur.nonneg, hcur.aligned, hcur.within⟩
    refine keeps_step hpos fun _ _ ok l5 _ _ => keeps_step True.intro fun _ _ _ l6 _ _ => ?_
    cases ok with
    | true => exact h3
    | false => exact True.intro

/-- Extents for `sizes`, one for each. -/
abbrev Extents (L : Layout) (sizes : List Int) (xs : List (Int × Int)) : Prop :=
  List.Forall₂ (Extent L) sizes xs

theorem geometry_allocBatchLoop (hL : L.Regular) {sizes : List Int}
    (hs : ∀ size ∈ sizes, size ≤ L.segmentSizeBytes) : ∀ l : Local,
    Keeps (geometry L) (fun r _ => OkAll (Extents L sizes) r) (allocBatchLoop L sizes) l := by
  induction sizes with
  | nil => exact fun _ => List.Forall₂.nil
  | cons size sizes ih =>
    intro l
    obtain ⟨hsize, hsizes⟩ := List.forall_mem_cons.mp hs
    refine (geometry_allocOneLocked hL hsize false l).bind fun r l1 h1 => ?_
    cases r with
    | error e => exact True.intro
    | ok x =>
      refine (ih hsizes l1).bind fun rs l2 h2 => ?_
      cases rs with
      | error e => exact True.intro
      | ok xs => exact List.Forall₂.cons h1 h2

theorem geometry_allocateSegmentBatch (hL : L.Regular) {sizes : List Int}
    (hs : ∀ size ∈ sizes, size ≤ L.segmentSizeBytes) (l : Local) :
    Keeps (geometry L) (fun r _ => OkAll (Extents L sizes) r) (allocateSegmentBatch L sizes) l := by
  refine keeps_step True.intro fun _ _ _ l1 _ _ => keeps_step True.intro fun _ _ _ l2 _ _ => ?_
  refine (geometry_allocBatchLoop hL hs l2).bind fun r l3 h3 => ?_
  cases r with
  | error e => exact keeps_step True.intro fun _ _ _ _ _ _ => True.intro
  | ok xs =>
    refine Keeps.ite (fun _ => keeps_step True.intro fun _ _ _ _ _ _ => h3) (fun _ => ?_)
    refine keeps_step True.intro fun s s' a l4 hin h4 => ?_
    obtain ⟨-, rfl⟩ := view_read h4
    refine keeps_step hin.1.cursor fun _ _ ok l5 _ _ => keeps_step True.intro fun _ _ _ l6 _ _ => ?_
    cases ok with
    | true => exact h3
    | false => exact True.intro

/-! ## 3. Puts -/

theorem geometry_putBegin (hL : L.Regular) (size : Int) (l : Local) :
    Keeps (geometry L) (fun r _ => OkAll (Extent L size) r) (putBegin L size) l := by
  refine Keeps.ite (fun _ => True.intro) (fun _ => Keeps.ite (fun _ => True.intro) (fun h => ?_))
  exact geometry_allocate hL (Int.not_lt.mp h) false l

theorem geometry_put (hL : L.Regular) (key : Key) (size : Int) (data : Bytes) (l : Local) :
    Keeps (geometry L) (fun _ _ => True) (put L key size data) l := by
  refine (geometry_putBegin hL size l).bind fun r l1 h1 => ?_
  cases r with
  | error e => exact True.intro
  | ok x =>
    have happend : Uses (Op.Inside L) (if 0 < size then putAppend L x.1 x.2 size data
        else Pure.pure (.ok ())) :=
      .ite (.ite True.intro (inside_devAppend data h1)) True.intro
    refine (keeps_inside happend l1).bind fun r l2 _ => ?_
    cases r with
    | error e => exact True.intro
    | ok u =>
      have hseg : L.HasSegment (ObjectMeta.mk x.1 x.2 size).segmentID := h1.segment
      exact keeps_inside (inside_putMapping key hseg _) l2

/-- The items of a batch passed its check, so none is larger than a segment. -/
theorem size_le_of_checked {items : List PutItem}
    (h : items.findSome? (batchPutCheck L) = none) :
    ∀ size ∈ items.map PutItem.size, size ≤ L.segmentSizeBytes := by
  intro size hin
  obtain ⟨it, hit, rfl⟩ := List.mem_map.mp hin
  have hc := List.findSome?_eq_none_iff.mp h it hit
  unfold batchPutCheck at hc
  split at hc
  · cases hc
  · split at hc
    · cases hc
    · rename_i hle
      exact Int.not_lt.mp hle

/-- Each item with the extent it has been given. -/
theorem extents_zip {items : List PutItem} : ∀ {exts : List (Int × Int)},
    Extents L (items.map PutItem.size) exts →
    ∀ x ∈ items.zip exts, L.Fits (align4k x.1.size) x.2 := by
  induction items with
  | nil => exact fun _ x hx => absurd hx (by simp)
  | cons it items ih =>
    intro exts h x hx
    cases h with
    | cons hit hitems =>
      rcases List.mem_cons.mp hx with rfl | hx
      · exact hit
      · exact ih hitems x hx

theorem geometry_batchPut (hL : L.Regular) (items : List PutItem) (l : Local) :
    Keeps (geometry L) (fun _ _ => True) (batchPut L items) l := by
  refine Keeps.ite (fun _ => True.intro) (fun _ => ?_)
  cases hc : items.findSome? (batchPutCheck L) with
  | some e => exact True.intro
  | none =>
    refine (geometry_allocateSegmentBatch hL (size_le_of_checked hc) l).bind fun r l1 h1 => ?_
    cases r with
    | error e => exact True.intro
    | ok exts => exact keeps_inside (inside_writeAndCommit (extents_zip h1)) l1

theorem geometry_pipelineBegin (hL : L.Regular) (items : List PutItem) : ∀ l : Local,
    Keeps (geometry L) (fun r _ => OkAll (fun xs => ∀ x ∈ xs, Extent L x.1.size x.2) r)
      (pipelineBegin L items) l := by
  induction items with
  | nil => exact fun _ x hx => absurd hx List.not_mem_nil
  | cons it items ih =>
    intro l
    refine (geometry_putBegin hL it.size l).bind fun r l1 h1 => ?_
    cases r with
    | error e => exact True.intro
    | ok x =>
      refine (ih l1).bind fun rs l2 h2 => ?_
      cases rs with
      | error e => exact True.intro
      | ok xs => exact List.forall_mem_cons.mpr ⟨h1, h2⟩

theorem geometry_pipelinePut (hL : L.Regular) (items : List PutItem) (l : Local) :
    Keeps (geometry L) (fun _ _ => True) (pipelinePut L items) l := by
  refine (geometry_pipelineBegin hL items l).bind fun r l1 h1 => ?_
  cases r with
  | error e => exact True.intro
  | ok xs => exact keeps_inside (inside_writeAndCommit h1) l1

/-! ## 4. The calls -/

/-- Allocations ask for at most a segment, and mappings are set to segments of the device.  A put
may be of any size: it checks.  Compaction is another matter: it allocates what mappings say. -/
def Call.Proper (L : Layout) : Call → Prop
  | .allocateSegment size => 0 ≤ size ∧ size ≤ L.segmentSizeBytes
  | .allocateSegmentReserve size => 0 ≤ size ∧ size ≤ L.segmentSizeBytes
  | .allocateSegmentBatch sizes => ∀ size ∈ sizes, 0 ≤ size ∧ size ≤ L.segmentSizeBytes
  | .putMapping _ md => L.HasSegment md.segmentID
  | .moveMapping _ _ new => L.HasSegment new.segmentID
  | .batchPutMapping items => ∀ it ∈ items, L.HasSegment it.md.segmentID
  | .moveObject _ => False
  | .compactOnce _ _ => False
  | _ => True

/-- What an allocation of `size` bytes returns. -/
def ReturnsExtent (L : Layout) (size : Int) : Result → Prop
  | .ok (.extent seg off) => L.Fits (align4k size) (seg, off)
  | _ => True

/-- What a batch of allocations returns: an extent for each size. -/
def ReturnsExtents (L : Layout) (sizes : List Int) : Result → Prop
  | .ok (.extents xs) => List.Forall₂ (fun size x => L.Fits (align4k size) x) sizes xs
  | _ => True

/-- What the call returns lies on the device. -/
def Call.Returns (L : Layout) : Call → Result → Prop
  | .allocateSegment size, v => ReturnsExtent L size v
  | .allocateSegmentReserve size, v => ReturnsExtent L size v
  | .allocateSegmentBatch sizes, v => ReturnsExtents L sizes v
  | _, _ => True

theorem geometry_one {size : Int} {p : Proc (Res (Int × Int))} {l : Local}
    (h : Keeps (geometry L) (fun r _ => OkAll (Extent L size) r) p l) :
    Keeps (geometry L) (fun v _ => ReturnsExtent L size v)
      (p >>= fun r => Pure.pure (r.map fun x => Value.extent x.1 x.2)) l := by
  refine h.bind fun r l' hr => ?_
  cases r with
  | error e => exact True.intro
  | ok x => exact hr

/-- **Every call keeps to the device.** -/
theorem code_geometry (hL : L.Regular) {call : Call} (h : call.Proper L) (l : Local) :
    Keeps (geometry L) (fun v _ => call.Returns L v) (code L call) l := by
  have hmap : ∀ {α : Type} {p : Proc α} {f : α → Result},
      Keeps (geometry L) (fun _ _ => True) p l →
      Keeps (geometry L) (fun _ _ => True) (p >>= fun a => Pure.pure (f a)) l :=
    fun hp => hp.bind fun _ _ _ => True.intro
  have hin : ∀ {α : Type} {p : Proc α}, Uses (Op.Inside L) p →
      Keeps (geometry L) (fun _ _ => True) p l := fun hp => keeps_inside hp l
  cases call with
  | getMapping key => exact hmap (hin (inside_of_quiet (quiet_getMapping key)))
  | getMappingRef key => exact hmap (hin (inside_of_quiet (quiet_getMappingRef key)))
  | putMapping key md => exact hmap (hin (inside_putMapping key h none))
  | deleteMapping key => exact hmap (hin (inside_deleteMapping key))
  | moveMapping key old new => exact hmap (hin (inside_moveMapping key old h))
  | batchGetMapping keys order =>
    exact hmap (hin (inside_of_quiet (quiet_batchGetMapping keys order)))
  | batchPutMapping items => exact hmap (hin (inside_batchPutMapping h))
  | batchDeleteMapping keys => exact hmap (hin (inside_batchDeleteMapping keys))
  | loadCache => exact hmap (hin (inside_of_quiet quiet_loadCache))
  | allocateSegment size => exact geometry_one (geometry_allocate hL h.2 false l)
  | allocateSegmentReserve size => exact geometry_one (geometry_allocate hL h.2 true l)
  | allocateSegmentBatch sizes =>
    refine (geometry_allocateSegmentBatch hL (fun size hs => (h size hs).2) l).bind fun r l' hr => ?_
    cases r with
    | error e => exact True.intro
    | ok xs => exact hr
  | markCompacting id => exact hmap (hin (inside_of_quiet (quiet_markCompacting id)))
  | reclaimOnce order => exact hmap (hin (inside_of_quiet (quiet_reclaimOnce order)))
  | put key size data => exact hmap (geometry_put hL key size data l)
  | batchPut items => exact hmap (geometry_batchPut hL items l)
  | pipelinePut items => exact hmap (geometry_pipelinePut hL items l)
  | stat key => exact hmap (hin (inside_of_quiet (quiet_stat key)))
  | readAt key off size => exact hmap (hin (inside_of_quiet (quiet_readAt key off size)))
  | asyncGet key off =>
    refine (hin (inside_of_quiet (quiet_asyncGet key off))).bind fun r _ _ => ?_
    cases r <;> exact True.intro
  | batchRead blocks order => exact hmap (hin (inside_of_quiet (quiet_batchRead blocks order)))
  | moveObject key => exact absurd h id
  | compactOnce cfg order => exact absurd h id

instance (L : Layout) : ∀ call : Call, Decidable (call.Proper L)
  | .allocateSegment size =>
    inferInstanceAs (Decidable (0 ≤ size ∧ size ≤ L.segmentSizeBytes))
  | .allocateSegmentReserve size =>
    inferInstanceAs (Decidable (0 ≤ size ∧ size ≤ L.segmentSizeBytes))
  | .allocateSegmentBatch sizes =>
    inferInstanceAs (Decidable (∀ size ∈ sizes, 0 ≤ size ∧ size ≤ L.segmentSizeBytes))
  | .putMapping _ md => inferInstanceAs (Decidable (L.HasSegment md.segmentID))
  | .moveMapping _ _ new => inferInstanceAs (Decidable (L.HasSegment new.segmentID))
  | .batchPutMapping items =>
    inferInstanceAs (Decidable (∀ it ∈ items, L.HasSegment it.md.segmentID))
  | .moveObject _ => .isFalse id
  | .compactOnce _ _ => .isFalse id
  | .getMapping _ => .isTrue True.intro
  | .getMappingRef _ => .isTrue True.intro
  | .deleteMapping _ => .isTrue True.intro
  | .batchGetMapping _ _ => .isTrue True.intro
  | .batchDeleteMapping _ => .isTrue True.intro
  | .loadCache => .isTrue True.intro
  | .markCompacting _ => .isTrue True.intro
  | .reclaimOnce _ => .isTrue True.intro
  | .put _ _ _ => .isTrue True.intro
  | .batchPut _ => .isTrue True.intro
  | .pipelinePut _ => .isTrue True.intro
  | .stat _ => .isTrue True.intro
  | .readAt _ _ _ => .isTrue True.intro
  | .asyncGet _ _ => .isTrue True.intro
  | .batchRead _ _ => .isTrue True.intro

/-! ## 5. The sums of `int64` -/

/-- `allocOneLocked`, from the cursor it has read on. -/
def allocFrom (L : Layout) (size : Int) (useReserve : Bool) (a : Allocator) :
    Proc (Res (Int × Int)) := do
  let rolled ← (if a.curOff + align4k size > L.segmentSizeBytes then rollSegment L a useReserve
    else pure (.ok ()))
  match rolled with
  | .error e => pure (.error e)
  | .ok () =>
    let x ← takeExtent (align4k size)
    pure (.ok x)

theorem allocOneLocked_eq (size : Int) (useReserve : Bool) :
    allocOneLocked L size useReserve = allocator >>= allocFrom L size useReserve := rfl

/-- `rollSegment`, on `int64`. -/
def rollSegment64 (L : Layout) (a : Allocator) (useReserve : Bool) : Proc (Res Unit) := do
  let marked ← (if 0 < a.curOff then markFull a.curSeg else pure true)
  if marked then
    let upper := if useReserve then L.segmentCount else int64 (L.segmentCount - reserveSegs)
    let next ← (if int64 (a.curSeg + 1) < upper then canUse (int64 (a.curSeg + 1)) else pure false)
    if next then
      setCursor (int64 (a.curSeg + 1)) 0
      if ← activate (int64 (a.curSeg + 1)) then pure (.ok ()) else pure (.error .io)
    else
      match ← popFree with
      | none => pure (.error .noSpace)
      | some seg =>
        setCursor seg 0
        pure (.ok ())
  else pure (.error .io)

/-- `allocFrom`, on `int64`. -/
def allocFrom64 (L : Layout) (size : Int) (useReserve : Bool) (a : Allocator) :
    Proc (Res (Int × Int)) := do
  let rolled ← (if int64 (a.curOff + align4k64 size) > L.segmentSizeBytes
    then rollSegment64 L a useReserve else pure (.ok ()))
  match rolled with
  | .error e => pure (.error e)
  | .ok () =>
    let x ← takeExtent (align4k64 size)
    pure (.ok x)

theorem rollSegment64_eq (hL : L.Regular) {a : Allocator} (ha : L.HasSegment a.curSeg)
    (useReserve : Bool) : rollSegment64 L a useReserve = rollSegment L a useReserve := by
  obtain ⟨h0, hlt⟩ := ha
  have hcount := hL.count_lt
  have hpos := hL.count_pos
  have hnext : int64 (a.curSeg + 1) = a.curSeg + 1 := int64_of_range (by omega) (by omega)
  have hupper : int64 (L.segmentCount - reserveSegs) = L.segmentCount - reserveSegs := by
    unfold reserveSegs
    exact int64_of_range (by omega) (by omega)
  rw [rollSegment64, hnext, hupper]
  rfl

/-- **No sum of an allocation wraps**, as long as a segment has less than `2 ^ 62` bytes: from a
cursor on the device the source, which computes with `int64`, does what `allocOneLocked` does. -/
theorem allocFrom64_eq (hL : L.Regular) (hw : L.segmentSizeBytes < 2 ^ 62) {a : Allocator}
    (ha : L.Fits 0 (a.curSeg, a.curOff)) {size : Int} (hs : size ≤ L.segmentSizeBytes)
    (useReserve : Bool) : allocFrom64 L size useReserve a = allocFrom L size useReserve a := by
  have hal : align4k64 size = align4k size := align4k64_of_lt (Int.lt_of_le_of_lt hs hw)
  have hle : align4k size ≤ L.segmentSizeBytes :=
    align4k_le_of_mod (Int.le_of_lt hL.size_pos) hL.size_aligned hs
  have h0 := align4k_nonneg size
  have hoff := ha.nonneg
  have hin := ha.within
  dsimp only at hoff hin
  have hsum : int64 (a.curOff + align4k size) = a.curOff + align4k size :=
    int64_of_range (by omega) (by omega)
  unfold allocFrom64 allocFrom
  rw [hal, hsum, rollSegment64_eq hL ha.segment]

/-- The position of a block, on `int64`, on a device whose capacity is an `int64`. -/
theorem devPos_eq (hL : L.Regular) (hcap : L.segmentCount * L.segmentSizeBytes < 2 ^ 63)
    {seg off : Int} (h : L.Fits blockSize (seg, off)) :
    int64 (int64 (seg * L.segmentSizeBytes) + off) = devPos L seg off := by
  obtain ⟨-, -, hlow, hhigh⟩ := h.address (Int.le_of_lt hL.size_pos)
  have hbase : 0 ≤ seg * L.segmentSizeBytes :=
    Int.mul_nonneg h.segment.1 (Int.le_of_lt hL.size_pos)
  have hoff : 0 ≤ off := h.nonneg
  have hpos : devPos L seg off = seg * L.segmentSizeBytes + off := rfl
  have hblock : (0 : Int) < blockSize := by decide
  dsimp only at hlow hhigh
  rw [hpos] at hlow hhigh ⊢
  rw [int64_of_range (x := seg * L.segmentSizeBytes) (by omega) (by omega),
    int64_of_range (by omega) (by omega)]

/-! ## 6. Runs -/

/-- The call of a thread stays what it is. -/
def callKept : Contract sig Local where
  pre := fun _ _ => True
  gives := fun _ l _ l' => l'.hist.call = l.hist.call

theorem keeps_call {call : Call} (p : Proc α) : ∀ l : Local, l.hist.call = call →
    Keeps callKept (fun _ l' => l'.hist.call = call) p l := by
  induction p with
  | pure a => exact fun l hl => hl
  | request o next ih => exact fun l hl => ⟨True.intro, fun r l' hg => ih r l' (hg.trans hl)⟩

/-- The invariant: the allocator's views are right, and everything is on the device. -/
structure GeometryKept (L : Layout) (s : Sys) (ls : List Local) : Prop where
  alloc : AllocSound s ls
  state : InDevice L s
  batches : ∀ l ∈ ls, l.InDevice L

theorem GeometryKept.step (h : GeometryKept L s (l :: rest)) {o : Op} {r : o.Reply}
    (hp : o.allocPre l.view) (hg : o.Proper L l) (hx : exec L s l o = some (s', l', r)) :
    GeometryKept L s' (l' :: rest) := by
  obtain ⟨hs, hl⟩ := h.state.step (h.batches l List.mem_cons_self) h.alloc.knows hg hx
  refine ⟨h.alloc.step hp hx, hs, fun x hin => ?_⟩
  rcases List.mem_cons.mp hin with rfl | hin
  · exact hl
  · exact h.batches x (List.mem_cons_of_mem _ hin)

/-- Any proper call may start, and the store may be reopened at any time. -/
def properCalls (L : Layout) : Rule sig Sys Local Call where
  permit := fun call => call.Proper L
  restarts := True
  allow := fun _ _ _ _ => True

instance (call : Call) : Decidable ((properCalls L).permit call) :=
  inferInstanceAs (Decidable (call.Proper L))
instance : Decidable (properCalls L).restarts := inferInstanceAs (Decidable True)
instance (ls : List Local) (o : Op) : Decidable ((properCalls L).allow s l ls o) :=
  inferInstanceAs (Decidable True)

/-- The geometry as an invariant of runs. -/
def geometryDiscipline (hL : L.Regular) : Discipline (machine L) where
  toRule := properCalls L
  contract := ((allocProtocol L).both (geometry L)).both callKept
  inv := GeometryKept L
  post := fun v l => l.view = .idle ∧ l.hist.call.Returns L v
  perm := fun _ _ _ hp h =>
    ⟨h.alloc.perm hp, h.state, fun l hl => h.batches l (hp.mem_iff.mpr hl)⟩
  spawn := by
    intro s ls call _ h
    refine ⟨h.alloc.spawn rfl, h.state, fun l hl => ?_⟩
    rcases List.mem_cons.mp hl with rfl | hl
    · exact fun o ho => absurd ho List.not_mem_nil
    · exact h.batches l hl
  starts := by
    intro call hp
    have hcode := ((code_allocates L call ((machine L).fresh call) rfl).both
      (code_geometry hL hp _)).both (keeps_call (code L call) _ rfl)
    refine hcode.mono fun v l h => ⟨h.1.1, ?_⟩
    have hcall : l.hist.call = call := h.2
    rw [hcall]
    exact h.1.2
  retire := by
    intro s l rest a hv h
    refine ⟨⟨h.alloc.frame rfl rfl rfl rfl rfl fun _ => hv.1, h.state, fun x hx => ?_⟩, hv⟩
    rcases List.mem_cons.mp hx with rfl | hx
    · exact h.batches l List.mem_cons_self
    · exact h.batches x (List.mem_cons_of_mem _ hx)
  restart := fun _ s _ h =>
    ⟨allocSound_initial rfl, h.state.reopen hL, fun _ hl => absurd hl List.not_mem_nil⟩
  sound := by
    intro s l rest o s' l' r h hp _ hx
    exact ⟨h.step hp.1.1 hp.1.2 hx,
      ⟨⟨s, s', h.alloc.knows, hx⟩, ⟨s, s', ⟨h.state, h.alloc.knows⟩, hx⟩⟩, exec_call hx⟩

/-- The geometry of a configuration: what has been returned, what is about to be handed out, and
what is about to be written. -/
structure KeptInDevice (L : Layout) (c : SysConf) : Prop where
  returned : ∀ th ∈ c.threads, ∀ v, th.2.value? = some v → th.1.hist.call.Returns L v
  taken : ∀ t l n, c.next? t = some (l, .alloc (.take n)) →
    L.Fits n (c.shared.alloc.curSeg, c.shared.alloc.curOff)
  written : ∀ t l seg off block, c.next? t = some (l, .dev (.write seg off block)) →
    L.Fits blockSize (seg, off) ∧ seg * L.segmentSizeBytes ≤ devPos L seg off ∧
      devPos L seg off + blockSize ≤ (seg + 1) * L.segmentSizeBytes ∧
      devPos L seg off + blockSize ≤ L.segmentCount * L.segmentSizeBytes ∧
      (L.segmentCount * L.segmentSizeBytes < 2 ^ 63 →
        int64 (int64 (seg * L.segmentSizeBytes) + off) = devPos L seg off)

/-- No sum wraps: from the cursor of the configuration, an allocation of at most a segment does
on `int64` what it does on the integers. -/
def SumsExact (L : Layout) (c : SysConf) : Prop :=
  ∀ size useReserve, 0 ≤ size → size ≤ L.segmentSizeBytes →
    allocFrom64 L size useReserve c.shared.alloc = allocFrom L size useReserve c.shared.alloc

/-- **The geometry of allocation.**  On a device of regular layout whose segments have less than
`2 ^ 62` bytes, in every run, whatever fails and however often the store is reopened, every extent
that is returned or taken, and every block that is written, lies in its segment and on the device,
and no sum of an allocation wraps. -/
theorem allocation_geometry (L : Layout) (hL : L.Regular) (hw : L.segmentSizeBytes < 2 ^ 62)
    (bytes : Int → Byte) (dbFaults devFaults : List Bool) (as : List (Act Call)) (c : SysConf)
    (hok : (machine L).Along (properCalls L).Admits (SysConf.init bytes dbFaults devFaults) as)
    (hrun : (machine L).run (SysConf.init bytes dbFaults devFaults) as = some c) :
    KeptInDevice L c ∧ SumsExact L c := by
  have h := (geometryDiscipline hL).run ((geometryDiscipline hL).holds_initial
    (show (geometryDiscipline hL).inv (Sys.init bytes dbFaults devFaults) [] from
      ⟨allocSound_initial rfl, inDevice_init hL bytes dbFaults devFaults,
        fun _ hl => absurd hl List.not_mem_nil⟩)) hok hrun
  have hs := h.inv.state
  refine ⟨⟨?_, ?_, ?_⟩, ?_⟩
  · intro th hth v hv
    exact (h.post hth hv).2
  · intro t l n hn
    obtain ⟨hinv, hp⟩ := h.next hn
    obtain ⟨-, -, a, ha, hfit⟩ := hp.1.2
    have hcur := hinv.alloc.knows a ha
    subst hcur
    exact hfit
  · intro t l seg off block hn
    have hfit : L.Fits blockSize (seg, off) := (h.next hn).2.1.2
    obtain ⟨hlow, hnext, -, hlast⟩ := hfit.address (Int.le_of_lt hL.size_pos)
    exact ⟨hfit, hlow, hnext, hlast, fun hcap => devPos_eq hL hcap hfit⟩
  · exact fun size useReserve _ hsize => allocFrom64_eq hL hw hs.cursor hsize useReserve

/-- Segments of two blocks: a block is allocated, the store is reopened, and a batch begins in the
segment under the stored cursor and rolls to the next. -/
theorem allocation_geometry_reopened : ∃ c : SysConf,
    (machine ⟨8192, 4⟩).run (SysConf.init (fun _ => 0) [] [])
      (Act.calls (.allocateSegment 1) 0 7 ++ .restart ::
        Act.calls (.allocateSegmentBatch [4096, 8192]) 0 13) = some c ∧
    c.result? 0 = some (.ok (.extents [(0, 4096), (1, 0)])) ∧
    KeptInDevice ⟨8192, 4⟩ c ∧ SumsExact ⟨8192, 4⟩ c := by
  obtain ⟨c, hc, hres⟩ := Option.map_eq_some_iff.mp
    (show ((machine ⟨8192, 4⟩).run (SysConf.init (fun _ => 0) [] [])
      (Act.calls (.allocateSegment 1) 0 7 ++ .restart ::
        Act.calls (.allocateSegmentBatch [4096, 8192]) 0 13)).map (fun c => c.result? 0)
      = some (some (.ok (.extents [(0, 4096), (1, 0)]))) by decide +kernel)
  refine ⟨c, hc, hres, allocation_geometry ⟨8192, 4⟩ ?_ (by decide) (fun _ => 0) [] [] _ c
    (by decide +kernel) hc⟩
  constructor <;> decide

/-- A device of one segment of `2 ^ 62` bytes. -/
def wideDevice : Layout := ⟨2 ^ 62, 1⟩

/-- What an allocation of the whole device returns when it goes on alone. -/
def wholeDevice (c : SysConf) (p : Proc (Res (Int × Int))) : Option (Res (Int × Int)) :=
  (p.exec (exec wideDevice) c.shared { hist := { call := .allocateSegment (2 ^ 62) } }).map
    (fun x => x.2.2)

/-- **A segment of `2 ^ 62` bytes is too wide.**  After an allocation of the whole device, a second
is still a proper call.  The sum in its check is `2 ^ 63`, which wraps, and the source hands out
the bytes behind the device. -/
theorem wide_segment_overflows : ∃ c : SysConf,
    wideDevice.Regular ∧
    (machine wideDevice).Along (properCalls wideDevice).Admits (SysConf.init (fun _ => 0) [] [])
      (Act.calls (.allocateSegment (2 ^ 62)) 0 7) ∧
    (machine wideDevice).run (SysConf.init (fun _ => 0) [] [])
      (Act.calls (.allocateSegment (2 ^ 62)) 0 7) = some c ∧
    Call.Proper wideDevice (.allocateSegment (2 ^ 62)) ∧ ¬ SumsExact wideDevice c ∧
    wholeDevice c (allocFrom64 wideDevice (2 ^ 62) false c.shared.alloc) = some (.ok (0, 2 ^ 62)) ∧
    ¬ wideDevice.Fits (align4k (2 ^ 62)) (0, 2 ^ 62) := by
  obtain ⟨c, hc, hv⟩ := Option.map_eq_some_iff.mp
    (show ((machine wideDevice).run (SysConf.init (fun _ => 0) [] [])
      (Act.calls (.allocateSegment (2 ^ 62)) 0 7)).map (fun c =>
        (wholeDevice c (allocFrom64 wideDevice (2 ^ 62) false c.shared.alloc),
          wholeDevice c (allocFrom wideDevice (2 ^ 62) false c.shared.alloc)))
      = some (some (.ok (0, 2 ^ 62)), some (.error .noSpace)) by decide +kernel)
  obtain ⟨hwords, hints⟩ := Prod.mk.inj hv
  refine ⟨c, ?_, by decide +kernel, hc, by decide, ?_, hwords, ?_⟩
  · constructor <;> decide
  · intro hexact
    rw [hexact (2 ^ 62) false (by decide) (by decide), hints] at hwords
    cases hwords
  · intro hfit
    exact absurd hfit.within (by decide)

end Taihu
