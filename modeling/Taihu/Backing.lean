/-
# What a put commits it has allocated

A put allocates an extent, writes it, and commits a mapping of it.  The history of the thread keeps
the extents that it has OPEN, and of each whether its allocation is durable; the batch that it fills
has the mappings that it is about to commit.  A call is BACKED if every mapping that it adds to its
batch is of an extent that it has open, durably, and that no other mapping of the batch is of.

Puts, batches of puts, the write pipeline and compaction are backed on every path
(`code_backed`): they commit what their own allocation has returned, and only after the cursor
behind it has been written.  The calls that commit a mapping their caller supplies are left out.

Extents are counted: two empty ones may have the same span.
-/
import Taihu.Duty

namespace Taihu

open Concur Program

variable {L : Layout} {s s' : Sys} {l l' : Local} {D E : Multiset Span} {α β : Type}

/-! ## 1. The extents of a thread -/

/-- The extents a thread has open. -/
def Local.extents (l : Local) : Multiset Span := Multiset.ofList (l.hist.opens.map Opened.span)

/-- Those whose allocation is durable. -/
def Local.durables (l : Local) : Multiset Span :=
  Multiset.ofList ((l.hist.opens.filter Opened.durable).map Opened.span)

/-- The extents of the mappings in its batch. -/
def Local.staged (l : Local) : Multiset Span := Multiset.ofList (Batch.spans l.batch)

theorem durables_le_extents (l : Local) : l.durables ≤ l.extents :=
  Multiset.coe_le.mpr (List.filter_sublist.map Opened.span).subperm

/-- Only `take` and `Apply` change what a thread has open. -/
theorem extents_same {o : Op} {r : o.Reply} (h : exec L s l o = some (s', l', r))
    (ha : o ≠ .pebble .apply) (ht : ∀ n, o ≠ .alloc (.take n)) : l'.extents = l.extents := by
  unfold Local.extents
  rcases opens_cases h with heq | ⟨n, rfl, -⟩ | ⟨seg, off, -, heq⟩ | ⟨seg, off, block, -, heq⟩ | ⟨rfl, -⟩
  · rw [heq]
  · exact absurd rfl (ht n)
  · rw [heq, List.map_map]
    rfl
  · rw [heq, List.map_map]
    simp [Function.comp_def]
  · exact absurd rfl ha

/-- Only `persist` and `Apply` change what it has durably. -/
theorem durables_same {o : Op} {r : o.Reply} (h : exec L s l o = some (s', l', r))
    (ha : o ≠ .pebble .apply) (hp : ∀ seg off, o ≠ .alloc (.persist seg off)) :
    l'.durables = l.durables := by
  have hdur : ∀ (seg off : Int) (block : Bytes) (x : Opened),
      (x.extend seg off block).durable = x.durable := by
    intro seg off block x
    unfold Opened.extend
    split <;> rfl
  unfold Local.durables
  rcases opens_cases h with heq | ⟨n, -, heq⟩ | ⟨seg, off, rfl, -⟩ | ⟨seg, off, block, -, heq⟩ | ⟨rfl, -⟩
  · rw [heq]
  · rw [heq]
    rfl
  · exact absurd rfl (hp seg off)
  · rw [heq]
    simp [List.filter_map, Function.comp_def, hdur]
  · exact absurd rfl ha

theorem extents_take {n : Int} {x : Int × Int} (h : exec L s l (.alloc (.take n)) = some (s', l', x)) :
    l'.extents = ⟨x.1, x.2, n⟩ ::ₘ l.extents := by
  obtain ⟨-, rfl⟩ := exec_allocOp h
  rfl

/-- Once the cursor is written, all extents are durable. -/
theorem durables_persist {seg off : Int}
    (h : exec L s l (.alloc (.persist seg off)) = some (s', l', true)) : l'.durables = l.extents := by
  obtain ⟨-, rfl⟩ := exec_allocOp h
  unfold Local.durables Local.extents
  simp [AllocOp.note, List.filter_map, Function.comp_def]

/-- An operation but `Apply` gives up no extent. -/
theorem extents_grow {o : Op} {r : o.Reply} (h : exec L s l o = some (s', l', r))
    (ho : o ≠ .pebble .apply) : l.extents ≤ l'.extents ∧ l.durables ≤ l'.durables := by
  constructor
  · by_cases ht : ∃ n, o = .alloc (.take n)
    · obtain ⟨n, rfl⟩ := ht
      rw [extents_take h]
      exact Multiset.le_cons_self _ _
    · exact le_of_eq (extents_same h ho fun n he => ht ⟨n, he⟩).symm
  · by_cases hp : ∃ seg off, o = .alloc (.persist seg off)
    · obtain ⟨seg, off, rfl⟩ := hp
      cases r with
      | true =>
        rw [durables_persist h]
        exact durables_le_extents l
      | false =>
        obtain ⟨-, rfl⟩ := exec_allocOp h
        exact le_refl _
    · exact le_of_eq (durables_same h ho fun seg off he => hp ⟨seg, off, he⟩).symm

/-! ## 2. The contract -/

/-- What a thread owes: a mapping it adds to its batch is backed. -/
def Op.Backed (l : Local) : Op → Prop
  | .segs (.putObjectLocked _ md _ _) => md.span ::ₘ l.staged ≤ l.durables
  | _ => True

/-- The contract: whatever the operations may do. -/
def backing (L : Layout) : Contract sig Local := (machine L).under (fun o l => o.Backed l) (fun _ _ _ => True)

/-- Operations that leave the batch alone, and are backed for that reason. -/
theorem backed_of_batches {o : Op} (ho : o.Batches = false) (l : Local) : o.Backed l := by
  cases o with
  | segs o =>
    cases o with
    | putObjectLocked key md old v => exact absurd ho (by simp [Op.Batches])
    | _ => exact True.intro
  | _ => exact True.intro

/-- The batch is empty, and the thread has durable extents `D` and open extents `E`. -/
structure Local.Has (D E : Multiset Span) (l : Local) : Prop where
  idle : l.batch = []
  durable : D ≤ l.durables
  opened : E ≤ l.extents

theorem Local.Has.of_durable (hb : l.batch = []) (h : D ≤ l.durables) : l.Has D D :=
  ⟨hb, h, h.trans (durables_le_extents l)⟩

theorem has_zero (hb : l.batch = []) : l.Has 0 0 := .of_durable hb (Multiset.zero_le _)

theorem Local.Has.mono {D' E' : Multiset Span} (h : l.Has D E) (hd : D' ≤ D) (he : E' ≤ E) :
    l.Has D' E' := ⟨h.idle, hd.trans h.durable, he.trans h.opened⟩

/-- An operation that leaves the batch alone. -/
theorem Local.Has.step (h : l.Has D E) {o : Op} {r : o.Reply} (ho : o.Batches = false)
    (hx : exec L s l o = some (s', l', r)) : l'.Has D E := by
  have happly : o ≠ .pebble .apply := fun he => absurd ho (by rw [he]; decide)
  obtain ⟨he, hd⟩ := extents_grow hx happly
  exact ⟨(exec_batch hx ho).trans h.idle, h.durable.trans hd, h.opened.trans he⟩

theorem Local.Has.take (h : l.Has D E) {n : Int} {x : Int × Int}
    (hx : exec L s l (.alloc (.take n)) = some (s', l', x)) : l'.Has D (⟨x.1, x.2, n⟩ ::ₘ E) := by
  have hstep := h.step rfl hx
  refine ⟨hstep.idle, hstep.durable, ?_⟩
  rw [extents_take hx]
  exact Multiset.cons_le_cons _ h.opened

theorem Local.Has.persist (h : l.Has D E) {seg off : Int} {ok : Bool}
    (hx : exec L s l (.alloc (.persist seg off)) = some (s', l', ok)) :
    l'.Has (if ok then E else D) E := by
  have hstep := h.step rfl hx
  cases ok with
  | false => exact hstep
  | true =>
    refine ⟨hstep.idle, ?_, hstep.opened⟩
    rw [durables_persist hx]
    exact h.opened

theorem keeps_has {p : Proc α} (hu : Uses (fun o : Op => o.Batches = false) p) (h : l.Has D E) :
    Keeps (backing L) (fun _ l' => l'.Has D E) p l :=
  hu.keeps h fun _ l1 ho h1 => ⟨backed_of_batches ho l1, fun _ _ ⟨_, _, _, hx⟩ => h1.step ho hx⟩

theorem keeps_has_quiet {p : Proc α} (hu : Uses Op.Quiet p) (h : l.Has D E) :
    Keeps (backing L) (fun _ l' => l'.Has D E) p l :=
  keeps_has (hu.mono fun _ ho => ho.plain.calm.batches) h

theorem keeps_has_plain {p : Proc α} (hu : Uses Op.Plain p) (h : l.Has D E) :
    Keeps (backing L) (fun _ l' => l'.Has D E) p l :=
  keeps_has (hu.mono fun _ ho => ho.calm.batches) h

/-! ## 3. Allocations -/

/-- The extent an allocation of `size` bytes has returned. -/
def spanOf (size : Int) (x : Int × Int) : Span := ⟨x.1, x.2, align4k size⟩

/-- What a thread has after an allocation: durable extents `D`, and open extents `E` besides those
it got. -/
def Allocated (got : β → Multiset Span) (D E : Multiset Span) : Res β → Local → Prop
  | .error _, l => l.Has D E
  | .ok x, l => l.Has D (got x + E)

theorem backed_allocOneLocked (size : Int) (useReserve : Bool) (h : l.Has D E) :
    Keeps (backing L) (Allocated (fun x => {spanOf size x}) D E) (allocOneLocked L size useReserve) l := by
  refine keeps_step True.intro fun _ _ a l1 _ h1 => ?_
  have hroll : Uses (fun o : Op => o.Batches = false) (if a.curOff + align4k size > L.segmentSizeBytes
      then rollSegment L a useReserve else (Pure.pure (.ok ()) : Proc (Res Unit))) :=
    .ite ((calm_rollSegment a useReserve).mono fun _ ho => ho.batches) True.intro
  refine (keeps_has hroll (h.step rfl h1)).bind fun r l2 h2 => ?_
  cases r with
  | error e => exact h2
  | ok u =>
    refine keeps_step True.intro fun _ _ x l3 _ h3 => ?_
    exact h2.take h3

/-- The end of an allocation that has failed. -/
theorem backed_giveUp {a : α} {post : α → Local → Prop} (h : l.Has D E)
    (hpost : ∀ l' : Local, l'.Has D D → post a l') :
    Keeps (backing L) post (allocUnlock >>= fun _ => (Pure.pure a : Proc α)) l := by
  refine keeps_step True.intro fun _ _ _ l1 _ h1 => hpost l1 ?_
  have hstep := h.step rfl h1
  exact .of_durable hstep.idle hstep.durable

/-- What a call has after an allocation that has returned: all it got is durable. -/
def Granted (got : β → Multiset Span) (D : Multiset Span) : Res β → Local → Prop
  | .error _, l => l.Has D D
  | .ok x, l => l.Has (got x + D) (got x + D)

theorem mem_singleton_add (a : Span) (D : Multiset Span) : a ∈ {a} + D :=
  Multiset.mem_add.mpr (Or.inl (Multiset.mem_singleton_self a))

/-- The cursor write at the end of an allocation. -/
theorem backed_persist {x : β} {got : β → Multiset Span} {seg : Allocator → Int} (h : l.Has D (got x + D)) :
    Keeps (backing L) (Granted got D)
      (allocator >>= fun a => persistCursor (seg a) a.curOff >>= fun ok =>
        allocUnlock >>= fun _ => if ok then (Pure.pure (.ok x) : Proc (Res β))
          else Pure.pure (.error .io)) l := by
  refine keeps_step True.intro fun _ _ a l1 _ h1 => ?_
  refine keeps_step True.intro fun _ _ ok l2 _ h2 => ?_
  refine keeps_step True.intro fun _ _ _ l3 _ h3 => ?_
  have hlast := ((h.step rfl h1).persist h2).step rfl h3
  cases ok with
  | true => exact .of_durable hlast.idle hlast.durable
  | false => exact .of_durable hlast.idle hlast.durable

theorem backed_allocate (size : Int) (useReserve : Bool) (h : l.Has D D) :
    Keeps (backing L) (Granted (fun x => {spanOf size x}) D) (allocate L size useReserve) l := by
  refine keeps_step True.intro fun _ _ _ l1 _ h1 => keeps_step True.intro fun _ _ _ l2 _ h2 => ?_
  refine (backed_allocOneLocked size useReserve ((h.step rfl h1).step rfl h2)).bind fun r l3 h3 => ?_
  cases r with
  | error e => exact backed_giveUp h3 fun _ h4 => h4
  | ok x => exact backed_persist h3

/-- The extents a batch allocation has returned, one for each size. -/
def spansOf (sizes : List Int) (xs : List (Int × Int)) : Multiset Span :=
  Multiset.ofList ((sizes.zip xs).map (fun y => spanOf y.1 y.2))

theorem backed_allocBatchLoop (sizes : List Int) : ∀ {l : Local} {E : Multiset Span}, l.Has D E →
    Keeps (backing L) (Allocated (spansOf sizes) D E) (allocBatchLoop L sizes) l := by
  induction sizes with
  | nil =>
    intro l E h
    exact h.mono (le_refl _) (by simp [spansOf])
  | cons size sizes ih =>
    intro l E h
    refine (backed_allocOneLocked size false h).bind fun r l1 h1 => ?_
    cases r with
    | error e => exact h1
    | ok x =>
      refine (ih h1).bind fun rs l2 h2 => ?_
      cases rs with
      | error e => exact Local.Has.mono h2 (le_refl _) (Multiset.le_add_left _ _)
      | ok xs =>
        refine Local.Has.mono h2 (le_refl _) (le_of_eq ?_)
        show spansOf (size :: sizes) (x :: xs) + E = spansOf sizes xs + ({spanOf size x} + E)
        rw [← add_assoc, add_comm (spansOf sizes xs)]
        rfl

theorem backed_allocateSegmentBatch (sizes : List Int) (h : l.Has D D) :
    Keeps (backing L) (Granted (spansOf sizes) D) (allocateSegmentBatch L sizes) l := by
  refine keeps_step True.intro fun _ _ _ l1 _ h1 => keeps_step True.intro fun _ _ _ l2 _ h2 => ?_
  refine (backed_allocBatchLoop sizes ((h.step rfl h1).step rfl h2)).bind fun r l3 h3 => ?_
  cases r with
  | error e => exact backed_giveUp h3 fun _ h4 => h4
  | ok xs =>
    refine Keeps.ite (fun he => ?_) (fun _ => backed_persist h3)
    refine backed_giveUp h3 fun l4 h4 => ?_
    subst he
    exact h4.mono (by simp [spansOf]) (by simp [spansOf])

/-! ## 4. Commits -/

theorem Batch.spans_append (b b' : Batch) : (b ++ b').spans = b.spans ++ b'.spans :=
  List.filterMap_append

theorem Batch.spans_records (xs : List (Int × SegmentMeta)) : Batch.spans (records xs) = [] := by
  induction xs with
  | nil => rfl
  | cons x xs ih => exact ih

theorem SegmentManager.putObjectLocked_spans (m : SegmentManager) (b : Batch) (key : Key)
    (md : ObjectMeta) (old : Option ObjectMeta) :
    Batch.spans (m.putObjectLocked b key md old).1 = Batch.spans b ++ [md.span] := by
  obtain ⟨sm, xs, h⟩ := m.putObjectLocked_fst b key md old
  rw [h, Batch.spans_append, Batch.spans_append, Batch.spans_records]
  rfl

theorem SegmentManager.delObjectLocked_spans (m : SegmentManager) (b : Batch) (key : Key)
    (md : ObjectMeta) : Batch.spans (m.delObjectLocked b key md).1 = Batch.spans b := by
  obtain ⟨xs, h⟩ := m.delObjectLocked_fst b key md
  rw [h, Batch.spans_append]
  show Batch.spans b ++ Batch.spans (Batch.records xs) = Batch.spans b
  rw [Batch.spans_records, List.append_nil]

theorem staged_put {key : Key} {md : ObjectMeta} {old : Option ObjectMeta} {v : Option Bytes}
    {r : Unit} (h : exec L s l (.segs (.putObjectLocked key md old v)) = some (s', l', r)) :
    l'.staged = md.span ::ₘ l.staged := by
  obtain ⟨-, rfl⟩ := exec_putObjectLocked h
  unfold Local.staged
  rw [SegmentManager.putObjectLocked_spans, ← Multiset.coe_add, add_comm]
  rfl

theorem staged_of_empty (h : l.batch = []) : l.staged = 0 := by
  rw [Local.staged, h]
  rfl

/-- One mapping of an extent the thread has durably. -/
theorem Local.Has.backed (h : l.Has D E) {md : ObjectMeta} (hmd : md.span ∈ D) :
    md.span ::ₘ l.staged ≤ l.durables := by
  rw [staged_of_empty h.idle]
  exact (Multiset.singleton_le.mpr hmd).trans h.durable

theorem backed_apply : Keeps (backing L) (fun _ l' => l'.Has 0 0) apply l := by
  refine keeps_last True.intro fun _ _ ok l1 _ h1 => ?_
  obtain ⟨fs, rfl, -⟩ := exec_apply h1
  exact has_zero rfl

theorem backed_putObject {key : Key} {md : ObjectMeta} {old : Option ObjectMeta} {v : Option Bytes}
    (h : l.Has D E) (hmd : md.span ∈ D) :
    Keeps (backing L) (fun _ l' => l'.Has 0 0) (putObject key md old v) l := by
  refine keeps_step True.intro fun _ _ _ l1 _ h1 => ?_
  refine keeps_step ((h.step rfl h1).backed hmd) fun _ _ _ l2 _ _ => ?_
  exact keeps_step True.intro fun _ _ _ l3 _ _ => backed_apply

theorem backed_putMapping (key : Key) {md : ObjectMeta} (v : Option Bytes) (h : l.Has D E)
    (hmd : md.span ∈ D) : Keeps (backing L) (fun _ l' => l'.Has 0 0) (putMapping key md v) l := by
  refine Keeps.bind (m := fun _ l1 => l1.Has D E) ?_ fun old l1 h1 => ?_
  · refine keeps_has_quiet (.step True.intro fun r => ?_) h
    cases r with
    | some om => exact True.intro
    | none => exact ⟨True.intro, fun _ => True.intro⟩
  · refine (backed_putObject h1 hmd).bind fun ok l2 h2 => ?_
    cases ok with
    | true => exact keeps_step True.intro fun _ _ _ l3 _ h3 => h2.step rfl h3
    | false => exact h2

theorem backed_moveMapping (key : Key) {old new : ObjectMeta} (h : l.Has D E) (hnew : new.span ∈ D) :
    Keeps (backing L) (fun _ l' => l'.Has 0 0) (moveMapping key old new) l := by
  refine keeps_step True.intro fun _ _ _ l1 _ h1 => ?_
  refine keeps_step True.intro fun _ _ cur l2 _ h2 => ?_
  have hhas := (h.step rfl h1).step rfl h2
  refine Keeps.ite (fun _ => ?_) (fun _ => ?_)
  · refine keeps_step (hhas.backed hnew) fun _ _ _ l3 _ _ => ?_
    refine backed_apply.bind fun ok l4 h4 => ?_
    cases ok with
    | true =>
      exact keeps_step True.intro fun _ _ _ l5 _ h5 =>
        keeps_step True.intro fun _ _ _ l6 _ h6 => (h4.step rfl h5).step rfl h6
    | false => exact keeps_step True.intro fun _ _ _ l5 _ h5 => h4.step rfl h5
  · exact keeps_step True.intro fun _ _ _ l3 _ h3 => has_zero ((hhas.step rfl h3).idle)

/-- The extents of the mappings a batch is to commit. -/
def spansOfItems (items : List PutMappingItem) : Multiset Span :=
  Multiset.ofList (items.map (fun it => it.md.span))

theorem backed_batchPutLocked (items : List PutMappingItem) : ∀ {l : Local},
    spansOfItems items + l.staged ≤ l.durables →
      Keeps (backing L) (fun _ _ => True) (batchPutLocked items) l := by
  induction items with
  | nil => exact fun _ => True.intro
  | cons it items ih =>
    intro l h
    refine keeps_step True.intro fun _ _ old l1 _ h1 => ?_
    have hstaged : l1.staged = l.staged := by
      unfold Local.staged
      rw [exec_batch h1 rfl]
    have hcons : it.md.span ::ₘ (spansOfItems items + l1.staged) ≤ l1.durables := by
      rw [hstaged]
      exact h.trans (extents_grow h1 (by simp)).2
    refine keeps_step ?_ fun _ _ _ l2 _ h2 => ih ?_
    · exact (Multiset.cons_le_cons _ (Multiset.le_add_left _ _)).trans hcons
    · rw [staged_put h2, Multiset.add_cons]
      exact hcons.trans (extents_grow h2 (by simp)).2

theorem backed_batchPutMapping (items : List PutMappingItem) (h : l.Has (spansOfItems items) E) :
    Keeps (backing L) (fun _ l' => l'.Has 0 0) (batchPutMapping items) l := by
  refine Keeps.ite (fun _ => has_zero h.idle) (fun _ => ?_)
  refine keeps_step True.intro fun _ _ _ l1 _ h1 => ?_
  have hhas := h.step rfl h1
  have hdur : spansOfItems items + l1.staged ≤ l1.durables := by
    rw [staged_of_empty hhas.idle, add_zero]
    exact hhas.durable
  refine (backed_batchPutLocked items hdur).bind fun _ l2 _ => ?_
  refine keeps_step True.intro fun _ _ _ l3 _ _ => backed_apply.bind fun ok l4 h4 => ?_
  cases ok with
  | true => exact (keeps_has_quiet (quiet_cachePutAll _) h4).bind fun _ _ h5 => h5
  | false => exact h4

/-! ## 5. Calls -/

theorem backed_putBegin (size : Int) (h : l.Has D D) :
    Keeps (backing L) (Granted (fun x => {spanOf size x}) D) (putBegin L size) l := by
  unfold putBegin
  split
  · exact h
  · split
    · exact h
    · exact backed_allocate size false h

theorem backed_put (key : Key) (size : Int) (data : Bytes) (h : l.Has 0 0) :
    Keeps (backing L) (fun _ _ => True) (put L key size data) l := by
  refine (backed_putBegin size h).bind fun r l1 h1 => ?_
  cases r with
  | error e => exact True.intro
  | ok x =>
    refine Keeps.bind (keeps_has_plain (.ite ?_ True.intro) h1) fun r l2 h2 => ?_
    · unfold putAppend
      exact .ite True.intro (plain_devAppend _ _ _ _)
    · cases r with
      | error e => exact True.intro
      | ok u =>
        exact (backed_putMapping key _ h2 (mem_singleton_add _ _)).mono fun _ _ _ => True.intro

/-- The extents of a batch of puts. -/
theorem spansOfItems_commitsOf (xs : List (PutItem × (Int × Int))) :
    spansOfItems (commitsOf xs) = Multiset.ofList (xs.map (fun x => spanOf x.1.size x.2)) := by
  unfold spansOfItems commitsOf
  rw [List.map_map]
  rfl

theorem backed_writeAndCommit (xs : List (PutItem × (Int × Int)))
    (h : l.Has (Multiset.ofList (xs.map (fun x => spanOf x.1.size x.2))) E) :
    Keeps (backing L) (fun _ _ => True) (writeAndCommit L xs) l := by
  refine (keeps_has_plain (plain_devAppendBatch _) h).bind fun r l1 h1 => ?_
  cases r with
  | error e => exact True.intro
  | ok u =>
    rw [← spansOfItems_commitsOf] at h1
    exact (backed_batchPutMapping _ h1).mono fun _ _ _ => True.intro

theorem backed_batchPut (items : List PutItem) (h : l.Has 0 0) :
    Keeps (backing L) (fun _ _ => True) (batchPut L items) l := by
  refine Keeps.ite (fun _ => True.intro) (fun _ => ?_)
  split
  · exact True.intro
  · refine (backed_allocateSegmentBatch _ h).bind fun r l1 h1 => ?_
    cases r with
    | error e => exact True.intro
    | ok exts =>
      refine backed_writeAndCommit (E := 0) _ (h1.mono (le_of_eq ?_) (Multiset.zero_le _))
      show _ = spansOf (items.map PutItem.size) exts + 0
      rw [add_zero, spansOf, List.zip_map_left, List.map_map]
      rfl

theorem backed_pipelineBegin (items : List PutItem) : ∀ {l : Local} {D : Multiset Span}, l.Has D D →
    Keeps (backing L) (Granted (fun xs => Multiset.ofList (xs.map (fun x => spanOf x.1.size x.2))) D)
      (pipelineBegin L items) l := by
  induction items with
  | nil =>
    intro l D h
    exact h.mono (by simp) (by simp)
  | cons it items ih =>
    intro l D h
    refine (backed_putBegin it.size h).bind fun r l1 h1 => ?_
    cases r with
    | error e => exact h1
    | ok x =>
      refine (ih h1).bind fun rs l2 h2 => ?_
      cases rs with
      | error e => exact Local.Has.mono h2 (Multiset.le_add_left _ _) (Multiset.le_add_left _ _)
      | ok xs =>
        have heq : Multiset.ofList (((it, x) :: xs).map (fun x => spanOf x.1.size x.2)) + D
            = Multiset.ofList (xs.map (fun x => spanOf x.1.size x.2)) + ({spanOf it.size x} + D) := by
          rw [← add_assoc, add_comm (Multiset.ofList (xs.map _))]
          rfl
        exact Local.Has.mono h2 (le_of_eq heq) (le_of_eq heq)

theorem backed_pipelinePut (items : List PutItem) (h : l.Has 0 0) :
    Keeps (backing L) (fun _ _ => True) (pipelinePut L items) l := by
  refine (backed_pipelineBegin items h).bind fun r l1 h1 => ?_
  cases r with
  | error e => exact True.intro
  | ok xs =>
    exact backed_writeAndCommit (E := 0) _ (h1.mono (Multiset.le_add_right _ _) (Multiset.zero_le _))

theorem backed_moveObject (key : Key) (h : l.Has 0 0) :
    Keeps (backing L) (fun _ l' => l'.Has 0 0) (moveObject L key) l := by
  refine (keeps_has_quiet (quiet_getMapping key) h).bind fun r l1 h1 => ?_
  split
  · exact h1
  · exact h1
  · refine (keeps_has_quiet (quiet_readAt _ _ _) h1).bind fun r l2 h2 => ?_
    split
    · exact h2
    · exact h2
    · refine Keeps.ite (fun _ => h2) (fun _ => ?_)
      refine (backed_allocate _ true h2).bind fun r l3 h3 => ?_
      cases r with
      | error e => exact h3
      | ok x =>
        refine (keeps_has_plain (plain_devAppend _ _ _ _) h3).bind fun r l4 h4 => ?_
        cases r with
        | error e => exact has_zero h4.idle
        | ok u =>
          refine (backed_moveMapping key h4 (mem_singleton_add _ _)).bind fun r l5 h5 => ?_
          cases r <;> exact h5

theorem Op.Scans.batches {o : Op} (h : o.Scans) : o.Batches = false := by
  cases o with
  | pebble o => cases o <;> first | rfl | exact absurd h id
  | segs o => cases o <;> first | rfl | exact absurd h id
  | _ => rfl

theorem backed_compactOnce (cfg : CompactorConfig) (order : List Int) (h : l.Has 0 0) :
    Keeps (backing L) (fun _ l' => l'.Has 0 0) (compactOnce L cfg order) l :=
  keeps_compactOnce (fun key _ => backed_moveObject key)
    (fun _ l1 ho h1 => ⟨backed_of_batches ho.batches l1, fun _ _ ⟨_, _, _, hx⟩ => h1.step ho.batches hx⟩)
    cfg order h

/-- Operations that add no mapping to a batch. -/
def Op.Mapless : Op → Prop
  | .segs (.putObjectLocked _ _ _ _) => False
  | _ => True

theorem keeps_mapless {p : Proc α} (hu : Uses Op.Mapless p) (l : Local) :
    Keeps (backing L) (fun _ _ => True) p l := by
  refine hu.keeps (I := fun _ => True) True.intro fun o l1 ho _ => ⟨?_, fun _ _ _ => True.intro⟩
  cases o with
  | segs o =>
    cases o with
    | putObjectLocked key md old v => exact absurd ho id
    | _ => exact True.intro
  | _ => exact True.intro

theorem Op.Quiet.mapless {o : Op} (h : o.Quiet) : o.Mapless := by
  cases o with
  | segs o => cases o <;> first | exact True.intro | exact absurd h id
  | _ => exact True.intro

theorem mapless_deleteMapping (key : Key) : Uses Op.Mapless (deleteMapping key) := by
  refine ((quiet_getMapping key).mono fun _ h => h.mapless).bind fun r => ?_
  cases r with
  | error e => exact True.intro
  | ok old =>
    refine ⟨True.intro, fun _ => ⟨True.intro, fun _ => ⟨True.intro, fun _ => .step True.intro
      fun ok => ?_⟩⟩⟩
    cases ok with
    | true => exact ⟨True.intro, fun _ => True.intro⟩
    | false => exact True.intro

theorem mapless_cacheDelAll (keys : List Key) : Uses Op.Mapless (cacheDelAll keys) := by
  induction keys with
  | nil => exact True.intro
  | cons key keys ih => exact ⟨True.intro, fun _ => ih⟩

theorem mapless_batchDeleteLocked (dels : List (Key × ObjectMeta)) :
    Uses Op.Mapless (batchDeleteLocked dels) := by
  induction dels with
  | nil => exact True.intro
  | cons x dels ih => exact ⟨True.intro, fun _ => ih⟩

theorem mapless_batchDeleteMapping (keys : List Key) :
    Uses Op.Mapless (batchDeleteMapping keys) := by
  refine ((quiet_batchDeleteLookup keys).mono fun _ h => h.mapless).bind fun found => ?_
  refine Uses.ite True.intro ⟨True.intro, fun _ => (mapless_batchDeleteLocked _).bind fun _ =>
    ⟨True.intro, fun _ => .step True.intro fun ok => ?_⟩⟩
  cases ok with
  | true => exact (mapless_cacheDelAll _).bind fun _ => True.intro
  | false => exact True.intro

/-- The call commits a mapping that its caller supplies. -/
def Call.supplied : Call → Bool
  | .putMapping _ _ => true
  | .moveMapping _ _ _ => true
  | .batchPutMapping _ => true
  | _ => false

/-- **What a call commits it has allocated.** -/
theorem code_backed (L : Layout) {call : Call} (hs : call.supplied = false) (l : Local)
    (hl : l.batch = []) : Keeps (backing L) (fun _ _ => True) (code L call) l := by
  have h := has_zero hl
  have hmap : ∀ {α β : Type} {p : Proc α} {f : α → β} {post : α → Local → Prop},
      Keeps (backing L) post p l →
        Keeps (backing L) (fun _ _ => True) (p >>= fun a => Pure.pure (f a)) l :=
    fun hp => hp.bind fun _ _ _ => True.intro
  have hquiet : ∀ {α β : Type} {p : Proc α} {f : α → β}, Uses Op.Quiet p →
      Keeps (backing L) (fun _ _ => True) (p >>= fun a => Pure.pure (f a)) l :=
    fun hu => hmap (keeps_has_quiet hu h)
  cases call with
  | getMapping key => exact hquiet (quiet_getMapping key)
  | getMappingRef key => exact hquiet (quiet_getMappingRef key)
  | putMapping key md => exact absurd hs (by simp [Call.supplied])
  | deleteMapping key => exact hmap (keeps_mapless (mapless_deleteMapping key) l)
  | moveMapping key old new => exact absurd hs (by simp [Call.supplied])
  | batchGetMapping keys order => exact hquiet (quiet_batchGetMapping keys order)
  | batchPutMapping items => exact absurd hs (by simp [Call.supplied])
  | batchDeleteMapping keys => exact hmap (keeps_mapless (mapless_batchDeleteMapping keys) l)
  | loadCache => exact hquiet quiet_loadCache
  | allocateSegment size => exact hmap (backed_allocate size false h)
  | allocateSegmentReserve size => exact hmap (backed_allocate size true h)
  | allocateSegmentBatch sizes => exact hmap (backed_allocateSegmentBatch sizes h)
  | markCompacting id => exact hquiet (quiet_markCompacting id)
  | reclaimOnce order => exact hquiet (quiet_reclaimOnce order)
  | put key size data => exact hmap (backed_put key size data h)
  | batchPut items => exact hmap (backed_batchPut items h)
  | pipelinePut items => exact hmap (backed_pipelinePut items h)
  | stat key => exact hquiet (quiet_stat key)
  | readAt key off size => exact hquiet (quiet_readAt key off size)
  | asyncGet key off =>
    refine (keeps_has_quiet (quiet_asyncGet key off) h).bind fun r _ _ => ?_
    cases r <;> exact True.intro
  | batchRead blocks order => exact hquiet (quiet_batchRead blocks order)
  | moveObject key => exact hmap (backed_moveObject key h)
  | compactOnce cfg order => exact (backed_compactOnce cfg order h).bind fun _ _ _ => True.intro

end Taihu
