/-
# No extent is handed out twice

An extent is IN USE while a committed mapping has it, and from its allocation on while the call
that allocated it may still commit it.  The invariant of this module says that the extents in use
are disjoint, that those in the segment of the cursor end before the cursor, and that no
allocation can come to a segment that is OCCUPIED: one with an extent in use, the one under the
cursor, the one under the cursor as it is recorded, and one that an allocation has made `Active`
and is rolling to.

Every extent is taken at the cursor.  A roll goes to a segment that is `Free` or has no record,
and that is not occupied; after a reopen the cursor is where it was last recorded, and only what
was in use durably, behind that, can be a committed mapping.

`reclaimOnce` goes by the alive count, which counts committed mappings, one for each put less one
for each delete.  It can free a segment in which a put is still writing, or the one under the
cursor, or one with a live mapping if a delete has been counted twice.  The result is about the runs
in which it frees no occupied segment and no object leaves a `Free` one; `open_extent_taken` is a run
in which an extent is handed out twice.
-/
import Taihu.SegmentStates
import Taihu.Reclamation
import Taihu.FailedAllocation
import Taihu.Backing
import Taihu.Lib.Bump

namespace Taihu

open Concur

/-! ## 1. The extents in use -/

/-- The extents of the committed mappings. -/
def Disk.spans (d : Disk) : Multiset Span :=
  Multiset.ofList (d.mapping.entries.map (fun x => x.2.span))

namespace Disk

theorem spans_congr {d d' : Disk} (h : d'.mapping = d.mapping) : d'.spans = d.spans := by
  unfold spans
  rw [h]

theorem mem_spans {d : Disk} {key : Key} {md : ObjectMeta} (h : d.mapping.find? key = some md) :
    md.span ∈ d.spans :=
  Multiset.mem_coe.mpr (List.mem_map.mpr ⟨(key, md), SortedMap.mem_entries.mpr h, rfl⟩)

theorem spans_applyOp (d : Disk) (o : BatchOp) :
    (d.applyOp o).spans ≤ Multiset.ofList (Batch.spans [o]) + d.spans := by
  cases o with
  | setMapping key md =>
    have hle := Multiset.coe_le.mpr (d.mapping.entries_insert_subperm key md)
    exact Multiset.map_le_map (f := fun x => x.2.span) hle
  | delMapping key =>
    have hle := Multiset.coe_le.mpr (d.mapping.entries_erase_subperm key)
    exact (Multiset.map_le_map (f := fun x => x.2.span) hle).trans (Multiset.le_add_left _ _)
  | setSegment id md => exact Multiset.le_add_left _ _

/-- A batch adds to the extents in use those of its mappings. -/
theorem spans_apply (b : Batch) : ∀ d : Disk, (d.apply b).spans ≤ Multiset.ofList b.spans + d.spans := by
  induction b with
  | nil => exact fun d => Multiset.le_add_left _ _
  | cons o b ih =>
    intro d
    have hcons : Multiset.ofList (Batch.spans (o :: b))
        = Multiset.ofList (Batch.spans [o]) + Multiset.ofList (Batch.spans b) := by
      rw [Multiset.coe_add, ← Batch.spans_append]
      rfl
    rw [apply_cons, hcons, add_comm (Multiset.ofList (Batch.spans [o])), add_assoc]
    exact (ih _).trans (add_le_add_right (spans_applyOp d o) _)

end Disk

variable {L : Layout} {s s' : Sys} {l l' : Local} {ls ls' rest : List Local}

/-- Every extent in use: of a committed mapping, or open in a call. -/
def Sys.taken (s : Sys) (ls : List Local) : Multiset Span :=
  s.db.disk.spans + (ls.map Local.extents).sum

/-- The extents that are in use durably: of the open ones, those whose allocation is. -/
def Sys.takenDurably (s : Sys) (ls : List Local) : Multiset Span :=
  s.db.disk.spans + (ls.map Local.durables).sum

theorem taken_cons (s : Sys) (l : Local) (rest : List Local) :
    s.taken (l :: rest) = s.db.disk.spans + (l.extents + (rest.map Local.extents).sum) := by
  rw [Sys.taken, List.map_cons, List.sum_cons]

theorem takenDurably_cons (s : Sys) (l : Local) (rest : List Local) :
    s.takenDurably (l :: rest) = s.db.disk.spans + (l.durables + (rest.map Local.durables).sum) := by
  rw [Sys.takenDurably, List.map_cons, List.sum_cons]

theorem takenDurably_le (s : Sys) (ls : List Local) : s.takenDurably ls ≤ s.taken ls := by
  refine add_le_add_right ?_ _
  induction ls with
  | nil => exact le_refl _
  | cons l rest ih =>
    rw [List.map_cons, List.map_cons, List.sum_cons, List.sum_cons]
    exact add_le_add (durables_le_extents l) ih

theorem taken_perm (h : ls.Perm ls') : s.taken ls' = s.taken ls := by
  rw [Sys.taken, Sys.taken, (h.map _).sum_eq]

theorem takenDurably_perm (h : ls.Perm ls') : s.takenDurably ls' = s.takenDurably ls := by
  rw [Sys.takenDurably, Sys.takenDurably, (h.map _).sum_eq]

theorem mem_taken_of_extents {a : Span} (h : a ∈ l.extents) : a ∈ s.taken (l :: rest) := by
  rw [taken_cons]
  simp [h]

/-- A thread gives up, of its extents, those its batch maps. -/
theorem staged_add_filter {b : List Span} {T : Multiset Span} (h : Multiset.ofList b ≤ T) :
    Multiset.ofList b + T.filter (fun a => a ∉ b) ≤ T := by
  have hin : (Multiset.ofList b).filter (fun a => a ∈ b) = Multiset.ofList b :=
    Multiset.filter_eq_self.mpr fun a ha => ha
  have hle := Multiset.filter_le_filter (fun a => a ∈ b) h
  rw [hin] at hle
  calc Multiset.ofList b + T.filter (fun a => a ∉ b)
      ≤ T.filter (fun a => a ∈ b) + T.filter (fun a => a ∉ b) := add_le_add_left hle _
    _ = T := Multiset.filter_add_not _ T

/-- **`Apply` takes nothing**: the extents it adds to the committed ones were open. -/
theorem taken_apply {ok : Bool} (hb : l.staged ≤ l.durables)
    (hx : exec L s l (.pebble .apply) = some (s', l', ok)) :
    s'.taken (l' :: rest) ≤ s.taken (l :: rest) ∧
      s'.takenDurably (l' :: rest) ≤ s.takenDurably (l :: rest) := by
  rw [taken_cons, taken_cons, takenDurably_cons, takenDurably_cons, ← add_assoc, ← add_assoc,
    ← add_assoc, ← add_assoc]
  obtain ⟨fs, rfl, hs⟩ := exec_apply hx
  cases ok with
  | false =>
    subst hs
    exact ⟨le_refl _, le_refl _⟩
  | true =>
    subst hs
    have hext : Local.extents ⟨[], PebbleOp.apply.note s l.batch l.hist true⟩
        = l.extents.filter (fun a => a ∉ Batch.spans l.batch) := by
      simp [Local.extents, PebbleOp.note, List.filter_map, Function.comp_def]
    have hdur : Local.durables ⟨[], PebbleOp.apply.note s l.batch l.hist true⟩
        = l.durables.filter (fun a => a ∉ Batch.spans l.batch) := by
      simp [Local.durables, PebbleOp.note, List.filter_map, Function.comp_def, List.filter_filter,
        Bool.and_comm]
    rw [hext, hdur]
    have hspans := Disk.spans_apply l.batch s.db.disk
    constructor
    · refine add_le_add_left ((add_le_add_left hspans _).trans ?_) _
      rw [add_comm (Multiset.ofList _), add_assoc]
      exact add_le_add_right (staged_add_filter (hb.trans (durables_le_extents l))) _
    · refine add_le_add_left ((add_le_add_left hspans _).trans ?_) _
      rw [add_comm (Multiset.ofList _), add_assoc]
      exact add_le_add_right (staged_add_filter hb) _

theorem taken_same {o : Op} {r : o.Reply} (hx : exec L s l o = some (s', l', r))
    (ha : o ≠ .pebble .apply) (ht : ∀ n, o ≠ .alloc (.take n)) :
    s'.taken (l' :: rest) = s.taken (l :: rest) := by
  rw [taken_cons, taken_cons, extents_same hx ha ht, Disk.spans_congr (exec_mapping hx ha)]

theorem takenDurably_same {o : Op} {r : o.Reply} (hx : exec L s l o = some (s', l', r))
    (ha : o ≠ .pebble .apply) (hp : ∀ seg off, o ≠ .alloc (.persist seg off)) :
    s'.takenDurably (l' :: rest) = s.takenDurably (l :: rest) := by
  rw [takenDurably_cons, takenDurably_cons, durables_same hx ha hp,
    Disk.spans_congr (exec_mapping hx ha)]

theorem taken_take {n : Int} {x : Int × Int} (hx : exec L s l (.alloc (.take n)) = some (s', l', x)) :
    s'.taken (l' :: rest) = ⟨x.1, x.2, n⟩ ::ₘ s.taken (l :: rest) := by
  rw [taken_cons, taken_cons, extents_take hx, Disk.spans_congr (exec_mapping hx (by simp)),
    Multiset.cons_add, Multiset.add_cons]

/-- A new call takes nothing, -/
theorem taken_spawn (s : Sys) (call : Call) (ls : List Local) :
    s.taken ((machine L).fresh call :: ls) = s.taken ls := by
  rw [taken_cons]
  show s.db.disk.spans + (0 + (ls.map Local.extents).sum) = s.taken ls
  rw [zero_add]
  rfl

/-- one that returns gives up the extents it has open, -/
theorem taken_retire (s : Sys) (l : Local) (rest : List Local) :
    s.taken (l.retire :: rest) ≤ s.taken (l :: rest) := by
  rw [taken_cons, taken_cons]
  exact add_le_add_right (add_le_add_left (Multiset.zero_le l.extents) _) _

theorem taken_nil (s : Sys) : s.taken [] = s.db.disk.spans := add_zero _

/-- and after a reopen only what was in use durably is in use. -/
theorem taken_reopen (s : Sys) (ls : List Local) : s.reopen.taken [] ≤ s.takenDurably ls := by
  rw [taken_nil]
  exact Multiset.le_add_right _ _

/-! ## 2. The batch of a thread -/

/-- The batch a thread fills: its mappings are backed, its records name no segment `Free`. -/
structure Local.Fills (l : Local) : Prop where
  staged : l.staged ≤ l.durables
  records : Batch.FreesNone l.batch

theorem fills_of_empty (h : l.batch = []) : l.Fills where
  staged := by
    rw [staged_of_empty h]
    exact Multiset.zero_le _
  records := by
    rw [h]
    exact fun _ _ hin => absurd hin List.not_mem_nil

theorem Local.Fills.step (h : l.Fills) {o : Op} {r : o.Reply} (hb : o.Backed l)
    (hn : ∀ id, s.segs.state? id ≠ none → 0 ≤ id)
    (hname : ∀ so, o = .segs so → ∀ id ∈ so.named?, 0 ≤ id)
    (hc : ∀ id ∈ o.charged?, s.segs.state? id ≠ some .free)
    (hx : exec L s l o = some (s', l', r)) : l'.Fills := by
  have hsame : o.Batches = false → l'.Fills := by
    intro ho
    have happly : o ≠ .pebble .apply := fun he => absurd ho (by rw [he]; decide)
    have hbatch := exec_batch hx ho
    refine ⟨?_, hbatch ▸ h.records⟩
    rw [Local.staged, hbatch]
    exact h.staged.trans (extents_grow hx happly).2
  cases o with
  | cache o => exact hsame rfl
  | alloc o => exact hsame rfl
  | dev o => exact hsame rfl
  | pebble o =>
    cases o with
    | apply =>
      obtain ⟨fs, rfl, -⟩ := exec_apply hx
      exact fills_of_empty rfl
    | _ => exact hsame rfl
  | segs o =>
    cases o with
    | putObjectLocked key md old v =>
      have hgrow := (extents_grow hx (by simp)).2
      refine ⟨?_, ?_⟩
      · rw [staged_put hx]
        exact le_trans hb hgrow
      · obtain ⟨-, rfl⟩ := exec_putObjectLocked hx
        refine SegmentManager.freesNone_putObjectLocked h.records hn key (hname _ rfl _ rfl) ?_
        rintro o rfl hne
        exact hc o.segmentID (by simp [Op.charged?, hne])
    | delObjectLocked key md =>
      have hgrow := (extents_grow hx (by simp)).2
      obtain ⟨-, hl⟩ := exec_delObjectLocked hx
      have hbatch := congrArg Local.batch hl
      refine ⟨?_, ?_⟩
      · rw [Local.staged, hbatch, SegmentManager.delObjectLocked_spans]
        exact h.staged.trans hgrow
      · rw [hbatch]
        exact SegmentManager.freesNone_dropObject
          (h.records.append fun i sm hi => absurd hi (by simp)) hn (hc md.segmentID rfl)
    | _ => exact hsame rfl

/-! ## 3. The invariant -/

def WriteCursor.pos (c : WriteCursor) : Int × Int := (c.segmentID, c.offset)

/-- Where allocation continues after a reopen. -/
def Sys.recorded (s : Sys) : WriteCursor := s.db.disk.cursor.getD ⟨0, 0⟩

/-- An allocation is rolling to the segment, which it has (`true`) or has not yet made `Active`. -/
def Rolling (ls : List Local) (id : Int) (b : Bool) : Prop := ∃ l ∈ ls, l.hist.roll = some (id, b)

instance (ls : List Local) (id : Int) (b : Bool) : Decidable (Rolling ls id b) :=
  inferInstanceAs (Decidable (∃ l ∈ ls, l.hist.roll = some (id, b)))

/-- An extent in the segment is in use. -/
def TakenIn (s : Sys) (ls : List Local) (id : Int) : Prop := ∃ a ∈ s.taken ls, a.Touches id

instance (s : Sys) (ls : List Local) (id : Int) : Decidable (TakenIn s ls id) :=
  Multiset.decidableExistsMultiset

theorem takenIn_mono {id : Int} (hT : s'.taken ls' ≤ s.taken ls) (h : TakenIn s' ls' id) :
    TakenIn s ls id := by
  obtain ⟨a, ha, hta⟩ := h
  exact ⟨a, Multiset.mem_of_le hT ha, hta⟩

/-- The segment is OCCUPIED: an extent in it is in use, or the allocator stands in it, or will do
so after a reopen, or is rolling to it and has made it `Active`. -/
def Occupied (s : Sys) (ls : List Local) (id : Int) : Prop :=
  TakenIn s ls id ∨ (id = s.cursor.segmentID ∧ ¬ Rolling ls id false) ∨
    id = s.recorded.segmentID ∨ Rolling ls id true

instance (s : Sys) (ls : List Local) (id : Int) : Decidable (Occupied s ls id) :=
  inferInstanceAs (Decidable (_ ∨ _ ∨ _ ∨ _))

/-- Pebble works, the allocator's lock and views and the pool are right, and the batches in the
making too. -/
structure Steady (s : Sys) (ls : List Local) : Prop where
  working : s.db.faults = []
  alloc : AllocSound s ls
  pool : s.segs.PoolCoherent
  fills : ∀ l ∈ ls, l.Fills

/-- The extents in use are disjoint and behind the cursor; those in use durably are behind the
recorded one too; and no allocation can come to a segment that is occupied. -/
structure ExtentsKept (s : Sys) (ls : List Local) : Prop extends Steady s ls where
  ahead : Span.Bump (s.taken ls) s.cursor.pos
  recorded : Span.Bump (s.takenDurably ls) s.recorded.pos
  rolls : ∀ id b, Rolling ls id b → 0 ≤ id ∧ ¬ TakenIn s ls id
  memory : Fit s.segs.state? (Occupied s ls)
  disk : Fit s.db.disk.state? (Occupied s ls)
  regions : ∀ a ∈ s.taken ls, 0 ≤ a.region
  cursors : 0 ≤ s.cursor.segmentID ∧ 0 ≤ s.recorded.segmentID

/-- The segments an operation may make `Free`. -/
def Op.reclaims : Op → List Int
  | .segs (.gcFinalize ids) => ids
  | _ => []

/-- The condition on a step: no object leaves a `Free` segment, and `reclaimOnce` frees no segment
that is occupied. -/
def SparesExtents (s : Sys) (l : Local) (rest : List Local) (o : Op) : Prop :=
  (∀ id ∈ o.charged?, s.segs.state? id ≠ some .free) ∧
    ∀ id ∈ o.reclaims, s.segs.reclaimable id = true → ¬ Occupied s (l :: rest) id

instance (s : Sys) (l : Local) (rest : List Local) (o : Op) : Decidable (SparesExtents s l rest o) :=
  inferInstanceAs (Decidable (_ ∧ _))

theorem DB.write_working {db : DB} (h : db.faults = []) (f : Disk → Disk) :
    (db.write f).2.faults = [] := by
  rw [write_of_no_faults h]

theorem SegmentManager.persist_working {db : DB} (h : db.faults = []) (id : Int) (e : SegEntry) :
    (persist db id e).2.faults = [] := DB.write_working h _

/-- No step breaks pebble. -/
theorem exec_working {o : Op} {r : o.Reply} (hw : s.db.faults = [])
    (hx : exec L s l o = some (s', l', r)) : s'.db.faults = [] := by
  cases o with
  | cache o => cases hx; exact hw
  | dev o => cases hx; exact hw
  | pebble o =>
    cases o with
    | apply => cases hx; exact DB.write_working hw (fun d => d.apply l.batch)
    | _ => cases hx; exact hw
  | alloc o =>
    obtain ⟨he, -⟩ := exec_allocOp hx
    cases o with
    | lock => simp only [AllocOp.exec] at he; split at he <;> cases he; exact hw
    | persist seg off => cases he; exact DB.write_working hw (fun d => d.setCursor ⟨seg, off⟩)
    | _ => cases he; exact hw
  | segs o =>
    obtain ⟨b, he, -⟩ := exec_segsOp hx
    cases o with
    | unlock => cases he; exact hw
    | putObjectLocked key md old v => cases he; exact hw
    | delObjectLocked key md => cases he; exact hw
    | activate id =>
      simp only [SegsOp.exec] at he
      split at he <;> cases he
      exact SegmentManager.persist_working hw id _
    | markFull id =>
      simp only [SegsOp.exec] at he
      split at he <;> cases he
      unfold SegmentManager.markFull
      split
      · exact hw
      · exact DB.write_working hw _
    | markCompacting id =>
      simp only [SegsOp.exec] at he
      split at he <;> cases he
      unfold SegmentManager.markCompacting
      split
      · exact hw
      · split
        · exact DB.write_working hw _
        · exact hw
    | popFree =>
      simp only [SegsOp.exec] at he
      split at he
      · cases he
      · obtain ⟨x, hpop, hxs⟩ := Option.map_eq_some_iff.mp he
        cases hxs
        rcases SegmentManager.popFree_cases hpop with ⟨-, rfl⟩ | ⟨id, ids, e, ok, db', -, -, hper, hcase⟩
        · exact hw
        · have hw' : db'.faults = [] := by
            have hwrite := SegmentManager.persist_working hw id (e.withState .active)
            rwa [hper] at hwrite
          rcases hcase with ⟨-, rfl⟩ | ⟨-, rfl⟩ <;> exact hw'
    | gcFinalize ids =>
      simp only [SegsOp.exec] at he
      split at he <;> cases he
      unfold SegmentManager.gcFinalize
      dsimp only
      split
      · exact hw
      · split <;> exact DB.write_working hw _
    | _ => simp only [SegsOp.exec] at he; split at he <;> cases he; exact hw

namespace ExtentsKept

/-- A step, or a change of the threads, that leaves both cursors where they are and takes nothing. -/
theorem carry (h : ExtentsKept s ls) (hs : Steady s' ls') (hT : s'.taken ls' ≤ s.taken ls)
    (hD : s'.takenDurably ls' ≤ s.takenDurably ls) (hc : s'.cursor = s.cursor)
    (hr : s'.recorded = s.recorded)
    (hroll : ∀ id b, Rolling ls' id b → 0 ≤ id ∧ ¬ TakenIn s ls id)
    (hocc : ∀ id, Occupied s' ls' id → Occupied s ls id)
    (hm : Fit s'.segs.state? (Occupied s ls)) (hd : Fit s'.db.disk.state? (Occupied s ls)) :
    ExtentsKept s' ls' where
  toSteady := hs
  ahead := by
    rw [hc]
    exact h.ahead.mono hT
  recorded := by
    rw [hr]
    exact h.recorded.mono hD
  rolls := by
    intro id b hin
    obtain ⟨hid, hclear⟩ := hroll id b hin
    exact ⟨hid, fun hin => hclear (takenIn_mono hT hin)⟩
  memory := hm.mono hocc
  disk := hd.mono hocc
  regions := fun a ha => h.regions a (Multiset.mem_of_le hT ha)
  cursors := by
    rw [hc, hr]
    exact h.cursors

/-- The occupied segments, where neither the cursors nor the rolls have changed. -/
theorem occupied_of (hT : s'.taken ls' ≤ s.taken ls) (hc : s'.cursor = s.cursor)
    (hr : s'.recorded = s.recorded) (hroll : ∀ id b, Rolling ls' id b ↔ Rolling ls id b) {id : Int}
    (h : Occupied s' ls' id) : Occupied s ls id := by
  rcases h with hin | ⟨hid, hno⟩ | hid | hin
  · exact Or.inl (takenIn_mono hT hin)
  · exact Or.inr (Or.inl ⟨hid.trans (congrArg WriteCursor.segmentID hc), fun hf => hno ((hroll _ _).mpr hf)⟩)
  · exact Or.inr (Or.inr (Or.inl (hid.trans (congrArg WriteCursor.segmentID hr))))
  · exact Or.inr (Or.inr (Or.inr ((hroll _ _).mp hin)))

/-- The threads change, not the state. -/
theorem regroup (h : ExtentsKept s ls) (hs : Steady s ls') (hT : s.taken ls' ≤ s.taken ls)
    (hD : s.takenDurably ls' ≤ s.takenDurably ls)
    (hroll : ∀ id b, Rolling ls' id b ↔ Rolling ls id b) : ExtentsKept s ls' :=
  h.carry hs hT hD rfl rfl (fun id b hin => h.rolls id b ((hroll id b).mp hin))
    (fun _ => occupied_of hT rfl rfl hroll) h.memory h.disk

theorem perm (hp : ls.Perm ls') (h : ExtentsKept s ls) : ExtentsKept s ls' :=
  h.regroup ⟨h.working, h.alloc.perm hp, h.pool, fun l hl => h.fills l (hp.mem_iff.mpr hl)⟩
    (le_of_eq (taken_perm hp)) (le_of_eq (takenDurably_perm hp))
    fun _ _ => exists_congr fun _ => and_congr_left fun _ => hp.mem_iff.symm

theorem rolling_cons {id : Int} {b : Bool} : Rolling (l :: ls) id b ↔
    l.hist.roll = some (id, b) ∨ Rolling ls id b := by
  unfold Rolling
  simp

theorem spawn (h : ExtentsKept s ls) (call : Call) : ExtentsKept s ((machine L).fresh call :: ls) := by
  refine h.regroup ⟨h.working, h.alloc.spawn rfl, h.pool, fun l hl => ?_⟩ (le_of_eq ?_) (le_of_eq ?_)
    fun id b => ?_
  · rcases List.mem_cons.mp hl with rfl | hl
    · exact fills_of_empty rfl
    · exact h.fills l hl
  · exact taken_spawn s call ls
  · rw [takenDurably_cons]
    show s.db.disk.spans + (0 + (ls.map Local.durables).sum) = s.takenDurably ls
    rw [zero_add]
    rfl
  · rw [rolling_cons]
    exact or_iff_right (by simp [machine])

/-- A call that returns gives up the extents it has open. -/
theorem retire (h : ExtentsKept s (l :: rest)) (hv : l.view = .idle) (hb : l.batch = []) :
    ExtentsKept s (l.retire :: rest) := by
  refine h.regroup ⟨h.working, h.alloc.frame rfl rfl rfl rfl rfl fun _ => hv, h.pool, fun x hx => ?_⟩
    ?_ ?_ fun id b => ?_
  · rcases List.mem_cons.mp hx with rfl | hx
    · exact fills_of_empty hb
    · exact h.fills x (List.mem_cons_of_mem _ hx)
  · exact taken_retire s l rest
  · rw [takenDurably_cons, takenDurably_cons]
    exact add_le_add_right (add_le_add_left (Multiset.zero_le l.durables) _) _
  · rw [rolling_cons, rolling_cons]
    rfl

/-! ### What an allocation relies on -/

theorem rolling_alone {id : Int} {b : Bool} (hrest : ∀ x ∈ rest, x.view = .idle) :
    Rolling (l :: rest) id b ↔ l.hist.roll = some (id, b) := by
  rw [rolling_cons]
  refine or_iff_left ?_
  rintro ⟨x, hx, hr⟩
  exact absurd ((congrArg AllocView.roll (hrest x hx)).symm.trans hr) (by simp [AllocView.idle])

/-- While a thread knows the cursor no other thread allocates. -/
theorem alone (h : AllocSound s (l :: rest)) {a : Allocator} (hc : l.view.cur = some a) :
    ∀ x ∈ rest, x.view = .idle := by
  refine h.alone (h.inAlloc fun hi => ?_)
  exact absurd ((congrArg AllocView.cur hi).symm.trans hc) (by simp [AllocView.idle])

theorem cursor_eq (h : AllocSound s (l :: rest)) {a : Allocator} (hc : l.view.cur = some a) :
    s.alloc = a ∧ s.alloc.cursorLoaded = true ∧ s.cursor = ⟨a.curSeg, a.curOff⟩ := by
  obtain ⟨hka, hload, -⟩ := h.cursor hc
  refine ⟨hka, hload, ?_⟩
  rw [Sys.cursor, if_pos hload, hka]

/-- The segment under the cursor is occupied, but while it is being rolled to. -/
theorem stands (h : AllocSound s (l :: rest)) {a : Allocator} (hc : l.view.cur = some a)
    (hr : l.view.roll = none ∨ l.view.roll = some (a.curSeg, true)) :
    Occupied s (l :: rest) a.curSeg := by
  refine Or.inr (Or.inl ⟨(h.cursor hc).2.2.symm, ?_⟩)
  rw [rolling_alone (alone h hc)]
  intro hf
  rcases hr with hr | hr
  · exact absurd (hr.symm.trans hf) (by simp)
  · exact absurd (hr.symm.trans hf) (by simp)

/-! ### Steps -/

/-- The segments an operation names have numbers from 0 on. -/
theorem named_nonneg (h : ExtentsKept s (l :: rest)) {o : SegsOp} (hp : (Op.segs o).allocPre l.view)
    (hb : (Op.segs o).Backed l) : ∀ id ∈ o.named?, 0 ≤ id := by
  intro id hid
  cases o with
  | putObjectLocked key md old v =>
    have hmem : md.span ∈ l.durables := Multiset.mem_of_le hb (Multiset.mem_cons_self _ _)
    have hext := Multiset.mem_of_le (durables_le_extents l) hmem
    have hreg := h.regions md.span (mem_taken_of_extents hext)
    exact Option.some.inj hid ▸ hreg
  | activate i =>
    obtain rfl := Option.some.inj hid
    exact (h.rolls i false ⟨l, List.mem_cons_self, hp.1⟩).1
  | _ => exact absurd hid (by simp [SegsOp.named?])

/-- No `Free` segment is marked `Full` or charged: the allocator marks the one it stands in. -/
theorem spares (h : ExtentsKept s (l :: rest)) {o : Op} (hp : o.allocPre l.view)
    (hok : SparesExtents s l rest o) : SparesFree s o := by
  refine ⟨fun id hid => ?_, hok.1⟩
  unfold Op.marked? at hid
  split at hid
  · obtain rfl := Option.some.inj hid
    obtain ⟨hroll, a, hc, rfl⟩ := hp
    exact h.memory.notFree _ (stands h.alloc hc (Or.inl hroll))
  · exact absurd hid (by simp)

theorem steady (h : ExtentsKept s (l :: rest)) {o : Op} {r : o.Reply} (hp : o.allocPre l.view)
    (hb : o.Backed l) (hok : SparesExtents s l rest o) (hx : exec L s l o = some (s', l', r)) :
    Steady s' (l' :: rest) where
  working := exec_working h.working hx
  alloc := h.alloc.step hp hx
  pool := by
    rw [exec_segs hx]
    exact h.pool.step (h.spares hp hok)
  fills := by
    intro x hxin
    rcases List.mem_cons.mp hxin with rfl | hxin
    · refine (h.fills l List.mem_cons_self).step hb h.memory.nonneg ?_ hok.1 hx
      rintro so rfl
      exact h.named_nonneg hp hb
    · exact h.fills x (List.mem_cons_of_mem _ hxin)

/-- A step that leaves the cursors and the roll where they are. -/
theorem same (h : ExtentsKept s (l :: rest)) (hs : Steady s' (l' :: rest))
    (hT : s'.taken (l' :: rest) ≤ s.taken (l :: rest))
    (hD : s'.takenDurably (l' :: rest) ≤ s.takenDurably (l :: rest)) (hc : s'.cursor = s.cursor)
    (hr : s'.recorded = s.recorded) (hroll : l'.hist.roll = l.hist.roll)
    (hm : Fit s'.segs.state? (Occupied s (l :: rest)))
    (hd : Fit s'.db.disk.state? (Occupied s (l :: rest))) : ExtentsKept s' (l' :: rest) := by
  have hrolls : ∀ id b, Rolling (l' :: rest) id b ↔ Rolling (l :: rest) id b := by
    intro id b
    rw [rolling_cons, rolling_cons, hroll]
  exact h.carry hs hT hD hc hr (fun id b hin => h.rolls id b ((hrolls id b).mp hin))
    (fun _ => occupied_of hT hc hr hrolls) hm hd

theorem exec_recorded {o : Op} {r : o.Reply} (hx : exec L s l o = some (s', l', r))
    (ho : ∀ a, o ≠ .alloc a) : s'.recorded = s.recorded := by
  unfold Sys.recorded
  rw [exec_cursorRecord hx ho]

/-- A step that is none of the allocator's, and leaves the roll where it is. -/
theorem off (h : ExtentsKept s (l :: rest)) {o : Op} {r : o.Reply} (hs : Steady s' (l' :: rest))
    (hx : exec L s l o = some (s', l', r)) (ho : ∀ a, o ≠ .alloc a) (happly : o ≠ .pebble .apply)
    (hroll : l'.hist.roll = l.hist.roll) (hm : Fit s'.segs.state? (Occupied s (l :: rest)))
    (hd : Fit s'.db.disk.state? (Occupied s (l :: rest))) : ExtentsKept s' (l' :: rest) :=
  h.same hs (le_of_eq (taken_same hx happly fun _ => ho _))
    (le_of_eq (takenDurably_same hx happly fun _ _ => ho _)) (exec_cursor hx ho)
    (exec_recorded hx ho) hroll hm hd

theorem stepApply (h : ExtentsKept s (l :: rest)) {ok : Bool} (hs : Steady s' (l' :: rest))
    (hx : exec L s l (.pebble .apply) = some (s', l', ok)) : ExtentsKept s' (l' :: rest) := by
  have hfill := h.fills l List.mem_cons_self
  obtain ⟨hT, hD⟩ : s'.taken (l' :: rest) ≤ s.taken (l :: rest) ∧ _ := taken_apply hfill.staged hx
  have hroll : l'.hist.roll = l.hist.roll := congrArg AllocView.roll (view_frame hx True.intro)
  refine h.same hs hT hD (exec_cursor hx (by simp)) (exec_recorded hx (by simp)) hroll ?_ ?_
  · rw [exec_segs hx]
    exact h.memory
  · refine h.disk.evolve ?_
    obtain ⟨fs, -, rfl⟩ := exec_apply hx
    split
    · exact Disk.evolves_apply l.batch hfill.records s.db.disk
    · exact evolves_of_eq fun _ => rfl

theorem stepGcFinalize (h : ExtentsKept s (l :: rest)) {ids : List Int} {n : Nat}
    (hs : Steady s' (l' :: rest)) (hok : SparesExtents s l rest (.segs (.gcFinalize ids)))
    (hx : exec L s l (.segs (.gcFinalize ids)) = some (s', l', n)) :
    ExtentsKept s' (l' :: rest) := by
  have hroll : l'.hist.roll = l.hist.roll := congrArg AllocView.roll (view_frame hx True.intro)
  obtain ⟨hm, hd⟩ := SegmentManager.fit_gcFinalize h.working hok.2 h.memory h.disk
  refine h.off hs hx (by simp) (by simp) hroll ?_ ?_
  · rw [exec_segs hx]
    exact hm
  · obtain ⟨b, he, -⟩ := exec_segsOp hx
    simp only [SegsOp.exec] at he
    split at he <;> cases he
    exact hd

/-- `canUse` finds a segment that is not occupied. -/
theorem stepCanUse (h : ExtentsKept s (l :: rest)) {id : Int} {r : Bool}
    (hp : (Op.segs (.canUse id)).allocPre l.view) (hs : Steady s' (l' :: rest))
    (hx : exec L s l (.segs (.canUse id)) = some (s', l', r)) : ExtentsKept s' (l' :: rest) := by
  obtain ⟨hroll, a, hc, rfl, -⟩ := hp
  have hrest := alone h.alloc hc
  have hv : l'.hist.roll = if r then some (a.curSeg + 1, false) else l.hist.roll :=
    congrArg AllocView.roll (view_canUse hx)
  have hT : s'.taken (l' :: rest) = s.taken (l :: rest) := taken_same hx (by simp) (by simp)
  obtain ⟨b, he, -⟩ := exec_segsOp hx
  simp only [SegsOp.exec] at he
  split at he <;> cases he
  have hone : 0 ≤ a.curSeg := by
    have hcur := h.cursors.1
    rwa [(h.alloc.cursor hc).2.2] at hcur
  -- what the check has found is not in use
  have hclear : ∀ i b, Rolling (l' :: rest) i b →
      b = false ∧ 0 ≤ i ∧ ¬ TakenIn s (l :: rest) i := by
    intro i b hin
    rw [rolling_alone hrest, hv] at hin
    split at hin
    · rename_i hcan
      cases hin
      refine ⟨rfl, by omega, fun htaken => ?_⟩
      have hnf := h.memory.notFree _ (Or.inl htaken)
      have hrec := h.memory.recorded _ (Or.inl htaken)
      unfold SegmentManager.canUse at hcan
      split at hcan
      · rename_i e hfind
        rw [SegmentManager.state?_of_find? hfind] at hnf
        exact hnf (congrArg some (by simpa using hcan))
      · rename_i hfind
        have hzero := hrec (by rw [SegmentManager.state?, hfind]; rfl)
        omega
    · exact absurd (hroll.symm.trans hin) (by simp)
  refine h.carry hs (le_of_eq hT) (le_of_eq (takenDurably_same hx (by simp) (by simp))) rfl rfl
    (fun i b hin => (hclear i b hin).2) ?_ h.memory h.disk
  rintro i (hin | ⟨hi, -⟩ | hi | hin)
  · exact Or.inl (takenIn_mono (le_of_eq hT) hin)
  · rw [hi, (h.alloc.cursor hc).2.2]
    exact stands h.alloc hc (Or.inl hroll)
  · exact Or.inr (Or.inr (Or.inl hi))
  · exact absurd (hclear i true hin).1 (by simp)

/-- The allocation has made a segment `Active` that holds no extent: it may roll there. -/
theorem roll (h : ExtentsKept s (l :: rest)) {o : Op} {r : o.Reply} {id : Int}
    (hs : Steady s' (l' :: rest)) (hx : exec L s l o = some (s', l', r)) (ho : ∀ a, o ≠ .alloc a)
    (happly : o ≠ .pebble .apply) (hrest : ∀ x ∈ rest, x.view = .idle)
    (hroll : l'.hist.roll = some (id, true)) (hid : 0 ≤ id) (hclear : ¬ TakenIn s (l :: rest) id)
    (hcur : ∀ i, i = s.cursor.segmentID → Occupied s (l :: rest) i ∨ i = id)
    (hm : Fit s'.segs.state? (Occupied s (l :: rest))) (hma : s'.segs.state? id = some .active)
    (hd : Fit s'.db.disk.state? (Occupied s (l :: rest)))
    (hda : s'.db.disk.state? id = some .active) : ExtentsKept s' (l' :: rest) := by
  have hT : s'.taken (l' :: rest) = s.taken (l :: rest) := taken_same hx happly fun _ => ho _
  have hc := exec_cursor hx ho
  have hr := exec_recorded hx ho
  have hocc : ∀ i, Occupied s' (l' :: rest) i → Occupied s (l :: rest) i ∨ i = id := by
    rintro i (hin | ⟨hi, -⟩ | hi | hin)
    · exact Or.inl (Or.inl (takenIn_mono (le_of_eq hT) hin))
    · exact hcur i (hi.trans (congrArg WriteCursor.segmentID hc))
    · exact Or.inl (Or.inr (Or.inr (Or.inl (hi.trans (congrArg WriteCursor.segmentID hr)))))
    · rw [rolling_alone hrest, hroll] at hin
      cases hin
      exact Or.inr rfl
  have hact : ∀ {st : Int → Option SegmentState}, st id = some .active → ∀ i,
      Occupied s' (l' :: rest) i →
        Occupied s (l :: rest) i ∨ ∃ x, x ≠ SegmentState.free ∧ st i = some x := by
    intro st hst i hi
    rcases hocc i hi with hi | rfl
    · exact Or.inl hi
    · exact Or.inr ⟨.active, by simp, hst⟩
  refine ⟨hs, ?_, ?_, ?_, hm.use (hact hma), hd.use (hact hda), ?_, ?_⟩
  · rw [hT, hc]
    exact h.ahead
  · rw [takenDurably_same hx happly fun _ _ => ho _, hr]
    exact h.recorded
  · intro i b hin
    rw [rolling_alone hrest, hroll] at hin
    cases hin
    exact ⟨hid, fun hin => hclear (takenIn_mono (le_of_eq hT) hin)⟩
  · rw [hT]
    exact h.regions
  · rw [hc, hr]
    exact h.cursors

theorem state?_persist {db : DB} (hw : db.faults = []) (id : Int) (e : SegEntry) :
    (SegmentManager.persist db id e).2.disk.state? id = some e.md.state := by
  rw [SegmentManager.persist, DB.write_of_no_faults hw]
  show (db.disk.applyOp (.setSegment id e.md)).state? id = _
  rw [Disk.state?_setSegment, if_pos rfl]

theorem stepActivate (h : ExtentsKept s (l :: rest)) {id : Int} {ok : Bool}
    (hp : (Op.segs (.activate id)).allocPre l.view) (hb : (Op.segs (.activate id)).Backed l)
    (hs : Steady s' (l' :: rest))
    (hx : exec L s l (.segs (.activate id)) = some (s', l', ok)) : ExtentsKept s' (l' :: rest) := by
  have hname := h.named_nonneg hp hb
  obtain ⟨hroll, -, a, hc, hseg⟩ := hp
  have hrest := alone h.alloc hc
  obtain ⟨hid, hclear⟩ := h.rolls id false ⟨l, List.mem_cons_self, hroll⟩
  obtain ⟨b, he, -⟩ := exec_segsOp hx
  obtain ⟨hm, hd⟩ := SegsOp.evolves he h.memory.nonneg h.pool hname (by simp)
  have hv : l'.hist.roll = some (id, true) := congrArg AllocView.roll (view_activate hx)
  refine h.roll hs hx (by simp) (by simp) hrest hv hid hclear (fun i hi => Or.inr ?_)
    (h.memory.evolve hm) ?_ (h.disk.evolve hd) ?_
  · rw [hi, (h.alloc.cursor hc).2.2, hseg]
  · rw [exec_segs hx]
    show (SegmentManager.activate s.db s.segs id).2.2.state? id = _
    rw [SegmentManager.activate_snd, SegmentManager.state?_setEntry, if_pos rfl]
    rfl
  · simp only [SegsOp.exec] at he
    split at he <;> cases he
    exact state?_persist h.working id _

theorem stepPopFree (h : ExtentsKept s (l :: rest)) {x : Option Int}
    (hp : (Op.segs .popFree).allocPre l.view) (hs : Steady s' (l' :: rest))
    (hx : exec L s l (.segs .popFree) = some (s', l', x)) : ExtentsKept s' (l' :: rest) := by
  obtain ⟨hroll, a, hc, -⟩ := hp
  have hrest := alone h.alloc hc
  obtain ⟨b, he, -⟩ := exec_segsOp hx
  obtain ⟨hm, hd⟩ := SegsOp.evolves he h.memory.nonneg h.pool (by simp [SegsOp.named?]) (by simp)
  have hmem := h.memory.evolve hm
  have hdisk := h.disk.evolve hd
  cases x with
  | none =>
    have hv : l'.hist.roll = l.hist.roll := congrArg AllocView.roll (view_popFree hx)
    exact h.off hs hx (by simp) (by simp) hv hmem hdisk
  | some id =>
    have hv : l'.hist.roll = some (id, true) := congrArg AllocView.roll (view_popFree hx)
    have hpop : SegmentManager.popFree s.db s.segs = some (some id, s'.db, s'.segs) := exec_popFree hx
    rcases SegmentManager.popFree_cases hpop with ⟨-, hno⟩ | ⟨i, ids, e, ok, db', hfree, hfind, hper, hcase⟩
    · exact absurd (congrArg Prod.fst hno) (by simp)
    rcases hcase with ⟨-, heq⟩ | ⟨-, heq⟩
    · simp only [Prod.mk.injEq, Option.some.injEq] at heq
      obtain ⟨rfl, hdb, hsegs⟩ := heq
      -- the first of the pool is `Free`, so nothing in use lies there
      have hst : s.segs.state? id = some .free := (h.pool.mem_iff id).mp (by simp [hfree])
      refine h.roll hs hx (by simp) (by simp) hrest hv (h.memory.nonneg id (by simp [hst])) ?_ ?_
        hmem ?_ hdisk ?_
      · exact fun hin => h.memory.notFree id (Or.inl hin) hst
      · intro i hi
        rw [hi, (h.alloc.cursor hc).2.2]
        exact Or.inl (stands h.alloc hc (Or.inl hroll))
      · rw [hsegs, SegmentManager.state?_setEntry, if_pos rfl]
        rfl
      · have hdisk' := state?_persist h.working id (e.withState .active)
        rw [hper] at hdisk'
        rw [hdb]
        exact hdisk'
    · exact absurd (congrArg Prod.fst heq) (by simp)

/-- The allocator's lock, and the read of its cursor. -/
theorem stepStill (h : ExtentsKept s (l :: rest)) {o : AllocOp} {r : o.Reply}
    (hs : Steady s' (l' :: rest)) (hx : exec L s l (.alloc o) = some (s', l', r))
    (ht : ∀ n, o ≠ .take n) (hpers : ∀ seg off, o ≠ .persist seg off) (hc : s'.cursor = s.cursor)
    (hdb : s'.db = s.db) (hsegs : s'.segs = s.segs) (hroll : l'.hist.roll = l.hist.roll) :
    ExtentsKept s' (l' :: rest) := by
  refine h.same hs (le_of_eq (taken_same hx (by simp) (by simpa using ht)))
    (le_of_eq (takenDurably_same hx (by simp) (by simpa using hpers))) hc ?_ hroll ?_ ?_
  · rw [Sys.recorded, hdb]
    rfl
  · rw [hsegs]
    exact h.memory
  · rw [hdb]
    exact h.disk

/-- The allocation is over; if it has rolled, it has landed. -/
theorem stepUnlock (h : ExtentsKept s (l :: rest)) {r : Unit}
    (hp : (Op.alloc .unlock).allocPre l.view) (hs : Steady s' (l' :: rest))
    (hx : exec L s l (.alloc .unlock) = some (s', l', r)) : ExtentsKept s' (l' :: rest) := by
  obtain ⟨hin, -, hland⟩ := hp
  have hrest := h.alloc.alone hin
  have hv : l'.hist.roll = none := congrArg AllocView.roll (view_unlock hx)
  have hT : s'.taken (l' :: rest) = s.taken (l :: rest) := taken_same hx (by simp) (by simp)
  have hD : s'.takenDurably (l' :: rest) = s.takenDurably (l :: rest) := takenDurably_same hx (by simp) (by simp)
  obtain ⟨he, -⟩ := exec_allocOp hx
  cases he
  have hno : ∀ i b, ¬ Rolling (l' :: rest) i b := by
    intro i b hin
    rw [rolling_alone hrest, hv] at hin
    exact absurd hin (by simp)
  refine h.carry hs (le_of_eq hT) (le_of_eq hD) rfl rfl (fun i b hin => absurd hin (hno i b)) ?_
    h.memory h.disk
  rintro i (hin | ⟨hi, -⟩ | hi | hin)
  · exact Or.inl (takenIn_mono (le_of_eq hT) hin)
  · refine Or.inr (Or.inl ⟨hi, ?_⟩)
    rw [rolling_alone hrest]
    intro hf
    rcases hland with hroll | ⟨a, -, hroll⟩
    · exact absurd (hroll.symm.trans hf) (by simp)
    · exact absurd (hroll.symm.trans hf) (by simp)
  · exact Or.inr (Or.inr (Or.inl hi))
  · exact absurd hin (hno i true)

/-- The cursor goes to the segment the allocation is rolling to, which holds no extent in use. -/
theorem stepSetCursor (h : ExtentsKept s (l :: rest)) {seg off : Int} {r : Unit}
    (hp : (Op.alloc (.setCursor seg off)).allocPre l.view) (hs : Steady s' (l' :: rest))
    (hx : exec L s l (.alloc (.setCursor seg off)) = some (s', l', r)) :
    ExtentsKept s' (l' :: rest) := by
  obtain ⟨-, a, b, hc, hroll, -⟩ := hp
  have hrest := alone h.alloc hc
  obtain ⟨-, hload, -⟩ := cursor_eq h.alloc hc
  obtain ⟨hid, hclear⟩ := h.rolls seg b ⟨l, List.mem_cons_self, hroll⟩
  have hT : s'.taken (l' :: rest) = s.taken (l :: rest) := taken_same hx (by simp) (by simp)
  have hD : s'.takenDurably (l' :: rest) = s.takenDurably (l :: rest) := takenDurably_same hx (by simp) (by simp)
  have hv : l'.hist.roll = l.hist.roll := congrArg AllocView.roll (view_setCursor hx)
  obtain ⟨he, -⟩ := exec_allocOp hx
  cases he
  have hcur : Sys.cursor { s with alloc := { s.alloc with curSeg := seg, curOff := off } } = ⟨seg, off⟩ := by
    rw [Sys.cursor, if_pos hload]
  have hrolls : ∀ i b, Rolling (l' :: rest) i b ↔ Rolling (l :: rest) i b := by
    intro i b
    rw [rolling_cons, rolling_cons, hv]
  have hocc : ∀ i, Occupied { s with alloc := { s.alloc with curSeg := seg, curOff := off } }
      (l' :: rest) i → Occupied s (l :: rest) i := by
    rintro i (hin | ⟨hi, hno⟩ | hi | hin)
    · exact Or.inl (takenIn_mono (le_of_eq hT) hin)
    · rw [hcur] at hi
      subst hi
      cases b with
      | true => exact Or.inr (Or.inr (Or.inr ⟨l, List.mem_cons_self, hroll⟩))
      | false => exact absurd ((hrolls _ _).mpr ⟨l, List.mem_cons_self, hroll⟩) hno
    · exact Or.inr (Or.inr (Or.inl hi))
    · exact Or.inr (Or.inr (Or.inr ((hrolls i true).mp hin)))
  refine ⟨hs, ?_, ?_, ?_, h.memory.mono hocc, h.disk.mono hocc, ?_, ?_⟩
  · rw [hT, hcur]
    exact h.ahead.move (fun a ha hta => hclear ⟨a, ha, hta⟩) off
  · rw [hD]
    exact h.recorded
  · intro i b hin
    obtain ⟨hi, hcl⟩ := h.rolls i b ((hrolls i b).mp hin)
    exact ⟨hi, fun hin => hcl (takenIn_mono (le_of_eq hT) hin)⟩
  · rw [hT]
    exact h.regions
  · rw [hcur]
    exact ⟨hid, h.cursors.2⟩

/-- **An extent is taken**: where the cursor is, and past it nothing is in use. -/
theorem stepTake (h : ExtentsKept s (l :: rest)) {n : Int} {x : Int × Int}
    (hp : (Op.alloc (.take n)).allocPre l.view) (hs : Steady s' (l' :: rest))
    (hx : exec L s l (.alloc (.take n)) = some (s', l', x)) : ExtentsKept s' (l' :: rest) := by
  obtain ⟨hn, -, a, hc, hroll⟩ := hp
  have hrest := alone h.alloc hc
  have hstand := stands h.alloc hc hroll
  obtain ⟨hka, hload, hcur⟩ := cursor_eq h.alloc hc
  obtain ⟨hv, hxe⟩ := view_take hx
  have hv : l'.hist.roll = none := congrArg AllocView.roll hv
  have hT : s'.taken (l' :: rest) = ⟨a.curSeg, a.curOff, n⟩ ::ₘ s.taken (l :: rest) := by
    rw [taken_take hx, hxe, hka]
  have hD : s'.takenDurably (l' :: rest) = s.takenDurably (l :: rest) := takenDurably_same hx (by simp) (by simp)
  obtain ⟨he, -⟩ := exec_allocOp hx
  cases he
  have hcur' : Sys.cursor { s with alloc := { s.alloc with curOff := s.alloc.curOff + n } }
      = ⟨a.curSeg, a.curOff + n⟩ := by
    rw [Sys.cursor, if_pos hload, hka]
  have hno : ∀ i b, ¬ Rolling (l' :: rest) i b := by
    intro i b hin
    rw [rolling_alone hrest, hv] at hin
    exact absurd hin (by simp)
  have hocc : ∀ i, Occupied { s with alloc := { s.alloc with curOff := s.alloc.curOff + n } }
      (l' :: rest) i → Occupied s (l :: rest) i := by
    rintro i (⟨y, hy, hty⟩ | ⟨hi, -⟩ | hi | hin)
    · rw [hT] at hy
      rcases Multiset.mem_cons.mp hy with rfl | hy
      · exact hty.1 ▸ hstand
      · exact Or.inl ⟨y, hy, hty⟩
    · rw [hcur'] at hi
      exact hi ▸ hstand
    · exact Or.inr (Or.inr (Or.inl hi))
    · exact absurd hin (hno i true)
  have hbump := h.ahead
  rw [hcur] at hbump
  have hpos : 0 ≤ a.curSeg := by
    have hcursor := h.cursors.1
    rwa [hcur] at hcursor
  refine ⟨hs, ?_, ?_, fun i b hin => absurd hin (hno i b), h.memory.mono hocc, h.disk.mono hocc, ?_, ?_⟩
  · rw [hT, hcur']
    exact hbump.take hn
  · rw [hD]
    exact h.recorded
  · intro y hy
    rw [hT] at hy
    rcases Multiset.mem_cons.mp hy with rfl | hy
    · exact hpos
    · exact h.regions y hy
  · rw [hcur']
    exact ⟨hpos, h.cursors.2⟩

/-- The cursor is recorded: all that was open is in use durably. -/
theorem stepPersist (h : ExtentsKept s (l :: rest)) {seg off : Int} {ok : Bool}
    (hp : (Op.alloc (.persist seg off)).allocPre l.view) (hs : Steady s' (l' :: rest))
    (hx : exec L s l (.alloc (.persist seg off)) = some (s', l', ok)) :
    ExtentsKept s' (l' :: rest) := by
  obtain ⟨hroll, -, a, hc, rfl, rfl⟩ := hp
  have hstand := stands h.alloc hc (Or.inl hroll)
  obtain ⟨hka, hload, hcur⟩ := cursor_eq h.alloc hc
  have hT : s'.taken (l' :: rest) = s.taken (l :: rest) := taken_same hx (by simp) (by simp)
  have hle := takenDurably_le s' (l' :: rest)
  have hv : l'.hist.roll = l.hist.roll := congrArg AllocView.roll (view_persist hx)
  obtain ⟨he, -⟩ := exec_allocOp hx
  simp only [AllocOp.exec, DB.write_of_no_faults h.working] at he
  cases he
  have hrolls : ∀ i b, Rolling (l' :: rest) i b ↔ Rolling (l :: rest) i b := by
    intro i b
    rw [rolling_cons, rolling_cons, hv]
  have hcur' : Sys.cursor { s with db := ⟨s.db.disk.setCursor ⟨a.curSeg, a.curOff⟩, []⟩ } = s.cursor := by
    rw [Sys.cursor, Sys.cursor, if_pos hload, if_pos hload]
  have hrec : Sys.recorded { s with db := ⟨s.db.disk.setCursor ⟨a.curSeg, a.curOff⟩, []⟩ }
      = ⟨a.curSeg, a.curOff⟩ := rfl
  have hocc : ∀ i, Occupied { s with db := ⟨s.db.disk.setCursor ⟨a.curSeg, a.curOff⟩, []⟩ }
      (l' :: rest) i → Occupied s (l :: rest) i := by
    rintro i (hin | ⟨hi, hno⟩ | hi | hin)
    · exact Or.inl (takenIn_mono (le_of_eq hT) hin)
    · rw [hcur'] at hi
      exact Or.inr (Or.inl ⟨hi, fun hf => hno ((hrolls _ _).mpr hf)⟩)
    · rw [hrec] at hi
      exact hi ▸ hstand
    · exact Or.inr (Or.inr (Or.inr ((hrolls i true).mp hin)))
  have hbump := h.ahead
  rw [hcur] at hbump
  refine ⟨hs, ?_, ?_, ?_, h.memory.mono hocc, h.disk.mono hocc, ?_, ?_⟩
  · rw [hT, hcur']
    exact h.ahead
  · rw [hrec]
    exact hbump.mono (hT ▸ hle)
  · intro i b hin
    obtain ⟨hi, hcl⟩ := h.rolls i b ((hrolls i b).mp hin)
    exact ⟨hi, fun hin => hcl (takenIn_mono (le_of_eq hT) hin)⟩
  · rw [hT]
    exact h.regions
  · have hcursor := h.cursors.1
    rw [hcur', hrec]
    exact ⟨hcursor, by rwa [hcur] at hcursor⟩

/-- **The step lemma.** -/
theorem step (h : ExtentsKept s (l :: rest)) {o : Op} {r : o.Reply} (hp : o.allocPre l.view)
    (hb : o.Backed l) (hok : SparesExtents s l rest o) (hx : exec L s l o = some (s', l', r)) :
    ExtentsKept s' (l' :: rest) := by
  have hs := h.steady hp hb hok hx
  -- an operation that touches neither the segments nor pebble nor the allocator
  have hquiet : o.OffAlloc → (∀ a, o ≠ .alloc a) → o ≠ .pebble .apply → s'.segs = s.segs →
      s'.db = s.db → ExtentsKept s' (l' :: rest) := by
    intro hoff ho happly hsegs hdb
    refine h.off hs hx ho happly (congrArg AllocView.roll (view_frame hx hoff)) ?_ ?_
    · rw [hsegs]
      exact h.memory
    · rw [hdb]
      exact h.disk
  -- one of the segment manager that makes no segment `Free`
  have hsegsOp : ∀ so : SegsOp, o = .segs so → (∀ ids, so ≠ .gcFinalize ids) →
      l'.hist.roll = l.hist.roll → ExtentsKept s' (l' :: rest) := by
    rintro so rfl hg hroll
    obtain ⟨b, he, -⟩ := exec_segsOp hx
    obtain ⟨hm, hd⟩ := SegsOp.evolves he h.memory.nonneg h.pool (h.named_nonneg hp hb) hg
    exact h.off hs hx (by simp) (by simp) hroll (h.memory.evolve hm) (h.disk.evolve hd)
  cases o with
  | cache o => cases hx; exact hquiet True.intro (by simp) (by simp) rfl rfl
  | dev o => cases hx; exact hquiet True.intro (by simp) (by simp) rfl rfl
  | pebble o =>
    cases o with
    | apply => exact h.stepApply hs hx
    | _ => cases hx; exact hquiet True.intro (by simp) (by simp) rfl rfl
  | segs o =>
    have hoff : (Op.segs o).OffAlloc → l'.hist.roll = l.hist.roll :=
      fun hoff => congrArg AllocView.roll (view_frame hx hoff)
    cases o with
    | canUse id => exact h.stepCanUse hp hs hx
    | activate id => exact h.stepActivate hp hb hs hx
    | popFree => exact h.stepPopFree hp hs hx
    | gcFinalize ids => exact h.stepGcFinalize hs hok hx
    | markFull id =>
      exact hsegsOp _ rfl (by simp) (congrArg AllocView.roll (view_markFull hx))
    | _ => exact hsegsOp _ rfl (by simp) (hoff True.intro)
  | alloc o =>
    cases o with
    | unlock => exact h.stepUnlock hp hs hx
    | setCursor seg off => exact h.stepSetCursor hp hs hx
    | take n => exact h.stepTake hp hs hx
    | persist seg off => exact h.stepPersist hp hs hx
    | lock =>
      have hroll : l'.hist.roll = l.hist.roll := congrArg AllocView.roll (view_lock hx)
      obtain ⟨he, -⟩ := exec_allocOp hx
      simp only [AllocOp.exec] at he
      split at he <;> cases he
      exact h.stepStill hs hx (by simp) (by simp) rfl rfl rfl hroll
    | ensureLoaded =>
      have hroll : l'.hist.roll = l.hist.roll := congrArg AllocView.roll (view_ensureLoaded hx)
      obtain ⟨he, -⟩ := exec_allocOp hx
      cases he
      exact h.stepStill hs hx (by simp) (by simp) rfl rfl rfl hroll
    | read =>
      have hroll : l'.hist.roll = l.hist.roll := congrArg AllocView.roll (view_read hx).1
      obtain ⟨he, -⟩ := exec_allocOp hx
      cases he
      exact h.stepStill hs hx (by simp) (by simp) rfl rfl rfl hroll

end ExtentsKept

/-! ## 4. Reopening -/

/-- **Reopening keeps the extents.**  The cursor goes back to where it was last recorded, and
every committed extent is behind that. -/
theorem ExtentsKept.reopen (h : ExtentsKept s ls) : ExtentsKept s.reopen [] := by
  have hle := taken_reopen s ls
  have hT : s.reopen.taken [] ≤ s.taken ls := hle.trans (takenDurably_le s ls)
  have hcur : s.reopen.cursor = s.recorded := rfl
  have hno : ∀ id b, ¬ Rolling [] id b := fun id b ⟨x, hx, _⟩ => absurd hx List.not_mem_nil
  have hocc : ∀ id, Occupied s.reopen [] id → Occupied s ls id := by
    rintro id (hin | ⟨hid, -⟩ | hid | hin)
    · exact Or.inl (takenIn_mono hT hin)
    · exact Or.inr (Or.inr (Or.inl hid))
    · exact Or.inr (Or.inr (Or.inl hid))
    · exact absurd hin (hno id true)
  have hreg : ∀ a ∈ s.reopen.taken [], 0 ≤ a.region := fun a ha => h.regions a (Multiset.mem_of_le hT ha)
  have hd : Fit s.db.disk.state? (Occupied s.reopen []) := h.disk.mono hocc
  refine ⟨⟨h.working, allocSound_initial rfl, SegmentManager.poolCoherent_rebuild _, ?_⟩, ?_, ?_, ?_,
    ?_, hd, hreg, h.cursors.2, h.cursors.2⟩
  · exact fun l hl => absurd hl List.not_mem_nil
  · exact h.recorded.mono hle
  · exact h.recorded.mono ((takenDurably_le _ _).trans hle)
  · exact fun id b hin => absurd hin (hno id b)
  · refine hd.rebuild fun key md hmd => hreg md.span ?_
    rw [taken_nil]
    exact Disk.mem_spans hmd

theorem extentsKept_init (bytes : Int → Byte) (devFaults : List Bool) :
    ExtentsKept (Sys.init bytes [] devFaults) [] := by
  have hT : (Sys.init bytes [] devFaults).taken [] = 0 := by
    rw [taken_nil]
    rfl
  have hD : (Sys.init bytes [] devFaults).takenDurably [] = 0 :=
    Multiset.le_zero.mp (hT ▸ takenDurably_le _ _)
  have hfit : ∀ used : Int → Prop, (∀ id, used id → id = 0) → Fit (fun _ => none) used :=
    fun used hu => ⟨fun _ _ => by simp, fun id hid _ => hu id hid, fun _ hn => absurd rfl hn⟩
  have hocc : ∀ id, Occupied (Sys.init bytes [] devFaults) [] id → id = 0 := by
    rintro id (⟨a, ha, -⟩ | ⟨hid, -⟩ | hid | ⟨x, hx, -⟩)
    · rw [hT] at ha
      exact absurd ha (Multiset.notMem_zero a)
    · exact hid
    · exact hid
    · exact absurd hx List.not_mem_nil
  refine ⟨⟨rfl, allocSound_initial rfl, SegmentManager.poolCoherent_empty, ?_⟩, ?_, ?_, ?_,
    hfit _ hocc, hfit _ hocc, ?_, Int.le_refl 0, Int.le_refl 0⟩
  · exact fun l hl => absurd hl List.not_mem_nil
  · rw [hT]
    exact Span.bump_zero _
  · rw [hD]
    exact Span.bump_zero _
  · exact fun id b ⟨x, hx, _⟩ => absurd hx List.not_mem_nil
  · intro a ha
    rw [hT] at ha
    exact absurd ha (Multiset.notMem_zero a)

/-! ## 5. Runs -/

/-- Calls that commit what they have allocated may start, the store may be reopened at any time,
and the steps spare the extents in use. -/
def sparingExtents : Rule sig Sys Local Call where
  permit := fun call => call.supplied = false
  restarts := True
  allow := SparesExtents

instance (call : Call) : Decidable (sparingExtents.permit call) :=
  inferInstanceAs (Decidable (call.supplied = false))
instance : Decidable sparingExtents.restarts := inferInstanceAs (Decidable True)
instance (s : Sys) (l : Local) (ls : List Local) (o : Op) :
    Decidable (sparingExtents.allow s l ls o) := inferInstanceAs (Decidable (SparesExtents s l ls o))

/-- The extents in use as an invariant of runs. -/
def extentsDiscipline (L : Layout) : Discipline (machine L) where
  toRule := sparingExtents
  contract := ((allocProtocol L).both (machine L).possible).both (backing L)
  inv := ExtentsKept
  post := fun _ l => (l.view = .idle ∧ l.duty = .none) ∧ True
  perm := fun _ _ _ hp h => h.perm hp
  spawn := fun _ _ call _ h => h.spawn call
  starts := fun call hc => ((code_allocates L call _ rfl).both (code_settles L call _ rfl)).both
    (code_backed L hc _ rfl)
  retire := by
    rintro s l rest a ⟨⟨hv, hd⟩, -⟩ h
    exact ⟨h.retire hv (congrArg Duty.batch hd), ⟨hv, hd⟩, True.intro⟩
  restart := fun _ _ _ h => h.reopen
  sound := by
    rintro s l rest o s' l' r h ⟨⟨hp, -⟩, hb⟩ hok hx
    exact ⟨h.step hp hb hok hx, ⟨⟨s, s', h.alloc.knows, hx⟩, s, s', True.intro, hx⟩,
      s, s', True.intro, hx⟩

/-- Two objects fill a segment each; the first is deleted, its segment reclaimed, and an allocation
has rolled there. -/
def reusedSegment : List (Act Call) :=
  Act.calls (.put [1] 1 [7]) 0 15 ++ Act.calls (.put [2] 1 [8]) 1 19
    ++ Act.calls (.deleteMapping [1]) 2 6 ++ Act.calls (.reclaimOnce []) 3 3
    ++ Act.calls (.allocateSegment 1) 4 6

/-- **An extent is handed out twice.**  A put stops after its allocation; the other object in its
segment is deleted and the segment reclaimed; the next allocation rolls to the beginning of that
segment, where the put is still writing. -/
theorem open_extent_taken : ∃ c : SysConf,
    (machine ⟨8192, 3⟩).run (SysConf.init (fun _ => 0) [] [])
      (Act.calls (.put [1] 1 [7]) 0 7 ++ Act.calls (.put [2] 1 [8]) 1 15
        ++ Act.calls (.deleteMapping [2]) 2 6 ++ Act.calls (.reclaimOnce []) 3 3
        ++ Act.calls (.allocateSegment 1) 4 6) = some c ∧
      ¬ ∀ t l n, c.next? t = some (l, .alloc (.take n)) →
        ∀ a ∈ c.shared.taken c.locals,
          Span.Disjoint ⟨c.shared.alloc.curSeg, c.shared.alloc.curOff, n⟩ a := by
  obtain ⟨c, hc, hview⟩ := Option.map_eq_some_iff.mp
    (show ((machine ⟨8192, 3⟩).run (SysConf.init (fun _ => 0) [] [])
      (Act.calls (.put [1] 1 [7]) 0 7 ++ Act.calls (.put [2] 1 [8]) 1 15
        ++ Act.calls (.deleteMapping [2]) 2 6 ++ Act.calls (.reclaimOnce []) 3 3
        ++ Act.calls (.allocateSegment 1) 4 6)).map
        (fun c => ((c.next? 4).map (fun x => x.2.taken),
          (c.shared.alloc.curSeg, c.shared.alloc.curOff),
          decide ((⟨0, 0, 4096⟩ : Span) ∈ c.shared.taken c.locals)))
      = some (some 4096, (0, 0), true) by decide +kernel)
  simp only [Prod.mk.injEq, decide_eq_true_eq] at hview
  obtain ⟨hnext, ⟨hseg, hoff⟩, hin⟩ := hview
  obtain ⟨⟨l, o⟩, heq, htake⟩ := Option.map_eq_some_iff.mp hnext
  refine ⟨c, hc, fun h => ?_⟩
  obtain rfl : o = .alloc (.take 4096) := Op.eq_take htake (by decide)
  have hdis := h 4 l 4096 heq _ hin
  rw [hseg, hoff] at hdis
  exact absurd hdis (by decide)

end Taihu
