/-
# Allocating a batch and allocating in turn

`AllocateSegmentBatch` moves the cursor in memory from item to item and writes it to pebble once;
`AllocateSegment`, called for each size, writes it after every item.  The calls run alone, from
any state.

The cursor on disk is not read while the cursor in memory is loaded, so an item is allocated alike
in two states that differ in it (`allocOneLocked_same`).  Writes that fail are not compared one by
one, as the two ways do not make the same writes.  A batch that succeeds had no failed write, and
then the calls in turn, on a pebble that works, give the same extents and the same state; and on
a pebble that works either both fail or none (`allocate_batch_in_turn`).
-/
import Taihu.FailedAllocation
import Taihu.Lib.Simulation

namespace Taihu

open Concur Program

/-! ## 1. The same store -/

/-- The tables are the same, and no write to the second will fail. -/
structure SameDB (a b : DB) : Prop where
  segment : b.disk.segment = a.disk.segment
  mapping : b.disk.mapping = a.disk.mapping
  working : b.faults = []

/-- The same but for the cursor on disk, and no write of the second store will fail. -/
structure SameButCursor (s t : Sys) : Prop where
  db : SameDB s.db t.db
  segs : t.segs = s.segs
  segMu : t.segMu = s.segMu
  alloc : t.alloc = s.alloc

/-- The operations of `allocOneLocked`. -/
def Op.Allocates : Op → Prop
  | .alloc .read => True
  | .alloc (.setCursor _ _) => True
  | .alloc (.take _) => True
  | .segs (.canUse _) => True
  | .segs (.activate _) => True
  | .segs (.markFull _) => True
  | .segs .popFree => True
  | _ => False

/-- The reply of an operation whose write has failed. -/
def Op.WriteFailed : (o : Op) → o.Reply → Prop
  | .segs (.activate _), ok => ok = false
  | .segs (.markFull _), ok => ok = false
  | .segs .popFree, id => id = none
  | _, _ => False

variable {L : Layout} {s s' t : Sys} {l l' m : Local} {a b : DB}

theorem SameButCursor.symm (h : SameButCursor s t) (hw : s.db.faults = []) : SameButCursor t s where
  db := ⟨h.db.segment.symm, h.db.mapping.symm, hw⟩
  segs := h.segs.symm
  segMu := h.segMu.symm
  alloc := h.alloc.symm

/-- A write of a record fails, and then not every write would have succeeded; or it succeeds, and
so it does in the other store. -/
theorem SameDB.persist (h : SameDB a b) {id : Int} {e : SegEntry} {ok : Bool} {a' : DB}
    (hp : SegmentManager.persist a id e = (ok, a')) : (ok = false ∧ a.faults ≠ []) ∨
      (ok = true ∧ (∃ b', SegmentManager.persist b id e = (true, b') ∧ SameDB a' b') ∧
        (a.faults = [] → a'.faults = [])) := by
  cases ok with
  | false =>
    obtain ⟨-, hhead⟩ := DB.write_false hp
    refine Or.inl ⟨rfl, fun hw => ?_⟩
    rw [hw] at hhead
    exact absurd hhead (by simp)
  | true =>
    obtain ⟨hdisk, hfaults⟩ := DB.write_true hp
    refine Or.inr ⟨rfl, ⟨_, DB.write_of_no_faults h.working _, ?_⟩, fun hw => ?_⟩
    · constructor
      · rw [hdisk]
        exact congrArg (fun x => x.insert id e.md) h.segment
      · rw [hdisk]
        exact h.mapping
      · rfl
    · rw [hfaults, hw]
      rfl

/-! ## 2. One operation -/

/-- What the second store answers where the first one went from `s` to `s'` with reply `r`: the
same, unless the first one's write failed. -/
def Answers (L : Layout) (o : Op) (s s' t : Sys) (m : Local) (r : o.Reply) : Prop :=
  (o.WriteFailed r ∧ s.db.faults ≠ []) ∨ ∃ t' m', exec L t m o = some (t', m', r) ∧
    SameButCursor s' t' ∧ (s.db.faults = [] → s'.db.faults = [])

theorem answers_alloc {o : AllocOp} {t' : Sys} {r : o.Reply} (hx : o.exec t = some (t', r))
    (h : SameButCursor s' t') (hw : s.db.faults = [] → s'.db.faults = []) :
    Answers L (.alloc o) s s' t m r :=
  Or.inr ⟨t', { m with hist := o.note m.hist r }, by simp [exec, hx], h, hw⟩

/-- What a method of the segment manager does to pebble and the table, in both stores. -/
def SegsAnswers (o : SegsOp) (f : DB → SegmentManager → Option (o.Reply × DB × SegmentManager)) :
    Prop :=
  ∀ (a b a' : DB) (mgr mgr' : SegmentManager) (r : o.Reply), SameDB a b →
    f a mgr = some (r, a', mgr') → ((Op.segs o).WriteFailed r ∧ a.faults ≠ []) ∨
      ((∃ b', f b mgr = some (r, b', mgr') ∧ SameDB a' b') ∧ (a.faults = [] → a'.faults = []))

/-- A method of the segment manager that locks its mutex. -/
theorem SameButCursor.segsOp {o : SegsOp}
    {f : DB → SegmentManager → Option (o.Reply × DB × SegmentManager)} (hans : SegsAnswers o f)
    (hf : ∀ (s : Sys) (c : Batch), o.exec s c = if s.segMu then none else
      (f s.db s.segs).map (fun x => ({ s with db := x.2.1, segs := x.2.2 }, c, x.1)))
    (h : SameButCursor s t) {r : o.Reply}
    (hx : exec L s l (.segs o) = some (s', l', r)) (m : Local) :
    Answers L (.segs o) s s' t m r := by
  obtain ⟨c, hx, -⟩ := exec_segsOp hx
  rw [hf] at hx
  split at hx
  · cases hx
  · rename_i hfree
    obtain ⟨⟨r', a', mgr'⟩, hfx, he⟩ := Option.map_eq_some_iff.mp hx
    cases he
    rcases hans _ _ _ _ _ _ h.db hfx with hbad | ⟨⟨b', hb', hsame⟩, hw⟩
    · exact Or.inl hbad
    · refine Or.inr ⟨{ t with db := b', segs := mgr' }, ⟨m.batch, o.note t m.hist r'⟩, ?_,
        ⟨hsame, rfl, h.segMu, h.alloc⟩, hw⟩
      have hexec : o.exec t m.batch = some ({ t with db := b', segs := mgr' }, m.batch, r') := by
        rw [hf, h.segMu, if_neg hfree, h.segs, hb']
        rfl
      simp [exec, hexec]

theorem canUse_answers (id : Int) :
    SegsAnswers (.canUse id) (fun a mgr => some (mgr.canUse id, a, mgr)) := by
  intro a b a' mgr mgr' r hdb hx
  cases hx
  exact Or.inr ⟨⟨b, rfl, hdb⟩, fun hw => hw⟩

theorem activate_answers (id : Int) :
    SegsAnswers (.activate id) (fun a mgr => some (SegmentManager.activate a mgr id)) := by
  intro a b a' mgr mgr' r hdb hx
  rcases he : mgr.ensureLocked id with ⟨e, mgr1⟩
  rcases hp : SegmentManager.persist a id (e.withState .active) with ⟨ok, db⟩
  simp only [SegmentManager.activate, he, hp] at hx ⊢
  cases hx
  rcases hdb.persist hp with hbad | ⟨rfl, ⟨b', hb', hsame⟩, hw⟩
  · exact Or.inl hbad
  · refine Or.inr ⟨⟨b', ?_, hsame⟩, hw⟩
    rw [hb']

theorem markFull_answers (id : Int) :
    SegsAnswers (.markFull id) (fun a mgr => some (SegmentManager.markFull a mgr id)) := by
  intro a b a' mgr mgr' r hdb hx
  cases he : mgr.segs.find? id with
  | none =>
    simp only [SegmentManager.markFull, he] at hx ⊢
    cases hx
    exact Or.inr ⟨⟨b, rfl, hdb⟩, fun hw => hw⟩
  | some e =>
    rcases hp : SegmentManager.persist a id (e.withState .full) with ⟨ok, db⟩
    simp only [SegmentManager.markFull, he, hp] at hx ⊢
    cases hx
    rcases hdb.persist hp with hbad | ⟨rfl, ⟨b', hb', hsame⟩, hw⟩
    · exact Or.inl hbad
    · refine Or.inr ⟨⟨b', ?_, hsame⟩, hw⟩
      rw [hb']

theorem popFree_answers : SegsAnswers .popFree SegmentManager.popFree := by
  intro a b a' mgr mgr' r hdb hx
  unfold SegmentManager.popFree at hx ⊢
  cases hfree : mgr.free with
  | nil =>
    rw [hfree] at hx
    cases hx
    exact Or.inr ⟨⟨b, rfl, hdb⟩, fun hw => hw⟩
  | cons id rest =>
    rw [hfree] at hx
    obtain ⟨e, he, hx⟩ := Option.map_eq_some_iff.mp hx
    rcases hp : SegmentManager.persist a id (e.withState .active) with ⟨ok, db⟩
    rw [hp] at hx
    rcases hdb.persist hp with ⟨rfl, hbad⟩ | ⟨rfl, ⟨b', hb', hsame⟩, hw⟩
    · cases hx
      exact Or.inl ⟨rfl, hbad⟩
    · cases hx
      refine Or.inr ⟨⟨b', ?_, hsame⟩, hw⟩
      simp only [he, Option.map_some, hb']
      rfl

/-- **Every operation of `allocOneLocked`.** -/
theorem SameButCursor.answers {o : Op} {r : o.Reply} (ho : o.Allocates) (h : SameButCursor s t)
    (hx : exec L s l o = some (s', l', r)) (m : Local) : Answers L o s s' t m r := by
  cases o with
  | cache o => exact ho.elim
  | pebble o => exact ho.elim
  | dev o => exact ho.elim
  | alloc o =>
    obtain ⟨hx, -⟩ := exec_allocOp hx
    cases o with
    | read =>
      cases hx
      refine answers_alloc ?_ h (fun hw => hw)
      rw [← h.alloc]
      rfl
    | setCursor seg off =>
      cases hx
      refine answers_alloc rfl ⟨h.db, h.segs, h.segMu, ?_⟩ (fun hw => hw)
      simp only [h.alloc]
    | take aligned =>
      cases hx
      have ht : AllocOp.exec t (.take aligned) = some
          ({ t with alloc := { t.alloc with curOff := t.alloc.curOff + aligned } },
            (s.alloc.curSeg, s.alloc.curOff)) := by
        rw [← h.alloc]
        rfl
      refine answers_alloc ht ⟨h.db, h.segs, h.segMu, ?_⟩ (fun hw => hw)
      simp only [h.alloc]
    | lock => exact ho.elim
    | unlock => exact ho.elim
    | ensureLoaded => exact ho.elim
    | persist seg off => exact ho.elim
  | segs o =>
    cases o with
    | canUse id => exact h.segsOp (canUse_answers id) (fun _ _ => rfl) hx m
    | activate id => exact h.segsOp (activate_answers id) (fun _ _ => rfl) hx m
    | markFull id => exact h.segsOp (markFull_answers id) (fun _ _ => rfl) hx m
    | popFree => exact h.segsOp popFree_answers (fun _ _ => rfl) hx m
    | lock => exact ho.elim
    | unlock => exact ho.elim
    | putObjectLocked key md old v => exact ho.elim
    | delObjectLocked key md => exact ho.elim
    | ref id reader => exact ho.elim
    | unref id => exact ho.elim
    | markCompacting id => exact ho.elim
    | gcCandidates order => exact ho.elim
    | gcFinalize ids => exact ho.elim

/-! ## 3. One item -/

/-- A procedure has succeeded. -/
def Succeeded {α : Type} (r : Res α) : Prop := ∃ a, r = .ok a

theorem not_succeeded_error {α : Type} (e : Err) : ¬ Succeeded (.error e : Res α) := by
  rintro ⟨a, ha⟩
  cases ha

theorem rollSegment_uses (a : Allocator) (useReserve : Bool) :
    (rollSegment L a useReserve).Uses Op.Allocates := by
  unfold rollSegment
  refine Uses.bind (.ite (uses_perform trivial) trivial) fun marked => .ite ?_ trivial
  refine Uses.bind (.ite (uses_perform trivial) trivial) fun next => .ite ?_ ?_
  · refine Uses.step trivial fun _ => Uses.step trivial fun ok => .ite trivial trivial
  · refine Uses.step trivial fun id => ?_
    cases id with
    | none => trivial
    | some seg => exact Uses.step trivial fun _ => trivial

/-- A roll does not succeed after a failed write. -/
theorem rollSegment_aborts (a : Allocator) (useReserve : Bool) :
    (rollSegment L a useReserve).Aborts Op.WriteFailed Succeeded := by
  have hmark : Aborts Op.WriteFailed (fun ok => ok = true)
      (if 0 < a.curOff then markFull a.curSeg else Pure.pure true : Proc Bool) := by
    split
    · exact aborts_perform fun ok hok => by simp [show ok = false from hok]
    · trivial
  have hnext : ∀ upper : Int, Aborts Op.WriteFailed (fun _ => True)
      (if a.curSeg + 1 < upper then canUse (a.curSeg + 1) else Pure.pure false : Proc Bool) := by
    intro upper
    split
    · exact fun ok => ⟨False.elim, trivial⟩
    · trivial
  have hact : Aborts Op.WriteFailed (fun ok => ok = true) (activate (a.curSeg + 1)) :=
    aborts_perform fun ok hok => by simp [show ok = false from hok]
  unfold rollSegment
  refine hmark.bind (fun ok hok => ?_) fun marked => ?_
  · rw [if_neg hok]
    exact not_succeeded_error _
  split
  · refine (hnext _).bind (fun _ h => absurd trivial h) fun next => ?_
    split
    · intro u
      refine ⟨fun h => h.elim, hact.bind (fun ok hok => ?_) fun ok => ?_⟩
      · rw [if_neg hok]
        exact not_succeeded_error _
      · split <;> trivial
    · intro x
      constructor
      · intro hx
        obtain rfl : x = none := hx
        exact not_succeeded_error _
      · cases x with
        | none => trivial
        | some seg => exact fun u => ⟨fun h => h.elim, trivial⟩
  · trivial

theorem allocOneLocked_uses (size : Int) (useReserve : Bool) :
    (allocOneLocked L size useReserve).Uses Op.Allocates := by
  unfold allocOneLocked
  refine Uses.step trivial fun a => Uses.bind (.ite (rollSegment_uses a useReserve) trivial) ?_
  intro rolled
  cases rolled with
  | error e => trivial
  | ok u => exact Uses.step trivial fun x => trivial

theorem allocOneLocked_aborts (size : Int) (useReserve : Bool) :
    (allocOneLocked L size useReserve).Aborts Op.WriteFailed Succeeded := by
  unfold allocOneLocked
  intro a
  refine ⟨fun h => h.elim, ?_⟩
  have hroll : Aborts Op.WriteFailed Succeeded (if a.curOff + align4k size > L.segmentSizeBytes
      then rollSegment L a useReserve else Pure.pure (.ok ()) : Proc (Res Unit)) := by
    split
    · exact rollSegment_aborts a useReserve
    · trivial
  refine hroll.bind (fun r hr => ?_) fun r => ?_
  · cases r with
    | error e => exact not_succeeded_error e
    | ok u => exact absurd ⟨u, rfl⟩ hr
  · cases r with
    | error e => trivial
    | ok u => exact fun x => ⟨fun h => h.elim, trivial⟩

/-- **One item that succeeds** is allocated alike in the other store. -/
theorem allocOneLocked_same {size : Int} {useReserve : Bool} {x : Int × Int} (h : SameButCursor s t)
    (hx : (allocOneLocked L size useReserve).exec (exec L) s l = some (s', l', .ok x))
    (m : Local) : ∃ t' m', (allocOneLocked L size useReserve).exec (exec L) t m
      = some (t', m', .ok x) ∧ SameButCursor s' t' := by
  refine exec_sim (allocOneLocked_uses size useReserve) (allocOneLocked_aborts size useReserve)
    (fun o s l t m s' l' r ho hst hstep => ?_) h hx ⟨x, rfl⟩
  rcases hst.answers ho hstep m with hbad | ⟨t', m', ht, hsame, -⟩
  · exact Or.inl hbad.1
  · exact Or.inr ⟨t', m', ht, hsame⟩

/-- Between two stores that both work, every result is the same. -/
theorem allocOneLocked_same_working {size : Int} {useReserve : Bool} {r : Res (Int × Int)}
    (h : SameButCursor s t) (hw : s.db.faults = [])
    (hx : (allocOneLocked L size useReserve).exec (exec L) s l = some (s', l', r)) (m : Local) :
    ∃ t' m', (allocOneLocked L size useReserve).exec (exec L) t m = some (t', m', r) ∧
      SameButCursor s' t' ∧ s'.db.faults = [] := by
  have hnever : Aborts (fun _ _ => False) (fun _ => True) (allocOneLocked L size useReserve) :=
    aborts_of_never _
  refine exec_sim (R := fun s t => SameButCursor s t ∧ s.db.faults = [])
    (allocOneLocked_uses size useReserve) hnever (fun o s l t m s' l' r ho hst hstep => ?_) ⟨h, hw⟩
    hx trivial
  rcases hst.1.answers ho hstep m with hbad | ⟨t', m', ht, hsame, hkeep⟩
  · exact absurd hst.2 hbad.2
  · exact Or.inr ⟨t', m', ht, hsame, hkeep hst.2⟩

/-- The extent that is returned lies in the segment of the cursor. -/
theorem allocOneLocked_ok {size : Int} {useReserve : Bool} {x : Int × Int}
    (hload : s.alloc.cursorLoaded = true)
    (hx : (allocOneLocked L size useReserve).exec (exec L) s l = some (s', l', .ok x)) :
    s'.alloc.cursorLoaded = true ∧ s'.alloc.curSeg = x.1 := by
  constructor
  · by_cases hfit : s.alloc.curOff + align4k size ≤ L.segmentSizeBytes
    · obtain ⟨rfl, -⟩ := allocOneLocked_fits hfit hx
      exact hload
    · exact (allocOneLocked_rolls hload (by omega) hx).1
  · unfold allocOneLocked at hx
    obtain ⟨s1, l1, a, -, hx⟩ := exec_bind_eq_some.mp hx
    obtain ⟨s2, l2, rolled, -, hx⟩ := exec_bind_eq_some.mp hx
    cases rolled with
    | error e =>
      obtain ⟨-, -, he⟩ := exec_pure_eq_some.mp hx
      cases he
    | ok u =>
      obtain ⟨s3, l3, y, htake, hx⟩ := exec_bind_eq_some.mp hx
      rw [takeExtent, perform, exec_perform] at htake
      obtain ⟨rfl, -, hy⟩ := exec_pure_eq_some.mp hx
      obtain ⟨ht, -⟩ := exec_allocOp htake
      cases ht
      cases hy
      rfl

/-! ## 4. The calls -/

/-- `AllocateSegment` for each of the sizes, up to the first that fails. -/
def inTurn (L : Layout) : List Int → Sys → Option (Sys × Res (List (Int × Int)))
  | [], s => some (s, .ok [])
  | size :: sizes, s =>
    ((allocate L size false).exec (exec L) s { hist := { call := .allocateSegment size } }).bind
      fun x => match x.2.2 with
        | .error e => some (x.1, .error e)
        | .ok a => (inTurn L sizes x.1).map (fun y => (y.1, y.2.map (a :: ·)))

/-- The store on a pebble that works. -/
def Sys.working (s : Sys) : Sys := { s with db := ⟨s.db.disk, []⟩ }

/-- The state at the end of `allocate`, after `allocOneLocked`. -/
def Sys.closed (s : Sys) : Res (Int × Int) → Sys
  | .ok x => { s with db := ⟨s.db.disk.setCursor ⟨x.1, s.alloc.curOff⟩, []⟩, allocMu := false }
  | .error _ => s.ended

theorem exec_begin_eq (hmu : t.allocMu = false) (l : Local) : ∃ m, ∀ {α : Type} (p : Proc α),
    (do allocLock; ensureLoaded; p : Proc α).exec (exec L) t l = p.exec (exec L) t.begun m := by
  refine ⟨{ l with hist := AllocOp.ensureLoaded.note (AllocOp.lock.note l.hist ()) () },
    fun p => ?_⟩
  rw [exec_bind, allocLock, perform, exec_perform]
  simp only [exec, AllocOp.exec, hmu, Bool.false_eq_true, if_false, Option.map_some,
    Option.bind_some]
  rw [exec_bind, ensureLoaded, perform, exec_perform]
  rfl

theorem exec_end {α : Type} (hw : t.db.faults = []) (seg off : Int) (a : α) (m : Local) : ∃ m',
    (do
      let ok ← persistCursor seg off
      allocUnlock
      if ok then Pure.pure (.ok a) else Pure.pure (.error .io) : Proc (Res α)).exec (exec L) t m
        = some ({ t with db := ⟨t.db.disk.setCursor ⟨seg, off⟩, []⟩, allocMu := false }, m',
          .ok a) := by
  refine ⟨{ m with
    hist := AllocOp.unlock.note ((AllocOp.persist seg off).note m.hist true) () }, ?_⟩
  rw [exec_bind, persistCursor, perform, exec_perform]
  simp only [exec, AllocOp.exec, DB.write_of_no_faults hw, Option.map_some, Option.bind_some]
  rfl

/-- `allocate` is `allocOneLocked` between its head and its end. -/
theorem exec_allocate (size : Int) (hmu : t.allocMu = false) (l : Local) : ∃ m,
    ((allocOneLocked L size false).exec (exec L) t.begun m = none →
      (allocate L size false).exec (exec L) t l = none) ∧
    ∀ {t1 m1 r}, (allocOneLocked L size false).exec (exec L) t.begun m = some (t1, m1, r) →
      t1.db.faults = [] →
      ∃ m2, (allocate L size false).exec (exec L) t l = some (t1.closed r, m2, r) := by
  obtain ⟨m, hm⟩ := exec_begin_eq (L := L) hmu l
  unfold allocate
  refine ⟨m, fun hone => ?_, fun {t1 m1 r} hone hw => ?_⟩
  · rw [hm, exec_bind, hone, Option.bind_none]
  · rw [hm, exec_bind, hone, Option.bind_some]
    cases r with
    | error e => exact ⟨_, rfl⟩
    | ok x =>
      obtain ⟨seg, off⟩ := x
      exact exec_end hw seg t1.alloc.curOff (seg, off) _

/-! ## 5. The items of a batch, and the calls in turn -/

/-- The cursor of a store that is between two calls, when it is loaded. -/
theorem begun_alloc (hload : t.alloc.cursorLoaded = true) : t.begun.alloc = t.alloc := by
  show (⟨t.cursor.segmentID, t.cursor.offset, true⟩ : Allocator) = t.alloc
  rw [Sys.cursor_eq hload, ← hload]

/-- After an item the store of the calls has written its cursor, and is between two calls. -/
theorem SameButCursor.closed (h : SameButCursor s t) (hload : t.alloc.cursorLoaded = true)
    (x : Int × Int) : SameButCursor s (t.closed (.ok x)).begun where
  db := ⟨h.db.segment, h.db.mapping, rfl⟩
  segs := h.segs
  segMu := h.segMu
  alloc := (begun_alloc (t := t.closed (.ok x)) hload).trans h.alloc

/-- Where the calls have come to: nothing has been called, or the cursor is on disk. -/
def Arrived (sizes : List Int) (t t' : Sys) : Prop :=
  (sizes = [] ∧ t' = t) ∨ (sizes ≠ [] ∧ t'.alloc.cursorLoaded = true ∧
    t'.db.disk.cursor = some ⟨t'.alloc.curSeg, t'.alloc.curOff⟩)

/-- **A batch whose items all find space.** -/
theorem inTurn_of_loop (sizes : List Int) : ∀ {s t s' : Sys} {l l' : Local}
    {xs : List (Int × Int)}, SameButCursor s t.begun → t.allocMu = false →
    (allocBatchLoop L sizes).exec (exec L) s l = some (s', l', .ok xs) →
    ∃ t', inTurn L sizes t = some (t', .ok xs) ∧ SameButCursor s' t'.begun ∧
      xs.length = sizes.length ∧ Arrived sizes t t' := by
  induction sizes with
  | nil =>
    intro s t s' l l' xs h hmu hx
    obtain ⟨rfl, -, hr⟩ := exec_pure_eq_some.mp hx
    cases hr
    exact ⟨t, rfl, h, rfl, Or.inl ⟨rfl, rfl⟩⟩
  | cons size sizes ih =>
    intro s t s' l l' xs h hmu hx
    unfold allocBatchLoop at hx
    obtain ⟨s1, l1, r, hone, hx⟩ := exec_bind_eq_some.mp hx
    cases r with
    | error e =>
      obtain ⟨-, -, he⟩ := exec_pure_eq_some.mp hx
      cases he
    | ok x =>
      obtain ⟨s2, l2, rs, hrest, hx⟩ := exec_bind_eq_some.mp hx
      cases rs with
      | error e =>
        obtain ⟨-, -, he⟩ := exec_pure_eq_some.mp hx
        cases he
      | ok ys =>
        obtain ⟨rfl, -, he⟩ := exec_pure_eq_some.mp hx
        cases he
        obtain ⟨m, -, hm⟩ := exec_allocate (L := L) size hmu
          { hist := { call := .allocateSegment size } }
        obtain ⟨t1, m1, ht1, hsame⟩ := allocOneLocked_same h hone m
        obtain ⟨m2, hcall⟩ := hm ht1 hsame.db.working
        obtain ⟨hload, hseg⟩ := allocOneLocked_ok rfl ht1
        obtain ⟨t', hturn, hfinal, hlen, harr⟩ := ih (hsame.closed hload x) rfl hrest
        refine ⟨t', ?_, hfinal, congrArg Nat.succ hlen, Or.inr ⟨by simp, ?_⟩⟩
        · rw [inTurn, hcall]
          simp only [Option.bind_some, hturn, Option.map_some, Except.map]
        · rcases harr with ⟨-, rfl⟩ | ⟨-, hrest⟩
          · refine ⟨hload, ?_⟩
            show some _ = some _
            rw [← hseg]
            rfl
          · exact hrest

/-- **On a pebble that works**: a batch fails at an item exactly when one of the calls does. -/
theorem loop_fails_iff (sizes : List Int) : ∀ {s t : Sys} {l : Local}, SameButCursor s t.begun →
    t.allocMu = false → s.db.faults = [] →
    ((∃ s' l' e, (allocBatchLoop L sizes).exec (exec L) s l = some (s', l', .error e)) ↔
      ∃ t' e, inTurn L sizes t = some (t', .error e)) := by
  induction sizes with
  | nil =>
    intro s t l h hmu hw
    constructor
    · rintro ⟨s', l', e, hx⟩
      obtain ⟨-, -, hr⟩ := exec_pure_eq_some.mp hx
      cases hr
    · rintro ⟨t', e, hx⟩
      cases hx
  | cons size sizes ih =>
    intro s t l h hmu hw
    obtain ⟨m, hwait, hm⟩ := exec_allocate (L := L) size hmu
      { hist := { call := .allocateSegment size } }
    have hrest : ∀ {s1 t1 : Sys} {l1 m1 : Local} {x : Int × Int}, SameButCursor s1 t1 →
        s1.db.faults = [] → (allocOneLocked L size false).exec (exec L) t.begun m
          = some (t1, m1, .ok x) →
        ((∃ s' l' e, (allocBatchLoop L sizes).exec (exec L) s1 l1 = some (s', l', .error e)) ↔
          ∃ t' e, inTurn L sizes (t1.closed (.ok x)) = some (t', .error e)) :=
      fun hsame hw1 ht1 => ih (hsame.closed (allocOneLocked_ok rfl ht1).1 _) rfl hw1
    constructor
    · rintro ⟨s', l', e, hx⟩
      unfold allocBatchLoop at hx
      obtain ⟨s1, l1, r, hone, hx⟩ := exec_bind_eq_some.mp hx
      obtain ⟨t1, m1, ht1, hsame, hw1⟩ := allocOneLocked_same_working h hw hone m
      obtain ⟨m2, hcall⟩ := hm ht1 hsame.db.working
      rw [inTurn, hcall, Option.bind_some]
      cases r with
      | error e' => exact ⟨_, e', rfl⟩
      | ok x =>
        obtain ⟨s2, l2, rs, hloop, hx⟩ := exec_bind_eq_some.mp hx
        cases rs with
        | ok ys =>
          obtain ⟨-, -, he⟩ := exec_pure_eq_some.mp hx
          cases he
        | error e' =>
          obtain ⟨t', e'', hturn⟩ := (hrest hsame hw1 ht1).mp ⟨s2, l2, e', hloop⟩
          refine ⟨t', e'', ?_⟩
          simp only [hturn, Option.map_some, Except.map]
    · rintro ⟨t', e, hx⟩
      rw [inTurn] at hx
      obtain ⟨y, hcall, hx⟩ := Option.bind_eq_some_iff.mp hx
      cases hone : (allocOneLocked L size false).exec (exec L) t.begun m with
      | none =>
        rw [hwait hone] at hcall
        cases hcall
      | some z =>
        obtain ⟨t1, m1, r⟩ := z
        obtain ⟨s1, l1, hs1, hsame, hw1⟩ :=
          allocOneLocked_same_working (h.symm hw) h.db.working hone l
        obtain ⟨m2, hcall'⟩ := hm hone hw1
        obtain rfl := Option.some.inj (hcall.symm.trans hcall')
        unfold allocBatchLoop
        rw [exec_bind, hs1, Option.bind_some]
        cases r with
        | error e' => exact ⟨s1, l1, e', rfl⟩
        | ok x =>
          obtain ⟨⟨t2, r2⟩, hturn, he⟩ := Option.map_eq_some_iff.mp hx
          cases r2 with
          | ok ys => cases he
          | error e' =>
            obtain ⟨s2, l2, e2, hloop⟩ :=
              (hrest (hsame.symm hw1) hsame.db.working hone).mpr ⟨t2, e', hturn⟩
            refine ⟨s2, l2, e2, ?_⟩
            rw [exec_bind, hloop]
            rfl

/-! ## 6. The batch -/

/-- The cursor, the records of the segments in memory and on disk, and the pool are the same. -/
structure SameOutcome (sizes : List Int) (s t : Sys) : Prop where
  cursor : t.cursor = s.cursor
  alloc : sizes ≠ [] → t.alloc = s.alloc
  persisted : t.db.disk.cursor = s.db.disk.cursor
  memory : t.segs = s.segs
  durable : t.db.disk.segment = s.db.disk.segment

theorem SameButCursor.begun_working (s : Sys) : SameButCursor s.begun s.working.begun :=
  ⟨⟨rfl, rfl, rfl⟩, rfl, rfl, rfl⟩

/-- A call that gets on has found the lock free. -/
theorem allocMu_of_exec {α : Type} {p : Proc α} {x : α}
    (h : (do allocLock; ensureLoaded; p : Proc α).exec (exec L) s l = some (s', l', x)) :
    s.allocMu = false := by
  obtain ⟨s1, l1, u, hlock, -⟩ := exec_bind_eq_some.mp h
  rw [allocLock, perform, exec_perform] at hlock
  obtain ⟨hx, -⟩ := exec_allocOp hlock
  simp only [AllocOp.exec] at hx
  split at hx
  · cases hx
  · rename_i hfree
    exact Bool.eq_false_iff.mpr hfree

/-- **A batch that succeeds.** -/
theorem outcome_of_batch {sizes : List Int} {xs : List (Int × Int)}
    (h : (allocateSegmentBatch L sizes).exec (exec L) s l = some (s', l', .ok xs)) :
    ∃ t', inTurn L sizes s.working = some (t', .ok xs) ∧ SameOutcome sizes s' t' := by
  unfold allocateSegmentBatch at h
  have hmu := allocMu_of_exec h
  obtain ⟨m, hm⟩ := exec_begin_eq (L := L) hmu l
  rw [hm] at h
  obtain ⟨s1, l1, r, hloop, h⟩ := exec_bind_eq_some.mp h
  cases r with
  | error e =>
    obtain ⟨s2, l2, u, -, h⟩ := exec_bind_eq_some.mp h
    obtain ⟨-, -, he⟩ := exec_pure_eq_some.mp h
    cases he
  | ok ys =>
    obtain ⟨t', hturn, hsame, hlen, harr⟩ :=
      inTurn_of_loop sizes (SameButCursor.begun_working s) hmu hloop
    dsimp only at h
    split at h
    · rename_i hnil
      obtain rfl : sizes = [] := by
        rw [hnil] at hlen
        exact List.length_eq_zero_iff.mp hlen.symm
      obtain ⟨rfl, -, -⟩ := exec_pure_eq_some.mp hloop
      obtain ⟨s2, l2, u, hunlock, h⟩ := exec_bind_eq_some.mp h
      rw [allocUnlock, perform, exec_perform] at hunlock
      obtain ⟨hx, -⟩ := exec_allocOp hunlock
      cases hx
      obtain ⟨rfl, -, he⟩ := exec_pure_eq_some.mp h
      cases he
      rcases harr with ⟨-, rfl⟩ | ⟨hne, -⟩
      · exact ⟨_, hturn, rfl, fun hne => absurd rfl hne, rfl, rfl, rfl⟩
      · exact absurd rfl hne
    · rename_i hne
      obtain ⟨s2, l2, a, hread, h⟩ := exec_bind_eq_some.mp h
      rw [allocator, perform, exec_perform] at hread
      obtain ⟨hx, -⟩ := exec_allocOp hread
      cases hx
      obtain ⟨s3, l3, ok, hstore, h⟩ := exec_bind_eq_some.mp h
      rw [persistCursor, perform, exec_perform] at hstore
      obtain ⟨hx, -⟩ := exec_allocOp hstore
      obtain ⟨s4, l4, u, hunlock, h⟩ := exec_bind_eq_some.mp h
      rw [allocUnlock, perform, exec_perform] at hunlock
      obtain ⟨hy, -⟩ := exec_allocOp hunlock
      cases hy
      rcases hw : s1.db.write (fun d => d.setCursor ⟨s1.alloc.curSeg, s1.alloc.curOff⟩) with
        ⟨ok', db⟩
      simp only [AllocOp.exec, hw] at hx
      cases hx
      cases ok with
      | false =>
        obtain ⟨-, -, he⟩ := exec_pure_eq_some.mp h
        cases he
      | true =>
        obtain ⟨rfl, -, he⟩ := exec_pure_eq_some.mp h
        cases he
        obtain ⟨hdisk, -⟩ := DB.write_true hw
        have hsizes : sizes ≠ [] := by
          rintro rfl
          exact hne (List.length_eq_zero_iff.mp hlen)
        rcases harr with ⟨hnil, -⟩ | ⟨-, hload, hcursor⟩
        · exact absurd hnil hsizes
        have halloc : t'.alloc = s1.alloc := (begun_alloc hload).symm.trans hsame.alloc
        have hload1 : s1.alloc.cursorLoaded = true := halloc ▸ hload
        refine ⟨t', hturn, ?_, fun _ => halloc, ?_, hsame.segs, ?_⟩
        · rw [Sys.cursor_eq hload, halloc]
          exact (if_pos hload1).symm
        · show t'.db.disk.cursor = db.disk.cursor
          rw [hcursor, hdisk, halloc]
          rfl
        · show t'.db.disk.segment = db.disk.segment
          rw [hdisk]
          exact hsame.db.segment

theorem loop_working (sizes : List Int) : ∀ {s s' : Sys} {l l' : Local}
    {r : Res (List (Int × Int))}, s.db.faults = [] →
    (allocBatchLoop L sizes).exec (exec L) s l = some (s', l', r) → s'.db.faults = [] := by
  induction sizes with
  | nil =>
    intro s s' l l' r hw hx
    obtain ⟨rfl, -, -⟩ := exec_pure_eq_some.mp hx
    exact hw
  | cons size sizes ih =>
    intro s s' l l' r hw hx
    unfold allocBatchLoop at hx
    obtain ⟨s1, l1, x, hone, hx⟩ := exec_bind_eq_some.mp hx
    have hself : SameButCursor s s := ⟨⟨rfl, rfl, hw⟩, rfl, rfl, rfl⟩
    obtain ⟨-, -, -, -, hw1⟩ := allocOneLocked_same_working hself hw hone l
    cases x with
    | error e =>
      obtain ⟨rfl, -, -⟩ := exec_pure_eq_some.mp hx
      exact hw1
    | ok x =>
      obtain ⟨s2, l2, rs, hrest, hx⟩ := exec_bind_eq_some.mp hx
      have hw2 := ih hw1 hrest
      cases rs <;>
      · obtain ⟨rfl, -, -⟩ := exec_pure_eq_some.mp hx
        exact hw2

/-- On a pebble that works a batch fails exactly where its items do. -/
theorem batch_fails_iff {sizes : List Int} (hw : t.db.faults = []) (hmu : t.allocMu = false) :
    (∃ s' l' e, (allocateSegmentBatch L sizes).exec (exec L) t l = some (s', l', .error e)) ↔
      ∃ t' e, inTurn L sizes t = some (t', .error e) := by
  obtain ⟨m, hm⟩ := exec_begin_eq (L := L) hmu l
  have hself : SameButCursor t.begun t.begun := ⟨⟨rfl, rfl, hw⟩, rfl, rfl, rfl⟩
  rw [← loop_fails_iff sizes (l := m) hself hmu hw]
  unfold allocateSegmentBatch
  rw [hm]
  constructor
  · rintro ⟨s', l', e, h⟩
    obtain ⟨s1, l1, r, hloop, h⟩ := exec_bind_eq_some.mp h
    cases r with
    | error e' => exact ⟨s1, l1, e', hloop⟩
    | ok xs =>
      have hw1 := loop_working sizes (s := t.begun) hw hloop
      dsimp only at h
      split at h
      · obtain ⟨s2, l2, u, -, h⟩ := exec_bind_eq_some.mp h
        obtain ⟨-, -, he⟩ := exec_pure_eq_some.mp h
        cases he
      · obtain ⟨s2, l2, a, hread, h⟩ := exec_bind_eq_some.mp h
        rw [allocator, perform, exec_perform] at hread
        obtain ⟨hx, -⟩ := exec_allocOp hread
        cases hx
        obtain ⟨m', hend⟩ := exec_end (L := L) hw1 s1.alloc.curSeg s1.alloc.curOff xs l2
        cases hend.symm.trans h
  · rintro ⟨s', l', e, hloop⟩
    rw [exec_bind, hloop]
    exact ⟨_, _, e, rfl⟩

/-- **Allocating a batch is allocating in turn.**  A batch that succeeds gives the extents that
`AllocateSegment` gives for the sizes in their order on a pebble that works, and leaves the same
cursor, in memory and on disk, the same segments, in memory and on disk, and the same pool.  And
on a pebble that works it fails exactly when one of these calls does. -/
theorem allocate_batch_in_turn (L : Layout) (s : Sys) (l : Local) (sizes : List Int) :
    (∀ s' l' xs, (allocateSegmentBatch L sizes).exec (exec L) s l = some (s', l', .ok xs) →
      ∃ t', inTurn L sizes s.working = some (t', .ok xs) ∧ SameOutcome sizes s' t') ∧
    ((∃ s' l' e, (allocateSegmentBatch L sizes).exec (exec L) s.working l
        = some (s', l', .error e)) ↔
      ∃ t' e, inTurn L sizes s.working = some (t', .error e)) := by
  refine ⟨fun s' l' xs h => outcome_of_batch h, ?_⟩
  by_cases hmu : s.working.allocMu = false
  · exact batch_fails_iff rfl hmu
  · -- the lock is taken: neither of them gets on
    constructor
    · rintro ⟨s', l', e, h⟩
      unfold allocateSegmentBatch at h
      exact absurd (allocMu_of_exec h) hmu
    · rintro ⟨t', e, h⟩
      cases sizes with
      | nil => cases h
      | cons size sizes =>
        rw [inTurn] at h
        obtain ⟨y, hcall, -⟩ := Option.bind_eq_some_iff.mp h
        unfold allocate at hcall
        exact absurd (allocMu_of_exec hcall) hmu

end Taihu
