/-
# Segments that hold nothing

A segment whose last object is deleted turns `Reclaiming` and comes back through `reclaimOnce`.
Nothing else brings it back: a segment that is left without ever having counted an object stays
`Active` or `Full`, and neither garbage collection nor compaction (which starts from the
mappings) looks at it again.  The invariant of this module says that every recorded segment is
ACCOUNTED for: it counts an object, or it is `Reclaiming` or `Free`, or the allocator stands in
it or is about to.

Three steps can break it: the cursor moves off a segment that counts nothing (a put failed after
its allocation), an overwrite inside one segment finds the count at zero, and the store is
reopened on a record that says `Active` or `Full` for a segment without mappings.
-/
import Taihu.AllocatorLock
import Taihu.Recovery

namespace Taihu

open Concur

namespace SegmentManager

/-! ## 1. Properties of every entry

Every method changes entries one at a time, so a property of all entries survives a method if
the entries it writes have the property. -/

/-- Every entry of the table has the property. -/
def Every (m : SegmentManager) (P : Int → SegEntry → Prop) : Prop :=
  ∀ id e, m.segs.find? id = some e → P id e

variable {m m' : SegmentManager} {P Q : Int → SegEntry → Prop} {id : Int} {e : SegEntry}

theorem Every.mono (h : m.Every P) (himp : ∀ id e, P id e → Q id e) : m.Every Q :=
  fun id e he => himp id e (h id e he)

theorem Every.congr (h : m.Every P) (hs : m'.segs = m.segs) : m'.Every P := by
  unfold Every
  rwa [hs]

theorem Every.setEntry (h : m.Every P) (he : P id e) : (m.setEntry id e).Every P := by
  intro id' e' he'
  rw [find?_setEntry] at he'
  split at he'
  · rename_i hid
    rw [hid, ← Option.some.inj he']
    exact he
  · exact h id' e' he'

theorem Every.addObject {same : Bool} (h : m.Every P) (he : P id ((m.entry id).entered same)) :
    (m.addObject id same).2.Every P := by
  rw [addObject_snd]
  exact (h.congr (m.segs_unpool id)).setEntry he

theorem Every.dropObject (h : m.Every P) (b : Batch) (he : ∀ e : SegEntry, P id e.charged) :
    (m.dropObject b id).2.Every P := by
  unfold SegmentManager.dropObject
  split
  · exact h.setEntry (he _)
  · exact h

theorem Every.putObjectLocked (h : m.Every P) (b : Batch) (key : Key) (md : ObjectMeta)
    (old : Option ObjectMeta)
    (he : P md.segmentID ((m.entry md.segmentID).entered (oldSame md old)))
    (hc : ∀ id e, P id (SegEntry.charged e)) : (m.putObjectLocked b key md old).2.Every P := by
  rw [putObjectLocked_snd]
  cases old with
  | none => exact h.addObject he
  | some o =>
    dsimp only
    split
    · rename_i hs
      have hsame : oldSame md (some o) = true := by simp [oldSame, hs]
      rw [hsame] at he
      exact h.addObject he
    · rename_i hs
      have hsame : oldSame md (some o) = false := by simp [oldSame, hs]
      rw [hsame] at he
      have hadd : (m.addObject md.segmentID false).2.Every P := Every.addObject h he
      exact Every.dropObject hadd [] (hc o.segmentID)

theorem Every.ref (h : m.Every P) (id : Int)
    (hP : ∀ id e n, P id e → P id { e with refCount := n }) : (m.ref id).Every P := by
  unfold SegmentManager.ref
  split
  · rename_i e he
    exact h.setEntry (hP id e _ (h id e he))
  · exact h

theorem Every.unref (h : m.Every P) (id : Int)
    (hP : ∀ id e n, P id e → P id { e with refCount := n }) : (m.unref id).Every P := by
  unfold SegmentManager.unref
  split
  · rename_i e he
    split
    · exact h.setEntry (hP id e _ (h id e he))
    · exact h
  · exact h

theorem Every.activate (h : m.Every P) (db : DB) (he : P id ((m.entry id).withState .active)) :
    (activate db m id).2.2.Every P := by
  rw [activate_snd]
  exact (h.congr (m.segs_unpool id)).setEntry he

theorem Every.markFull (h : m.Every P) (db : DB)
    (he : ∀ e, m.segs.find? id = some e → P id (e.withState .full)) :
    (markFull db m id).2.2.Every P := by
  unfold SegmentManager.markFull
  split
  · exact h
  · rename_i e hf
    exact h.setEntry (he e hf)

theorem Every.markCompacting (h : m.Every P) (db : DB)
    (he : ∀ e, m.segs.find? id = some e → e.md.state = .full → P id (e.withState .compacting)) :
    (markCompacting db m id).2.2.Every P := by
  unfold SegmentManager.markCompacting
  split
  · exact h
  · rename_i e hf
    split
    · rename_i hs
      exact h.setEntry (he e hf hs)
    · exact h

theorem Every.popFree (h : m.Every P) {db : DB} {x : Option Int × DB × SegmentManager}
    (hx : popFree db m = some x)
    (htake : ∀ id e, m.segs.find? id = some e → x.1 = some id → P id (e.withState .active))
    (hback : ∀ id e, m.segs.find? id = some e → P id (e.withState .free)) : x.2.2.Every P := by
  rcases popFree_cases hx with ⟨-, rfl⟩ | ⟨id, rest, e, ok, db', hfree, he, -, hcase⟩
  · exact h
  rcases hcase with ⟨-, rfl⟩ | ⟨-, rfl⟩
  · exact Every.setEntry (m := { m with free := rest }) (h.congr rfl) (htake id e he rfl)
  · exact h.setEntry (hback id e he)

theorem Every.gcFinalize (h : m.Every P) (db : DB) (ids : List Int)
    (hfree : ∀ id e, P id e → P id (SegEntry.reclaimed e))
    (hback : ∀ id e, P id e → P id (SegEntry.unreclaimed e)) :
    (gcFinalize db m ids).2.2.Every P := by
  refine gcFinalize_keeps (P := fun m => m.Every P) (fun m id e h he _ => ?_)
    (fun m id e h he _ => ?_) h db ids
  · exact Every.setEntry (m := { m with free := m.free ++ [id] }) (h.congr rfl)
      (hfree id e (h id e he))
  · exact (h.setEntry (hback id e (h id e he))).congr (segs_removeFree _ id)

end SegmentManager

/-! ## 2. Accounted entries -/

/-- The entry counts an object, or garbage collection takes care of it. -/
def SegEntry.Accounted (e : SegEntry) : Prop :=
  e.md.aliveCount ≠ 0 ∨ e.md.state = .free ∨ e.md.state = .reclaiming

instance (e : SegEntry) : Decidable e.Accounted := inferInstanceAs (Decidable (_ ∨ _ ∨ _))

/-- The count is not negative, and the entry is accounted for or its segment is one of the
spared. -/
def Sparing (spared : Int → Prop) (id : Int) (e : SegEntry) : Prop :=
  0 ≤ e.md.aliveCount ∧ (e.Accounted ∨ spared id)

section

variable {spared spared' : Int → Prop} {id : Int} {e : SegEntry}

theorem Sparing.mono (h : Sparing spared id e) (himp : spared id → spared' id) :
    Sparing spared' id e := ⟨h.1, h.2.imp_right himp⟩

theorem sparing_charged (e : SegEntry) : Sparing spared id e.charged := by
  unfold SegEntry.charged
  split
  · exact ⟨le_refl 0, Or.inl (Or.inr (Or.inr rfl))⟩
  · refine ⟨?_, Or.inl (Or.inl ?_)⟩ <;> dsimp only <;> omega

theorem alive_entered (e : SegEntry) (same : Bool) :
    (e.entered same).md.aliveCount = if same then e.md.aliveCount else e.md.aliveCount + 1 := by
  unfold SegEntry.entered
  cases same
  all_goals
    simp only [Bool.false_eq_true, if_false, if_true]
    split <;> rfl

/-- The entry an object has entered counts it; if it replaces another one there, that must have
been counted. -/
theorem sparing_entered (hn : 0 ≤ e.md.aliveCount) {same : Bool}
    (hs : same = true → 0 < e.md.aliveCount ∨ spared id) : Sparing spared id (e.entered same) := by
  unfold Sparing SegEntry.Accounted
  rw [alive_entered]
  cases same with
  | false =>
    simp only [Bool.false_eq_true, if_false]
    exact ⟨by omega, Or.inl (Or.inl (by omega))⟩
  | true =>
    simp only [if_true]
    exact ⟨hn, (hs rfl).imp_left fun hpos => Or.inl (by omega)⟩

/-- A segment that is spared may get any state. -/
theorem Sparing.restate (hn : 0 ≤ e.md.aliveCount) (hid : spared id) (st : SegmentState) :
    Sparing spared id (e.withState st) := ⟨hn, Or.inr hid⟩

/-- An accounted `Full` entry counts an object, and still does as `Compacting`. -/
theorem Sparing.compacting (h : Sparing spared id e) (hf : e.md.state = .full) :
    Sparing spared id (e.withState .compacting) := by
  obtain ⟨hn, hacc | hid⟩ := h
  · unfold SegEntry.Accounted at hacc
    rw [hf] at hacc
    exact ⟨hn, Or.inl (Or.inl (hacc.resolve_right (by simp)))⟩
  · exact ⟨hn, Or.inr hid⟩

theorem entry_nonneg {m : SegmentManager} (h : m.Every (Sparing spared)) (id : Int) :
    0 ≤ (m.entry id).md.aliveCount := by
  unfold SegmentManager.entry
  cases he : m.segs.find? id with
  | none => decide
  | some e => exact (h id e he).1

end

/-! ## 3. Who keeps a segment out of account -/

/-- One of the extents lies in the segment. -/
def OpenIn (xs : List Opened) (id : Int) : Prop := ∃ x ∈ xs, x.span.region = id

instance (xs : List Opened) (id : Int) : Decidable (OpenIn xs id) :=
  inferInstanceAs (Decidable (∃ x ∈ xs, x.span.region = id))

/-- A call in progress has an extent in the segment. -/
def InUse (ls : List Local) (id : Int) : Prop := ∃ l ∈ ls, OpenIn l.hist.opens id

instance (ls : List Local) (id : Int) : Decidable (InUse ls id) :=
  inferInstanceAs (Decidable (∃ l ∈ ls, OpenIn l.hist.opens id))

/-- The segment the allocator stands in, one that an allocation has popped or made `Active` and
rolls to, or one in which extents are in use. -/
def Spared (s : Sys) (ls : List Local) (used : Int → Prop) (id : Int) : Prop :=
  id = s.cursor.segmentID ∨ (∃ l ∈ ls, l.hist.roll = some (id, true)) ∨ used id

/-- What a thread still has open after an operation; nothing if the operation ends its call. -/
def Local.keeping (l : Local) (o : Op) (ends : Bool) : List Opened :=
  if ends then []
  else match o with
    | .pebble .apply => l.hist.opens.filter (fun x => x.span ∉ l.batch.spans)
    | _ => l.hist.opens

/-- The segments in use after an operation. -/
def UsedAfter (l : Local) (rest : List Local) (o : Op) (ends : Bool) (id : Int) : Prop :=
  OpenIn (l.keeping o ends) id ∨ InUse rest id

instance (l : Local) (rest : List Local) (o : Op) (ends : Bool) (id : Int) :
    Decidable (UsedAfter l rest o ends id) := inferInstanceAs (Decidable (_ ∨ _))

/-- The record of the segment, if there is one, is accounted for. -/
def SegmentManager.AccountedAt (m : SegmentManager) (id : Int) : Prop :=
  ∀ e ∈ m.segs.find? id, e.Accounted

instance (m : SegmentManager) (id : Int) : Decidable (m.AccountedAt id) :=
  inferInstanceAs (Decidable (∀ e ∈ m.segs.find? id, e.Accounted))

/-- The segment an operation moves the cursor to. -/
def Op.cursorTo? : Op → Option Int
  | .alloc (.setCursor seg _) => some seg
  | _ => none

/-- The segment in which an operation replaces one object by another. -/
def Op.replaced? : Op → Option Int
  | .segs (.putObjectLocked _ md old _) =>
    if SegmentManager.oldSame md old then some md.segmentID else none
  | _ => none

/-- The condition on a step.  A call gives up or commits an extent, the cursor leaves a segment:
the segment is accounted for, or someone else keeps it.  An overwrite inside one segment finds
an object counted there. -/
structure KeepsAccount (s : Sys) (l : Local) (rest : List Local) (o : Op) (ends : Bool) : Prop where
  parts : ∀ x ∈ l.hist.opens, x.span.region = s.cursor.segmentID ∨
    UsedAfter l rest o ends x.span.region ∨ s.segs.AccountedAt x.span.region
  leaves : ∀ seg ∈ o.cursorTo?, seg ≠ s.alloc.curSeg →
    UsedAfter l rest o ends s.alloc.curSeg ∨ s.segs.AccountedAt s.alloc.curSeg
  counts : ∀ id ∈ o.replaced?, 0 < (s.segs.entry id).md.aliveCount ∨ id = s.cursor.segmentID

instance (s : Sys) (l : Local) (rest : List Local) (o : Op) (ends : Bool) :
    Decidable (KeepsAccount s l rest o ends) :=
  decidable_of_iff
    ((∀ x ∈ l.hist.opens, x.span.region = s.cursor.segmentID ∨
        UsedAfter l rest o ends x.span.region ∨ s.segs.AccountedAt x.span.region) ∧
      (∀ seg ∈ o.cursorTo?, seg ≠ s.alloc.curSeg →
        UsedAfter l rest o ends s.alloc.curSeg ∨ s.segs.AccountedAt s.alloc.curSeg) ∧
      ∀ id ∈ o.replaced?, 0 < (s.segs.entry id).md.aliveCount ∨ id = s.cursor.segmentID)
    ⟨fun h => ⟨h.1, h.2.1, h.2.2⟩, fun h => ⟨h.parts, h.leaves, h.counts⟩⟩

variable {L : Layout} {s s' : Sys} {l l' : Local} {rest : List Local} {o : Op} {r : o.Reply}
  {ends : Bool} {used : Int → Prop} {id : Int}

/-- Only the allocator writes the cursor record. -/
theorem exec_cursorRecord (h : exec L s l o = some (s', l', r)) (ho : ∀ a, o ≠ .alloc a) :
    s'.db.disk.cursor = s.db.disk.cursor := by
  cases o with
  | cache o => cases h; rfl
  | pebble o =>
    cases o with
    | apply =>
      obtain ⟨fs, -, rfl⟩ := exec_apply h
      split
      · exact Disk.apply_cursor _ _
      · rfl
    | _ => cases h; rfl
  | segs o =>
    obtain ⟨b, hx, -⟩ := exec_segsOp h
    exact (SegsOp.exec_disk hx).cursor
  | alloc o => exact absurd rfl (ho o)
  | dev o => cases h; rfl

/-- Only the allocator moves the cursor. -/
theorem exec_cursor (h : exec L s l o = some (s', l', r)) (ho : ∀ a, o ≠ .alloc a) :
    s'.cursor = s.cursor := by
  unfold Sys.cursor
  rw [(exec_alloc h ho).1, exec_cursorRecord h ho]

theorem cursor_of_loaded (h : s.alloc.cursorLoaded = true) :
    s.cursor.segmentID = s.alloc.curSeg := by
  unfold Sys.cursor
  rw [if_pos h]

/-- What is spared after a step of one thread. -/
theorem spared_step (hc : s'.cursor.segmentID = s.cursor.segmentID)
    (hr : l.hist.roll = some (id, true) → Spared s' (l' :: rest) used id)
    (h : Spared s (l :: rest) used id) : Spared s' (l' :: rest) used id := by
  rcases h with h | ⟨x, hx, hroll⟩ | h
  · exact Or.inl (h.trans hc.symm)
  · rcases List.mem_cons.mp hx with rfl | hx
    · exact hr hroll
    · exact Or.inr (Or.inl ⟨x, List.mem_cons_of_mem _ hx, hroll⟩)
  · exact Or.inr (Or.inr h)

/-- A thread that knows the cursor stands in its segment. -/
theorem AllocSound.cursor (h : AllocSound s (l :: rest)) {a : Allocator} (hc : l.view.cur = some a) :
    s.alloc = a ∧ s.alloc.cursorLoaded = true ∧ s.cursor.segmentID = a.curSeg := by
  obtain ⟨hka, hkl⟩ := h.known l List.mem_cons_self a hc
  have hload := h.loaded l List.mem_cons_self hkl
  refine ⟨hka, hload, ?_⟩
  rw [cursor_of_loaded hload, hka]

/-- **The step lemma.**  The entries stay accounted for, but those of the spared segments. -/
theorem every_step (ha : AllocSound s (l :: rest)) (hp : o.allocPre l.view)
    (hx : exec L s l o = some (s', l', r))
    (hleave : ∀ seg ∈ o.cursorTo?, seg ≠ s.alloc.curSeg →
      used s.alloc.curSeg ∨ s.segs.AccountedAt s.alloc.curSeg)
    (hcount : ∀ id ∈ o.replaced?,
      0 < (s.segs.entry id).md.aliveCount ∨ id = s.cursor.segmentID)
    (h : s.segs.Every (Sparing (Spared s (l :: rest) used))) :
    s'.segs.Every (Sparing (Spared s' (l' :: rest) used)) := by
  have hsegs := exec_segs hx
  have hmono : s'.cursor.segmentID = s.cursor.segmentID →
      (∀ i, l.hist.roll = some (i, true) → Spared s' (l' :: rest) used i) →
      s.segs.Every (Sparing (Spared s' (l' :: rest) used)) := fun hc hr =>
    h.mono fun id e he => he.mono (spared_step hc (hr id))
  -- an operation that leaves the cursor and the roll alone
  have hoff : o.OffAlloc → (∀ a, o ≠ .alloc a) →
      s.segs.Every (Sparing (Spared s' (l' :: rest) used)) := fun ho hna =>
    hmono (congrArg WriteCursor.segmentID (exec_cursor hx hna)) fun i hr =>
      Or.inr (Or.inl ⟨l', List.mem_cons_self,
        (congrArg AllocView.roll (view_frame hx ho)).trans hr⟩)
  cases o with
  | cache o => exact (hoff True.intro (by simp)).congr (congrArg SegmentManager.segs hsegs)
  | pebble o => exact (hoff True.intro (by simp)).congr (congrArg SegmentManager.segs hsegs)
  | dev o => exact (hoff True.intro (by simp)).congr (congrArg SegmentManager.segs hsegs)
  | segs o =>
    have hcur : s'.cursor.segmentID = s.cursor.segmentID :=
      congrArg WriteCursor.segmentID (exec_cursor hx (by simp))
    -- a roll has not begun, so it spares nothing
    have hfresh : l.view.roll = none → s.segs.Every (Sparing (Spared s' (l' :: rest) used)) :=
      fun hroll => hmono hcur fun i hr => absurd (hroll.symm.trans hr) (by simp)
    have hrestate : ∀ (id : Int) (e : SegEntry) (n : Nat),
        Sparing (Spared s' (l' :: rest) used) id e →
        Sparing (Spared s' (l' :: rest) used) id { e with refCount := n } := fun _ _ _ he => he
    rw [hsegs]
    cases o with
    | lock => exact hoff True.intro (by simp)
    | unlock => exact hoff True.intro (by simp)
    | gcCandidates order => exact hoff True.intro (by simp)
    | ref i reader => exact (hoff True.intro (by simp)).ref i hrestate
    | unref i => exact (hoff True.intro (by simp)).unref i hrestate
    | putObjectLocked key md old v =>
      have hoff := hoff True.intro (by simp)
      refine hoff.putObjectLocked [] key md old ?_ fun i e => sparing_charged e
      refine sparing_entered (entry_nonneg hoff _) fun hs => ?_
      have hin := hcount md.segmentID (by simp [Op.replaced?, hs])
      exact hin.imp_right fun hc => Or.inl (hc.trans hcur.symm)
    | delObjectLocked key md =>
      exact (hoff True.intro (by simp)).dropObject [] fun e => sparing_charged e
    | markCompacting i =>
      exact (hoff True.intro (by simp)).markCompacting s.db fun e he hf =>
        (hoff True.intro (by simp) i e he).compacting hf
    | gcFinalize ids =>
      refine (hoff True.intro (by simp)).gcFinalize s.db ids ?_ ?_
      · exact fun i e _ => ⟨le_refl 0, Or.inl (Or.inr (Or.inl rfl))⟩
      · exact fun i e he => ⟨he.1, Or.inl (Or.inr (Or.inr rfl))⟩
    | canUse i => exact hfresh hp.1
    | markFull i =>
      obtain ⟨hroll, a, hc, rfl⟩ := hp
      obtain ⟨-, -, hseg⟩ := ha.cursor hc
      refine (hfresh hroll).markFull s.db fun e he => ?_
      exact Sparing.restate (hfresh hroll _ e he).1 (Or.inl (hseg.symm.trans hcur.symm)) _
    | activate i =>
      obtain ⟨hroll, -, a, hc, rfl⟩ := hp
      obtain ⟨-, -, hseg⟩ := ha.cursor hc
      have hev : s.segs.Every (Sparing (Spared s' (l' :: rest) used)) :=
        hmono hcur fun i hr => absurd (hroll.symm.trans hr) (by simp)
      refine hev.activate s.db ?_
      exact Sparing.restate (entry_nonneg hev _) (Or.inl (hseg.symm.trans hcur.symm)) _
    | popFree =>
      have hev := hfresh hp.1
      obtain ⟨b, hx', -⟩ := exec_segsOp hx
      simp only [SegsOp.exec] at hx'
      split at hx'
      · cases hx'
      · obtain ⟨x, hpop, he⟩ := Option.map_eq_some_iff.mp hx'
        have hr : r = x.1 := by cases he; rfl
        show (((SegmentManager.popFree s.db s.segs).map (fun x => x.2.2)).getD s.segs).Every _
        rw [hpop]
        refine hev.popFree hpop (fun i e hi hxi => ?_) fun i e hi => ?_
        · have hv := view_popFree hx
          rw [hr, hxi] at hv
          exact Sparing.restate (hev i e hi).1 (Or.inr (Or.inl ⟨l', List.mem_cons_self,
            congrArg AllocView.roll hv⟩)) _
        · exact ⟨(hev i e hi).1, Or.inl (Or.inr (Or.inl rfl))⟩
  | alloc o =>
    have hcongr : s'.segs.segs = s.segs.segs := congrArg SegmentManager.segs hsegs
    refine SegmentManager.Every.congr ?_ hcongr
    obtain ⟨he, -⟩ := exec_allocOp hx
    cases o with
    | lock =>
      have hv := view_lock hx
      simp only [AllocOp.exec] at he
      split at he <;> cases he
      exact hmono rfl fun i hr => Or.inr (Or.inl ⟨l', List.mem_cons_self,
        (congrArg AllocView.roll hv).trans hr⟩)
    | ensureLoaded =>
      have hv := view_ensureLoaded hx
      cases he
      exact hmono rfl fun i hr => Or.inr (Or.inl ⟨l', List.mem_cons_self,
        (congrArg AllocView.roll hv).trans hr⟩)
    | read =>
      have hv := (view_read hx).1
      cases he
      exact hmono rfl fun i hr => Or.inr (Or.inl ⟨l', List.mem_cons_self,
        (congrArg AllocView.roll hv).trans hr⟩)
    | unlock =>
      cases he
      refine hmono rfl fun i hr => ?_
      obtain hroll | ⟨a, hc, hroll⟩ := hp.2.2
      · exact absurd (hroll.symm.trans hr) (by simp)
      · cases hroll.symm.trans hr
        exact Or.inl (ha.cursor hc).2.2.symm
    | take n =>
      obtain ⟨-, -, a, hc, hland⟩ := hp
      obtain ⟨hka, hload, hseg⟩ := ha.cursor hc
      have hcur : s'.cursor.segmentID = s.cursor.segmentID := by
        have hload' : s'.alloc.cursorLoaded = true := by cases he; exact hload
        rw [cursor_of_loaded hload', cursor_of_loaded hload]
        cases he
        rfl
      refine hmono hcur fun i hr => ?_
      rcases hland with hroll | hroll
      · exact absurd (hroll.symm.trans hr) (by simp)
      · cases hroll.symm.trans hr
        exact Or.inl (hseg.symm.trans hcur.symm)
    | persist seg off =>
      obtain ⟨hroll, -, a, hc, -, -⟩ := hp
      obtain ⟨hka, hload, hseg⟩ := ha.cursor hc
      have hcur : s'.cursor.segmentID = s.cursor.segmentID := by
        have hload' : s'.alloc.cursorLoaded = true := by cases he; exact hload
        rw [cursor_of_loaded hload', cursor_of_loaded hload]
        cases he
        rfl
      exact hmono hcur fun i hr => absurd (hroll.symm.trans hr) (by simp)
    | setCursor seg off =>
      obtain ⟨-, a, b, hc, hroll, -⟩ := hp
      obtain ⟨hka, hload, hseg⟩ := ha.cursor hc
      have hcur : s'.cursor.segmentID = seg := by
        have hload' : s'.alloc.cursorLoaded = true := by cases he; exact hload
        rw [cursor_of_loaded hload']
        cases he
        rfl
      have hv : l'.view.roll = l.view.roll := by rw [view_setCursor hx]
      -- every segment but the old one stays spared
      have hstay : ∀ i, i ≠ s.alloc.curSeg → Spared s (l :: rest) used i →
          Spared s' (l' :: rest) used i := by
        rintro i hne (hi | ⟨x, hin, hr⟩ | hi)
        · exact absurd (hi.trans (hseg.trans (congrArg Allocator.curSeg hka.symm))) hne
        · rcases List.mem_cons.mp hin with rfl | hin
          · exact Or.inr (Or.inl ⟨l', List.mem_cons_self, hv.trans hr⟩)
          · exact Or.inr (Or.inl ⟨x, List.mem_cons_of_mem _ hin, hr⟩)
        · exact Or.inr (Or.inr hi)
      intro i e hi
      by_cases hne : i = s.alloc.curSeg
      · by_cases hs : seg = s.alloc.curSeg
        · exact ⟨(h i e hi).1, Or.inr (Or.inl (hne.trans (hs.symm.trans hcur.symm)))⟩
        · subst hne
          rcases hleave seg rfl hs with hu | hacc
          · exact ⟨(h _ e hi).1, Or.inr (Or.inr (Or.inr hu))⟩
          · exact ⟨(h _ e hi).1, Or.inl (hacc e hi)⟩
      · exact (h i e hi).mono (hstay i hne)

/-! ## 4. Runs -/

/-- The extents a thread keeps are still open after the operation. -/
theorem openIn_step (hx : exec L s l o = some (s', l', r)) (h : OpenIn (l.keeping o false) id) :
    OpenIn l'.hist.opens id := by
  obtain ⟨x, hin, hid⟩ := h
  have hopen : x ∈ l.hist.opens := by
    simp only [Local.keeping, Bool.false_eq_true, if_false] at hin
    split at hin
    · exact (List.mem_filter.mp hin).1
    · exact hin
  rcases opens_cases hx with heq | ⟨n, -, heq⟩ | ⟨seg, off, -, heq⟩ | ⟨seg, off, block, -, heq⟩ |
    ⟨rfl, heq⟩
  · exact ⟨x, heq ▸ hopen, hid⟩
  · exact ⟨x, heq ▸ List.mem_cons_of_mem _ hopen, hid⟩
  · rw [heq]
    exact ⟨_, List.mem_map_of_mem hopen, hid⟩
  · rw [heq]
    refine ⟨_, List.mem_map_of_mem hopen, ?_⟩
    rw [Opened.extend_span]
    exact hid
  · exact ⟨x, heq ▸ hin, hid⟩

/-- Every call may start, the store may be reopened at any time, every step is allowed. -/
def unrestricted : Rule sig Sys Local Call where
  permit := fun _ => True
  restarts := True
  allow := fun _ _ _ _ => True

/-- The allocator's lock and views as an invariant of all runs. -/
def allocDiscipline (L : Layout) : Discipline (machine L) where
  toRule := unrestricted
  contract := allocProtocol L
  inv := AllocSound
  post := fun _ l => l.view = .idle
  perm := fun _ _ _ hp h => h.perm hp
  spawn := fun _ _ _ _ h => h.spawn rfl
  starts := fun call _ => code_allocates L call _ rfl
  retire := fun _ _ _ _ hv h => ⟨h.frame rfl rfl rfl rfl rfl fun _ => hv, hv⟩
  restart := fun _ _ _ _ => allocSound_initial rfl
  sound := fun s _ _ _ s' _ _ h hp _ hx => ⟨h.step hp hx, s, s', h.knows, hx⟩

theorem unrestricted_admits (c : SysConf) (a : Act Call) : unrestricted.Admits c a := by
  cases a with
  | spawn call => exact True.intro
  | step t => exact fun _ _ _ => True.intro
  | restart => exact True.intro

/-- The condition on a restart: a segment recorded `Active` or `Full` has a mapping into it, or
the recorded cursor stands in it. -/
def Disk.ReopensClean (d : Disk) : Prop :=
  ∀ x ∈ d.segment.entries, (x.2.state = .active ∨ x.2.state = .full) → d.population x.1 = 0 →
    x.1 = (d.cursor.getD ⟨0, 0⟩).segmentID

instance (d : Disk) : Decidable d.ReopensClean :=
  inferInstanceAs (Decidable (∀ x ∈ d.segment.entries,
    (x.2.state = .active ∨ x.2.state = .full) → d.population x.1 = 0 →
      x.1 = (d.cursor.getD ⟨0, 0⟩).segmentID))

theorem Disk.ReopensClean.every (h : s.db.disk.ReopensClean) (used : Int → Prop) :
    s.reopen.segs.Every (Sparing (Spared s.reopen [] used)) := by
  intro id e he
  have hfind := SegmentManager.find?_rebuild s.db.disk id
  rw [show (SegmentManager.rebuild s.db.disk).segs.find? id = some e from he] at hfind
  split at hfind
  · cases hfind
  · rename_i hrec
    cases hfind
    refine ⟨Int.natCast_nonneg _, ?_⟩
    by_cases hpop : s.db.disk.population id = 0
    · cases hf : s.db.disk.segment.find? id with
      | none => exact absurd ⟨hf, hpop⟩ hrec
      | some sm =>
        have hclean := h (id, sm) (SortedMap.mem_entries.mpr hf)
        have hspared : (sm.state = .active ∨ sm.state = .full) → Spared s.reopen [] used id :=
          fun hst => Or.inl (hclean hst hpop)
        rw [hpop]
        cases hst : sm.state with
        | free => exact Or.inl (Or.inr (Or.inl (by simp [hst, SegmentManager.recoveredState])))
        | active => exact Or.inr (hspared (Or.inl hst))
        | full => exact Or.inr (hspared (Or.inr hst))
        | compacting => exact Or.inl (Or.inr (Or.inr (by simp [hst, SegmentManager.recoveredState])))
        | reclaiming => exact Or.inl (Or.inr (Or.inr (by simp [hst, SegmentManager.recoveredState])))
    · exact Or.inl (Or.inl (by simpa using hpop))

/-- The step of thread `t` ends its call. -/
def endsCall (L : Layout) (c : SysConf) (t : Nat) : Bool :=
  ((machine L).step c t).any (fun c' => (c'.result? t).isSome)

/-- The condition on an action. -/
def keepingAccount (L : Layout) (c : SysConf) : Act Call → Prop
  | .spawn _ => True
  | .step t => ∀ x ∈ c.next? t, KeepsAccount c.shared x.1 (c.others t) x.2 (endsCall L c t)
  | .restart => c.shared.db.disk.ReopensClean

instance (L : Layout) (c : SysConf) : (a : Act Call) → Decidable (keepingAccount L c a)
  | .spawn _ => .isTrue True.intro
  | .step t => inferInstanceAs (Decidable (∀ x ∈ c.next? t,
      KeepsAccount c.shared x.1 (c.others t) x.2 (endsCall L c t)))
  | .restart => inferInstanceAs (Decidable c.shared.db.disk.ReopensClean)

/-- The allocator's views are right, a call that has returned has no extent, and every entry is
accounted for or spared. -/
structure NoneLost (L : Layout) (c : SysConf) : Prop where
  alloc : (allocDiscipline L).Holds c
  done : ∀ th ∈ c.threads, th.2.isDone = true → th.1.hist.opens = []
  every : c.shared.segs.Every (Sparing (Spared c.shared c.locals (InUse c.locals)))

theorem NoneLost.step {c c' : SysConf} {t : Nat} (h : NoneLost L c)
    (hok : keepingAccount L c (.step t)) (hs : (machine L).step c t = some c') :
    NoneLost L c' := by
  have halloc := (allocDiscipline L).holds_step h.alloc (unrestricted_admits c (.step t)) hs
  obtain ⟨l, o, next, s', l', r, hth, hx, hc'⟩ := (machine L).step_eq_some hs
  have hx : exec L c.shared l o = some (s', l', r) := hx
  have hn : c.next? t = some (l, o) := by simp [Conf.next?, hth]
  have hl : c.locals[t]? = some l := by simp [Conf.locals, hth]
  have hperm := perm_cons_eraseIdx hl
  obtain ⟨hsound, hpre⟩ := h.alloc.next hn
  have hends : endsCall L c t = (next r).isDone := by
    unfold endsCall
    rw [hs, hc']
    have ht : t < c.threads.length := (List.getElem?_eq_some_iff.mp hth).1
    simp only [Option.any_some, Conf.result?, List.getElem?_set_self ht, Option.bind_some,
      Machine.settle]
    cases next r <;> rfl
  obtain ⟨hparts, hleave, hcount⟩ := hok (l, o) hn
  rw [hends] at hparts hleave
  -- the extents the step gives up do not matter any more
  have hbefore : c.shared.segs.Every (Sparing (Spared c.shared (l :: c.others t)
      (UsedAfter l (c.others t) o (next r).isDone))) := by
    intro i e he
    obtain ⟨hnn, hacc | hsp⟩ := h.every i e he
    · exact ⟨hnn, Or.inl hacc⟩
    · rcases hsp with hcur | ⟨x, hin, hroll⟩ | ⟨x, hin, y, hy, hid⟩
      · exact ⟨hnn, Or.inr (Or.inl hcur)⟩
      · exact ⟨hnn, Or.inr (Or.inr (Or.inl ⟨x, hperm.mem_iff.mp hin, hroll⟩))⟩
      · rcases List.mem_cons.mp (hperm.mem_iff.mp hin) with rfl | hin
        · rcases hparts y hy with hcur | hused | hacc
          · exact ⟨hnn, Or.inr (Or.inl (hid.symm.trans hcur))⟩
          · exact ⟨hnn, Or.inr (Or.inr (Or.inr (hid ▸ hused)))⟩
          · exact ⟨hnn, Or.inl (hacc e (hid ▸ he))⟩
        · exact ⟨hnn, Or.inr (Or.inr (Or.inr (Or.inr ⟨x, hin, y, hy, hid⟩)))⟩
  have hafter := every_step hsound hpre hx hleave hcount hbefore
  have hset : c'.locals.Perm (((machine L).settle l' (next r)).1 :: c.others t) := by
    rw [hc']
    simp only [Conf.locals, List.map_set]
    exact set_perm_cons hl _
  refine ⟨halloc, ?_, ?_⟩
  · intro th hin hdone
    rw [hc'] at hin
    rcases List.mem_or_eq_of_mem_set hin with hin | rfl
    · exact h.done th hin hdone
    · have hd : (next r).isDone = true := hdone
      simp only [Machine.settle, hd, if_true]
      rfl
  · rw [show c'.shared = s' by rw [hc']]
    refine hafter.mono fun i e he => he.mono ?_
    rintro (hcur | ⟨x, hin, hroll⟩ | hopen | ⟨x, hin, hopen⟩)
    · exact Or.inl hcur
    · refine Or.inr (Or.inl ?_)
      rcases List.mem_cons.mp hin with rfl | hin
      · refine ⟨_, hset.mem_iff.mpr List.mem_cons_self, ?_⟩
        unfold Machine.settle
        split <;> exact hroll
      · exact ⟨x, hset.mem_iff.mpr (List.mem_cons_of_mem _ hin), hroll⟩
    · refine Or.inr (Or.inr ⟨_, hset.mem_iff.mpr List.mem_cons_self, ?_⟩)
      unfold Machine.settle
      cases hd : (next r).isDone with
      | true =>
        rw [hd] at hopen
        obtain ⟨x, hin, -⟩ := hopen
        exact absurd hin List.not_mem_nil
      | false =>
        rw [hd] at hopen
        exact openIn_step hx hopen
    · exact Or.inr (Or.inr ⟨x, hset.mem_iff.mpr (List.mem_cons_of_mem _ hin), hopen⟩)

theorem NoneLost.act {c c' : SysConf} {a : Act Call} (h : NoneLost L c)
    (hok : keepingAccount L c a) (ha : (machine L).act c a = some c') : NoneLost L c' := by
  cases a with
  | step t => exact h.step hok ha
  | restart =>
    have halloc := (allocDiscipline L).holds_act h.alloc (unrestricted_admits c .restart) ha
    cases ha
    exact ⟨halloc, fun th hth => absurd hth List.not_mem_nil, Disk.ReopensClean.every hok _⟩
  | spawn call =>
    have halloc := (allocDiscipline L).holds_act h.alloc (unrestricted_admits c (.spawn call)) ha
    cases ha
    have hsub : ∀ l ∈ c.locals, l ∈ Conf.locals (S := sig) (σ := Sys) (ℓ := Local) (α := Result)
        ⟨c.shared, c.threads ++ [((machine L).fresh call, (machine L).code call)]⟩ := by
      intro l hl
      simp only [Conf.locals, List.map_append, List.mem_append]
      exact Or.inl hl
    refine ⟨halloc, ?_, h.every.mono fun i e he => he.mono ?_⟩
    · intro th hth hdone
      rcases List.mem_append.mp hth with hth | hth
      · exact h.done th hth hdone
      · rw [List.mem_singleton.mp hth]
        rfl
    · rintro (hcur | ⟨x, hin, hroll⟩ | ⟨x, hin, hopen⟩)
      · exact Or.inl hcur
      · exact Or.inr (Or.inl ⟨x, hsub x hin, hroll⟩)
      · exact Or.inr (Or.inr ⟨x, hsub x hin, hopen⟩)

/-- **No segment is lost.**  In every run whose actions keep to `keepingAccount`, whenever no
call is in progress, a recorded segment that counts no object is `Free` or `Reclaiming`, unless
the cursor stands in it. -/
theorem none_lost_of_run (L : Layout) (bytes : Int → Byte) (dbFaults devFaults : List Bool)
    (as : List (Act Call)) (c : SysConf)
    (hok : (machine L).Along (keepingAccount L) (SysConf.init bytes dbFaults devFaults) as)
    (hrun : (machine L).run (SysConf.init bytes dbFaults devFaults) as = some c)
    (hq : c.Quiescent) (id : Int) (e : SegEntry) (he : c.shared.segs.segs.find? id = some e)
    (hid : id ≠ c.shared.cursor.segmentID) (hzero : e.md.aliveCount = 0) :
    e.md.state = .free ∨ e.md.state = .reclaiming := by
  have h : NoneLost L c := (machine L).run_invariant (I := NoneLost L)
    (fun c a c' h hok ha => h.act hok ha)
    ⟨(allocDiscipline L).holds_initial (allocSound_initial rfl),
      fun th hth => absurd hth List.not_mem_nil,
      fun i e he => absurd he (by simp [Sys.init, SegmentManager.empty])⟩
    hok hrun
  obtain ⟨-, hacc | hcur | ⟨l, hl, hroll⟩ | ⟨l, hl, hopen⟩⟩ := h.every id e he
  · exact hacc.resolve_left (not_not_intro hzero)
  · exact absurd hcur hid
  · obtain ⟨⟨l, p⟩, hth, rfl⟩ := List.mem_map.mp hl
    have hdone := hq _ hth
    cases p with
    | pure a =>
      have hv : l.view = .idle := h.alloc.post hth rfl
      exact absurd ((congrArg AllocView.roll hv).symm.trans hroll) (by simp [AllocView.idle])
    | request o next => exact absurd hdone (by simp [Program.isDone])
  · obtain ⟨th, hth, rfl⟩ := List.mem_map.mp hl
    obtain ⟨x, hx, -⟩ := hopen
    rw [h.done th hth (hq th hth)] at hx
    exact absurd hx List.not_mem_nil

/-- Two puts, each into a segment of its own, and the delete of the first. -/
theorem none_lost_of_delete : ∃ (c : SysConf) (e : SegEntry),
    (machine ⟨4096, 8⟩).run (SysConf.init (fun _ => 0) [] [])
      (Act.calls (.put [1] 1 [7]) 0 15 ++ Act.calls (.put [2] 1 [8]) 1 19
        ++ Act.calls (.deleteMapping [1]) 2 6) = some c ∧
      c.shared.segs.segs.find? 0 = some e ∧ (e.md.state = .free ∨ e.md.state = .reclaiming) := by
  obtain ⟨c, hc, hview⟩ := Option.map_eq_some_iff.mp
    (show ((machine ⟨4096, 8⟩).run (SysConf.init (fun _ => 0) [] [])
      (Act.calls (.put [1] 1 [7]) 0 15 ++ Act.calls (.put [2] 1 [8]) 1 19
        ++ Act.calls (.deleteMapping [1]) 2 6)).map
      (fun c => (decide c.Quiescent, c.shared.cursor.segmentID, c.shared.segs.segs.find? 0))
        = some (true, 1, some ⟨⟨.reclaiming, 0, 0⟩, 0⟩) by decide +kernel)
  simp only [Prod.mk.injEq, decide_eq_true_eq] at hview
  obtain ⟨hq, hcur, he⟩ := hview
  exact ⟨c, _, hc, he, none_lost_of_run ⟨4096, 8⟩ (fun _ => 0) [] [] _ c (by decide +kernel) hc hq
    0 _ he (by rw [hcur]; decide) rfl⟩

/-- **A segment lost for good.**  The second put gets segment 1 and its device write fails; the
third rolls on.  Segment 1 has never counted an object and stays `Full`. -/
theorem failed_put_loses_segment : ∃ c : SysConf,
    (machine ⟨4096, 8⟩).run (SysConf.init (fun _ => 0) [] [false, true])
      (Act.calls (.put [1] 1 [7]) 0 15 ++ Act.calls (.put [2] 1 [8]) 1 12
        ++ Act.calls (.put [3] 1 [9]) 2 19) = some c ∧
      c.Quiescent ∧
      ¬ ∀ (id : Int) (e : SegEntry), c.shared.segs.segs.find? id = some e →
        id ≠ c.shared.cursor.segmentID → e.md.aliveCount = 0 →
          e.md.state = .free ∨ e.md.state = .reclaiming := by
  obtain ⟨c, hc, hview⟩ := Option.map_eq_some_iff.mp
    (show ((machine ⟨4096, 8⟩).run (SysConf.init (fun _ => 0) [] [false, true])
      (Act.calls (.put [1] 1 [7]) 0 15 ++ Act.calls (.put [2] 1 [8]) 1 12
        ++ Act.calls (.put [3] 1 [9]) 2 19)).map
      (fun c => (decide c.Quiescent, c.shared.cursor.segmentID, c.shared.segs.segs.find? 1))
        = some (true, 2, some ⟨⟨.full, 0, 0⟩, 0⟩) by decide +kernel)
  simp only [Prod.mk.injEq, decide_eq_true_eq] at hview
  obtain ⟨hq, hcur, he⟩ := hview
  refine ⟨c, hc, hq, fun h => ?_⟩
  exact absurd (h 1 _ he (by rw [hcur]; decide) rfl) (by decide)

end Taihu
