/-
# The segment state machine

The design draws a diagram: a segment without a record, or a `Free` one, becomes `Active`; from
`Active` it goes to `Full` and from there to `Compacting`; out of any of the three it becomes
`Reclaiming` with its last object; `Reclaiming` goes to `Free`, or back to `Active`.  Every method
of the segment manager follows it from any state, except the two that write the new state without
looking at the old one: `markFull`, and the charge of a segment that is `Free`.

What the allocator rolls to is `Active` when it allocates there, because nobody else can mark it
in the meantime: that is the invariant of this module (`RollSound`).  What it does not check is
the segment its cursor already stands in.
-/
import Taihu.AllocatorLock
import Taihu.AliveCount

namespace Taihu

open Concur

namespace SegmentManager

/-! ## 1. The diagram -/

/-- The arrows of the diagram: into state `st`, with `alive` objects left, from `old`. -/
def Arrow (old : Option SegmentState) (st : SegmentState) (alive : Int) : Prop :=
  match st with
  | .active => old = none ∨ old = some .free ∨ old = some .reclaiming
  | .full => old = some .active
  | .compacting => old = some .full
  | .reclaiming =>
    (old = some .active ∨ old = some .full ∨ old = some .compacting) ∧ alive = 0
  | .free => old = some .reclaiming

/-- Segment `id` keeps its state or follows an arrow. -/
def Legal (m m' : SegmentManager) (id : Int) : Prop :=
  m'.state? id = m.state? id ∨
    ∃ e, m'.segs.find? id = some e ∧ Arrow (m.state? id) e.md.state e.md.aliveCount

variable {m m' : SegmentManager} {id : Int} {e : SegEntry}

theorem Legal.refl (m : SegmentManager) (id : Int) : m.Legal m id := Or.inl rfl

/-- Only the table matters. -/
theorem Legal.congr (hs : m'.segs = m.segs) {m'' : SegmentManager} {id : Int}
    (h : m'.Legal m'' id) : m.Legal m'' id := by
  have he : m'.state? id = m.state? id := by rw [state?, state?, hs]
  unfold Legal at h ⊢
  rwa [he] at h

/-- One entry changes. -/
theorem legal_setEntry (h : m.state? id = some e.md.state ∨
    Arrow (m.state? id) e.md.state e.md.aliveCount) (id' : Int) : m.Legal (m.setEntry id e) id' := by
  by_cases hid : id' = id
  · subst hid
    rcases h with h | h
    · exact Or.inl (by rw [state?_setEntry, if_pos rfl, h])
    · exact Or.inr ⟨e, by rw [find?_setEntry, if_pos rfl], h⟩
  · exact Or.inl (by rw [state?_setEntry, if_neg hid])

/-- The method follows the diagram, and takes no segment out of `Active`. -/
def Gentle (m m' : SegmentManager) : Prop :=
  ∀ id, m.Legal m' id ∧ (m.state? id = some .active → m'.state? id = some .active)

theorem Gentle.refl (m : SegmentManager) : m.Gentle m := fun id => ⟨.refl m id, fun h => h⟩

/-- A method that changes no state. -/
theorem gentle_of_state (h : ∀ id, m'.state? id = m.state? id) : m.Gentle m' :=
  fun id => ⟨Or.inl (h id), fun ha => (h id).trans ha⟩

/-- One entry changes, and not out of `Active`. -/
theorem gentle_setEntry (h : m.state? id = some e.md.state ∨
    Arrow (m.state? id) e.md.state e.md.aliveCount)
    (ha : m.state? id = some .active → e.md.state = .active) : m.Gentle (m.setEntry id e) := by
  intro id'
  refine ⟨legal_setEntry h id', fun hact => ?_⟩
  rw [state?_setEntry]
  split
  · rename_i hid
    rw [ha (hid ▸ hact)]
  · exact hact

theorem Gentle.congr {m'' : SegmentManager} (h : m'.Gentle m'') (hs : m'.segs = m.segs) :
    m.Gentle m'' := by
  have he : ∀ id, m'.state? id = m.state? id := fun id => by rw [state?, state?, hs]
  exact fun id => ⟨(h id).1.congr hs, fun ha => (h id).2 ((he id).trans ha)⟩

/-! ## 2. The methods -/

theorem state?_entry (m : SegmentManager) (id : Int) :
    m.state? id = none ∧ m.entry id = .new ∨ m.state? id = some (m.entry id).md.state := by
  unfold state? entry
  cases m.segs.find? id with
  | none => exact Or.inl ⟨rfl, rfl⟩
  | some e => exact Or.inr rfl

theorem entered_arrow (e : SegEntry) (same : Bool) :
    (e.entered same).md.state = e.md.state ∨
      (e.entered same).md.state = .active ∧ (e.md.state = .free ∨ e.md.state = .reclaiming) := by
  unfold SegEntry.entered
  cases same
  all_goals
    simp only [Bool.false_eq_true, if_false, if_true]
    split
    · rename_i h
      exact Or.inr ⟨rfl, h⟩
    · exact Or.inl rfl

theorem gentle_addObject (m : SegmentManager) (id : Int) (same : Bool) :
    m.Gentle (m.addObject id same).2 := by
  rw [addObject_snd]
  refine Gentle.congr (gentle_setEntry ?_ ?_) (m.segs_unpool id)
  all_goals
    rw [show (m.unpool id).state? id = m.state? id by rw [state?, state?, segs_unpool]]
  · rcases m.state?_entry id with ⟨hnone, hnew⟩ | hst
    · refine Or.inr ?_
      rw [hnone, hnew]
      cases same <;> exact Or.inl rfl
    · rcases entered_arrow (m.entry id) same with hsame | ⟨hact, hold⟩
      · exact Or.inl (by rw [hst, hsame])
      · refine Or.inr ?_
        rw [hact, hst]
        exact Or.inr (hold.imp (congrArg some) (congrArg some))
  · intro ha
    rcases m.state?_entry id with ⟨hnone, -⟩ | hst
    · rw [hnone] at ha
      exact absurd ha (by simp)
    · have hea : (m.entry id).md.state = .active := Option.some.inj (hst.symm.trans ha)
      rcases entered_arrow (m.entry id) same with hsame | ⟨hact, -⟩
      · rw [hsame, hea]
      · exact hact

/-- The charge of this segment takes its last object. -/
def lastIn (m : SegmentManager) (id : Int) : Bool :=
  match m.segs.find? id with
  | some e => e.md.aliveCount - 1 ≤ 0
  | none => false

/-- A charge follows the diagram where the segment is not `Free`. -/
theorem legal_dropObject (b : Batch) (hid : m.state? id ≠ some .free) (id' : Int) :
    m.Legal (m.dropObject b id).2 id' := by
  cases he : m.segs.find? id with
  | none =>
    rw [dropObject_none he]
    exact .refl m id'
  | some e =>
    rw [dropObject_some he]
    have hst := state?_of_find? he
    refine legal_setEntry ?_ id'
    unfold SegEntry.charged
    split
    · rw [hst] at hid ⊢
      dsimp only
      cases hs : e.md.state with
      | free => exact absurd (congrArg some hs) hid
      | reclaiming => exact Or.inl rfl
      | active => exact Or.inr ⟨Or.inl rfl, rfl⟩
      | full => exact Or.inr ⟨Or.inr (Or.inl rfl), rfl⟩
      | compacting => exact Or.inr ⟨Or.inr (Or.inr rfl), rfl⟩
    · exact Or.inl hst

/-- An update follows it where the segment it charges is not `Free`. -/
theorem legal_putObjectLocked (b : Batch) (key : Key) (md : ObjectMeta) (old : Option ObjectMeta)
    (hold : ∀ o, old = some o → o.segmentID ≠ md.segmentID → m.state? o.segmentID ≠ some .free)
    (id' : Int) : m.Legal (m.putObjectLocked b key md old).2 id' := by
  rw [putObjectLocked_snd]
  cases old with
  | none => exact (gentle_addObject m md.segmentID false id').1
  | some o =>
    by_cases hs : o.segmentID = md.segmentID
    · simp only [hs, if_true]
      exact (gentle_addObject m md.segmentID true id').1
    · simp only [hs, if_false]
      have hfree := hold o rfl hs
      have hadd := (gentle_addObject m md.segmentID false id').1
      generalize hm : (m.addObject md.segmentID false).2 = m₁ at hadd
      have hkeep : m₁.segs.find? o.segmentID = m.segs.find? o.segmentID := by
        rw [← hm, addObject_snd, find?_setEntry, if_neg hs, segs_unpool]
      have hst : m₁.state? o.segmentID = m.state? o.segmentID := by rw [state?, state?, hkeep]
      by_cases hid : id' = o.segmentID
      · have hdrop := legal_dropObject (m := m₁) [] (hst ▸ hfree) id'
        subst hid
        unfold Legal at hdrop ⊢
        rwa [hst] at hdrop
      · have hsame : (m₁.dropObject [] o.segmentID).2.segs.find? id' = m₁.segs.find? id' := by
          cases he : m₁.segs.find? o.segmentID with
          | none => rw [dropObject_none he]
          | some e => rw [dropObject_some he, find?_setEntry, if_neg hid]
        unfold Legal at hadd ⊢
        rw [hsame]
        rwa [show (m₁.dropObject [] o.segmentID).2.state? id' = m₁.state? id' by
          rw [state?, state?, hsame]]

/-- The states after a charge. -/
theorem state?_dropObject (b : Batch) (id' : Int) : (m.dropObject b id).2.state? id' =
    if id' = id ∧ m.lastIn id = true then some .reclaiming else m.state? id' := by
  unfold lastIn
  cases he : m.segs.find? id with
  | none => simp [dropObject_none he]
  | some e =>
    rw [dropObject_some he, state?_setEntry]
    by_cases hid : id' = id
    · subst hid
      unfold SegEntry.charged
      by_cases hl : e.md.aliveCount - 1 ≤ 0
      · simp [hl]
      · simp [hl, state?_of_find? he]
    · simp [hid]

theorem gentle_ref (m : SegmentManager) (id : Int) : m.Gentle (m.ref id) := by
  unfold ref
  split
  · rename_i e he
    have hst := state?_of_find? he
    exact gentle_setEntry (Or.inl hst) fun ha => Option.some.inj (hst.symm.trans ha)
  · exact .refl m

theorem gentle_unref (m : SegmentManager) (id : Int) : m.Gentle (m.unref id) := by
  unfold unref
  split
  · rename_i e he
    split
    · have hst := state?_of_find? he
      exact gentle_setEntry (Or.inl hst) fun ha => Option.some.inj (hst.symm.trans ha)
    · exact .refl m
  · exact .refl m

/-- `activate`, of a segment that is neither `Full` nor `Compacting`. -/
theorem gentle_activate (db : DB) (hf : m.state? id ≠ some .full)
    (hc : m.state? id ≠ some .compacting) : m.Gentle (activate db m id).2.2 := by
  rw [activate_snd]
  refine Gentle.congr (gentle_setEntry ?_ (fun _ => rfl)) (m.segs_unpool id)
  rw [show (m.unpool id).state? id = m.state? id by rw [state?, state?, segs_unpool]]
  cases hs : m.state? id with
  | none => exact Or.inr (Or.inl rfl)
  | some st =>
    cases st with
    | active => exact Or.inl rfl
    | free => exact Or.inr (Or.inr (Or.inl rfl))
    | reclaiming => exact Or.inr (Or.inr (Or.inr rfl))
    | full => exact absurd hs hf
    | compacting => exact absurd hs hc

/-- A segment that may be marked `Full`. -/
def Markable (m : SegmentManager) (id : Int) : Prop :=
  m.state? id = none ∨ m.state? id = some .active ∨ m.state? id = some .full

instance (m : SegmentManager) (id : Int) : Decidable (m.Markable id) :=
  inferInstanceAs (Decidable (_ ∨ _ ∨ _))

theorem legal_markFull (db : DB) (h : m.Markable id) (id' : Int) :
    m.Legal (markFull db m id).2.2 id' := by
  unfold markFull
  split
  · exact .refl m id'
  · rename_i e he
    refine legal_setEntry ?_ id'
    rw [state?_of_find? he]
    rcases h with h | h | h
    · rw [state?_of_find? he] at h
      exact absurd h (by simp)
    · rw [state?_of_find? he] at h
      exact Or.inr h
    · rw [state?_of_find? he] at h
      exact Or.inl h

theorem gentle_markCompacting (m : SegmentManager) (db : DB) (id : Int) :
    m.Gentle (markCompacting db m id).2.2 := by
  unfold markCompacting
  split
  · exact .refl m
  · rename_i e he
    split
    · rename_i hf
      refine gentle_setEntry (Or.inr ?_) ?_
      · rw [state?_of_find? he, hf]
        rfl
      · rw [state?_of_find? he, hf]
        exact fun ha => absurd ha (by simp)
    · exact .refl m

theorem gentle_popFree {db : DB} {x : Option Int × DB × SegmentManager} (h : m.PoolCoherent)
    (hx : popFree db m = some x) : m.Gentle x.2.2 ∧
      ∀ id, x.1 = some id → x.2.2.state? id = some .active := by
  rcases popFree_cases hx with ⟨-, rfl⟩ | ⟨id, rest, e, ok, db', hfree, he, -, hcase⟩
  · exact ⟨.refl m, fun id hid => absurd hid (by simp)⟩
  have hst : m.state? id = some .free := (h.mem_iff id).mp (by simp [hfree])
  have hsegs : SegmentManager.segs { m with free := rest } = m.segs := rfl
  rcases hcase with ⟨-, rfl⟩ | ⟨-, rfl⟩
  · refine ⟨Gentle.congr (gentle_setEntry (Or.inr ?_) (fun _ => rfl)) hsegs, ?_⟩
    · exact Or.inr (Or.inl hst)
    · intro id' hid
      rw [← Option.some.inj hid, state?_setEntry, if_pos rfl]
      rfl
  · refine ⟨gentle_setEntry (Or.inl hst) ?_, fun id' hid => absurd hid (by simp)⟩
    rw [hst]
    exact fun ha => absurd ha (by simp)

/-- The loop of `reclaimOnce` turns `Reclaiming` segments `Free`, and lists them. -/
theorem finalize_state (ids : List Int) (m : SegmentManager) (id : Int) :
    (id ∈ (m.finalize ids).1.map Prod.fst → m.state? id = some .reclaiming) ∧
      (m.finalize ids).2.state? id =
        if id ∈ (m.finalize ids).1.map Prod.fst then some .free else m.state? id := by
  induction ids generalizing m with
  | nil => simp [finalize]
  | cons i ids ih =>
    unfold finalize
    split
    · rename_i e he
      split
      · rename_i hc
        have hi : m.state? i = some .reclaiming := by rw [state?_of_find? he, hc.1]
        have hstate : state? { m with free := m.free ++ [i] } id = m.state? id := rfl
        obtain ⟨hin, heq⟩ := ih (setEntry { m with free := m.free ++ [i] } i e.reclaimed)
        rw [state?_setEntry, hstate] at hin heq
        simp only [List.map_cons, List.mem_cons]
        by_cases hid : id = i
        · subst hid
          refine ⟨fun _ => hi, ?_⟩
          rw [heq, if_pos (Or.inl rfl), if_pos rfl]
          split <;> rfl
        · simp only [hid, false_or, if_false] at hin heq ⊢
          exact ⟨hin, heq⟩
      · exact ih m
    · exact ih m

/-- The rollback turns `Free` segments back. -/
theorem rollback_state (ids : List Int) (m : SegmentManager) (id : Int) :
    (m.rollback ids).state? id =
      if id ∈ ids ∧ m.state? id = some .free then some .reclaiming else m.state? id := by
  induction ids generalizing m with
  | nil => simp [rollback]
  | cons i ids ih =>
    unfold rollback
    split
    · rename_i e he
      split
      · rename_i hf
        have hi : m.state? i = some .free := by rw [state?_of_find? he, hf]
        have hstate : ((m.setEntry i e.unreclaimed).removeFree i).state? id
            = if id = i then some .reclaiming else m.state? id :=
          state?_setEntry m i id e.unreclaimed
        rw [ih, hstate]
        by_cases hid : id = i
        · subst hid
          simp [hi]
        · simp [hid]
      · rename_i hf
        have hi : m.state? i ≠ some .free := by
          rw [state?_of_find? he]
          exact fun hs => hf (Option.some.inj hs)
        rw [ih]
        by_cases hid : id = i
        · subst hid
          simp [hi]
        · simp [hid]
    · rename_i hnone
      have hi : m.state? i = none := by rw [state?, hnone]; rfl
      rw [ih]
      by_cases hid : id = i
      · subst hid
        simp [hi]
      · simp [hid]

theorem gentle_finalize (m : SegmentManager) (ids : List Int) : m.Gentle (m.finalize ids).2 := by
  intro id
  obtain ⟨hin, heq⟩ := finalize_state ids m id
  by_cases hid : id ∈ (m.finalize ids).1.map Prod.fst
  · rw [if_pos hid] at heq
    obtain ⟨e, he, hst⟩ := state?_eq_some.mp heq
    refine ⟨Or.inr ⟨e, he, ?_⟩, fun ha => ?_⟩
    · rw [hst]
      exact hin hid
    · rw [hin hid] at ha
      exact absurd ha (by simp)
  · rw [if_neg hid] at heq
    exact ⟨Or.inl heq, fun ha => heq.trans ha⟩

/-- `reclaimOnce`: it frees, or it rolls back and every state is as before. -/
theorem gentle_gcFinalize (m : SegmentManager) (db : DB) (ids : List Int) :
    m.Gentle (gcFinalize db m ids).2.2 := by
  unfold gcFinalize
  dsimp only
  split
  · exact gentle_finalize m ids
  · split
    · exact gentle_finalize m ids
    · refine gentle_of_state fun id => ?_
      obtain ⟨hin, heq⟩ := finalize_state ids m id
      rw [rollback_state, heq]
      by_cases hid : id ∈ (m.finalize ids).1.map Prod.fst
      · simp [hid, hin hid]
      · simp [hid]

end SegmentManager

/-! ## 3. Runs -/

/-- The allocator's views are right, the pool is coherent, and a segment an allocation is rolling
to is neither `Full` nor `Compacting`, and `Active` from its activation on. -/
structure RollSound (s : Sys) (ls : List Local) : Prop where
  alloc : AllocSound s ls
  pool : s.segs.PoolCoherent
  roll : ∀ l ∈ ls, ∀ id b, l.hist.roll = some (id, b) →
    s.segs.state? id ≠ some .full ∧ s.segs.state? id ≠ some .compacting ∧
      (b = true → s.segs.state? id = some .active)

/-- The steps that may leave the diagram are not taken where they would: a segment is marked
`Full` only if it has no record or is `Active` or `Full`; no object leaves a `Free` segment, and
the last object leaves no segment that an allocation has just activated; and an allocation that
does not roll finds the segment under the cursor `Active` or without a record. -/
def KeepsStates (s : Sys) (l : Local) (rest : List Local) (o : Op) : Prop :=
  (∀ id ∈ o.marked?, s.segs.Markable id) ∧
  (∀ id ∈ o.charged?, s.segs.state? id ≠ some .free ∧
    (s.segs.lastIn id = true → ∀ x ∈ l :: rest, x.hist.roll ≠ some (id, true))) ∧
  match o with
  | .alloc (.take _) => l.hist.roll = none →
      s.segs.state? s.alloc.curSeg = none ∨ s.segs.state? s.alloc.curSeg = some .active
  | _ => True

instance (s : Sys) (l : Local) (rest : List Local) (o : Op) : Decidable (KeepsStates s l rest o) :=
  match o with
  | .alloc (.take _) => by unfold KeepsStates; infer_instance
  | .alloc .lock => by unfold KeepsStates; infer_instance
  | .alloc .unlock => by unfold KeepsStates; infer_instance
  | .alloc .ensureLoaded => by unfold KeepsStates; infer_instance
  | .alloc .read => by unfold KeepsStates; infer_instance
  | .alloc (.setCursor _ _) => by unfold KeepsStates; infer_instance
  | .alloc (.persist _ _) => by unfold KeepsStates; infer_instance
  | .cache _ => by unfold KeepsStates; infer_instance
  | .pebble _ => by unfold KeepsStates; infer_instance
  | .segs _ => by unfold KeepsStates; infer_instance
  | .dev _ => by unfold KeepsStates; infer_instance

theorem KeepsStates.spares {s : Sys} {l : Local} {rest : List Local} {o : Op}
    (h : KeepsStates s l rest o) : SparesFree s o := by
  refine ⟨fun id hid hf => ?_, fun id hid => (h.2.1 id hid).1⟩
  have hm := h.1 id hid
  unfold SegmentManager.Markable at hm
  rw [hf] at hm
  exact absurd hm (by simp)

variable {L : Layout} {s s' : Sys} {l l' : Local} {rest : List Local}

/-- The states of the segments that allocations are rolling to, after a gentle method. -/
theorem RollSound.of_gentle (h : RollSound s (l :: rest)) (hg : s.segs.Gentle s'.segs)
    {x : Local} (hx : x ∈ l :: rest) {id : Int} {b : Bool} (hr : x.hist.roll = some (id, b)) :
    s'.segs.state? id ≠ some .full ∧ s'.segs.state? id ≠ some .compacting ∧
      (b = true → s'.segs.state? id = some .active) := by
  obtain ⟨hnf, hnc, hact⟩ := h.roll x hx id b hr
  obtain ⟨hleg, hstay⟩ := hg id
  refine ⟨fun hf => ?_, fun hc => ?_, fun hb => hstay (hact hb)⟩
  · rcases hleg with he | ⟨e, he, harr⟩
    · exact hnf (he.symm.trans hf)
    · rw [SegmentManager.state?_of_find? he] at hf
      rw [Option.some.inj hf] at harr
      have hstay' := hstay harr
      rw [SegmentManager.state?_of_find? he, hf] at hstay'
      exact absurd hstay' (by simp)
  · rcases hleg with he | ⟨e, he, harr⟩
    · exact hnc (he.symm.trans hc)
    · rw [SegmentManager.state?_of_find? he] at hc
      rw [Option.some.inj hc] at harr
      exact hnf harr

/-- A gentle step; if the stepping thread now rolls to another segment, that one is right. -/
theorem RollSound.gentle (h : RollSound s (l :: rest)) {o : Op} {r : o.Reply}
    (hp : o.allocPre l.view) (hok : KeepsStates s l rest o)
    (hx : exec L s l o = some (s', l', r)) (hg : s.segs.Gentle s'.segs)
    (hr : ∀ id b, l'.hist.roll = some (id, b) → l.hist.roll = some (id, b) ∨
      (s'.segs.state? id ≠ some .full ∧ s'.segs.state? id ≠ some .compacting ∧
        (b = true → s'.segs.state? id = some .active))) : RollSound s' (l' :: rest) where
  alloc := h.alloc.step hp hx
  pool := by
    rw [exec_segs hx]
    exact h.pool.step hok.spares
  roll := by
    intro x hxin id b hroll
    rcases List.mem_cons.mp hxin with rfl | hxin
    · rcases hr id b hroll with hold | hnew
      · exact h.of_gentle hg List.mem_cons_self hold
      · exact hnew
    · exact h.of_gentle hg (List.mem_cons_of_mem _ hxin) hroll

/-- The states after a charge leave the diagram alone where an allocation rolls. -/
theorem RollSound.charge (h : RollSound s (l :: rest)) {o : Op} {r : o.Reply}
    (hp : o.allocPre l.view) (hok : KeepsStates s l rest o) (hoff : o.OffAlloc)
    (hx : exec L s l o = some (s', l', r)) {m : SegmentManager} (hg : s.segs.Gentle m)
    {i : Int} (hi : i ∈ o.charged?) (hlast : m.lastIn i = s.segs.lastIn i)
    (hs : ∀ id, s'.segs.state? id =
      if id = i ∧ m.lastIn i = true then some .reclaiming else m.state? id) :
    RollSound s' (l' :: rest) where
  alloc := h.alloc.step hp hx
  pool := by
    rw [exec_segs hx]
    exact h.pool.step hok.spares
  roll := by
    have hroll : ∀ x ∈ l :: rest, ∀ id b, x.hist.roll = some (id, b) →
        s'.segs.state? id ≠ some .full ∧ s'.segs.state? id ≠ some .compacting ∧
          (b = true → s'.segs.state? id = some .active) := by
      intro x hxin id b hr
      obtain ⟨hf, hc, ha⟩ :=
        RollSound.of_gentle h (show s.segs.Gentle ({ s with segs := m } : Sys).segs from hg) hxin hr
      rw [hs]
      split
      · rename_i hcond
        refine ⟨by simp, by simp, fun hb => ?_⟩
        subst hb
        have hno := (hok.2.1 i hi).2 (hlast ▸ hcond.2) x hxin
        exact absurd (hcond.1 ▸ hr) hno
      · exact ⟨hf, hc, ha⟩
    intro x hxin id b hr
    rcases List.mem_cons.mp hxin with rfl | hxin
    · have hv : x.hist.roll = l.hist.roll := congrArg AllocView.roll (view_frame hx hoff)
      exact hroll l List.mem_cons_self id b (hv ▸ hr)
    · exact hroll x (List.mem_cons_of_mem _ hxin) id b hr

/-- An update is a gentle entry of the object, and then perhaps a charge. -/
theorem SegmentManager.lastIn_addObject (m : SegmentManager) {id i : Int} (same : Bool)
    (hne : i ≠ id) : (m.addObject id same).2.lastIn i = m.lastIn i := by
  unfold lastIn
  rw [addObject_snd, find?_setEntry, if_neg hne, segs_unpool]

/-- **The step lemma.** -/
theorem RollSound.step (h : RollSound s (l :: rest)) {o : Op} {r : o.Reply}
    (hp : o.allocPre l.view) (hok : KeepsStates s l rest o)
    (hx : exec L s l o = some (s', l', r)) : RollSound s' (l' :: rest) := by
  have hsegs := exec_segs hx
  have hoff : o.OffAlloc → s.segs.Gentle (o.segsAfter s) → RollSound s' (l' :: rest) := by
    intro ho hg
    refine h.gentle hp hok hx (hsegs ▸ hg) fun id b hr => Or.inl ?_
    have hv : l'.hist.roll = l.hist.roll := congrArg AllocView.roll (view_frame hx ho)
    exact hv ▸ hr
  have hsame : ∀ id b, l'.hist.roll = some (id, b) → l'.hist.roll = l.hist.roll →
      l.hist.roll = some (id, b) := fun id b hr he => he ▸ hr
  cases o with
  | cache o => exact hoff True.intro (.refl _)
  | pebble o => exact hoff True.intro (.refl _)
  | dev o => exact hoff True.intro (.refl _)
  | alloc o =>
    refine h.gentle hp hok hx (hsegs ▸ .refl _) fun id b hr => Or.inl ?_
    cases o with
    | lock => exact hsame id b hr (congrArg AllocView.roll (view_lock hx))
    | unlock => exact absurd ((congrArg AllocView.roll (view_unlock hx)).symm.trans hr) (by simp [AllocView.idle])
    | ensureLoaded => exact hsame id b hr (congrArg AllocView.roll (view_ensureLoaded hx))
    | read => exact hsame id b hr (congrArg AllocView.roll (view_read hx).1)
    | setCursor seg off => exact hsame id b hr (congrArg AllocView.roll (view_setCursor hx))
    | take n => exact absurd ((congrArg AllocView.roll (view_take hx).1).symm.trans hr) (by simp)
    | persist seg off => exact hsame id b hr (congrArg AllocView.roll (view_persist hx))
  | segs o =>
    cases o with
    | lock => exact hoff True.intro (.refl _)
    | unlock => exact hoff True.intro (.refl _)
    | gcCandidates order => exact hoff True.intro (.refl _)
    | ref id reader => exact hoff True.intro (s.segs.gentle_ref id)
    | unref id => exact hoff True.intro (s.segs.gentle_unref id)
    | markCompacting id => exact hoff True.intro (s.segs.gentle_markCompacting s.db id)
    | gcFinalize ids => exact hoff True.intro (s.segs.gentle_gcFinalize s.db ids)
    | canUse id =>
      refine h.gentle hp hok hx (hsegs ▸ .refl _) fun i b hr => ?_
      have hv : l'.hist.roll = if r then some (id, false) else l.hist.roll :=
        congrArg AllocView.roll (view_canUse hx)
      rw [hv] at hr
      split at hr
      · -- the check has found no record, or `Free`
        rename_i hr'
        cases hr
        obtain ⟨b', hx', -⟩ := exec_segsOp hx
        simp only [SegsOp.exec] at hx'
        split at hx' <;> cases hx'
        right
        unfold SegmentManager.canUse at hr'
        unfold SegmentManager.state?
        cases hf : s.segs.segs.find? id with
        | none => simp
        | some e =>
          rw [hf] at hr'
          have hfree : e.md.state = .free := by simpa using hr'
          simp [hfree]
      · exact Or.inl hr
    | activate id =>
      obtain ⟨hf, hc, -⟩ := h.roll l List.mem_cons_self id false hp.1
      refine h.gentle hp hok hx (hsegs ▸ SegmentManager.gentle_activate s.db hf hc) fun i b hr => ?_
      have hv : l'.hist.roll = some (id, true) := congrArg AllocView.roll (view_activate hx)
      cases hv.symm.trans hr
      have hst : s'.segs.state? id = some .active := by
        rw [hsegs]
        show (SegmentManager.activate s.db s.segs id).2.2.state? id = _
        rw [SegmentManager.activate_snd, SegmentManager.state?_setEntry, if_pos rfl]
        rfl
      right
      rw [hst]
      simp
    | popFree =>
      obtain ⟨b', hx', -⟩ := exec_segsOp hx
      simp only [SegsOp.exec] at hx'
      split at hx'
      · cases hx'
      · obtain ⟨x, hpop, he⟩ := Option.map_eq_some_iff.mp hx'
        obtain ⟨hg, hact⟩ := SegmentManager.gentle_popFree h.pool hpop
        cases he
        refine h.gentle hp hok hx hg fun i b hr => ?_
        have hv := view_popFree hx
        cases hx1 : x.1 with
        | none =>
          rw [hx1] at hv
          exact Or.inl (hsame i b hr (congrArg AllocView.roll hv))
        | some id =>
          rw [hx1] at hv
          have hv' : l'.hist.roll = some (id, true) := congrArg AllocView.roll hv
          cases hv'.symm.trans hr
          right
          rw [hact _ hx1]
          simp
    | markFull id =>
      -- the thread that marks holds the lock and rolls nowhere yet, so nobody does
      have halloc := h.alloc.step hp hx
      obtain ⟨hroll, a, hc, -⟩ := hp
      have hin := h.alloc.inAlloc fun hi =>
        absurd (congrArg AllocView.cur hi) (by rw [hc]; simp [AllocView.idle])
      have hrest := h.alloc.alone hin
      refine ⟨halloc, ?_, ?_⟩
      · rw [hsegs]
        exact h.pool.step hok.spares
      · intro x hxin i b hr
        have hnone : x.hist.roll = none := by
          rcases List.mem_cons.mp hxin with rfl | hxin
          · exact (congrArg AllocView.roll (view_markFull hx)).trans hroll
          · exact congrArg AllocView.roll (hrest x hxin)
        exact absurd (hnone.symm.trans hr) (by simp)
    | delObjectLocked key md =>
      refine h.charge hp hok True.intro hx (.refl _) (i := md.segmentID) rfl rfl fun id => ?_
      rw [hsegs]
      exact SegmentManager.state?_dropObject [] id
    | putObjectLocked key md old v =>
      have hafter := SegmentManager.putObjectLocked_snd s.segs [] key md old
      cases old with
      | none =>
        refine hoff True.intro ?_
        show s.segs.Gentle (s.segs.putObjectLocked [] key md none).2
        rw [hafter]
        exact s.segs.gentle_addObject md.segmentID false
      | some o =>
        by_cases hs : o.segmentID = md.segmentID
        · refine hoff True.intro ?_
          show s.segs.Gentle (s.segs.putObjectLocked [] key md (some o)).2
          rw [hafter]
          simp only [hs, if_true]
          exact s.segs.gentle_addObject md.segmentID true
        · refine h.charge hp hok True.intro hx (s.segs.gentle_addObject md.segmentID false)
            (i := o.segmentID) (by simp [Op.charged?, hs])
            (s.segs.lastIn_addObject false hs) fun id => ?_
          rw [hsegs]
          show (s.segs.putObjectLocked [] key md (some o)).2.state? id = _
          rw [hafter]
          simp only [hs, if_false]
          exact SegmentManager.state?_dropObject [] id

/-- Every step follows the diagram. -/
theorem RollSound.legal (h : RollSound s (l :: rest)) {o : Op} {r : o.Reply}
    (hp : o.allocPre l.view) (hok : KeepsStates s l rest o)
    (hx : exec L s l o = some (s', l', r)) (id : Int) : s.segs.Legal s'.segs id := by
  rw [exec_segs hx]
  cases o with
  | cache o => exact .refl _ id
  | pebble o => exact .refl _ id
  | alloc o => exact .refl _ id
  | dev o => exact .refl _ id
  | segs o =>
    cases o with
    | lock => exact .refl _ id
    | unlock => exact .refl _ id
    | canUse i => exact .refl _ id
    | gcCandidates order => exact .refl _ id
    | ref i reader => exact (s.segs.gentle_ref i id).1
    | unref i => exact (s.segs.gentle_unref i id).1
    | markCompacting i => exact (s.segs.gentle_markCompacting s.db i id).1
    | gcFinalize ids => exact (s.segs.gentle_gcFinalize s.db ids id).1
    | markFull i => exact SegmentManager.legal_markFull s.db (hok.1 i rfl) id
    | activate i =>
      obtain ⟨hf, hc, -⟩ := h.roll l List.mem_cons_self i false hp.1
      exact (SegmentManager.gentle_activate s.db hf hc id).1
    | popFree =>
      show s.segs.Legal (((SegmentManager.popFree s.db s.segs).map (fun x => x.2.2)).getD s.segs) id
      cases hpop : SegmentManager.popFree s.db s.segs with
      | none => exact .refl _ id
      | some x => exact ((SegmentManager.gentle_popFree h.pool hpop).1 id).1
    | delObjectLocked key md =>
      exact SegmentManager.legal_dropObject [] (hok.2.1 md.segmentID rfl).1 id
    | putObjectLocked key md old v =>
      refine SegmentManager.legal_putObjectLocked [] key md old ?_ id
      rintro o rfl hne
      exact (hok.2.1 o.segmentID (by simp [Op.charged?, hne])).1

/-- Every allocation takes its extent from a segment that is `Active` or has no record. -/
theorem RollSound.writable (h : RollSound s (l :: rest)) {n : Int}
    (hp : (Op.alloc (.take n)).allocPre l.view) (hok : KeepsStates s l rest (.alloc (.take n))) :
    s.segs.state? s.alloc.curSeg = none ∨ s.segs.state? s.alloc.curSeg = some .active := by
  obtain ⟨-, -, a, hc, hroll⟩ := hp
  rcases hroll with hroll | hroll
  · exact hok.2.2 hroll
  · rw [h.alloc.knows a hc]
    exact Or.inr ((h.roll l List.mem_cons_self _ true hroll).2.2 rfl)

/-- Every call may start and the store may be reopened at any time; the steps keep to
`KeepsStates`. -/
def keepingStates : Rule sig Sys Local Call where
  permit := fun _ => True
  restarts := True
  allow := KeepsStates

instance (call : Call) : Decidable (keepingStates.permit call) := inferInstanceAs (Decidable True)
instance : Decidable keepingStates.restarts := inferInstanceAs (Decidable True)
instance (s : Sys) (l : Local) (ls : List Local) (o : Op) :
    Decidable (keepingStates.allow s l ls o) := inferInstanceAs (Decidable (KeepsStates s l ls o))

theorem rollSound_initial {s : Sys} (hm : s.allocMu = false) (hp : s.segs.PoolCoherent) :
    RollSound s [] :=
  ⟨allocSound_initial hm, hp, fun _ hl => absurd hl List.not_mem_nil⟩

/-- The allocator's view of the segments as an invariant of runs. -/
def stateDiscipline (L : Layout) : Discipline (machine L) where
  toRule := keepingStates
  contract := allocProtocol L
  inv := RollSound
  post := fun _ l => l.view = .idle
  perm := fun _ _ _ hp h => ⟨h.alloc.perm hp, h.pool, fun l hl => h.roll l (hp.mem_iff.mpr hl)⟩
  spawn := by
    intro s ls call _ h
    refine ⟨h.alloc.spawn rfl, h.pool, fun l hl id b hr => ?_⟩
    rcases List.mem_cons.mp hl with rfl | hl
    · exact absurd hr (by simp [machine])
    · exact h.roll l hl id b hr
  starts := fun call _ => code_allocates L call _ rfl
  retire := by
    intro s l rest a hv h
    refine ⟨⟨h.alloc.frame rfl rfl rfl rfl rfl fun _ => hv, h.pool, ?_⟩, hv⟩
    intro x hx id b hr
    rcases List.mem_cons.mp hx with rfl | hx
    · exact h.roll l List.mem_cons_self id b hr
    · exact h.roll x (List.mem_cons_of_mem _ hx) id b hr
  restart := fun _ s ls h =>
    rollSound_initial rfl (SegmentManager.poolCoherent_rebuild s.db.disk)
  sound := fun s l rest o s' l' r h hp hok hx =>
    ⟨h.step hp hok hx, s, s', h.alloc.knows, hx⟩

/-- How much a step takes from the current segment. -/
def Op.taken : Op → Int
  | .alloc (.take n) => n
  | _ => 0

theorem Op.eq_take {o : Op} {n : Int} (h : o.taken = n) (hn : n ≠ 0) : o = .alloc (.take n) := by
  unfold Op.taken at h
  split at h
  · rw [h]
  · exact absurd h.symm hn

end Taihu
