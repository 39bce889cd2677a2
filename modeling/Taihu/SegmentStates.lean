/-
# The states of the segments in use

What may be done with a segment is decided by its recorded state, in memory and in pebble.  A
family of states FITS a set of segments if none of them is `Free` and all of them, but segment 0
where allocation begins without a record, have a record.  An allocation goes to a segment that is
`Free` or has no record; so where the states fit the segments in use, it goes to none of those.

One method of the segment manager makes a segment `Free`, the last phase of `reclaimOnce`.  All
the others let the states EVOLVE: what they write is another state, of a segment from 0 on
(`SegsOp.evolves`).  So do the batches of the commits, as long as no object leaves a segment that
is `Free`, and so does `Open`.
-/
import Taihu.StateMachine

namespace Taihu

open Concur

variable {s s' : Sys}

/-! ## 1. States that fit -/

/-- The recorded state of a segment. -/
def Disk.state? (d : Disk) (id : Int) : Option SegmentState :=
  (d.segment.find? id).map SegmentMeta.state

/-- The states fit the segments in use: none of them is `Free`, and all have a record but perhaps
segment 0, where allocation begins.  Only segments from 0 on have records. -/
structure Fit (st : Int → Option SegmentState) (used : Int → Prop) : Prop where
  notFree : ∀ id, used id → st id ≠ some .free
  recorded : ∀ id, used id → st id = none → id = 0
  nonneg : ∀ id, st id ≠ none → 0 ≤ id

/-- No segment has become `Free`, and none has lost its record. -/
def Evolves (st st' : Int → Option SegmentState) : Prop :=
  ∀ id, st' id = st id ∨ (0 ≤ id ∧ ∃ x, x ≠ SegmentState.free ∧ st' id = some x)

section

variable {st st' : Int → Option SegmentState} {used used' : Int → Prop} {id : Int}

theorem evolves_of_eq (h : ∀ id, st' id = st id) : Evolves st st' := fun id => Or.inl (h id)

/-- One segment gets a state. -/
theorem evolves_set {x : SegmentState} (hid : 0 ≤ id) (hx : x ≠ .free)
    (h : ∀ i, st' i = if i = id then some x else st i) : Evolves st st' := by
  intro i
  rw [h]
  by_cases hi : i = id
  · exact Or.inr ⟨hi ▸ hid, x, hx, if_pos hi⟩
  · exact Or.inl (if_neg hi)

theorem Evolves.trans {st'' : Int → Option SegmentState} (h : Evolves st st')
    (h' : Evolves st' st'') : Evolves st st'' := by
  intro id
  rcases h' id with he | hn
  · rw [he]
    exact h id
  · exact Or.inr hn

theorem Fit.evolve (h : Fit st used) (he : Evolves st st') : Fit st' used where
  notFree := by
    intro id hu
    rcases he id with he | ⟨-, x, hx, he⟩
    · rw [he]
      exact h.notFree id hu
    · rw [he]
      exact fun hf => hx (Option.some.inj hf)
  recorded := by
    intro id hu hnone
    rcases he id with he | ⟨-, x, -, he⟩
    · exact h.recorded id hu (he.symm.trans hnone)
    · exact absurd (he.symm.trans hnone) (by simp)
  nonneg := by
    intro id hs
    rcases he id with he | ⟨hid, -⟩
    · exact h.nonneg id (he ▸ hs)
    · exact hid

/-- Other segments are in use; the new ones have a state, and not `Free`. -/
theorem Fit.use (h : Fit st used)
    (hu : ∀ id, used' id → used id ∨ ∃ x, x ≠ SegmentState.free ∧ st id = some x) : Fit st used' where
  notFree := by
    intro id hid
    rcases hu id hid with hold | ⟨x, hx, he⟩
    · exact h.notFree id hold
    · rw [he]
      exact fun hf => hx (Option.some.inj hf)
  recorded := by
    intro id hid hnone
    rcases hu id hid with hold | ⟨x, -, he⟩
    · exact h.recorded id hold hnone
    · exact absurd (he.symm.trans hnone) (by simp)
  nonneg := h.nonneg

theorem Fit.mono (h : Fit st used) (hu : ∀ id, used' id → used id) : Fit st used' :=
  h.use fun id hid => Or.inl (hu id hid)

/-- Segments that are not in use may become `Free`. -/
theorem Fit.free (h : Fit st used) {ids : List Int} (hids : ∀ id ∈ ids, 0 ≤ id ∧ ¬ used id)
    (hs : ∀ id, st' id = if id ∈ ids then some .free else st id) : Fit st' used where
  notFree := by
    intro id hu
    rw [hs, if_neg fun hin => (hids id hin).2 hu]
    exact h.notFree id hu
  recorded := by
    intro id hu
    rw [hs, if_neg fun hin => (hids id hin).2 hu]
    exact h.recorded id hu
  nonneg := by
    intro id
    rw [hs]
    by_cases hin : id ∈ ids
    · exact fun _ => (hids id hin).1
    · rw [if_neg hin]
      exact h.nonneg id

end

/-! ## 2. Pebble -/

namespace Disk

theorem state?_setSegment (d : Disk) (id : Int) (md : SegmentMeta) (i : Int) :
    (d.applyOp (.setSegment id md)).state? i = if i = id then some md.state else d.state? i := by
  unfold state?
  simp only [applyOp, SortedMap.find?_insert]
  split <;> rfl

theorem state?_records (xs : List (Int × SegmentMeta)) (hfree : ∀ x ∈ xs, x.2.state = .free) :
    ∀ (d : Disk) (id : Int), (d.apply (Batch.records xs)).state? id =
      if id ∈ xs.map Prod.fst then some .free else d.state? id := by
  induction xs with
  | nil => exact fun d id => by simp [Batch.records]
  | cons x xs ih =>
    intro d id
    obtain ⟨hx, hxs⟩ := List.forall_mem_cons.mp hfree
    show ((d.applyOp (.setSegment x.1 x.2)).apply (Batch.records xs)).state? id = _
    rw [ih hxs, state?_setSegment, hx]
    by_cases hin : id ∈ xs.map Prod.fst
    · simp [hin]
    · simp [hin]

/-- A batch whose records name no segment `Free`. -/
theorem evolves_apply (b : Batch)
    (hb : ∀ id sm, BatchOp.setSegment id sm ∈ b → 0 ≤ id ∧ sm.state ≠ .free) :
    ∀ d : Disk, Evolves d.state? (d.apply b).state? := by
  induction b with
  | nil => exact fun d => evolves_of_eq fun _ => rfl
  | cons o b ih =>
    intro d
    have hrest := ih fun id sm hin => hb id sm (List.mem_cons_of_mem _ hin)
    refine Evolves.trans ?_ (hrest (d.applyOp o))
    cases o with
    | setMapping key md => exact evolves_of_eq fun _ => rfl
    | delMapping key => exact evolves_of_eq fun _ => rfl
    | setSegment id sm =>
      obtain ⟨hid, hsm⟩ := hb id sm List.mem_cons_self
      exact evolves_set hid hsm (d.state?_setSegment id sm)

end Disk

/-! ## 3. The segment manager -/

namespace SegmentManager

variable {m : SegmentManager} {db : DB} {id : Int} {e : SegEntry}

theorem evolves_persist (db : DB) (hid : 0 ≤ id) (he : e.md.state ≠ .free) :
    Evolves db.disk.state? (persist db id e).2.disk.state? := by
  rw [persist, DB.write_disk]
  split
  · exact evolves_set hid he (db.disk.state?_setSegment id e.md)
  · exact evolves_of_eq fun _ => rfl

theorem evolves_setEntry (hid : 0 ≤ id) (he : e.md.state ≠ .free) :
    Evolves m.state? (m.setEntry id e).state? := evolves_set hid he fun i => state?_setEntry m id i e

theorem state?_unpool (m : SegmentManager) (id i : Int) : (m.unpool id).state? i = m.state? i := by
  rw [state?, state?, segs_unpool]

theorem evolves_addObject (m : SegmentManager) (hid : 0 ≤ id) (same : Bool) :
    Evolves m.state? (m.addObject id same).2.state? := by
  rw [addObject_snd]
  exact (evolves_of_eq (m.state?_unpool id)).trans (evolves_setEntry hid (entered_state _ same))

theorem nonneg_of_find? (hn : ∀ id, m.state? id ≠ none → 0 ≤ id) (he : m.segs.find? id = some e) :
    0 ≤ id := hn id (by rw [state?_of_find? he]; simp)

theorem evolves_dropObject (hn : ∀ id, m.state? id ≠ none → 0 ≤ id) (b : Batch) (id : Int) :
    Evolves m.state? (m.dropObject b id).2.state? := by
  intro i
  rw [state?_dropObject]
  by_cases h : i = id ∧ m.lastIn id = true
  · refine Or.inr ⟨?_, .reclaiming, by simp, if_pos h⟩
    obtain ⟨rfl, hlast⟩ := h
    unfold lastIn at hlast
    split at hlast
    · rename_i e he
      exact nonneg_of_find? hn he
    · exact absurd hlast (by simp)
  · exact Or.inl (if_neg h)

theorem evolves_putObjectLocked (hn : ∀ id, m.state? id ≠ none → 0 ≤ id) (b : Batch) (key : Key)
    {md : ObjectMeta} (hid : 0 ≤ md.segmentID) (old : Option ObjectMeta) :
    Evolves m.state? (m.putObjectLocked b key md old).2.state? := by
  rw [putObjectLocked_snd]
  have hadd := fun same => m.evolves_addObject hid same
  cases old with
  | none => exact hadd false
  | some o =>
    dsimp only
    split
    · exact hadd true
    · refine (hadd false).trans (evolves_dropObject ?_ [] o.segmentID)
      intro id hs
      rcases hadd false id with he | ⟨hnn, -⟩
      · exact hn id (he ▸ hs)
      · exact hnn

theorem evolves_ref (m : SegmentManager) (id : Int) : Evolves m.state? (m.ref id).state? := by
  unfold ref
  split
  · rename_i e he
    refine evolves_of_eq fun i => ?_
    rw [state?_setEntry]
    split
    · rename_i hi
      rw [hi, state?_of_find? he]
    · rfl
  · exact evolves_of_eq fun _ => rfl

theorem evolves_unref (m : SegmentManager) (id : Int) : Evolves m.state? (m.unref id).state? := by
  unfold unref
  split
  · rename_i e he
    split
    · refine evolves_of_eq fun i => ?_
      rw [state?_setEntry]
      split
      · rename_i hi
        rw [hi, state?_of_find? he]
      · rfl
    · exact evolves_of_eq fun _ => rfl
  · exact evolves_of_eq fun _ => rfl

theorem evolves_activate (db : DB) (m : SegmentManager) (hid : 0 ≤ id) :
    Evolves m.state? (activate db m id).2.2.state? ∧
      Evolves db.disk.state? (activate db m id).2.1.disk.state? := by
  constructor
  · rw [activate_snd]
    exact (evolves_of_eq (m.state?_unpool id)).trans (evolves_setEntry hid (by simp [SegEntry.withState]))
  · exact evolves_persist db hid (by simp [SegEntry.withState])

theorem evolves_markFull (hn : ∀ id, m.state? id ≠ none → 0 ≤ id) (db : DB) (id : Int) :
    Evolves m.state? (markFull db m id).2.2.state? ∧
      Evolves db.disk.state? (markFull db m id).2.1.disk.state? := by
  unfold markFull
  split
  · exact ⟨evolves_of_eq fun _ => rfl, evolves_of_eq fun _ => rfl⟩
  · rename_i e he
    have hid := nonneg_of_find? hn he
    exact ⟨evolves_setEntry hid (by simp [SegEntry.withState]),
      evolves_persist db hid (by simp [SegEntry.withState])⟩

theorem evolves_markCompacting (hn : ∀ id, m.state? id ≠ none → 0 ≤ id) (db : DB) (id : Int) :
    Evolves m.state? (markCompacting db m id).2.2.state? ∧
      Evolves db.disk.state? (markCompacting db m id).2.1.disk.state? := by
  unfold markCompacting
  split
  · exact ⟨evolves_of_eq fun _ => rfl, evolves_of_eq fun _ => rfl⟩
  · rename_i e he
    split
    · have hid := nonneg_of_find? hn he
      exact ⟨evolves_setEntry hid (by simp [SegEntry.withState]),
        evolves_persist db hid (by simp [SegEntry.withState])⟩
    · exact ⟨evolves_of_eq fun _ => rfl, evolves_of_eq fun _ => rfl⟩

theorem evolves_popFree (hn : ∀ id, m.state? id ≠ none → 0 ≤ id) (hp : m.PoolCoherent)
    {x : Option Int × DB × SegmentManager} (hx : popFree db m = some x) :
    Evolves m.state? x.2.2.state? ∧ Evolves db.disk.state? x.2.1.disk.state? := by
  rcases popFree_cases hx with ⟨-, rfl⟩ | ⟨id, ids, e, ok, db', hfree, he, hper, hcase⟩
  · exact ⟨evolves_of_eq fun _ => rfl, evolves_of_eq fun _ => rfl⟩
  have hid := nonneg_of_find? hn he
  have hdisk := evolves_persist db hid (e := e.withState .active) (by simp [SegEntry.withState])
  rw [hper] at hdisk
  rcases hcase with ⟨-, rfl⟩ | ⟨-, rfl⟩
  · exact ⟨evolves_setEntry (m := { m with free := ids }) hid (by simp [SegEntry.withState]), hdisk⟩
  · -- the segment stays in the pool, where it was `Free` already
    have hst : m.state? id = some .free := (hp.mem_iff id).mp (by simp [hfree])
    refine ⟨evolves_of_eq fun i => ?_, hdisk⟩
    rw [state?_setEntry]
    split
    · rename_i hi
      rw [hi, hst]
      rfl
    · rfl

/-- What the loop of `reclaimOnce` frees was asked for and could be freed. -/
theorem mem_finalize (ids : List Int) : ∀ (m : SegmentManager) (id : Int),
    id ∈ (m.finalize ids).1.map Prod.fst → id ∈ ids ∧ m.reclaimable id = true := by
  induction ids with
  | nil => exact fun m id h => absurd h (by simp [finalize])
  | cons i ids ih =>
    intro m id h
    unfold finalize at h
    split at h
    · rename_i e he
      split at h
      · rename_i hc
        rcases List.mem_cons.mp h with rfl | h
        · refine ⟨List.mem_cons_self, ?_⟩
          simp [reclaimable, he, hc]
        · obtain ⟨hin, hrec⟩ := ih _ id h
          refine ⟨List.mem_cons_of_mem _ hin, ?_⟩
          unfold reclaimable at hrec ⊢
          rw [find?_setEntry] at hrec
          split at hrec
          · rename_i hi
            split at hi
            · cases hi
              exact absurd hrec (by simp [SegEntry.reclaimed])
            · rename_i hne
              simpa [hi] using hrec
          · exact absurd hrec (by simp)
      · obtain ⟨hin, hrec⟩ := ih m id h
        exact ⟨List.mem_cons_of_mem _ hin, hrec⟩
    · obtain ⟨hin, hrec⟩ := ih m id h
      exact ⟨List.mem_cons_of_mem _ hin, hrec⟩

theorem finalize_free (ids : List Int) : ∀ (m : SegmentManager), ∀ x ∈ (m.finalize ids).1,
    x.2.state = .free := by
  induction ids with
  | nil => exact fun m x hx => absurd hx (by simp [finalize])
  | cons i ids ih =>
    intro m
    unfold finalize
    split
    · split
      · exact List.forall_mem_cons.mpr ⟨rfl, ih _⟩
      · exact ih m
    · exact ih m

/-- **`reclaimOnce` keeps the states fit where it frees no segment in use.** -/
theorem fit_gcFinalize {used : Int → Prop} (hf : db.faults = []) {ids : List Int}
    (hids : ∀ id ∈ ids, m.reclaimable id = true → ¬ used id) (hm : Fit m.state? used)
    (hd : Fit db.disk.state? used) :
    Fit (gcFinalize db m ids).2.2.state? used ∧ Fit (gcFinalize db m ids).2.1.disk.state? used := by
  have hdone : ∀ id ∈ (m.finalize ids).1.map Prod.fst, 0 ≤ id ∧ ¬ used id := by
    intro id hid
    obtain ⟨hin, hrec⟩ := mem_finalize ids m id hid
    refine ⟨hm.nonneg id ?_, hids id hin hrec⟩
    rw [(finalize_state ids m id).1 hid]
    simp
  have hmem : Fit (m.finalize ids).2.state? used := hm.free hdone fun id => (finalize_state ids m id).2
  unfold gcFinalize
  dsimp only
  rw [DB.write_of_no_faults hf]
  split
  · exact ⟨hmem, hd⟩
  · exact ⟨hmem, hd.free hdone (Disk.state?_records _ (finalize_free ids m) _)⟩

end SegmentManager

/-- The segment for which an operation may create a record. -/
def SegsOp.named? : SegsOp → Option Int
  | .putObjectLocked _ md _ _ => some md.segmentID
  | .activate id => some id
  | _ => none

/-- **Only `reclaimOnce` makes a segment `Free`.** -/
theorem SegsOp.evolves {o : SegsOp} {b b' : Batch} {r : o.Reply}
    (hx : o.exec s b = some (s', b', r)) (hn : ∀ id, s.segs.state? id ≠ none → 0 ≤ id)
    (hp : s.segs.PoolCoherent) (hname : ∀ id ∈ o.named?, 0 ≤ id)
    (hg : ∀ ids, o ≠ .gcFinalize ids) :
    Evolves s.segs.state? s'.segs.state? ∧ Evolves s.db.disk.state? s'.db.disk.state? := by
  have hrefl : ∀ st : Int → Option SegmentState, Evolves st st := fun _ => evolves_of_eq fun _ => rfl
  cases o with
  | unlock =>
    cases hx
    exact ⟨hrefl _, hrefl _⟩
  | putObjectLocked key md old v =>
    cases hx
    exact ⟨SegmentManager.evolves_putObjectLocked hn b key (hname _ rfl) old, hrefl _⟩
  | delObjectLocked key md =>
    cases hx
    exact ⟨SegmentManager.evolves_dropObject hn _ _, hrefl _⟩
  | gcFinalize ids => exact absurd rfl (hg ids)
  | popFree =>
    simp only [SegsOp.exec] at hx
    split at hx
    · cases hx
    · obtain ⟨x, hpop, he⟩ := Option.map_eq_some_iff.mp hx
      cases he
      exact SegmentManager.evolves_popFree hn hp hpop
  | ref id reader =>
    simp only [SegsOp.exec] at hx
    split at hx <;> cases hx
    exact ⟨s.segs.evolves_ref id, hrefl _⟩
  | unref id =>
    simp only [SegsOp.exec] at hx
    split at hx <;> cases hx
    exact ⟨s.segs.evolves_unref id, hrefl _⟩
  | activate id =>
    simp only [SegsOp.exec] at hx
    split at hx <;> cases hx
    exact SegmentManager.evolves_activate s.db s.segs (hname id rfl)
  | markFull id =>
    simp only [SegsOp.exec] at hx
    split at hx <;> cases hx
    exact SegmentManager.evolves_markFull hn s.db id
  | markCompacting id =>
    simp only [SegsOp.exec] at hx
    split at hx <;> cases hx
    exact SegmentManager.evolves_markCompacting hn s.db id
  | _ =>
    simp only [SegsOp.exec] at hx
    split at hx <;> cases hx
    exact ⟨hrefl _, hrefl _⟩

/-! ## 4. The records of a batch -/

/-- The records of a batch name segments from 0 on, and none of them `Free`. -/
def Batch.FreesNone (b : Batch) : Prop :=
  ∀ id sm, BatchOp.setSegment id sm ∈ b → 0 ≤ id ∧ sm.state ≠ .free

theorem Batch.FreesNone.append {b : Batch} (h : b.FreesNone) {o : BatchOp}
    (ho : ∀ id sm, o = .setSegment id sm → 0 ≤ id ∧ sm.state ≠ .free) : Batch.FreesNone (b ++ [o]) := by
  intro id sm hin
  rcases List.mem_append.mp hin with hin | hin
  · exact h id sm hin
  · exact ho id sm (List.mem_singleton.mp hin).symm

namespace SegmentManager

variable {m : SegmentManager} {b : Batch} {id : Int}

theorem addObject_fst (m : SegmentManager) (id : Int) (same : Bool) :
    (m.addObject id same).1 = (m.entry id).entered same := by
  rw [← ensureLocked_fst]
  rfl

theorem freesNone_dropObject (h : b.FreesNone) (hn : ∀ id, m.state? id ≠ none → 0 ≤ id)
    (hid : m.state? id ≠ some .free) : Batch.FreesNone (m.dropObject b id).1 := by
  cases he : m.segs.find? id with
  | none =>
    rw [dropObject_none he]
    exact h
  | some e =>
    rw [dropObject_some he]
    refine h.append fun i sm hi => ?_
    cases hi
    refine ⟨nonneg_of_find? hn he, ?_⟩
    rw [state?_of_find? he] at hid
    rcases charged_state e with hst | hst
    · rw [hst]
      simp
    · rw [hst]
      exact fun hf => hid (congrArg some hf)

theorem freesNone_putObjectLocked (h : b.FreesNone) (hn : ∀ id, m.state? id ≠ none → 0 ≤ id)
    (key : Key) {md : ObjectMeta} (hid : 0 ≤ md.segmentID) {old : Option ObjectMeta}
    (hold : ∀ o, old = some o → o.segmentID ≠ md.segmentID → m.state? o.segmentID ≠ some .free) :
    Batch.FreesNone (m.putObjectLocked b key md old).1 := by
  have hput : Batch.FreesNone (b ++ [.setMapping key md] ++
      [.setSegment md.segmentID (m.addObject md.segmentID (oldSame md old)).1.md]) := by
    refine (h.append fun i sm hi => absurd hi (by simp)).append fun i sm hi => ?_
    cases hi
    rw [addObject_fst]
    exact ⟨hid, entered_state _ _⟩
  unfold putObjectLocked
  cases old with
  | none => exact hput
  | some o =>
    dsimp only at hput ⊢
    split
    · exact hput
    · rename_i hs
      have hne : o.segmentID ≠ md.segmentID := fun he => hs (by simp [oldSame, he])
      refine freesNone_dropObject hput (fun i hi => ?_) ?_
      · rcases m.evolves_addObject hid (oldSame md (some o)) i with he | ⟨hi, -⟩
        · exact hn i (he ▸ hi)
        · exact hi
      · rw [addObject_snd, state?_setEntry, if_neg hne, state?_unpool]
        exact hold o rfl hne

end SegmentManager

/-! ## 5. Reopening -/

/-- The states `Open` gives the segments, from the recorded ones. -/
theorem state?_rebuild (d : Disk) (id : Int) : (SegmentManager.rebuild d).state? id =
    if d.state? id = none ∧ d.population id = 0 then none
    else some (SegmentManager.recoveredState (d.state? id) (d.population id)) := by
  unfold SegmentManager.state? Disk.state?
  rw [SegmentManager.find?_rebuild]
  simp only [Option.map_eq_none_iff]
  split <;> rfl

theorem recoveredState_ne_free {st : Option SegmentState} (h : st ≠ some .free) (n : Nat) :
    SegmentManager.recoveredState st n ≠ .free := by
  cases st with
  | none => simp [SegmentManager.recoveredState]
  | some st =>
    cases st
    case free => exact absurd rfl h
    all_goals cases n <;> simp [SegmentManager.recoveredState]

/-- `Open` gives the segments in use states that fit. -/
theorem Fit.rebuild {d : Disk} {used : Int → Prop} (h : Fit d.state? used)
    (hreg : ∀ key md, d.mapping.find? key = some md → 0 ≤ md.segmentID) :
    Fit (SegmentManager.rebuild d).state? used where
  notFree := by
    intro id hu
    rw [state?_rebuild]
    split
    · simp
    · exact fun hf => recoveredState_ne_free (h.notFree id hu) _ (Option.some.inj hf)
  recorded := by
    intro id hu
    rw [state?_rebuild]
    split
    · rename_i hnone
      exact fun _ => h.recorded id hu hnone.1
    · exact fun hn => absurd hn (by simp)
  nonneg := by
    intro id
    rw [state?_rebuild]
    split
    · exact fun hn => absurd rfl hn
    · rename_i hsome
      intro _
      by_cases hst : d.state? id = none
      · have hpop : 0 < d.population id := Nat.pos_of_ne_zero fun hz => hsome ⟨hst, hz⟩
        obtain ⟨key, md, hmd, rfl⟩ := Disk.population_pos.mp hpop
        exact hreg key md hmd
      · exact h.nonneg id hst

end Taihu
