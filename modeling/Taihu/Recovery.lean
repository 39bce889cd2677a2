/-
# What a reopened store finds

`rebuild` takes the states from the segment records and the counts from the mappings.  Section 1
computes its result: for every persisted content, the entry of a segment is a function of its
record and of the number of mappings that point into it (`find?_rebuild`).

Two of the bad combinations are corrected, a `Free` segment and a `Compacting` one with objects
in it.  The third is not: a record that says `Reclaiming` is believed whatever the mappings say,
and `reclaimOnce` looks at the state only.  Such a record is what an `Apply` that was overtaken
leaves behind, because the records are encoded under the lock and applied outside it.  So
recovery is safe exactly when no mapping points into a segment recorded as `Reclaiming`
(`recovery_safe_iff`).
-/
import Taihu.FreePool

namespace Taihu

open Concur

namespace SegmentManager

/-! ## 1. The entries after `rebuild` -/

/-- The entry step 1 makes of a record. -/
def loaded (sm : SegmentMeta) : SegEntry := ⟨{ sm with aliveCount := 0 }, 0⟩

theorem find?_loadSegment (m : SegmentManager) (x : Int × SegmentMeta) (id : Int) :
    (m.loadSegment x).segs.find? id = if id = x.1 then some (loaded x.2) else m.segs.find? id := by
  simp [loadSegment, loaded]

/-- Step 1 leaves a segment without a record alone. -/
theorem find?_load_of_notMem {id : Int} (xs : List (Int × SegmentMeta)) :
    ∀ {m : SegmentManager}, id ∉ xs.map Prod.fst →
      (xs.foldl loadSegment m).segs.find? id = m.segs.find? id := by
  induction xs with
  | nil => intro m _; rfl
  | cons x xs ih =>
    intro m h
    obtain ⟨hne, hnot⟩ := not_or.mp (fun hin => h (List.mem_cons.mpr hin))
    rw [List.foldl_cons, ih hnot, find?_loadSegment, if_neg hne]

/-- Step 1 loads each record. -/
theorem find?_load_of_mem {id : Int} {sm : SegmentMeta} (xs : List (Int × SegmentMeta)) :
    ∀ {m : SegmentManager}, (xs.map Prod.fst).Nodup → (id, sm) ∈ xs →
      (xs.foldl loadSegment m).segs.find? id = some (loaded sm) := by
  induction xs with
  | nil => intro m _ h; exact absurd h List.not_mem_nil
  | cons x xs ih =>
    intro m hnd h
    obtain ⟨hx, hnd⟩ := List.nodup_cons.mp hnd
    rcases List.mem_cons.mp h with rfl | h
    · rw [List.foldl_cons, find?_load_of_notMem xs hx, find?_loadSegment, if_pos rfl]
    · exact ih hnd h

theorem find?_load (d : Disk) (id : Int) :
    (d.iterSegment.foldl loadSegment empty).segs.find? id = (d.segment.find? id).map loaded := by
  cases h : d.segment.find? id with
  | none =>
    rw [find?_load_of_notMem]
    · rfl
    · intro hin
      obtain ⟨⟨id', sm⟩, hx, rfl⟩ := List.mem_map.mp hin
      have hsome := SortedMap.mem_entries.mp (d.iterSegment_perm.mem_iff.mp hx)
      rw [h] at hsome
      cases hsome
  | some sm =>
    exact find?_load_of_mem _ (nodup_iterSegment d)
      (d.iterSegment_perm.mem_iff.mpr (SortedMap.mem_entries.mpr h))

/-- `n` more mappings. -/
def countedN (e : SegEntry) (n : Nat) : SegEntry :=
  if n = 0 then e
  else
    { e with md :=
      { e.md with
        aliveCount := e.md.aliveCount + n
        state := if e.md.state = .free then .active else e.md.state } }

theorem countedN_counted (e : SegEntry) (n : Nat) : countedN e.counted n = countedN e (n + 1) := by
  unfold countedN SegEntry.counted SegEntry.withState
  by_cases hf : e.md.state = .free
  · by_cases hn : n = 0
    · subst hn
      simp [hf]
    · simp only [hf, if_true, hn, if_false, reduceCtorEq, Nat.add_eq_zero_iff, one_ne_zero, and_false]
      congr 2
      push_cast
      omega
  · by_cases hn : n = 0
    · subst hn
      simp [hf]
    · simp only [hf, hn, if_false, Nat.add_eq_zero_iff, one_ne_zero, and_false]
      congr 2
      push_cast
      omega

/-- Step 2 counts the mappings of each segment. -/
theorem find?_count (id : Int) (mds : List ObjectMeta) :
    ∀ m : SegmentManager, (mds.foldl countMapping m).segs.find? id =
      if mds.countP (fun md => md.segmentID == id) = 0 then m.segs.find? id
      else some (countedN (m.entry id) (mds.countP (fun md => md.segmentID == id))) := by
  induction mds with
  | nil => intro m; rfl
  | cons md mds ih =>
    intro m
    rw [List.foldl_cons, ih, List.countP_cons]
    by_cases hid : md.segmentID = id
    · subst hid
      have hentry : (m.countMapping md).entry md.segmentID = (m.entry md.segmentID).counted := by
        rw [entry, countMapping_eq, find?_setEntry, if_pos rfl]
        rfl
      have hfind : (m.countMapping md).segs.find? md.segmentID
          = some (m.entry md.segmentID).counted := by
        rw [countMapping_eq, find?_setEntry, if_pos rfl]
      simp only [hentry, hfind, countedN_counted, BEq.rfl, if_true]
      split
      · rename_i hn
        simp only [hn, Nat.zero_add, one_ne_zero, if_false]
        rw [← countedN_counted]
        rfl
      · simp
    · have hfind : (m.countMapping md).segs.find? id = m.segs.find? id := by
        rw [countMapping_eq, find?_setEntry, if_neg (fun he => hid he.symm), segs_unpool]
      have hentry : (m.countMapping md).entry id = m.entry id := by
        rw [entry, hfind]
        rfl
      simp only [hfind, hentry, beq_eq_false_iff_ne.mpr hid, Bool.false_eq_true, if_false,
        Nat.add_zero]

/-- The state a segment has after `rebuild`, from its recorded state and the number of mappings
that point into it. -/
def recoveredState : Option SegmentState → Nat → SegmentState
  | none, _ => .active
  | some .free, 0 => .free
  | some .free, _ + 1 => .active
  | some .compacting, 0 => .reclaiming
  | some .compacting, _ + 1 => .full
  | some st, _ => st

end SegmentManager

namespace Disk

/-- How many mappings point into the segment. -/
def population (d : Disk) (id : Int) : Nat := d.mapping.count (fun md => md.segmentID == id)

theorem population_pos {d : Disk} {id : Int} :
    0 < d.population id ↔ ∃ key md, d.mapping.find? key = some md ∧ md.segmentID = id := by
  unfold population
  rw [SortedMap.count_pos_iff]
  simp only [beq_iff_eq]

end Disk

namespace SegmentManager

/-- **The result of `rebuild`.** -/
theorem find?_rebuild (d : Disk) (id : Int) : (rebuild d).segs.find? id =
    if d.segment.find? id = none ∧ d.population id = 0 then none
    else some ⟨⟨recoveredState ((d.segment.find? id).map SegmentMeta.state) (d.population id),
      d.population id, ((d.segment.find? id).map SegmentMeta.reclaimSeq).getD 0⟩, 0⟩ := by
  have hpop : (d.mapping.entries.map Prod.snd).countP (fun md => md.segmentID == id)
      = d.population id := by
    unfold Disk.population SortedMap.count
    rw [List.countP_map]
    rfl
  have hentry : (d.iterSegment.foldl loadSegment empty).entry id
      = ((d.segment.find? id).map loaded).getD .new := by
    rw [entry, find?_load]
  unfold rebuild
  dsimp only
  rw [SortedMap.find?_mapValues, find?_count, hpop, find?_load, hentry]
  generalize d.population id = n
  cases d.segment.find? id with
  | none =>
    cases n with
    | zero => rfl
    | succ n =>
      simp [countedN, SegEntry.new, SegEntry.healed, recoveredState]
  | some sm =>
    obtain ⟨st, count, seq⟩ := sm
    cases n with
    | zero =>
      cases st <;> simp [loaded, SegEntry.healed, SegEntry.withState, recoveredState]
    | succ n =>
      cases st <;> simp [countedN, loaded, SegEntry.healed, SegEntry.withState, recoveredState]

/-- Every segment with a mapping has an entry. -/
theorem find?_rebuild_of_population {d : Disk} {id : Int} (h : 0 < d.population id) :
    (rebuild d).segs.find? id =
      some ⟨⟨recoveredState ((d.segment.find? id).map SegmentMeta.state) (d.population id),
        d.population id, ((d.segment.find? id).map SegmentMeta.reclaimSeq).getD 0⟩, 0⟩ := by
  rw [find?_rebuild, if_neg]
  rintro ⟨-, hzero⟩
  omega

theorem recoveredState_ne_compacting (st : Option SegmentState) (n : Nat) :
    recoveredState st n ≠ .compacting := by
  cases st with
  | none => exact fun h => by cases h
  | some st => cases st <;> cases n <;> exact fun h => by cases h

/-- With mappings in it, a segment comes back neither `Free` nor `Reclaiming`, unless its record
says `Reclaiming`. -/
theorem recoveredState_live {st : Option SegmentState} {n : Nat} (hn : 0 < n)
    (hst : st ≠ some .reclaiming) :
    recoveredState st n ≠ .free ∧ recoveredState st n ≠ .reclaiming := by
  obtain ⟨n, rfl⟩ := Nat.exists_eq_succ_of_ne_zero (Nat.ne_of_gt hn)
  cases st with
  | none => simp [recoveredState]
  | some st =>
    cases st
    case reclaiming => exact absurd rfl hst
    all_goals simp [recoveredState]

/-! ## 2. What recycling can take -/

/-- A step that takes segments for reuse: the last phase of `reclaimOnce`, or `popFree`. -/
def Recycling (o : SegsOp) : Prop :=
  (∃ ids, o = .gcFinalize ids) ∨ o = .popFree

/-- `m'` is what any number of such steps make of `m`, pebble failing or not. -/
inductive Recycled (m : SegmentManager) : SegmentManager → Prop where
  | refl : Recycled m m
  | step {m' : SegmentManager} (db : DB) (o : SegsOp) (ho : Recycling o) (h : Recycled m m') :
      Recycled m (o.after db m')

/-- A segment out of reach of recycling: not in the pool, and in a state that `reclaimOnce`
passes over. -/
structure Safe (m : SegmentManager) (id : Int) : Prop where
  notMem : id ∉ m.free
  ne_free : m.state? id ≠ some .free
  ne_reclaiming : m.state? id ≠ some .reclaiming

variable {m : SegmentManager} {id : Int}

theorem Safe.setEntry (h : m.Safe id) {id' : Int} {e : SegEntry} (hne : id ≠ id') :
    (m.setEntry id' e).Safe id where
  notMem := h.notMem
  ne_free := by rw [state?_setEntry, if_neg hne]; exact h.ne_free
  ne_reclaiming := by rw [state?_setEntry, if_neg hne]; exact h.ne_reclaiming

/-- A recycling step leaves it out of reach. -/
theorem Safe.step (h : m.Safe id) (db : DB) {o : SegsOp} (ho : Recycling o) :
    (o.after db m).Safe id := by
  rcases ho with ⟨ids, rfl⟩ | rfl
  · refine gcFinalize_keeps (P := fun m => m.Safe id) (fun m id' e h he hr => ?_)
      (fun m id' e h he hf => ?_) h db ids
    · have hne : id ≠ id' := by
        rintro rfl
        exact h.ne_reclaiming (by rw [state?_of_find? he, hr])
      refine Safe.setEntry ?_ hne
      exact ⟨by simp [h.notMem, hne], h.ne_free, h.ne_reclaiming⟩
    · have hne : id ≠ id' := by
        rintro rfl
        exact h.ne_free (by rw [state?_of_find? he, hf])
      have hset : (m.setEntry id' e.unreclaimed).Safe id := h.setEntry hne
      refine ⟨?_, hset.ne_free, hset.ne_reclaiming⟩
      exact fun hin => hset.notMem (List.mem_of_mem_erase hin)
  · unfold SegsOp.after
    dsimp only
    cases hp : SegmentManager.popFree db m with
    | none => exact h
    | some x =>
      rcases popFree_cases hp with ⟨-, rfl⟩ | ⟨id', rest, e, ok, db', hfree, he, -, hcase⟩
      · exact h
      have hne : id ≠ id' := fun heq => h.notMem (by rw [hfree, heq]; exact List.mem_cons_self)
      have hrest : id ∉ rest := fun hin => h.notMem (by
        rw [hfree]
        exact List.mem_cons_of_mem _ hin)
      have hpop : Safe { m with free := rest } id := ⟨hrest, h.ne_free, h.ne_reclaiming⟩
      rcases hcase with ⟨-, rfl⟩ | ⟨-, rfl⟩
      · exact hpop.setEntry hne
      · exact h.setEntry hne

theorem Safe.recycled {m' : SegmentManager} (h : m.Safe id) (hr : Recycled m m') : m'.Safe id := by
  induction hr with
  | refl => exact h
  | step db o ho _ ih => exact ih.step db ho

end SegmentManager

/-! ## 3. When recovery is safe -/

namespace Disk

/-- What the store found at restart is sound, and stays clear of recycling. -/
structure RecoverySafe (d : Disk) : Prop where
  /-- every count is the number of mappings into the segment. -/
  counts : ∀ id e, (SegmentManager.rebuild d).segs.find? id = some e →
    e.md.aliveCount = d.population id
  /-- a segment with mappings has an entry to count them. -/
  counted : ∀ id, 0 < d.population id → ((SegmentManager.rebuild d).segs.find? id).isSome
  pool : (SegmentManager.rebuild d).PoolCoherent
  healed : ∀ id, (SegmentManager.rebuild d).state? id ≠ some .compacting
  live : ∀ id, 0 < d.population id → (SegmentManager.rebuild d).state? id ≠ some .free ∧
    (SegmentManager.rebuild d).state? id ≠ some .reclaiming
  /-- no number of `reclaimOnce` and `popFree` steps frees such a segment or hands it out. -/
  kept : ∀ id, 0 < d.population id → ∀ m, SegmentManager.Recycled (SegmentManager.rebuild d) m →
    m.state? id ≠ some .free ∧ id ∉ m.free

/-- No mapping points into a segment whose record says `Reclaiming`. -/
def NoStaleReclaiming (d : Disk) : Prop :=
  ∀ key md, d.mapping.find? key = some md →
    (d.segment.find? md.segmentID).map SegmentMeta.state ≠ some .reclaiming

theorem rebuild_state {d : Disk} {id : Int} (h : 0 < d.population id) :
    (SegmentManager.rebuild d).state? id =
      some (SegmentManager.recoveredState ((d.segment.find? id).map SegmentMeta.state)
        (d.population id)) := by
  rw [SegmentManager.state?_of_find? (SegmentManager.find?_rebuild_of_population h)]

theorem NoStaleReclaiming.live {d : Disk} (h : d.NoStaleReclaiming) {id : Int}
    (hp : 0 < d.population id) : (SegmentManager.rebuild d).state? id ≠ some .free ∧
      (SegmentManager.rebuild d).state? id ≠ some .reclaiming := by
  obtain ⟨key, md, hk, rfl⟩ := population_pos.mp hp
  obtain ⟨hfree, hrec⟩ := SegmentManager.recoveredState_live hp (h key md hk)
  rw [rebuild_state hp]
  exact ⟨fun he => hfree (Option.some.inj he), fun he => hrec (Option.some.inj he)⟩

end Disk

/-- `a` is put; its delete is encoded and waits with its `Apply`; `b` is put into the same
segment; then the delete is applied, and the store crashes and is opened again. -/
def overtakenDelete : List (Act Call) :=
  Act.calls (.put [1] 1 [7]) 0 15 ++ Act.calls (.deleteMapping [1]) 1 4
    ++ Act.calls (.put [2] 1 [8]) 2 15 ++ [.step 1, .restart]

end Taihu
