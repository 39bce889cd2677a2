/-
# The free pool

`segmentManager.free` is meant to list the `Free` segments, each once.  Seven methods change a
state or the pool, and they do it separately.  Five of them keep the two in step from any state.
`markFull` and a charge (the branch of `putObjectLocked` and `delObjectLocked` for the segment an
object leaves) write the new state without looking at the old one and never touch the pool: on a
`Free` segment they leave its id behind.  The allocator does this when its cursor stands on a
segment that was emptied and reclaimed under it.

So the pool is coherent in every run in which these two are not applied to a `Free` segment
(`pool_coherent_of_run`), for every interleaving of all the calls, any failures of pebble and of
the device, and any number of restarts.
-/
import Taihu.Storage

namespace Taihu

open Concur

namespace SegmentManager

/-! ## 1. The methods that keep the pool in step -/

/-- The pool lists the `Free` segments, each once. -/
structure PoolCoherent (m : SegmentManager) : Prop where
  nodup : m.free.Nodup
  mem_iff : ∀ id, id ∈ m.free ↔ m.state? id = some .free

variable {m : SegmentManager} {id : Int} {e : SegEntry}

/-- An entry of a segment that is not `Free` gets another state than `Free`. -/
theorem PoolCoherent.setEntry (h : m.PoolCoherent) (hold : m.state? id ≠ some .free)
    (hnew : e.md.state ≠ .free) : (m.setEntry id e).PoolCoherent where
  nodup := h.nodup
  mem_iff := by
    intro id'
    rw [free_setEntry, state?_setEntry, h.mem_iff id']
    by_cases hid : id' = id
    · subst hid
      simp [hold, hnew]
    · rw [if_neg hid]

/-- A segment leaves the pool, if it is there, and gets another state than `Free`. -/
theorem PoolCoherent.unpool (h : m.PoolCoherent) (hnew : e.md.state ≠ .free) :
    ((m.unpool id).setEntry id e).PoolCoherent where
  nodup := by
    rw [free_setEntry, free_unpool]
    split
    · exact h.nodup.erase id
    · exact h.nodup
  mem_iff := by
    intro id'
    have hstate : (m.unpool id).state? id' = m.state? id' := by
      unfold state?
      rw [segs_unpool]
    rw [free_setEntry, free_unpool, state?_setEntry, hstate]
    by_cases hid : id' = id
    · subst hid
      split
      · simp [h.nodup.mem_erase_iff, hnew]
      · rename_i hnot
        have hst : m.state? id' ≠ some .free := fun hf => hnot (entry_free.mpr hf)
        simp [h.mem_iff, hst, hnew]
    · rw [if_neg hid, ← h.mem_iff]
      split
      · rw [h.nodup.mem_erase_iff]
        exact ⟨And.right, fun hin => ⟨hid, hin⟩⟩
      · rfl

/-- A segment that is not `Free` becomes so and enters the pool. -/
theorem PoolCoherent.enter (h : m.PoolCoherent) (hold : m.state? id ≠ some .free)
    (hnew : e.md.state = .free) :
    (SegmentManager.setEntry { m with free := m.free ++ [id] } id e).PoolCoherent where
  nodup := by
    have hid : id ∉ m.free := fun hin => hold ((h.mem_iff id).mp hin)
    refine List.nodup_append.mpr ⟨h.nodup, List.nodup_singleton id, ?_⟩
    intro a ha b hb hab
    rw [List.mem_singleton] at hb
    exact hid (hb ▸ hab ▸ ha)
  mem_iff := by
    intro id'
    have hstate : state? { m with free := m.free ++ [id] } id' = m.state? id' := rfl
    rw [free_setEntry, state?_setEntry, hstate, List.mem_append, List.mem_singleton, h.mem_iff id']
    by_cases hid : id' = id
    · simp [hid, hnew]
    · simp [hid]

/-- A change that leaves the pool and every state as they are. -/
theorem PoolCoherent.congr {m' : SegmentManager} (h : m.PoolCoherent) (hfree : m'.free = m.free)
    (hstate : ∀ id, m'.state? id = m.state? id) : m'.PoolCoherent where
  nodup := hfree ▸ h.nodup
  mem_iff := fun id => by rw [hfree, hstate, h.mem_iff id]

theorem entered_state (e : SegEntry) (same : Bool) : (e.entered same).md.state ≠ .free := by
  unfold SegEntry.entered
  cases same
  all_goals
    simp only [Bool.false_eq_true, if_false, if_true]
    split
    · simp [SegEntry.withState]
    · rename_i hst
      exact fun hf => hst (Or.inl hf)

theorem charged_state (e : SegEntry) :
    e.charged.md.state = .reclaiming ∨ e.charged.md.state = e.md.state := by
  unfold SegEntry.charged
  split
  · exact Or.inl rfl
  · exact Or.inr rfl

theorem PoolCoherent.addObject (h : m.PoolCoherent) (id : Int) (same : Bool) :
    (m.addObject id same).2.PoolCoherent := by
  rw [addObject_snd]
  exact h.unpool (entered_state _ same)

/-- A charge keeps the pool coherent where the segment is not `Free`. -/
theorem PoolCoherent.dropObject (h : m.PoolCoherent) (b : Batch)
    (hid : m.state? id ≠ some .free) : (m.dropObject b id).2.PoolCoherent := by
  cases he : m.segs.find? id with
  | none => rwa [dropObject_none he]
  | some e =>
    rw [dropObject_some he]
    refine h.setEntry hid ?_
    rcases charged_state e with hst | hst
    · rw [hst]
      decide
    · rw [hst]
      exact fun hf => hid (by rw [state?_of_find? he, hf])

theorem PoolCoherent.putObjectLocked (h : m.PoolCoherent) (b : Batch) (key : Key)
    (md : ObjectMeta) (old : Option ObjectMeta)
    (hid : ∀ o, old = some o → o.segmentID ≠ md.segmentID → m.state? o.segmentID ≠ some .free) :
    (m.putObjectLocked b key md old).2.PoolCoherent := by
  rw [putObjectLocked_snd]
  cases old with
  | none => exact h.addObject _ _
  | some o =>
    by_cases hs : o.segmentID = md.segmentID
    · simp only [hs, if_true]
      exact h.addObject _ _
    · simp only [hs, if_false]
      refine (h.addObject _ _).dropObject _ ?_
      rw [addObject_snd, state?_setEntry, if_neg hs]
      unfold state?
      rw [segs_unpool]
      exact hid o rfl hs

theorem PoolCoherent.ref (h : m.PoolCoherent) (id : Int) : (m.ref id).PoolCoherent := by
  unfold SegmentManager.ref
  split
  · rename_i e he
    refine h.congr rfl fun id' => ?_
    rw [state?_setEntry]
    split
    · rename_i hid
      rw [hid, state?_of_find? he]
    · rfl
  · exact h

theorem PoolCoherent.unref (h : m.PoolCoherent) (id : Int) : (m.unref id).PoolCoherent := by
  unfold SegmentManager.unref
  split
  · rename_i e he
    split
    · refine h.congr rfl fun id' => ?_
      rw [state?_setEntry]
      split
      · rename_i hid
        rw [hid, state?_of_find? he]
      · rfl
    · exact h
  · exact h

theorem PoolCoherent.activate (h : m.PoolCoherent) (db : DB) (id : Int) :
    (activate db m id).2.2.PoolCoherent := by
  rw [activate_snd]
  exact h.unpool (by simp [SegEntry.withState])

/-- `markFull` keeps the pool coherent where the segment is not `Free`. -/
theorem PoolCoherent.markFull (h : m.PoolCoherent) (db : DB) (hid : m.state? id ≠ some .free) :
    (markFull db m id).2.2.PoolCoherent := by
  unfold SegmentManager.markFull
  split
  · exact h
  · exact h.setEntry hid (by simp [SegEntry.withState])

theorem PoolCoherent.markCompacting (h : m.PoolCoherent) (db : DB) (id : Int) :
    (markCompacting db m id).2.2.PoolCoherent := by
  unfold SegmentManager.markCompacting
  split
  · exact h
  · rename_i e he
    split
    · rename_i hfull
      refine h.setEntry ?_ (by simp [SegEntry.withState])
      rw [state?_of_find? he, hfull]
      decide
    · exact h

/-- `popFree`, also when persisting fails and the segment goes back. -/
theorem PoolCoherent.popFree (h : m.PoolCoherent) (db : DB) {x : Option Int × DB × SegmentManager}
    (hx : popFree db m = some x) : x.2.2.PoolCoherent := by
  rcases popFree_cases hx with ⟨-, rfl⟩ | ⟨id, rest, e, ok, db', hfree, he, -, hcase⟩
  · exact h
  have hst : m.state? id = some .free := (h.mem_iff id).mp (by simp [hfree])
  rcases hcase with ⟨-, rfl⟩ | ⟨-, rfl⟩
  · have hpool : m.unpool id = { m with free := rest } := by
      unfold SegmentManager.unpool removeFree
      rw [if_pos (entry_free.mpr hst), hfree, List.erase_cons_head]
    rw [← hpool]
    exact h.unpool (by simp [SegEntry.withState])
  · have hself : e.withState .free = e := by
      have hef : e.md.state = .free := by simpa [state?, he] using hst
      unfold SegEntry.withState
      rw [← hef]
    refine h.congr rfl fun id' => ?_
    rw [hself, state?_setEntry]
    split
    · rename_i hid
      rw [hid, state?_of_find? he]
    · rfl

/-- `reclaimOnce`, phase 3, with its rollback. -/
theorem PoolCoherent.gcFinalize (h : m.PoolCoherent) (db : DB) (ids : List Int) :
    (gcFinalize db m ids).2.2.PoolCoherent := by
  refine gcFinalize_keeps (fun m id e h he hr => ?_) (fun m id e h he hf => ?_) h db ids
  · refine h.enter ?_ rfl
    rw [state?_of_find? he, hr]
    decide
  · have hpool : (m.setEntry id e.unreclaimed).removeFree id
        = (m.unpool id).setEntry id e.unreclaimed := by
      unfold SegmentManager.unpool
      rw [if_pos (by rw [entry_of_find? he, hf])]
      rfl
    rw [hpool]
    exact h.unpool (by simp [SegEntry.unreclaimed])

/-! ## 2. `rebuild` -/

theorem poolCoherent_empty : PoolCoherent empty where
  nodup := List.nodup_nil
  mem_iff := by
    intro id
    simp [empty, state?]

/-- Loading the records of distinct segments. -/
theorem PoolCoherent.loadSegment (xs : List (Int × SegmentMeta)) :
    ∀ {m : SegmentManager}, m.PoolCoherent → (xs.map Prod.fst).Nodup →
      (∀ x ∈ xs, m.segs.find? x.1 = none) → (xs.foldl loadSegment m).PoolCoherent := by
  induction xs with
  | nil => intro m h _ _; exact h
  | cons x xs ih =>
    intro m h hnd hnew
    obtain ⟨hx, hnd⟩ := List.nodup_cons.mp hnd
    have hnone : m.segs.find? x.1 = none := hnew x List.mem_cons_self
    have hst : m.state? x.1 ≠ some .free := by simp [state?, hnone]
    refine ih ?_ hnd ?_
    · unfold SegmentManager.loadSegment
      split
      · rename_i hf
        exact h.enter hst hf
      · rename_i hf
        exact h.setEntry hst hf
    · intro y hy
      have hne : y.1 ≠ x.1 := fun he => hx (he ▸ List.mem_map_of_mem hy)
      have hkeep : (SegmentManager.loadSegment m x).segs.find? y.1 = m.segs.find? y.1 := by
        simp [SegmentManager.loadSegment, hne]
      rw [hkeep]
      exact hnew y (List.mem_cons_of_mem _ hy)

theorem counted_state (e : SegEntry) : e.counted.md.state ≠ .free := by
  unfold SegEntry.counted
  dsimp only
  split
  · simp [SegEntry.withState]
  · assumption

theorem PoolCoherent.countMapping (h : m.PoolCoherent) (mds : List ObjectMeta) :
    (mds.foldl countMapping m).PoolCoherent := by
  induction mds generalizing m with
  | nil => exact h
  | cons md mds ih =>
    refine ih ?_
    rw [countMapping_eq]
    exact h.unpool (counted_state _)

theorem healed_free (e : SegEntry) : e.healed.md.state = .free ↔ e.md.state = .free := by
  unfold SegEntry.healed
  split
  · rename_i hc
    rw [hc]
    split <;> simp [SegEntry.withState]
  · rfl

theorem nodup_iterSegment (d : Disk) : (d.iterSegment.map Prod.fst).Nodup :=
  (d.iterSegment_perm.map Prod.fst).nodup_iff.mpr d.segment.nodup_keys

/-- **`rebuild` builds a coherent pool** from any persisted content. -/
theorem poolCoherent_rebuild (d : Disk) : (rebuild d).PoolCoherent := by
  have hload : (d.iterSegment.foldl loadSegment empty).PoolCoherent :=
    PoolCoherent.loadSegment _ poolCoherent_empty (nodup_iterSegment d)
      (fun _ _ => rfl)
  have hcount := hload.countMapping (d.mapping.entries.map Prod.snd)
  constructor
  · exact hcount.nodup
  · intro id
    refine (hcount.mem_iff id).trans ?_
    unfold rebuild state?
    rw [SortedMap.find?_mapValues, Option.map_map, Option.map_eq_some_iff, Option.map_eq_some_iff]
    refine exists_congr fun e => and_congr Iff.rfl ?_
    exact (healed_free e).symm

end SegmentManager

/-! ## 3. Runs -/

/-- The step marks `Full`, or charges, no `Free` segment. -/
def SparesFree (s : Sys) (o : Op) : Prop :=
  (∀ id ∈ o.marked?, s.segs.state? id ≠ some .free) ∧
    ∀ id ∈ o.charged?, s.segs.state? id ≠ some .free

instance (s : Sys) (o : Op) : Decidable (SparesFree s o) :=
  inferInstanceAs (Decidable (_ ∧ _))

/-- Every call may start at any time and the store may be reopened at any time; the steps spare
`Free` segments. -/
def sparingFree : Rule sig Sys Local Call where
  permit := fun _ => True
  restarts := True
  allow := fun s _ _ o => SparesFree s o

instance (call : Call) : Decidable (sparingFree.permit call) := inferInstanceAs (Decidable True)
instance : Decidable sparingFree.restarts := inferInstanceAs (Decidable True)
instance (s : Sys) (l : Local) (ls : List Local) (o : Op) :
    Decidable (sparingFree.allow s l ls o) := inferInstanceAs (Decidable (SparesFree s o))

/-- One step that spares `Free` segments. -/
theorem SegmentManager.PoolCoherent.step {s : Sys} {o : Op} (h : s.segs.PoolCoherent)
    (hok : SparesFree s o) : (o.segsAfter s).PoolCoherent := by
  obtain ⟨hmark, hcharge⟩ := hok
  cases o with
  | segs o =>
    cases o with
    | putObjectLocked key md old v =>
      refine h.putObjectLocked _ key md old ?_
      rintro o rfl hne
      exact hcharge o.segmentID (by simp [Op.charged?, hne])
    | delObjectLocked key md => exact h.dropObject _ (hcharge md.segmentID rfl)
    | ref id reader => exact h.ref id
    | unref id => exact h.unref id
    | activate id => exact h.activate s.db id
    | markFull id => exact h.markFull s.db (hmark id rfl)
    | markCompacting id => exact h.markCompacting s.db id
    | popFree =>
      unfold Op.segsAfter SegsOp.after
      cases hp : SegmentManager.popFree s.db s.segs with
      | none => exact h
      | some x => exact h.popFree s.db hp
    | gcFinalize ids => exact h.gcFinalize s.db ids
    | lock => exact h
    | unlock => exact h
    | canUse id => exact h
    | gcCandidates order => exact h
  | cache o => exact h
  | pebble o => exact h
  | alloc o => exact h
  | dev o => exact h

/-- Pool coherence as an invariant of runs. -/
def poolDiscipline (L : Layout) : Discipline (machine L) where
  toRule := sparingFree
  contract := Contract.trivial
  inv := fun s _ => s.segs.PoolCoherent
  post := fun _ _ => True
  perm := fun _ _ _ _ h => h
  spawn := fun _ _ _ _ h => h
  starts := fun _ _ => keeps_trivial _ _
  retire := fun _ _ _ _ _ h => ⟨h, True.intro⟩
  restart := fun _ s _ _ => SegmentManager.poolCoherent_rebuild s.db.disk
  sound := by
    intro s l rest o s' l' r hinv _ hok hx
    rw [exec_segs hx]
    exact ⟨hinv.step hok, True.intro⟩

/-- The configuration in which an empty store has just been opened. -/
def SysConf.init (bytes : Int → Byte) (dbFaults devFaults : List Bool) : SysConf :=
  ⟨Sys.init bytes dbFaults devFaults, []⟩

/-- **The pool is coherent in every run that spares `Free` segments.** -/
theorem pool_coherent_of_run (L : Layout) (bytes : Int → Byte) (dbFaults devFaults : List Bool)
    (as : List (Act Call)) (c : SysConf)
    (hok : (machine L).Along sparingFree.Admits (SysConf.init bytes dbFaults devFaults) as)
    (hrun : (machine L).run (SysConf.init bytes dbFaults devFaults) as = some c) :
    c.shared.segs.PoolCoherent :=
  ((poolDiscipline L).run
    ((poolDiscipline L).holds_initial
      (show (poolDiscipline L).inv (Sys.init bytes dbFaults devFaults) [] from
        SegmentManager.poolCoherent_empty)) hok hrun).inv

/-- An object is put, deleted and its segment reclaimed; the cursor stays in that segment. -/
def reclaimUnderCursor : List (Act Call) :=
  Act.calls (.put [1] 1 [7]) 0 15 ++ Act.calls (.deleteMapping [1]) 1 6
    ++ Act.calls (.reclaimOnce []) 2 3

theorem pool_coherent_of_reclaimUnderCursor : ∃ c : SysConf,
    (machine ⟨8192, 4⟩).run (SysConf.init (fun _ => 0) [] []) reclaimUnderCursor = some c ∧
      c.shared.segs.free = [0] ∧ c.shared.segs.PoolCoherent := by
  obtain ⟨c, hc, hfree⟩ := Option.map_eq_some_iff.mp
    (show ((machine ⟨8192, 4⟩).run (SysConf.init (fun _ => 0) [] []) reclaimUnderCursor).map
      (fun c => c.shared.segs.free) = some [0] by decide +kernel)
  exact ⟨c, hc, hfree, pool_coherent_of_run ⟨8192, 4⟩ (fun _ => 0) [] [] reclaimUnderCursor c
    (by decide +kernel) hc⟩

/-- **A stale entry.**  The next allocation does not fit behind the cursor and rolls off it:
segment 0 is `Full` and still in the pool. -/
theorem stale_entry_after_roll : ∃ c : SysConf,
    (machine ⟨8192, 4⟩).run (SysConf.init (fun _ => 0) [] [])
      (reclaimUnderCursor ++ Act.calls (.allocateSegment 8192) 3 11) = some c ∧
      c.Quiescent ∧ ¬ c.shared.segs.PoolCoherent := by
  obtain ⟨c, hc, hview⟩ := Option.map_eq_some_iff.mp
    (show ((machine ⟨8192, 4⟩).run (SysConf.init (fun _ => 0) [] [])
      (reclaimUnderCursor ++ Act.calls (.allocateSegment 8192) 3 11)).map
        (fun c => (c.shared.segs.free, c.shared.segs.state? 0, decide c.Quiescent))
          = some ([0], some .full, true) by decide +kernel)
  simp only [Prod.mk.injEq, decide_eq_true_eq] at hview
  obtain ⟨hfree, hstate, hq⟩ := hview
  refine ⟨c, hc, hq, fun h => ?_⟩
  have hin : c.shared.segs.state? 0 = some .free := (h.mem_iff 0).mp (by simp [hfree])
  rw [hstate] at hin
  exact absurd hin (by decide)

end Taihu
