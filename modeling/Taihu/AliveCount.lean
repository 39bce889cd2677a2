/-
# Alive counts

Between the critical section of an update, which charges and credits the segments, and its
`Apply`, the counts run ahead of pebble.  What they count exactly is the table that pebble will
hold once every encoded batch has been applied (`Counted`): for a key that some thread has
encoded, what its batch says; for the others what pebble says.  In a quiescent state the two
tables are one.

An update keeps this if the old mapping it charges for is still the current one when it takes
the lock, and nobody, the caller included, has an encoded write of the key waiting.  The code
looks the old mapping up before it locks and does not look again (`MoveMapping` does), so two
deletions of one key can both charge for it (`double_charge`).
-/
import Taihu.CacheCoherence
import Taihu.Recovery

namespace Taihu

open Concur

/-- The state of a segment that may hold objects. -/
def SegmentState.Live (st : SegmentState) : Prop := st ≠ .free ∧ st ≠ .reclaiming

instance (st : SegmentState) : Decidable st.Live := inferInstanceAs (Decidable (_ ∧ _))

/-! ## 1. Counts of a table -/

/-- How many objects of a table lie in segment `id`. -/
def tenants (M : SortedMap Key ObjectMeta) (id : Int) : Nat :=
  M.count (fun md => md.segmentID == id)

theorem tenants_insert (M : SortedMap Key ObjectMeta) (key : Key) (md : ObjectMeta) (id : Int) :
    tenants (M.insert key md) id + (if (M.find? key).map ObjectMeta.segmentID = some id then 1 else 0)
      = tenants M id + (if md.segmentID = id then 1 else 0) := by
  have h := M.count_insert (fun md => md.segmentID == id) key md
  unfold tenants
  cases hf : M.find? key with
  | none => simpa [hf] using h
  | some o => simpa [hf] using h

theorem tenants_erase (M : SortedMap Key ObjectMeta) (key : Key) (id : Int) :
    tenants (M.erase key) id + (if (M.find? key).map ObjectMeta.segmentID = some id then 1 else 0)
      = tenants M id := by
  have h := M.count_erase (fun md => md.segmentID == id) key
  unfold tenants
  cases hf : M.find? key with
  | none => simpa [hf] using h
  | some o => simpa [hf] using h

/-- A mapping of the table keeps its segment's count above zero. -/
theorem tenants_pos {M : SortedMap Key ObjectMeta} {key : Key} {md : ObjectMeta}
    (h : M.find? key = some md) : 0 < tenants M md.segmentID :=
  SortedMap.count_pos_iff.mpr ⟨key, md, h, beq_self_eq_true _⟩

namespace SegmentManager

/-! ## 2. The segment manager and the numbers it should hold -/

/-- The alive counts are `n`, and a segment that is `Free` or `Reclaiming` counts none. -/
structure Counts (m : SegmentManager) (n : Int → Nat) : Prop where
  alive : ∀ id, (m.entry id).md.aliveCount = n id
  live : ∀ id, 0 < n id → (m.entry id).md.state.Live

variable {m m' : SegmentManager} {n n' : Int → Nat} {id : Int} {e : SegEntry}

theorem entry_setEntry (m : SegmentManager) (id id' : Int) (e : SegEntry) :
    (m.setEntry id e).entry id' = if id' = id then e else m.entry id' := by
  unfold entry
  rw [find?_setEntry]
  split <;> rfl

theorem Counts.congr (h : m.Counts n) (hs : m'.segs = m.segs) : m'.Counts n := by
  have he : ∀ id, m'.entry id = m.entry id := fun id => by rw [entry, entry, hs]
  exact ⟨fun id => by rw [he, h.alive], fun id hn => by rw [he]; exact h.live id hn⟩

/-- One entry changes, and with it one number. -/
theorem Counts.set (h : m.Counts n) (hn : ∀ id', id' ≠ id → n' id' = n id')
    (ha : e.md.aliveCount = n' id) (hl : 0 < n' id → e.md.state.Live) :
    (m.setEntry id e).Counts n' := by
  constructor
  · intro id'
    rw [entry_setEntry]
    split
    · rename_i hid
      rw [hid, ha]
    · rename_i hid
      rw [h.alive, hn id' hid]
  · intro id' hpos
    rw [entry_setEntry]
    split
    · rename_i hid
      exact hl (hid ▸ hpos)
    · rename_i hid
      exact h.live id' (hn id' hid ▸ hpos)

/-- An entry gets another state. -/
theorem Counts.restate (h : m.Counts n) (he : m.segs.find? id = some e) {e' : SegEntry}
    (ha : e'.md.aliveCount = e.md.aliveCount) (hl : 0 < n id → e'.md.state.Live) :
    (m.setEntry id e').Counts n := by
  refine h.set (fun _ _ => rfl) ?_ hl
  rw [ha, ← entry_of_find? he, h.alive]

theorem Counts.unpool (h : m.Counts n) (id : Int) : (m.unpool id).Counts n := h.congr (by simp)

theorem entered_alive (e : SegEntry) (same : Bool) :
    (e.entered same).md.aliveCount = e.md.aliveCount + (if same then 0 else 1) := by
  unfold SegEntry.entered
  cases same
  all_goals
    simp only [Bool.false_eq_true, if_false, if_true]
    split <;> simp [SegEntry.withState]

theorem entered_live (e : SegEntry) (same : Bool) : (e.entered same).md.state.Live := by
  unfold SegEntry.entered
  cases same
  all_goals
    simp only [Bool.false_eq_true, if_false, if_true]
    split
    · exact ⟨by simp [SegEntry.withState], by simp [SegEntry.withState]⟩
    · rename_i hst
      exact ⟨fun hf => hst (Or.inl hf), fun hr => hst (Or.inr hr)⟩

/-- An object enters segment `id`. -/
theorem Counts.addObject (h : m.Counts n) (same : Bool)
    (hn : ∀ id', n' id' = n id' + (if id' = id ∧ same = false then 1 else 0)) :
    (m.addObject id same).2.Counts n' := by
  rw [addObject_snd]
  refine (h.unpool id).set ?_ ?_ (fun _ => entered_live _ same)
  · intro id' hid
    simp [hn, hid]
  · rw [entered_alive, h.alive, hn]
    cases same <;> simp

/-- An object leaves segment `id`, where there is one. -/
theorem Counts.dropObject (h : m.Counts n) (b : Batch) (hpos : 0 < n id)
    (hn : ∀ id', n' id' = n id' - (if id' = id then 1 else 0)) :
    (m.dropObject b id).2.Counts n' := by
  have ha := h.alive id
  cases he : m.segs.find? id with
  | none =>
    -- a segment without an entry counts 0
    rw [entry, he] at ha
    simp only [Option.getD_none, SegEntry.new] at ha
    omega
  | some e =>
    rw [entry_of_find? he] at ha
    have hlive := h.live id hpos
    rw [entry_of_find? he] at hlive
    rw [dropObject_some he]
    have hn' : n' id = n id - 1 := by simp [hn]
    refine h.set (fun id' hid => by simp [hn, hid]) ?_ ?_
    · unfold SegEntry.charged
      split
      · dsimp only
        omega
      · dsimp only
        omega
    · intro hpos'
      unfold SegEntry.charged
      rw [if_neg (by omega)]
      exact hlive

/-- `putObjectLocked` for an update of table `M` with the right old mapping. -/
theorem Counts.putObjectLocked {M : SortedMap Key ObjectMeta} (h : m.Counts (tenants M)) (b : Batch)
    (key : Key) (md : ObjectMeta) : (m.putObjectLocked b key md (M.find? key)).2.Counts
      (tenants (M.insert key md)) := by
  have hins := tenants_insert M key md
  rw [putObjectLocked_snd]
  cases hf : M.find? key with
  | none =>
    simp only [hf, Option.map_none, reduceCtorEq, if_false] at hins
    refine h.addObject false fun id' => ?_
    have hi := hins id'
    simp only [eq_comm (a := id'), and_true]
    exact hi
  | some o =>
    have hpos := tenants_pos hf
    simp only [hf, Option.map_some, Option.some.injEq] at hins
    by_cases hs : o.segmentID = md.segmentID
    · simp only [hs, if_true]
      refine h.addObject true fun id' => ?_
      have hi := hins id'
      rw [hs] at hi
      simp only [Bool.true_eq_false, and_false, if_false]
      omega
    · simp only [hs, if_false]
      have hadd : ∀ id', tenants M id' + (if id' = md.segmentID then 1 else 0) =
          tenants M id' + (if id' = md.segmentID ∧ false = false then 1 else 0) := by simp
      refine (h.addObject false hadd).dropObject _ (by omega) fun id' => ?_
      have hi := hins id'
      simp only [eq_comm (a := id')]
      by_cases h1 : o.segmentID = id'
      · subst h1
        simp only [if_true, if_neg (fun he => hs (he : md.segmentID = o.segmentID).symm)] at hi ⊢
        omega
      · simp only [h1, if_false] at hi ⊢
        omega

/-- `delObjectLocked` for the current mapping of a key of table `M`. -/
theorem Counts.delObjectLocked {M : SortedMap Key ObjectMeta} (h : m.Counts (tenants M)) (b : Batch)
    {key : Key} {md : ObjectMeta} (hf : M.find? key = some md) :
    (m.delObjectLocked b key md).2.Counts (tenants (M.erase key)) := by
  have herase := tenants_erase M key
  simp only [hf, Option.map_some, Option.some.injEq] at herase
  unfold SegmentManager.delObjectLocked
  refine h.dropObject _ (tenants_pos hf) fun id' => ?_
  have hi := herase id'
  simp only [eq_comm (a := id')]
  omega

/-! The other methods do not count objects. -/

theorem Counts.ref (h : m.Counts n) (id : Int) : (m.ref id).Counts n := by
  unfold SegmentManager.ref
  split
  · rename_i e he
    exact h.restate he rfl fun hp => entry_of_find? he ▸ h.live id hp
  · exact h

theorem Counts.unref (h : m.Counts n) (id : Int) : (m.unref id).Counts n := by
  unfold SegmentManager.unref
  split
  · rename_i e he
    split
    · exact h.restate he rfl fun hp => entry_of_find? he ▸ h.live id hp
    · exact h
  · exact h

theorem Counts.activate (h : m.Counts n) (db : DB) (id : Int) :
    (activate db m id).2.2.Counts n := by
  rw [activate_snd]
  exact (h.unpool id).set (fun _ _ => rfl) (h.alive id)
    (fun _ => by simp [SegEntry.withState, SegmentState.Live])

theorem Counts.markFull (h : m.Counts n) (db : DB) (id : Int) :
    (markFull db m id).2.2.Counts n := by
  unfold SegmentManager.markFull
  split
  · exact h
  · rename_i e he
    exact h.restate he rfl fun _ => by simp [SegEntry.withState, SegmentState.Live]

theorem Counts.markCompacting (h : m.Counts n) (db : DB) (id : Int) :
    (markCompacting db m id).2.2.Counts n := by
  unfold SegmentManager.markCompacting
  split
  · exact h
  · rename_i e he
    split
    · exact h.restate he rfl fun _ => by simp [SegEntry.withState, SegmentState.Live]
    · exact h

/-- `popFree`, where its write, if it makes one, succeeds. -/
theorem Counts.popFree (h : m.Counts n) {db : DB} {x : Option Int × DB × SegmentManager}
    (hok : m.free ≠ [] → db.faults.head? ≠ some true) (hx : popFree db m = some x) :
    x.2.2.Counts n := by
  rcases popFree_cases hx with ⟨-, rfl⟩ | ⟨id, rest, e, ok, db', hfree, he, hp, hcase⟩
  · exact h
  · have htrue : (persist db id (e.withState .active)).1 = true :=
      DB.write_succeeds (hok (by simp [hfree])) _
    rw [hp] at htrue
    rcases hcase with ⟨-, rfl⟩ | ⟨hfalse, -⟩
    · have h' : SegmentManager.Counts { m with free := rest } n := h.congr rfl
      exact h'.restate he rfl fun _ => by simp [SegEntry.withState, SegmentState.Live]
    · exact absurd (hfalse.symm.trans htrue) (by decide)

/-- A `Reclaiming` segment counts 0, and so it does when it is freed. -/
theorem Counts.reclaimed (h : m.Counts n) (he : m.segs.find? id = some e)
    (hr : e.md.state = .reclaiming) :
    SegmentManager.Counts ({ m with free := m.free ++ [id] }.setEntry id e.reclaimed) n := by
  have hzero : n id = 0 := by
    by_contra hne
    have hl := h.live id (by omega)
    rw [entry_of_find? he] at hl
    exact hl.2 hr
  have h' : SegmentManager.Counts { m with free := m.free ++ [id] } n := h.congr rfl
  exact h'.set (fun _ _ => rfl) (by rw [hzero]; rfl) (fun hp => by omega)

theorem Counts.unreclaimed (h : m.Counts n) (he : m.segs.find? id = some e)
    (hf : e.md.state = .free) : ((m.setEntry id e.unreclaimed).removeFree id).Counts n := by
  have h' : (m.setEntry id e.unreclaimed).Counts n := by
    refine h.restate he rfl fun hp => ?_
    have hl := h.live id hp
    rw [entry_of_find? he] at hl
    exact absurd hf hl.1
  exact h'.congr rfl

theorem Counts.gcFinalize (h : m.Counts n) (db : DB) (ids : List Int) :
    (gcFinalize db m ids).2.2.Counts n :=
  gcFinalize_keeps (P := fun m => m.Counts n) (fun _ _ _ h he hr => Counts.reclaimed h he hr)
    (fun _ _ _ h he hf => Counts.unreclaimed h he hf) h db ids

end SegmentManager

/-! ## 3. Runs -/

/-- The table `M` that pebble will hold once every encoded batch has been applied, and the
segment manager that counts it. -/
structure Counted (s : Sys) (ls : List Local) (M : SortedMap Key ObjectMeta) : Prop where
  counts : s.segs.Counts (tenants M)
  settled : ∀ key, (∀ l ∈ ls, key ∉ Batch.keys l.batch) →
    M.find? key = s.db.disk.mapping.find? key
  pending : ∀ l ∈ ls, ∀ key ∈ Batch.keys l.batch, M.find? key = Batch.result l.batch key

variable {L : Layout} {s s' : Sys} {l l' : Local} {rest : List Local}
  {M : SortedMap Key ObjectMeta}

theorem Counted.perm {ls ls' : List Local} (hp : ls.Perm ls') (h : Counted s ls M) :
    Counted s ls' M where
  counts := h.counts
  settled := fun key hk => h.settled key fun l hl => hk l (hp.mem_iff.mp hl)
  pending := fun l hl => h.pending l (hp.mem_iff.mpr hl)

/-- A step that encodes and applies nothing. -/
theorem Counted.frame (h : Counted s (l :: rest) M) (hc : s'.segs.Counts (tenants M))
    (hm : s'.db.disk.mapping = s.db.disk.mapping) (hb : l'.batch = l.batch) :
    Counted s' (l' :: rest) M where
  counts := hc
  settled := by
    intro key hk
    rw [hm]
    refine h.settled key fun x hx => ?_
    rcases List.mem_cons.mp hx with rfl | hx
    · exact hb ▸ hk l' List.mem_cons_self
    · exact hk x (List.mem_cons_of_mem _ hx)
  pending := by
    intro x hx
    rcases List.mem_cons.mp hx with rfl | hx
    · rw [hb]
      exact h.pending l List.mem_cons_self
    · exact h.pending x (List.mem_cons_of_mem _ hx)

/-- An update of `key` is encoded.  `v` is the mapping it will have. -/
theorem Counted.encode (h : Counted s (l :: rest) M) {key : Key} {v : Option ObjectMeta}
    {M' : SortedMap Key ObjectMeta} (hc : s'.segs.Counts (tenants M'))
    (hm : s'.db.disk.mapping = s.db.disk.mapping)
    (hM : ∀ k, M'.find? k = if k = key then v else M.find? k)
    (hkeys : Batch.keys l'.batch = Batch.keys l.batch ++ [key])
    (hres : ∀ k, Batch.result l'.batch k = if k = key then v else Batch.result l.batch k)
    (hfree : ∀ x ∈ l :: rest, key ∉ Batch.keys x.batch) : Counted s' (l' :: rest) M' where
  counts := hc
  settled := by
    intro k hk
    have hl := hk l' List.mem_cons_self
    rw [hkeys, List.mem_append, List.mem_singleton, not_or] at hl
    rw [hM, if_neg hl.2, hm]
    refine h.settled k fun x hx => ?_
    rcases List.mem_cons.mp hx with rfl | hx
    · exact hl.1
    · exact hk x (List.mem_cons_of_mem _ hx)
  pending := by
    intro x hx k hk
    rw [hM]
    rcases List.mem_cons.mp hx with rfl | hx
    · rw [hres]
      split
      · rfl
      · rename_i hne
        rw [hkeys, List.mem_append, List.mem_singleton] at hk
        exact h.pending l List.mem_cons_self k (hk.resolve_right hne)
    · rw [if_neg]
      · exact h.pending x (List.mem_cons_of_mem _ hx) k hk
      · rintro rfl
        exact hfree x (List.mem_cons_of_mem _ hx) hk

/-- A successful `Apply` changes the tables only where `M` is ahead. -/
theorem Counted.apply (h : Counted s (l :: rest) M) {db : DB}
    (hdb : db.disk = s.db.disk.apply l.batch) (hs : s'.segs = s.segs) (hd : s'.db = db)
    (hb : l'.batch = []) : Counted s' (l' :: rest) M where
  counts := hs ▸ h.counts
  settled := by
    intro key hk
    rw [hd, hdb]
    by_cases hin : key ∈ Batch.keys l.batch
    · rw [Disk.find?_apply_of_mem _ hin]
      exact h.pending l List.mem_cons_self key hin
    · rw [Disk.find?_apply_of_notMem _ hin]
      refine h.settled key fun x hx => ?_
      rcases List.mem_cons.mp hx with rfl | hx
      · exact hin
      · exact hk x (List.mem_cons_of_mem _ hx)
  pending := by
    intro x hx
    rcases List.mem_cons.mp hx with rfl | hx
    · rw [hb]
      exact fun key hk => absurd hk List.not_mem_nil
    · exact h.pending x (List.mem_cons_of_mem _ hx)

/-- An update charges for the mapping pebble holds, and no write of its key is on the way; the
writes that a count depends on succeed. -/
def ChargesCurrent (s : Sys) (l : Local) (rest : List Local) : Op → Prop
  | .segs (.putObjectLocked key _ old _) =>
    old = s.db.disk.mapping.find? key ∧ ∀ x ∈ l :: rest, key ∉ Batch.keys x.batch
  | .segs (.delObjectLocked key md) =>
    s.db.disk.mapping.find? key = some md ∧ ∀ x ∈ l :: rest, key ∉ Batch.keys x.batch
  | .segs .popFree => s.segs.free ≠ [] → s.db.faults.head? ≠ some true
  | .pebble .apply => s.db.faults.head? ≠ some true
  | _ => True

instance (s : Sys) (l : Local) (rest : List Local) :
    (o : Op) → Decidable (ChargesCurrent s l rest o)
  | .segs o => by cases o <;> unfold ChargesCurrent <;> infer_instance
  | .pebble o => by cases o <;> unfold ChargesCurrent <;> infer_instance
  | .cache _ => .isTrue True.intro
  | .alloc _ => .isTrue True.intro
  | .dev _ => .isTrue True.intro

/-- Every step that charges what is current keeps an exact count. -/
theorem Counted.step (h : Counted s (l :: rest) M) {o : Op} {r : o.Reply}
    (hok : ChargesCurrent s l rest o) (hx : exec L s l o = some (s', l', r)) :
    ∃ M', Counted s' (l' :: rest) M' := by
  have hframe : o.Batches = false → o ≠ .pebble .apply → (o.segsAfter s).Counts (tenants M) →
      ∃ M', Counted s' (l' :: rest) M' := fun hb ha hc =>
    ⟨M, h.frame (by rw [exec_segs hx]; exact hc) (exec_mapping hx ha) (exec_batch hx hb)⟩
  cases o with
  | cache o => exact hframe rfl (by simp) h.counts
  | alloc o => exact hframe rfl (by simp) h.counts
  | dev o => exact hframe rfl (by simp) h.counts
  | pebble o =>
    cases o with
    | apply =>
      obtain ⟨fs, hl', hs'⟩ := exec_apply hx
      have hr : r = true := by
        have hrep : r = (s.db.write (fun d => d.apply l.batch)).1 := by cases hx; rfl
        rw [hrep]
        exact DB.write_succeeds hok _
      subst hr
      simp only [if_true] at hs'
      subst hs'
      exact ⟨M, h.apply rfl rfl rfl (by rw [hl'])⟩
    | _ => exact hframe rfl (by simp) h.counts
  | segs o =>
    cases o with
    | putObjectLocked key md old v =>
      obtain ⟨rfl, hfree⟩ := hok
      have hM : M.find? key = s.db.disk.mapping.find? key := h.settled key hfree
      obtain ⟨rfl, rfl⟩ := exec_putObjectLocked hx
      refine ⟨M.insert key md, h.encode (v := some md) ?_ rfl (fun k => by simp)
        (s.segs.putObjectLocked_keys _ _ _ _) ?_ hfree⟩
      · rw [← hM]
        exact h.counts.putObjectLocked _ key md
      · intro k
        unfold Batch.result
        rw [SegmentManager.putObjectLocked_mapping]
        simp
    | delObjectLocked key md =>
      obtain ⟨hcur, hfree⟩ := hok
      have hM : M.find? key = some md := (h.settled key hfree).trans hcur
      obtain ⟨rfl, rfl⟩ := exec_delObjectLocked hx
      refine ⟨M.erase key, h.encode (v := none) ?_ rfl (fun k => by simp)
        (s.segs.delObjectLocked_keys _ _ _) ?_ hfree⟩
      · exact h.counts.delObjectLocked _ hM
      · intro k
        unfold Batch.result
        rw [SegmentManager.delObjectLocked_mapping]
        simp
    | ref id reader => exact hframe rfl (by simp) (h.counts.ref id)
    | unref id => exact hframe rfl (by simp) (h.counts.unref id)
    | activate id => exact hframe rfl (by simp) (h.counts.activate s.db id)
    | markFull id => exact hframe rfl (by simp) (h.counts.markFull s.db id)
    | markCompacting id => exact hframe rfl (by simp) (h.counts.markCompacting s.db id)
    | popFree =>
      refine hframe rfl (by simp) ?_
      unfold Op.segsAfter SegsOp.after
      cases hp : SegmentManager.popFree s.db s.segs with
      | none => exact h.counts
      | some x => exact h.counts.popFree hok hp
    | gcFinalize ids => exact hframe rfl (by simp) (h.counts.gcFinalize s.db ids)
    | lock => exact hframe rfl (by simp) h.counts
    | unlock => exact hframe rfl (by simp) h.counts
    | canUse id => exact hframe rfl (by simp) h.counts
    | gcCandidates order => exact hframe rfl (by simp) h.counts

/-- Every call may start; the store stays open; updates charge for what is current. -/
def currentCharges : Rule sig Sys Local Call where
  permit := fun _ => True
  restarts := False
  allow := ChargesCurrent

instance (call : Call) : Decidable (currentCharges.permit call) := inferInstanceAs (Decidable True)
instance : Decidable currentCharges.restarts := inferInstanceAs (Decidable False)
instance (s : Sys) (l : Local) (ls : List Local) (o : Op) :
    Decidable (currentCharges.allow s l ls o) := inferInstanceAs (Decidable (ChargesCurrent s l ls o))

/-- Exact counts as an invariant of runs. -/
def countDiscipline (L : Layout) : Discipline (machine L) where
  toRule := currentCharges
  contract := (machine L).possible
  inv := fun s ls => ∃ M, Counted s ls M
  post := fun _ l => l.duty = .none
  perm := fun _ _ _ hp ⟨M, h⟩ => ⟨M, h.perm hp⟩
  spawn := by
    rintro s ls call - ⟨M, h⟩
    refine ⟨M, h.counts, fun key hk => ?_, fun l hl => ?_⟩
    · exact h.settled key fun l hl => hk l (List.mem_cons_of_mem _ hl)
    · rcases List.mem_cons.mp hl with rfl | hl
      · exact fun key hk => absurd hk List.not_mem_nil
      · exact h.pending l hl
  starts := fun call _ => code_settles L call _ rfl
  retire := fun s l rest _ hd ⟨M, h⟩ => ⟨⟨M, h.frame h.counts rfl rfl⟩, hd⟩
  restart := fun hr => absurd hr id
  sound := fun s l rest o s' l' r ⟨M, h⟩ _ hok hx => ⟨h.step hok hx, s, s', True.intro, hx⟩

/-- **Exact alive counts.**  After every run in which the updates charge for what is current,
when no call is in progress, every alive count is the number of mappings into the segment, and
only a segment without mappings is `Reclaiming` or `Free`. -/
theorem alive_exact_of_run (L : Layout) (bytes : Int → Byte) (dbFaults devFaults : List Bool)
    (as : List (Act Call)) (c : SysConf)
    (hok : (machine L).Along currentCharges.Admits (SysConf.init bytes dbFaults devFaults) as)
    (hrun : (machine L).run (SysConf.init bytes dbFaults devFaults) as = some c)
    (hq : c.Quiescent) (id : Int) :
    (c.shared.segs.entry id).md.aliveCount = c.shared.db.disk.population id ∧
      (c.shared.segs.state? id = some .reclaiming ∨ c.shared.segs.state? id = some .free →
        c.shared.db.disk.population id = 0) := by
  have hinit : Counted (Sys.init bytes dbFaults devFaults) [] .empty :=
    ⟨⟨fun _ => rfl, fun id hp => absurd hp (by simp [tenants])⟩, fun _ _ => rfl,
      fun l hl => absurd hl List.not_mem_nil⟩
  have h := (countDiscipline L).run ((countDiscipline L).holds_initial ⟨_, hinit⟩) hok hrun
  obtain ⟨M, hM⟩ := h.inv
  -- no thread has a batch left, so `M` is the table of pebble
  have hmap : M = c.shared.db.disk.mapping := by
    refine SortedMap.ext_find? fun key => hM.settled key fun l hl => ?_
    obtain ⟨⟨l', p⟩, hth, rfl⟩ := List.mem_map.mp hl
    have hdone := hq _ hth
    cases p with
    | request o next => exact absurd hdone (by simp [Program.isDone])
    | pure a =>
      have hd : l'.duty = .none := h.post hth rfl
      have hb : l'.batch = [] := congrArg Duty.batch hd
      rw [hb]
      exact List.not_mem_nil
  subst hmap
  refine ⟨hM.counts.alive id, fun hst => ?_⟩
  by_contra hne
  have hlive := hM.counts.live id (Nat.pos_of_ne_zero hne)
  rcases hst with hst | hst
  all_goals
    obtain ⟨e, he, hstate⟩ := SegmentManager.state?_eq_some.mp hst
    rw [SegmentManager.entry_of_find? he, hstate] at hlive
    exact absurd hlive (by decide)

/-- Two objects in one segment, then two deletions of the first: both look its mapping up before
either has removed it from the cache. -/
def twoPuts : List (Act Call) :=
  Act.calls (.putMapping [1] ⟨0, 0, 4096⟩) 0 7 ++ Act.calls (.putMapping [2] ⟨0, 4096, 4096⟩) 1 7

theorem alive_exact_of_twoPuts : ∃ c : SysConf,
    (machine ⟨8192, 4⟩).run (SysConf.init (fun _ => 0) [] [])
      (twoPuts ++ Act.calls (.deleteMapping [1]) 2 6) = some c ∧
      ((c.shared.segs.entry 0).md.aliveCount = c.shared.db.disk.population 0 ∧
        (c.shared.segs.state? 0 = some .reclaiming ∨ c.shared.segs.state? 0 = some .free →
          c.shared.db.disk.population 0 = 0)) := by
  obtain ⟨c, hc, hq⟩ := Option.map_eq_some_iff.mp
    (show ((machine ⟨8192, 4⟩).run (SysConf.init (fun _ => 0) [] [])
      (twoPuts ++ Act.calls (.deleteMapping [1]) 2 6)).map (fun c => decide c.Quiescent)
        = some true by decide +kernel)
  exact ⟨c, hc, alive_exact_of_run ⟨8192, 4⟩ (fun _ => 0) [] [] _ c (by decide +kernel) hc
    (of_decide_eq_true hq) 0⟩

/-- **A double charge.**  No call is in progress, one object is mapped into segment 0, its alive
count is 0 and its state `Reclaiming`. -/
theorem double_charge : ∃ c : SysConf,
    (machine ⟨8192, 4⟩).run (SysConf.init (fun _ => 0) [] [])
      (twoPuts ++ Act.calls (.deleteMapping [1]) 2 1 ++ Act.calls (.deleteMapping [1]) 3 6
        ++ List.replicate 5 (.step 2)) = some c ∧
      c.Quiescent ∧ c.shared.db.disk.population 0 = 1 ∧
      ¬ ((c.shared.segs.entry 0).md.aliveCount = c.shared.db.disk.population 0) ∧
      ¬ (c.shared.segs.state? 0 = some .reclaiming ∨ c.shared.segs.state? 0 = some .free →
        c.shared.db.disk.population 0 = 0) := by
  obtain ⟨c, hc, hview⟩ := Option.map_eq_some_iff.mp
    (show ((machine ⟨8192, 4⟩).run (SysConf.init (fun _ => 0) [] [])
      (twoPuts ++ Act.calls (.deleteMapping [1]) 2 1 ++ Act.calls (.deleteMapping [1]) 3 6
        ++ List.replicate 5 (.step 2))).map (fun c => (decide c.Quiescent,
          c.shared.db.disk.population 0, (c.shared.segs.entry 0).md.aliveCount,
          c.shared.segs.state? 0)) = some (true, 1, 0, some .reclaiming) by decide +kernel)
  simp only [Prod.mk.injEq, decide_eq_true_eq] at hview
  obtain ⟨hq, hpop, halive, hstate⟩ := hview
  refine ⟨c, hc, hq, hpop, ?_, fun h => ?_⟩
  · rw [halive, hpop]
    decide
  · have hzero := h (Or.inl hstate)
    rw [hpop] at hzero
    exact absurd hzero (by decide)

end Taihu
