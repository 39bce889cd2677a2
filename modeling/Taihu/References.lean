/-
# References are counted

`Ref` of the segment manager counts a reference if the segment has an entry, and does nothing if it
has none; `Unref` takes one off the count, whosever it was.  So the count is the number of the
references that the calls hold as long as two things are so: no reference is taken for a segment
without an entry, and every call gives back only what it has taken.

The second is a matter of the call alone.  The first is not: the mapping a reader has looked up may
be out of date, and that its segment has an entry is known because some thread has put the object
there before anybody could look it up.  An entry stays until the store is reopened, and then there
are no readers; so it is enough to have learned of it (`Taihu.Lib.Learning`).

`references_exact` is the result, for every run, whatever fails and however often the store is
reopened; a segment that a call holds a reference for is then never freed.
-/
import Taihu.Lib.Learning
import Taihu.Reclamation
import Taihu.SegmentStates

namespace Taihu

open Concur Program

/-! ## 1. The counts and the table -/

namespace SegmentManager

/-- The segments with an entry. -/
def tabled (m : SegmentManager) : Set Int := {id | (m.segs.find? id).isSome = true}

/-- The references counted for a segment. -/
def refCount (m : SegmentManager) (id : Int) : Nat := (m.entry id).refCount

/-- Every entry is still there, and counts `n` references. -/
structure Carries (m : SegmentManager) (n : Int → Nat) (m' : SegmentManager) : Prop where
  table : m.tabled ≤ m'.tabled
  count : ∀ id, m'.refCount id = n id

variable {m m' m₀ : SegmentManager} {n : Int → Nat} {id : Int} {e : SegEntry}

theorem mem_tabled : id ∈ m.tabled ↔ ∃ e, m.segs.find? id = some e := Option.isSome_iff_exists

theorem Carries.refl (m : SegmentManager) : m.Carries m.refCount m := ⟨le_refl _, fun _ => rfl⟩

theorem Carries.congr (h : m₀.Carries n m) (hs : m'.segs = m.segs) : m₀.Carries n m' where
  table := by
    refine h.table.trans fun id hid => ?_
    rw [mem_tabled] at hid ⊢
    rwa [hs]
  count := by
    intro id
    rw [← h.count id, refCount, refCount, entry, entry, hs]

theorem entry_setEntry_eq (m : SegmentManager) (id i : Int) (e : SegEntry) :
    (m.setEntry id e).entry i = if i = id then e else m.entry i := by
  unfold entry
  rw [find?_setEntry]
  split <;> rfl

theorem tabled_setEntry (m : SegmentManager) (id : Int) (e : SegEntry) :
    m.tabled ≤ (m.setEntry id e).tabled := by
  intro i hi
  obtain ⟨e', he'⟩ := mem_tabled.mp hi
  rw [mem_tabled, find?_setEntry]
  split
  · exact ⟨e, rfl⟩
  · exact ⟨e', he'⟩

theorem mem_tabled_setEntry (m : SegmentManager) (id : Int) (e : SegEntry) :
    id ∈ (m.setEntry id e).tabled := by
  rw [mem_tabled, find?_setEntry, if_pos rfl]
  exact ⟨e, rfl⟩

/-- An entry is changed, not its count. -/
theorem Carries.setEntry (h : m₀.Carries n m) (he : e.refCount = m.refCount id) :
    m₀.Carries n (m.setEntry id e) where
  table := h.table.trans (tabled_setEntry m id e)
  count := by
    intro i
    rw [← h.count i, refCount, entry_setEntry_eq]
    split
    · rename_i hi
      rw [he, hi]
    · rfl

theorem Carries.update (h : m₀.Carries n m) {e' : SegEntry} (hf : m.segs.find? id = some e')
    (he : e.refCount = e'.refCount) : m₀.Carries n (m.setEntry id e) := by
  refine h.setEntry ?_
  rw [refCount, entry_of_find? hf, he]

theorem Carries.unpool (h : m₀.Carries n m) (id : Int) : m₀.Carries n (m.unpool id) :=
  h.congr (segs_unpool m id)

theorem refCount_entered (e : SegEntry) (same : Bool) : (e.entered same).refCount = e.refCount := by
  unfold SegEntry.entered
  dsimp only
  split_ifs <;> rfl

theorem refCount_charged (e : SegEntry) : e.charged.refCount = e.refCount := by
  unfold SegEntry.charged
  split <;> rfl

theorem refCount_unpool (m : SegmentManager) (id i : Int) : (m.unpool id).refCount i = m.refCount i := by
  rw [refCount, refCount, entry, entry, segs_unpool]

theorem Carries.addObject (h : m₀.Carries n m) (id : Int) (same : Bool) :
    m₀.Carries n (m.addObject id same).2 := by
  rw [addObject_snd]
  refine (h.unpool id).setEntry ?_
  rw [refCount_entered, refCount_unpool]
  rfl

theorem Carries.dropObject (h : m₀.Carries n m) (b : Batch) (id : Int) :
    m₀.Carries n (m.dropObject b id).2 := by
  unfold SegmentManager.dropObject
  split
  · rename_i e he
    exact h.update he (refCount_charged e)
  · exact h

theorem Carries.putObjectLocked (h : m₀.Carries n m) (b : Batch) (key : Key) (md : ObjectMeta)
    (old : Option ObjectMeta) : m₀.Carries n (m.putObjectLocked b key md old).2 := by
  rw [putObjectLocked_snd]
  cases old with
  | none => exact h.addObject _ _
  | some o =>
    dsimp only
    split
    · exact h.addObject _ _
    · exact (h.addObject _ _).dropObject _ _

/-- The segment a put goes to has an entry from then on. -/
theorem mem_tabled_putObjectLocked (m : SegmentManager) (b : Batch) (key : Key) (md : ObjectMeta)
    (old : Option ObjectMeta) : md.segmentID ∈ (m.putObjectLocked b key md old).2.tabled := by
  have hadd : ∀ same, md.segmentID ∈ (m.addObject md.segmentID same).2.tabled := by
    intro same
    rw [addObject_snd]
    exact mem_tabled_setEntry _ _ _
  rw [putObjectLocked_snd]
  cases old with
  | none => exact hadd _
  | some o =>
    dsimp only
    split
    · exact hadd _
    · exact ((Carries.refl _).dropObject [] o.segmentID).table (hadd _)

theorem Carries.activate (h : m₀.Carries n m) (db : DB) (id : Int) :
    m₀.Carries n (activate db m id).2.2 := by
  rw [activate_snd]
  refine (h.unpool id).setEntry ?_
  rw [refCount_unpool]
  rfl

theorem Carries.markFull (h : m₀.Carries n m) (db : DB) (id : Int) :
    m₀.Carries n (markFull db m id).2.2 := by
  unfold SegmentManager.markFull
  split
  · exact h
  · rename_i e he
    exact h.update he rfl

theorem Carries.markCompacting (h : m₀.Carries n m) (db : DB) (id : Int) :
    m₀.Carries n (markCompacting db m id).2.2 := by
  unfold SegmentManager.markCompacting
  split
  · exact h
  · rename_i e he
    split
    · exact h.update he rfl
    · exact h

theorem Carries.popFree (h : m₀.Carries n m) {db : DB} {x : Option Int × DB × SegmentManager}
    (hx : popFree db m = some x) : m₀.Carries n x.2.2 := by
  rcases popFree_cases hx with ⟨-, rfl⟩ | ⟨id, rest, e, ok, db', -, he, -, hcase⟩
  · exact h
  · rcases hcase with ⟨-, rfl⟩ | ⟨-, rfl⟩
    · exact Carries.update (h.congr rfl) he rfl
    · exact h.update he rfl

theorem Carries.gcFinalize (h : m₀.Carries n m) (db : DB) (ids : List Int) :
    m₀.Carries n (gcFinalize db m ids).2.2 := by
  refine gcFinalize_keeps (P := fun m => m₀.Carries n m) ?_ ?_ h db ids
  · intro m id e h he _
    exact Carries.update (h.congr rfl) he rfl
  · intro m id e h he _
    exact (h.update (e := e.unreclaimed) he rfl).congr rfl

/-- `Ref` counts one more for a segment that has an entry. -/
theorem carries_ref (h : id ∈ m.tabled) :
    m.Carries (fun i => m.refCount i + if i = id then 1 else 0) (m.ref id) := by
  obtain ⟨e, he⟩ := mem_tabled.mp h
  unfold SegmentManager.ref
  rw [he]
  refine ⟨tabled_setEntry m id _, fun i => ?_⟩
  rw [refCount, entry_setEntry_eq]
  split
  · rename_i hi
    rw [hi, refCount, entry_of_find? he]
  · rfl

/-- `Unref` counts one less, if any are counted. -/
theorem carries_unref (m : SegmentManager) (id : Int) :
    m.Carries (fun i => m.refCount i - if i = id then 1 else 0) (m.unref id) := by
  unfold SegmentManager.unref
  split
  · rename_i e he
    have hcount : m.refCount id = e.refCount := congrArg SegEntry.refCount (entry_of_find? he)
    split
    · refine ⟨tabled_setEntry m id _, fun i => ?_⟩
      rw [refCount, entry_setEntry_eq]
      split
      · rename_i hi
        rw [hi, hcount]
      · rfl
    · refine ⟨le_refl _, fun i => ?_⟩
      split
      · rename_i hi
        rw [hi]
        omega
      · rfl
  · rename_i hnone
    refine ⟨le_refl _, fun i => ?_⟩
    split
    · rename_i hi
      rw [hi, refCount, entry, hnone]
      rfl
    · rfl

theorem refCount_rebuild (d : Disk) (id : Int) : (rebuild d).refCount id = 0 := by
  unfold refCount entry
  rw [find?_rebuild]
  split <;> rfl

/-- A segment with readers is not reclaimable. -/
theorem not_reclaimable (h : 0 < m.refCount id) : m.reclaimable id = false := by
  unfold reclaimable
  split
  · rename_i e he
    rw [refCount, entry_of_find? he] at h
    simp [Nat.ne_of_gt h]
  · rfl

end SegmentManager

variable {L : Layout} {s s' : Sys} {l l' : Local} {rest : List Local} {α β : Type}

/-! ## 2. The contract -/

/-- The references a thread holds after an operation. -/
def Op.refsAfter (refs : List Int) : Op → List Int
  | .segs (.ref id _) => id :: refs
  | .segs (.unref id) => refs.erase id
  | _ => refs

theorem refs_exec {o : Op} {r : o.Reply} (h : exec L s l o = some (s', l', r)) :
    l'.hist.refs = o.refsAfter l.hist.refs := by
  rw [exec_hist h]
  cases o with
  | cache o =>
    cases o with
    | get key => cases r <;> rfl
    | _ => rfl
  | pebble o =>
    cases o with
    | getMapping key site =>
      cases site <;> cases r <;> simp only [Op.note, PebbleOp.note] <;> (try split) <;> rfl
    | _ => cases r <;> rfl
  | segs o =>
    cases o with
    | putObjectLocked key md old v => cases v <;> rfl
    | ref id reader =>
      cases reader <;> simp only [Op.note, SegsOp.note] <;> (try split) <;> rfl
    | canUse id => cases r <;> rfl
    | markFull id => cases r <;> rfl
    | popFree => cases r <;> rfl
    | _ => rfl
  | alloc o =>
    cases o with
    | persist seg off => cases r <;> rfl
    | _ => rfl
  | dev o => cases o <;> cases r <;> rfl

/-- What a thread owes, where `known` are the segments that have an entry: it takes references for
such segments, gives back only its own, and fills the cache with mappings to such segments. -/
def Op.refsPre (l : Local) (known : Set Int) : Op → Prop
  | .cache (.put _ md) => md.segmentID ∈ known
  | .segs (.ref id _) => id ∈ known
  | .segs (.unref id) => id ∈ l.hist.refs
  | _ => True

/-- What the thread learns: the mappings it finds are to segments with an entry, and so is the one
it has put. -/
def Op.Teaches (known : Set Int) : (o : Op) → o.Reply → Prop
  | .cache (.get _), some md => md.segmentID ∈ known
  | .pebble (.getMapping _ _), some md => md.segmentID ∈ known
  | .pebble (.getMany _), some found => ∀ x ∈ found.entries, x.2.segmentID ∈ known
  | .pebble .iterMapping, all => ∀ x ∈ all, x.2.segmentID ∈ known
  | .segs (.putObjectLocked _ md _ _), _ => md.segmentID ∈ known
  | _, _ => True

/-- The contract of the references. -/
abbrev referring : Contract sig (Local × Set Int) :=
  Contract.learning (fun o l known => o.refsPre l known)
    (fun o l r l' known =>
      l'.hist.call = l.hist.call ∧ l'.hist.refs = o.refsAfter l.hist.refs ∧ o.Teaches known r)

/-- The thread holds the references `R`, and the segments `K` have an entry. -/
structure At (R : List Int) (K : Set Int) (x : Local × Set Int) : Prop where
  refs : x.1.hist.refs.Perm R
  known : K ≤ x.2

variable {R : List Int} {K : Set Int} {x y : Local × Set Int}

/-- One operation, and what follows it. -/
theorem refs_step {o : Op} {f : o.Reply → Proc β} {post : β → Local × Set Int → Prop}
    (hpre : o.refsPre x.1 x.2)
    (h : ∀ r y, x.2 ≤ y.2 → y.1.hist.refs = o.refsAfter x.1.hist.refs → o.Teaches y.2 r →
      Keeps referring post (f r) y) : Keeps referring post (perform o >>= f) x :=
  ⟨hpre, fun r y ⟨hle, _, hr, ht⟩ => h r y hle hr ht⟩

/-- One operation at the end. -/
theorem refs_last {o : Op} {post : o.Reply → Local × Set Int → Prop} (hpre : o.refsPre x.1 x.2)
    (h : ∀ r y, x.2 ≤ y.2 → y.1.hist.refs = o.refsAfter x.1.hist.refs → o.Teaches y.2 r → post r y) :
    Keeps referring post (perform o) x :=
  ⟨hpre, fun r y ⟨hle, _, hr, ht⟩ => h r y hle hr ht⟩

/-- Operations that neither touch references nor fill the cache. -/
def Op.Neutral : Op → Prop
  | .cache (.put _ _) => False
  | .segs (.ref _ _) => False
  | .segs (.unref _) => False
  | _ => True

theorem Op.Neutral.pre {o : Op} (h : o.Neutral) (l : Local) (known : Set Int) : o.refsPre l known := by
  cases o with
  | cache o => cases o <;> first | exact True.intro | exact absurd h id
  | segs o => cases o <;> first | exact True.intro | exact absurd h id
  | _ => exact True.intro

theorem Op.Neutral.refsAfter {o : Op} (h : o.Neutral) (refs : List Int) : o.refsAfter refs = refs := by
  cases o with
  | segs o => cases o <;> first | rfl | exact absurd h id
  | _ => rfl

theorem At.step (h : At R K x) {o : Op} (hle : x.2 ≤ y.2)
    (hr : y.1.hist.refs = o.refsAfter x.1.hist.refs) (ho : o.Neutral) : At R K y where
  refs := by
    rw [hr, ho.refsAfter]
    exact h.refs
  known := h.known.trans hle

/-- The cache is filled. -/
theorem At.cachePut (h : At R K x) {key : Key} {md : ObjectMeta} (hle : x.2 ≤ y.2)
    (hr : y.1.hist.refs = (Op.cache (.put key md)).refsAfter x.1.hist.refs) : At R K y :=
  ⟨hr ▸ h.refs, h.known.trans hle⟩

theorem At.ref (h : At R K x) {id : Int} {reader : Option (Key × ObjectMeta)} (hle : x.2 ≤ y.2)
    (hr : y.1.hist.refs = (Op.segs (.ref id reader)).refsAfter x.1.hist.refs) : At (id :: R) K y where
  refs := by
    rw [hr]
    exact h.refs.cons id
  known := h.known.trans hle

theorem At.unref {id : Int} (h : At (id :: R) K x) (hle : x.2 ≤ y.2)
    (hr : y.1.hist.refs = (Op.segs (.unref id)).refsAfter x.1.hist.refs) : At R K y where
  refs := by
    rw [hr]
    have herase := h.refs.erase id
    rwa [List.erase_cons_head] at herase
  known := h.known.trans hle

theorem At.mem {id : Int} (h : At (id :: R) K x) : id ∈ x.1.hist.refs :=
  h.refs.mem_iff.mpr List.mem_cons_self

theorem keeps_neutral {p : Proc α} (hu : Uses Op.Neutral p) (h : At R K x) :
    Keeps referring (fun _ y => At R K y) p x :=
  hu.keeps h fun _ y ho hy => ⟨ho.pre y.1 y.2, fun _ _ ⟨hle, _, hr, _⟩ => hy.step hle hr ho⟩

/-! ## 3. The procedures -/

/-- A mapping has been found, to a segment with an entry. -/
def Found (R : List Int) (K : Set Int) : Res ObjectMeta → Local × Set Int → Prop
  | .ok md, x => At R (insert md.segmentID K) x
  | .error _, x => At R K x

theorem At.insert (h : At R K x) {id : Int} (hid : id ∈ x.2) : At R (insert id K) x :=
  ⟨h.refs, Set.insert_subset hid h.known⟩

theorem At.mem_insert {id : Int} (h : At R (Insert.insert id K) x) : id ∈ x.2 :=
  h.known (Set.mem_insert _ _)

theorem At.forget {id : Int} (h : At R (Insert.insert id K) x) : At R K x :=
  ⟨h.refs, (Set.subset_insert _ _).trans h.known⟩

theorem refs_getMapping (key : Key) (h : At R K x) :
    Keeps referring (Found R K) (getMapping key) x := by
  refine refs_step True.intro fun r y hle hr ht => ?_
  have hy := h.step hle hr True.intro
  cases r with
  | some md => exact hy.insert ht
  | none =>
    refine refs_step True.intro fun r z hle hr ht => ?_
    have hz := hy.step hle hr True.intro
    cases r with
    | none => exact hz
    | some md =>
      refine refs_step ht fun _ w hle' hr' _ => ?_
      exact (hz.cachePut hle' hr').insert (hle' ht)

theorem refs_cachePutAll (xs : List (Key × ObjectMeta)) : ∀ {x : Local × Set Int}, At R K x →
    (∀ e ∈ xs, e.2.segmentID ∈ x.2) → Keeps referring (fun _ y => At R K y) (cachePutAll xs) x := by
  induction xs with
  | nil => exact fun h _ => h
  | cons e xs ih =>
    intro x h hall
    refine refs_step (hall e List.mem_cons_self) fun _ y hle hr _ => ?_
    exact ih (h.cachePut hle hr) fun e' he' => hle (hall e' (List.mem_cons_of_mem _ he'))

/-- After `GetMappingRef` the caller holds the reference for the mapping returned. -/
def Referred (R : List Int) (K : Set Int) : Res ObjectMeta → Local × Set Int → Prop
  | .ok md, x => At (md.segmentID :: R) (insert md.segmentID K) x
  | .error _, x => At R K x

theorem refs_getMappingRefLoop (key : Key) (n : Nat) : ∀ (md : ObjectMeta) {x : Local × Set Int},
    At R (insert md.segmentID K) x →
      Keeps referring (Referred R K) (getMappingRefLoop key n md) x := by
  induction n with
  | zero =>
    intro md x h
    exact refs_step h.mem_insert fun _ y hle hr _ => h.ref hle hr
  | succ n ih =>
    intro md x h
    refine refs_step h.mem_insert fun _ y hle hr _ => ?_
    have hy := h.ref hle hr
    refine refs_step True.intro fun r z hle hr ht => ?_
    have hz := hy.step hle hr True.intro
    cases r with
    | none => exact refs_step hz.mem fun _ w hle hr _ => (hz.unref hle hr).forget
    | some cur =>
      refine Keeps.ite (fun _ => hz) (fun _ => ?_)
      refine refs_step hz.mem fun _ w hle' hr' _ => ih cur ?_
      exact (hz.unref hle' hr').forget.insert (hle' ht)

theorem refs_getMappingRef (key : Key) (h : At R K x) :
    Keeps referring (Referred R K) (getMappingRef key) x := by
  refine (refs_getMapping key h).bind fun r y hy => ?_
  cases r with
  | error e => exact hy
  | ok md => exact refs_getMappingRefLoop key _ md hy

theorem refs_batchGetCached (keys : List Key) : ∀ {K : Set Int} {x : Local × Set Int}, At R K x →
    Keeps referring (fun rs y => At R K y ∧ ∀ e ∈ rs, ∀ md ∈ e.2, ObjectMeta.segmentID md ∈ y.2)
      (batchGetCached keys) x := by
  induction keys with
  | nil => exact fun h => ⟨h, fun e he => absurd he List.not_mem_nil⟩
  | cons key keys ih =>
    intro K x h
    refine refs_step True.intro fun r y hle hr ht => ?_
    have hy : At R y.2 y := ⟨(h.step hle hr True.intro).refs, le_refl _⟩
    refine (ih hy).bind fun rs z hz => ⟨⟨hz.1.refs, (h.known.trans hle).trans hz.1.known⟩, ?_⟩
    intro e he md hmd
    rcases List.mem_cons.mp he with rfl | he
    · obtain rfl : r = some md := hmd
      exact hz.1.known ht
    · exact hz.2 e he md hmd

theorem refs_batchGetMapping (keys order : List Key) (h : At R K x) :
    Keeps referring (fun r y => At R K y ∧ ∀ mds, r = .ok mds → ∀ md ∈ mds, ObjectMeta.segmentID md ∈ y.2)
      (batchGetMapping keys order) x := by
  refine (refs_batchGetCached keys h).bind fun cached y hy => ?_
  have hcached : ∀ (z : Local × Set Int), y.2 ≤ z.2 → ∀ e ∈ cached, ∀ md ∈ e.2, ObjectMeta.segmentID md ∈ z.2 :=
    fun z hle e he md hmd => hle (hy.2 e he md hmd)
  refine Keeps.ite (fun _ => ⟨hy.1, ?_⟩) (fun _ => ?_)
  · intro mds hmds md hmd
    cases hmds
    obtain ⟨e, he, hmd⟩ := List.mem_filterMap.mp hmd
    exact hcached y (le_refl _) e he md hmd
  · refine refs_step True.intro fun r z hle hr ht => ?_
    have hz := hy.1.step hle hr True.intro
    cases r with
    | none => exact ⟨hz, fun mds hmds => by cases hmds⟩
    | some found =>
      have hz' : At R z.2 z := ⟨hz.refs, le_refl _⟩
      refine (refs_cachePutAll _ hz' fun e he => ht e (mem_rangeOrder_iff.mp he)).bind fun _ w hw => ?_
      refine ⟨⟨hw.refs, hz.known.trans hw.known⟩, ?_⟩
      intro mds hmds md hmd
      cases hmds
      obtain ⟨e, he, hmd⟩ := List.mem_filterMap.mp hmd
      rcases hc : e.2 with _ | md'
      · rw [hc] at hmd
        exact hw.known (ht (e.1, md) (SortedMap.mem_entries.mpr hmd))
      · rw [hc] at hmd
        obtain rfl : md' = md := Option.some.inj hmd
        exact hcached w (hle.trans hw.known) e he md' hc

theorem refs_loadCache (h : At R K x) : Keeps referring (fun _ y => At R K y) loadCache x := by
  refine refs_step True.intro fun all y hle hr ht => ?_
  exact refs_cachePutAll all (h.step hle hr True.intro) ht

theorem refs_batchDeleteLookup (keys : List Key) : ∀ {x : Local × Set Int}, At R K x →
    Keeps referring (fun _ y => At R K y) (batchDeleteLookup keys) x := by
  induction keys with
  | nil => exact fun h => h
  | cons key keys ih =>
    intro x h
    refine (refs_getMapping key h).bind fun r y hy => ?_
    have hy' : At R K y := by
      cases r with
      | error e => exact hy
      | ok md => exact At.forget hy
    exact (ih hy').bind fun _ _ hz => hz

/-! ### Commits -/

theorem refs_putObject {key : Key} {md : ObjectMeta} {old : Option ObjectMeta} {v : Option Bytes}
    (h : At R K x) : Keeps referring (fun _ y => At R (insert md.segmentID K) y)
      (putObject key md old v) x := by
  refine refs_step True.intro fun _ y hle hr _ => ?_
  have hy := h.step hle hr True.intro
  refine refs_step True.intro fun _ z hle hr ht => ?_
  have hz := (hy.step hle hr True.intro).insert ht
  refine refs_step True.intro fun _ w hle hr _ => ?_
  have hw := hz.step hle hr True.intro
  exact refs_last True.intro fun _ w' hle hr _ => hw.step hle hr True.intro

theorem refs_putMapping (key : Key) (md : ObjectMeta) (v : Option Bytes) (h : At R K x) :
    Keeps referring (fun _ y => At R K y) (putMapping key md v) x := by
  refine Keeps.bind (keeps_neutral (.step True.intro fun r => ?_) h) fun old y hy => ?_
  · cases r with
    | some om => exact True.intro
    | none => exact ⟨True.intro, fun _ => True.intro⟩
  · refine (refs_putObject hy).bind fun ok z hz => ?_
    cases ok with
    | true => exact refs_step hz.mem_insert fun _ w hle hr _ => (hz.cachePut hle hr).forget
    | false => exact hz.forget

theorem refs_moveMapping (key : Key) (old new : ObjectMeta) (h : At R K x) :
    Keeps referring (fun _ y => At R K y) (moveMapping key old new) x := by
  refine refs_step True.intro fun _ y hle hr _ => ?_
  have hy := h.step hle hr True.intro
  refine refs_step True.intro fun cur z hle hr _ => ?_
  have hz := hy.step hle hr True.intro
  refine Keeps.ite (fun _ => ?_) (fun _ => ?_)
  · refine refs_step True.intro fun _ w hle hr ht => ?_
    have hw := (hz.step hle hr True.intro).insert ht
    refine refs_step True.intro fun ok v hle hr _ => ?_
    have hv := hw.step hle hr True.intro
    cases ok with
    | true =>
      refine refs_step True.intro fun _ u hle hr _ => ?_
      have hu := hv.step hle hr True.intro
      exact refs_step hu.mem_insert fun _ _ hle hr _ => (hu.cachePut hle hr).forget
    | false => exact refs_step True.intro fun _ _ hle hr _ => (hv.step hle hr True.intro).forget
  · exact refs_step True.intro fun _ _ hle hr _ => hz.step hle hr True.intro

theorem refs_batchPutLocked (items : List PutMappingItem) : ∀ {K : Set Int} {x : Local × Set Int},
    At R K x → Keeps referring (fun _ y => At R K y ∧ ∀ it ∈ items, it.md.segmentID ∈ y.2)
      (batchPutLocked items) x := by
  induction items with
  | nil => exact fun h => ⟨h, fun it hit => absurd hit List.not_mem_nil⟩
  | cons it items ih =>
    intro K x h
    refine refs_step True.intro fun old y hle hr _ => ?_
    have hy := h.step hle hr True.intro
    refine refs_step True.intro fun _ z hle hr ht => ?_
    refine (ih ((hy.step hle hr True.intro).insert ht)).mono fun _ w hw => ⟨hw.1.forget, ?_⟩
    intro it' hit
    rcases List.mem_cons.mp hit with rfl | hit
    · exact hw.1.mem_insert
    · exact hw.2 it' hit

theorem refs_batchPutMapping (items : List PutMappingItem) (h : At R K x) :
    Keeps referring (fun _ y => At R K y) (batchPutMapping items) x := by
  refine Keeps.ite (fun _ => h) (fun _ => ?_)
  refine refs_step True.intro fun _ y hle hr _ => ?_
  refine (refs_batchPutLocked items (h.step hle hr True.intro)).bind fun _ z hz => ?_
  refine refs_step True.intro fun _ w hle hr _ => ?_
  have hw := hz.1.step hle hr True.intro
  refine refs_step True.intro fun ok v hle' hr' _ => ?_
  have hv := hw.step hle' hr' True.intro
  cases ok with
  | true =>
    refine (refs_cachePutAll _ hv fun e he => ?_).bind fun _ _ hu => hu
    obtain ⟨it, hit, rfl⟩ := List.mem_map.mp he
    exact hle' (hle (hz.2 it hit))
  | false => exact hv

theorem neutral_cacheDelAll (keys : List Key) : Uses Op.Neutral (cacheDelAll keys) := by
  induction keys with
  | nil => exact True.intro
  | cons key keys ih => exact ⟨True.intro, fun _ => ih⟩

theorem neutral_batchDeleteLocked (dels : List (Key × ObjectMeta)) :
    Uses Op.Neutral (batchDeleteLocked dels) := by
  induction dels with
  | nil => exact True.intro
  | cons x dels ih => exact ⟨True.intro, fun _ => ih⟩

theorem refs_deleteMapping (key : Key) (h : At R K x) :
    Keeps referring (fun _ y => At R K y) (deleteMapping key) x := by
  refine (refs_getMapping key h).bind fun r y hy => ?_
  cases r with
  | error e => exact hy
  | ok old =>
    refine keeps_neutral ⟨True.intro, fun _ => ⟨True.intro, fun _ => ⟨True.intro, fun _ => .step
      True.intro fun ok => ?_⟩⟩⟩ (At.forget hy)
    cases ok with
    | true => exact ⟨True.intro, fun _ => True.intro⟩
    | false => exact True.intro

theorem refs_batchDeleteMapping (keys : List Key) (h : At R K x) :
    Keeps referring (fun _ y => At R K y) (batchDeleteMapping keys) x := by
  refine (refs_batchDeleteLookup keys h).bind fun found y hy => ?_
  refine Keeps.ite (fun _ => hy) (fun _ => keeps_neutral ?_ hy)
  refine ⟨True.intro, fun _ => (neutral_batchDeleteLocked _).bind fun _ =>
    ⟨True.intro, fun _ => .step True.intro fun ok => ?_⟩⟩
  cases ok with
  | true => exact (neutral_cacheDelAll _).bind fun _ => True.intro
  | false => exact True.intro

/-! ### Allocations and transfers -/

/-- The operations of an allocation. -/
def Op.IsAllocation : Op → Prop
  | .alloc _ => True
  | .segs (.canUse _) => True
  | .segs (.activate _) => True
  | .segs (.markFull _) => True
  | .segs .popFree => True
  | _ => False

theorem Op.IsAllocation.neutral {o : Op} (h : o.IsAllocation) : o.Neutral := by
  cases o with
  | segs o => cases o <;> first | exact True.intro | exact absurd h id
  | cache o => exact absurd h id
  | _ => exact True.intro

theorem uses_rollSegment (a : Allocator) (useReserve : Bool) :
    Uses Op.IsAllocation (rollSegment L a useReserve) := by
  refine Uses.bind (.ite (.step True.intro fun _ => True.intro) True.intro) fun marked => ?_
  refine Uses.ite ?_ True.intro
  refine Uses.bind (.ite (.step True.intro fun _ => True.intro) True.intro) fun next => ?_
  refine Uses.ite ⟨True.intro, fun _ => .step True.intro fun ok => ?_⟩ (.step True.intro fun r => ?_)
  · cases ok <;> exact True.intro
  · cases r with
    | none => exact True.intro
    | some seg => exact ⟨True.intro, fun _ => True.intro⟩

theorem uses_allocOneLocked (size : Int) (useReserve : Bool) :
    Uses Op.IsAllocation (allocOneLocked L size useReserve) := by
  refine .step True.intro fun a => Uses.bind (.ite (uses_rollSegment a useReserve) True.intro)
    fun rolled => ?_
  cases rolled with
  | error e => exact True.intro
  | ok _ => exact ⟨True.intro, fun _ => True.intro⟩

theorem uses_allocate (size : Int) (useReserve : Bool) :
    Uses Op.IsAllocation (allocate L size useReserve) := by
  refine ⟨True.intro, fun _ => ⟨True.intro, fun _ => ?_⟩⟩
  refine (uses_allocOneLocked size useReserve).bind fun r => ?_
  cases r with
  | error e => exact ⟨True.intro, fun _ => True.intro⟩
  | ok x =>
    refine ⟨True.intro, fun _ => ⟨True.intro, fun ok => ⟨True.intro, fun _ => ?_⟩⟩⟩
    cases ok <;> exact True.intro

theorem uses_allocBatchLoop (sizes : List Int) : Uses Op.IsAllocation (allocBatchLoop L sizes) := by
  induction sizes with
  | nil => exact True.intro
  | cons size sizes ih =>
    refine (uses_allocOneLocked size false).bind fun r => ?_
    cases r with
    | error e => exact True.intro
    | ok x =>
      refine ih.bind fun rs => ?_
      cases rs <;> exact True.intro

theorem uses_allocateSegmentBatch (sizes : List Int) :
    Uses Op.IsAllocation (allocateSegmentBatch L sizes) := by
  refine ⟨True.intro, fun _ => ⟨True.intro, fun _ => (uses_allocBatchLoop sizes).bind fun r => ?_⟩⟩
  cases r with
  | error e => exact ⟨True.intro, fun _ => True.intro⟩
  | ok xs =>
    refine Uses.ite ⟨True.intro, fun _ => True.intro⟩ ⟨True.intro, fun _ => ⟨True.intro, fun ok =>
      ⟨True.intro, fun _ => ?_⟩⟩⟩
    cases ok <;> exact True.intro

theorem uses_putBegin (size : Int) : Uses Op.IsAllocation (putBegin L size) := by
  unfold putBegin
  split
  · exact True.intro
  · split
    · exact True.intro
    · exact uses_allocate size false

/-- Transfers. -/
def Op.IsTransfer : Op → Prop
  | .dev _ => True
  | _ => False

theorem Op.IsTransfer.neutral {o : Op} (h : o.IsTransfer) : o.Neutral := by
  cases o with
  | dev o => exact True.intro
  | _ => exact absurd h id

theorem transfers_writeBlocks (seg : Int) (n : Nat) :
    ∀ off data, Uses Op.IsTransfer (writeBlocks seg n off data) := by
  induction n with
  | zero => exact fun _ _ => True.intro
  | succ n ih =>
    refine fun off data => .step True.intro fun ok => ?_
    cases ok with
    | true => exact ih _ _
    | false => exact True.intro

theorem transfers_devAppend (seg off size : Int) (data : Bytes) :
    Uses Op.IsTransfer (devAppend L seg off size data) := by
  unfold devAppend
  split
  · exact True.intro
  · refine (transfers_writeBlocks seg _ off _).bind fun ok => ?_
    cases ok <;> exact True.intro

theorem transfers_writeJobs (js : List WriteJob) : Uses Op.IsTransfer (writeJobs js) := by
  induction js with
  | nil => exact True.intro
  | cons j js ih =>
    exact (transfers_writeBlocks _ _ _ _).bind fun _ => ih.bind fun _ => True.intro

theorem transfers_devAppendBatch (js : List WriteJob) :
    Uses Op.IsTransfer (devAppendBatch L js) := by
  unfold devAppendBatch
  split
  · exact True.intro
  · refine (transfers_writeJobs js).bind fun ok => ?_
    cases ok <;> exact True.intro

theorem transfers_readBlocks (seg : Int) (n : Nat) :
    ∀ off, Uses Op.IsTransfer (readBlocks seg n off) := by
  induction n with
  | zero => exact fun _ => True.intro
  | succ n ih =>
    refine fun off => .step True.intro fun r => ?_
    cases r with
    | none => exact True.intro
    | some b =>
      refine (ih _).bind fun rs => ?_
      cases rs <;> exact True.intro

theorem transfers_devReadAt (seg off size : Int) : Uses Op.IsTransfer (devReadAt seg off size) := by
  refine Uses.ite True.intro (Uses.ite True.intro ?_)
  refine (transfers_readBlocks seg _ off).bind fun r => ?_
  cases r <;> exact True.intro

theorem keeps_allocation {p : Proc α} (hu : Uses Op.IsAllocation p) (h : At R K x) :
    Keeps referring (fun _ y => At R K y) p x :=
  keeps_neutral (hu.mono fun _ ho => ho.neutral) h

theorem keeps_transfers {p : Proc α} (hu : Uses Op.IsTransfer p) (h : At R K x) :
    Keeps referring (fun _ y => At R K y) p x :=
  keeps_neutral (hu.mono fun _ ho => ho.neutral) h

/-! ### Puts -/

theorem refs_put (key : Key) (size : Int) (data : Bytes) (h : At R K x) :
    Keeps referring (fun _ y => At R K y) (put L key size data) x := by
  refine (keeps_allocation (uses_putBegin size) h).bind fun r y hy => ?_
  cases r with
  | error e => exact hy
  | ok e =>
    refine Keeps.bind (keeps_transfers (.ite ?_ True.intro) hy) fun r z hz => ?_
    · exact Uses.ite True.intro (transfers_devAppend _ _ _ _)
    · cases r with
      | error e => exact hz
      | ok u => exact refs_putMapping key _ _ hz

theorem refs_writeAndCommit (xs : List (PutItem × (Int × Int))) (h : At R K x) :
    Keeps referring (fun _ y => At R K y) (writeAndCommit L xs) x := by
  refine (keeps_transfers (transfers_devAppendBatch _) h).bind fun r y hy => ?_
  cases r with
  | error e => exact hy
  | ok u => exact refs_batchPutMapping _ hy

theorem refs_batchPut (items : List PutItem) (h : At R K x) :
    Keeps referring (fun _ y => At R K y) (batchPut L items) x := by
  refine Keeps.ite (fun _ => h) (fun _ => ?_)
  split
  · exact h
  · refine (keeps_allocation (uses_allocateSegmentBatch _) h).bind fun r y hy => ?_
    cases r with
    | error e => exact hy
    | ok exts => exact refs_writeAndCommit _ hy

theorem uses_pipelineBegin (items : List PutItem) : Uses Op.IsAllocation (pipelineBegin L items) := by
  induction items with
  | nil => exact True.intro
  | cons it items ih =>
    refine (uses_putBegin it.size).bind fun r => ?_
    cases r with
    | error e => exact True.intro
    | ok x =>
      refine ih.bind fun rs => ?_
      cases rs <;> exact True.intro

theorem refs_pipelinePut (items : List PutItem) (h : At R K x) :
    Keeps referring (fun _ y => At R K y) (pipelinePut L items) x := by
  refine (keeps_allocation (uses_pipelineBegin items) h).bind fun r y hy => ?_
  cases r with
  | error e => exact hy
  | ok xs => exact refs_writeAndCommit _ hy

/-! ### Reads -/

theorem refs_readAtMeta (md : ObjectMeta) (off size : Int) (h : At R K x) (hmd : md.segmentID ∈ x.2) :
    Keeps referring (fun _ y => At R K y) (readAtMeta md off size) x := by
  unfold readAtMeta
  split
  · exact h
  · refine refs_step hmd fun _ y hle hr _ => ?_
    refine (keeps_transfers (transfers_devReadAt _ _ _) (h.ref hle hr)).bind fun r z hz => ?_
    cases r with
    | error e => exact refs_step hz.mem fun _ _ hle hr _ => hz.unref hle hr
    | ok data => exact refs_step hz.mem fun _ _ hle hr _ => hz.unref hle hr

theorem refs_readAt (key : Key) (off size : Int) (h : At R K x) :
    Keeps referring (fun _ y => At R K y) (readAt key off size) x := by
  refine (refs_getMappingRef key h).bind fun r y hy => ?_
  cases r with
  | error e => exact hy
  | ok md =>
    refine (refs_readAtMeta md off size hy hy.mem_insert).bind fun r z hz => ?_
    exact refs_step hz.mem fun _ _ hle hr _ => (hz.unref hle hr).forget

theorem refs_stat (key : Key) (h : At R K x) :
    Keeps referring (fun _ y => At R K y) (stat key) x := by
  refine (refs_getMapping key h).bind fun r y hy => ?_
  cases r with
  | error e => exact hy
  | ok md => exact At.forget hy

theorem refs_submitReadAtIntoMeta (key : Key) (md : ObjectMeta) (off size dst : Int) (h : At R K x)
    (hmd : md.segmentID ∈ x.2) :
    Keeps referring (fun _ y => At R K y) (submitReadAtIntoMeta key md off size dst) x := by
  unfold submitReadAtIntoMeta
  split
  · exact h
  · refine Keeps.ite (fun _ => h) (fun _ => ?_)
    refine refs_step hmd fun _ y hle hr _ => ?_
    refine (keeps_transfers (transfers_devReadAt _ _ _) (h.ref hle hr)).bind fun r z hz => ?_
    refine refs_step hz.mem fun _ _ hle hr _ => ?_
    cases r <;> exact hz.unref hle hr

theorem refs_asyncGet (key : Key) (off : Int) (h : At R K x) :
    Keeps referring (fun _ y => At R K y) (asyncGet key off) x := by
  refine Keeps.ite (fun _ => h) (fun _ => ?_)
  refine (refs_getMapping key h).bind fun r y hy => ?_
  cases r with
  | error e => exact hy
  | ok md =>
    refine Keeps.ite (fun _ => At.forget hy) (fun _ => ?_)
    refine (refs_submitReadAtIntoMeta key md off _ _ hy (At.mem_insert hy)).bind fun r z hz => ?_
    exact hz.forget

/-- The references of a batch of jobs. -/
theorem refs_refJobs (js : List ReadJob) : ∀ {R : List Int} {x : Local × Set Int}, At R K x →
    (∀ j ∈ js, j.md.segmentID ∈ x.2) →
      Keeps referring (fun _ y => At (js.map (fun j => j.md.segmentID) ++ R) K y) (refJobs js) x := by
  induction js with
  | nil => exact fun h _ => h
  | cons j js ih =>
    intro R x h hall
    refine refs_step (hall j List.mem_cons_self) fun _ y hle hr _ => ?_
    refine (ih (h.ref hle hr) fun j' hj' => hle (hall j' (List.mem_cons_of_mem _ hj'))).mono ?_
    exact fun _ z hz => ⟨hz.refs.trans List.perm_middle, hz.known⟩

theorem refs_unrefJobs (js : List ReadJob) : ∀ {x : Local × Set Int},
    At (js.map (fun j => j.md.segmentID) ++ R) K x →
      Keeps referring (fun _ y => At R K y) (unrefJobs js) x := by
  induction js with
  | nil => exact fun h => h
  | cons j js ih =>
    intro x h
    exact refs_step (At.mem h) fun _ _ hle hr _ => ih (At.unref h hle hr)

theorem transfers_readJobs (js : List ReadJob) : Uses Op.IsTransfer (readJobs js) := by
  induction js with
  | nil => exact True.intro
  | cons j js ih =>
    have hjob : Uses Op.IsTransfer (readJob j) := Uses.ite True.intro (transfers_devReadAt _ _ _)
    refine hjob.bind fun r => ?_
    cases r with
    | error e => exact True.intro
    | ok data =>
      refine ih.bind fun rs => ?_
      cases rs <;> exact True.intro

theorem mem_jobsOf {blocks : List (BatchReadBlock × ObjectMeta)} {windows : List (Option Window)}
    {j : ReadJob} (h : j ∈ jobsOf blocks windows) : ∃ b, (b, j.md) ∈ blocks := by
  obtain ⟨x, hx, hj⟩ := List.mem_filterMap.mp h
  obtain ⟨w, -, rfl⟩ := Option.map_eq_some_iff.mp hj
  exact ⟨x.1.1, (List.of_mem_zip hx).1⟩

theorem refs_batchRead (blocks : List BatchReadBlock) (order : List Key) (h : At R K x) :
    Keeps referring (fun _ y => At R K y) (batchRead blocks order) x := by
  refine Keeps.ite (fun _ => h) (fun _ => ?_)
  refine (refs_batchGetMapping _ order h).bind fun r y hy => ?_
  cases r with
  | error e => exact hy.1
  | ok mds =>
    dsimp only
    cases batchWindows (blocks.zip mds) with
    | error e => exact hy.1
    | ok windows =>
      have hjobs : ∀ j ∈ jobsOf (blocks.zip mds) windows, j.md.segmentID ∈ y.2 := by
        intro j hj
        obtain ⟨b, hb⟩ := mem_jobsOf hj
        exact hy.2 mds rfl j.md (List.of_mem_zip hb).2
      refine (refs_refJobs _ hy.1 hjobs).bind fun _ z hz => ?_
      refine (keeps_transfers (transfers_readJobs _) hz).bind fun r w hw => ?_
      refine (refs_unrefJobs _ hw).bind fun _ v hv => ?_
      cases r <;> exact hv

/-! ### Compaction and garbage collection -/

theorem refs_moveObject (key : Key) (h : At R K x) :
    Keeps referring (fun _ y => At R K y) (moveObject L key) x := by
  refine (refs_getMapping key h).bind fun r y hy => ?_
  split
  · exact hy
  · exact hy
  · refine (refs_readAt key 0 _ (At.forget hy)).bind fun r z hz => ?_
    split
    · exact hz
    · exact hz
    · refine Keeps.ite (fun _ => hz) (fun _ => ?_)
      refine (keeps_allocation (uses_allocate _ true) hz).bind fun r w hw => ?_
      cases r with
      | error e => exact hw
      | ok e =>
        refine (keeps_transfers (transfers_devAppend _ _ _ _) hw).bind fun r v hv => ?_
        cases r with
        | error e => exact hv
        | ok u =>
          refine (refs_moveMapping key _ _ hv).bind fun r u hu => ?_
          cases r <;> exact hu

theorem Op.Scans.neutral {o : Op} (h : o.Scans) : o.Neutral := by
  cases o with
  | segs o => cases o <;> first | exact True.intro | exact absurd h id
  | cache o => exact absurd h id
  | _ => exact True.intro

theorem neutral_markCompacting (id : Int) : Uses Op.Neutral (markCompacting id) :=
  (scans_markCompacting id).mono fun _ ho => ho.neutral

theorem refs_compactOnce (cfg : CompactorConfig) (order : List Int) (h : At R K x) :
    Keeps referring (fun _ y => At R K y) (compactOnce L cfg order) x :=
  keeps_compactOnce (I := At R K) (fun key _ => refs_moveObject key)
    (fun _ y ho hy => ⟨ho.neutral.pre y.1 y.2, fun _ _ ⟨hle, _, hr, _⟩ => hy.step hle hr ho.neutral⟩)
    cfg order h

theorem neutral_durableReclaiming (ids : List Int) : Uses Op.Neutral (durableReclaiming ids) := by
  induction ids with
  | nil => exact True.intro
  | cons id ids ih => exact .step True.intro fun _ => ih.bind fun _ => True.intro

theorem neutral_reclaimOnce (order : List Int) : Uses Op.Neutral (reclaimOnce order) := by
  refine .step True.intro fun ids => Uses.ite True.intro ?_
  exact (neutral_durableReclaiming ids).bind fun durable => Uses.ite True.intro
    (uses_perform True.intro)

/-! ### Calls -/

/-- The references a call leaves with its caller: that of `GetMappingRef`. -/
def Call.leaves : Call → Result → List Int
  | .getMappingRef _, .ok (.mapping md) => [md.segmentID]
  | _, _ => []

/-- **Every call gives back the references it takes**, but `GetMappingRef`, which leaves one with
its caller. -/
theorem code_refers (L : Layout) (call : Call) (h : At [] K x) :
    Keeps referring (fun v y => At (call.leaves v) K y) (code L call) x := by
  have hmap : ∀ {α : Type} {p : Proc α} {f : α → Result}, (∀ v, call.leaves v = []) →
      Keeps referring (fun _ y => At [] K y) p x →
        Keeps referring (fun v y => At (call.leaves v) K y) (p >>= fun a => Pure.pure (f a)) x := by
    intro α p f hl hp
    refine hp.bind fun a y hy => ?_
    show At (call.leaves (f a)) K y
    rw [hl]
    exact hy
  cases call with
  | getMappingRef key =>
    refine (refs_getMappingRef key h).bind fun r y hy => ?_
    cases r with
    | error e => exact hy
    | ok md => exact At.forget hy
  | getMapping key =>
    refine (refs_getMapping key h).bind fun r y hy => ?_
    cases r with
    | error e => exact hy
    | ok md => exact At.forget hy
  | putMapping key md => exact hmap (fun _ => rfl) (refs_putMapping key md _ h)
  | deleteMapping key => exact hmap (fun _ => rfl) (refs_deleteMapping key h)
  | moveMapping key old new => exact hmap (fun _ => rfl) (refs_moveMapping key old new h)
  | batchGetMapping keys order =>
    exact hmap (fun _ => rfl) ((refs_batchGetMapping keys order h).mono fun _ _ hy => hy.1)
  | batchPutMapping items => exact hmap (fun _ => rfl) (refs_batchPutMapping items h)
  | batchDeleteMapping keys => exact hmap (fun _ => rfl) (refs_batchDeleteMapping keys h)
  | loadCache => exact (refs_loadCache h).bind fun _ _ hy => hy
  | allocateSegment size => exact hmap (fun _ => rfl) (keeps_allocation (uses_allocate size false) h)
  | allocateSegmentReserve size => exact hmap (fun _ => rfl) (keeps_allocation (uses_allocate size true) h)
  | allocateSegmentBatch sizes => exact hmap (fun _ => rfl) (keeps_allocation (uses_allocateSegmentBatch sizes) h)
  | markCompacting id => exact hmap (fun _ => rfl) (keeps_neutral (neutral_markCompacting id) h)
  | reclaimOnce order => exact hmap (fun _ => rfl) (keeps_neutral (neutral_reclaimOnce order) h)
  | put key size data => exact hmap (fun _ => rfl) (refs_put key size data h)
  | batchPut items => exact hmap (fun _ => rfl) (refs_batchPut items h)
  | pipelinePut items => exact hmap (fun _ => rfl) (refs_pipelinePut items h)
  | stat key => exact hmap (fun _ => rfl) (refs_stat key h)
  | readAt key off size => exact hmap (fun _ => rfl) (refs_readAt key off size h)
  | asyncGet key off =>
    refine (refs_asyncGet key off h).bind fun r y hy => ?_
    cases r <;> exact hy
  | batchRead blocks order => exact hmap (fun _ => rfl) (refs_batchRead blocks order h)
  | moveObject key => exact hmap (fun _ => rfl) (refs_moveObject key h)
  | compactOnce cfg order => exact (refs_compactOnce cfg order h).bind fun _ _ hy => hy

/-! ## 4. The invariant -/

/-- A mapping that a batch leaves was there before, or is one of its own. -/
theorem Disk.find?_apply_some {key : Key} {md : ObjectMeta} (b : Batch) : ∀ {d : Disk},
    (d.apply b).mapping.find? key = some md →
      d.mapping.find? key = some md ∨ .setMapping key md ∈ b := by
  induction b with
  | nil => exact fun h => Or.inl h
  | cons o b ih =>
    intro d h
    rw [Disk.apply_cons] at h
    rcases ih h with hd | hin
    · by_cases ho : o.key? = some key
      · right
        cases o with
        | setMapping k m =>
          obtain rfl : k = key := Option.some.inj ho
          simp only [Disk.applyOp, SortedMap.find?_insert, if_true, Option.some.injEq] at hd
          subst hd
          exact List.mem_cons_self
        | delMapping k =>
          obtain rfl : k = key := Option.some.inj ho
          simp [Disk.applyOp] at hd
        | setSegment i sm => exact absurd ho (by simp [BatchOp.key?])
      · left
        rwa [Disk.find?_applyOp_of_ne ho] at hd
    · exact Or.inr (List.mem_cons_of_mem _ hin)

/-- What one iterator finds for some keys are mappings of the table. -/
theorem Disk.find?_of_getMany {d : Disk} {key : Key} {md : ObjectMeta} (keys : List Key) :
    ∀ {found : SortedMap Key ObjectMeta}, d.getMany keys = some found →
      found.find? key = some md → d.mapping.find? key = some md := by
  induction keys with
  | nil =>
    intro found h hf
    cases h
    exact absurd hf (by simp)
  | cons k keys ih =>
    intro found h hf
    unfold Disk.getMany at h
    split at h
    · rename_i m hm
      obtain ⟨out, hout, rfl⟩ := Option.map_eq_some_iff.mp h
      rw [SortedMap.find?_insert] at hf
      split at hf
      · rename_i hk
        rw [hk, hm, ← hf]
      · exact ih hout hf
    · cases h

/-- Every mapping that can be found, in pebble or in the cache, or is about to be applied, satisfies
`P`. -/
structure AllMappings (P : ObjectMeta → Prop) (s : Sys) (ls : List Local) : Prop where
  mapped : ∀ key md, s.db.disk.mapping.find? key = some md → P md
  cached : ∀ key md, s.cache.find? key = some md → P md
  staged : ∀ l ∈ ls, ∀ key md, .setMapping key md ∈ l.batch → P md

/-- The mapping an operation brings in. -/
def Op.brings? : Op → Option ObjectMeta
  | .cache (.put _ md) => some md
  | .segs (.putObjectLocked _ md _ _) => some md
  | _ => none

/-- A mapping in the batch of a thread was there before, or has been brought in. -/
theorem mem_batch_step {o : Op} {r : o.Reply} (hx : exec L s l o = some (s', l', r)) {key : Key}
    {md : ObjectMeta} (hin : .setMapping key md ∈ l'.batch) :
    .setMapping key md ∈ l.batch ∨ o.brings? = some md := by
  have hrecords : ∀ xs, .setMapping key md ∉ Batch.records xs := by
    intro xs hin
    obtain ⟨x, -, hx⟩ := List.mem_map.mp hin
    cases hx
  by_cases ho : o.Batches = false
  · rw [exec_batch hx ho] at hin
    exact Or.inl hin
  cases o with
  | pebble o =>
    cases o with
    | apply =>
      obtain ⟨fs, rfl, -⟩ := exec_apply hx
      exact absurd hin List.not_mem_nil
    | _ => exact absurd rfl ho
  | segs o =>
    cases o with
    | putObjectLocked k m old v =>
      obtain ⟨sm, xs, hb⟩ := s.segs.putObjectLocked_fst l.batch k m old
      obtain ⟨-, rfl⟩ := exec_putObjectLocked hx
      simp only [hb, List.mem_append, List.mem_cons, List.not_mem_nil, or_false] at hin
      rcases hin with hin | (hin | hin) | hin
      · exact Or.inl hin
      · cases hin
        exact Or.inr rfl
      · cases hin
      · exact absurd hin (hrecords xs)
    | delObjectLocked k m =>
      obtain ⟨xs, hb⟩ := s.segs.delObjectLocked_fst l.batch k m
      obtain ⟨-, hl⟩ := exec_delObjectLocked hx
      rw [hl, hb, List.mem_append, List.mem_cons] at hin
      rcases hin with hin | hin | hin
      · exact Or.inl hin
      · cases hin
      · exact absurd hin (hrecords xs)
    | _ => exact absurd rfl ho
  | _ => exact absurd rfl ho

namespace AllMappings

variable {P Q : ObjectMeta → Prop} {ls ls' : List Local}

theorem mono (h : AllMappings P s ls) (hPQ : ∀ md, P md → Q md) : AllMappings Q s ls where
  mapped := fun key md hmd => hPQ md (h.mapped key md hmd)
  cached := fun key md hmd => hPQ md (h.cached key md hmd)
  staged := fun l hl key md hin => hPQ md (h.staged l hl key md hin)

/-- The threads change, and no batch has grown. -/
theorem regroup (h : AllMappings P s ls)
    (hls : ∀ x ∈ ls', x.batch = [] ∨ ∃ y ∈ ls, x.batch = y.batch) : AllMappings P s ls' where
  mapped := h.mapped
  cached := h.cached
  staged := by
    intro x hx key md hin
    rcases hls x hx with hb | ⟨y, hy, hb⟩
    · rw [hb] at hin
      exact absurd hin List.not_mem_nil
    · exact h.staged y hy key md (hb ▸ hin)

theorem perm (hp : ls.Perm ls') (h : AllMappings P s ls) : AllMappings P s ls' :=
  h.regroup fun x hx => Or.inr ⟨x, hp.mem_iff.mpr hx, rfl⟩

theorem spawn (h : AllMappings P s ls) (hb : l.batch = []) : AllMappings P s (l :: ls) := by
  refine h.regroup fun x hx => ?_
  rcases List.mem_cons.mp hx with rfl | hx
  · exact Or.inl hb
  · exact Or.inr ⟨x, hx, rfl⟩

theorem swap (h : AllMappings P s (l :: rest)) (hb : l'.batch = l.batch) :
    AllMappings P s (l' :: rest) := by
  refine h.regroup fun x hx => ?_
  rcases List.mem_cons.mp hx with rfl | hx
  · exact Or.inr ⟨l, List.mem_cons_self, hb⟩
  · exact Or.inr ⟨x, List.mem_cons_of_mem _ hx, rfl⟩

/-- **The step lemma.**  All mappings satisfy `P` as long as those that are brought in do. -/
theorem step (h : AllMappings P s (l :: rest)) {o : Op} {r : o.Reply}
    (ho : ∀ md, o.brings? = some md → P md) (hx : exec L s l o = some (s', l', r)) :
    AllMappings P s' (l' :: rest) where
  mapped := by
    intro key md hmd
    by_cases happly : o = .pebble .apply
    · subst happly
      obtain ⟨fs, -, rfl⟩ := exec_apply hx
      split at hmd
      · rcases Disk.find?_apply_some l.batch hmd with hmd | hin
        · exact h.mapped key md hmd
        · exact h.staged l List.mem_cons_self key md hin
      · exact h.mapped key md hmd
    · rw [exec_mapping hx happly] at hmd
      exact h.mapped key md hmd
  cached := by
    intro key md hmd
    have hsame : (∀ c, o ≠ .cache c) → P md := by
      intro ho
      rw [exec_cache hx ho] at hmd
      exact h.cached key md hmd
    cases o with
    | cache o =>
      cases o with
      | get k =>
        have hc : s'.cache.find? key = s.cache.find? key := by
          cases hx
          exact MetaCache.find?_get s.cache k key
        rw [hc] at hmd
        exact h.cached key md hmd
      | put k m =>
        cases hx
        rcases MetaCache.find?_put hmd with ⟨-, rfl⟩ | ⟨-, hmd⟩
        · exact ho md rfl
        · exact h.cached key md hmd
      | del k =>
        cases hx
        exact h.cached key md (MetaCache.find?_del.mp hmd).2
    | _ => exact hsame (by simp)
  staged := by
    intro x hin key md hmd
    rcases List.mem_cons.mp hin with rfl | hin
    · rcases mem_batch_step hx hmd with hold | hnew
      · exact h.staged l List.mem_cons_self key md hold
      · exact ho md hnew
    · exact h.staged x (List.mem_cons_of_mem _ hin) key md hmd

theorem reopen (h : AllMappings P s ls) : AllMappings P s.reopen [] where
  mapped := h.mapped
  cached := fun key md hmd => absurd hmd (by simp [Sys.reopen])
  staged := fun l hl => absurd hl List.not_mem_nil

theorem init (bytes : Int → Byte) (dbFaults devFaults : List Bool) :
    AllMappings P (Sys.init bytes dbFaults devFaults) [] where
  mapped := fun key md hmd => absurd hmd (by simp [Sys.init, Disk.empty])
  cached := fun key md hmd => absurd hmd (by simp [Sys.init])
  staged := fun l hl => absurd hl List.not_mem_nil

end AllMappings

/-- How many references the threads hold for a segment. -/
def refsHeld (ls : List Local) (id : Int) : Nat := (ls.map (fun l => l.hist.refs.count id)).sum

theorem refsHeld_cons (l : Local) (rest : List Local) (id : Int) :
    refsHeld (l :: rest) id = l.hist.refs.count id + refsHeld rest id := by
  rw [refsHeld, List.map_cons, List.sum_cons]
  rfl

/-- The references counted are those held, and the mappings that a thread can find are to segments
with an entry. -/
structure RefsExact (s : Sys) (ls : List Local) : Prop extends
    AllMappings (fun md => md.segmentID ∈ s.segs.tabled) s ls where
  exact : ∀ id, s.segs.refCount id = refsHeld ls id

namespace SegmentManager

/-- A method of the segment manager keeps the entries, and counts references only in `Ref` and
`Unref`. -/
theorem carries_exec {o : Op} {r : o.Reply} (ho : o.Neutral)
    (hx : exec L s l o = some (s', l', r)) : s.segs.Carries s.segs.refCount s'.segs := by
  have hrefl := Carries.refl s.segs
  rw [exec_segs hx]
  cases o with
  | segs o =>
    cases o with
    | putObjectLocked key md old v => exact hrefl.putObjectLocked _ _ _ _
    | delObjectLocked key md => exact hrefl.dropObject _ _
    | activate id => exact hrefl.activate _ _
    | markFull id => exact hrefl.markFull _ _
    | markCompacting id => exact hrefl.markCompacting _ _
    | popFree =>
      simp only [Op.segsAfter, SegsOp.after]
      cases hp : popFree s.db s.segs with
      | none => exact hrefl
      | some x => exact hrefl.popFree hp
    | gcFinalize ids => exact hrefl.gcFinalize _ _
    | ref i reader => exact absurd ho id
    | unref i => exact absurd ho id
    | _ => exact hrefl
  | _ => exact hrefl

/-- One reference more for `Ref`, one less for `Unref`. -/
theorem counts_exec {o : Op} {r : o.Reply} (hp : o.refsPre l s.segs.tabled)
    (hx : exec L s l o = some (s', l', r)) : s.segs.tabled ≤ s'.segs.tabled ∧
      ∀ id, l.hist.refs.count id ≤ s.segs.refCount id →
        s'.segs.refCount id + l.hist.refs.count id = s.segs.refCount id + l'.hist.refs.count id := by
  have hrefs := refs_exec hx
  have hneutral : o.Neutral → s.segs.tabled ≤ s'.segs.tabled ∧
      ∀ id, l.hist.refs.count id ≤ s.segs.refCount id →
        s'.segs.refCount id + l.hist.refs.count id
          = s.segs.refCount id + l'.hist.refs.count id := by
    intro ho
    have hc := carries_exec ho hx
    refine ⟨hc.table, fun id _ => ?_⟩
    rw [hrefs, ho.refsAfter, hc.count]
  cases o with
  | segs o =>
    cases o with
    | ref i reader =>
      have hc := carries_ref (m := s.segs) hp
      have hs : s'.segs = s.segs.ref i := exec_segs hx
      rw [← hs] at hc
      refine ⟨hc.table, fun id _ => ?_⟩
      rw [hrefs, hc.count]
      simp only [Op.refsAfter, List.count_cons, beq_iff_eq, eq_comm (a := id)]
      omega
    | unref i =>
      have hc := carries_unref s.segs i
      have hs : s'.segs = s.segs.unref i := exec_segs hx
      rw [← hs] at hc
      refine ⟨hc.table, fun id hle => ?_⟩
      rw [hrefs, hc.count]
      by_cases hid : id = i
      · subst hid
        have hpos : 0 < l.hist.refs.count id := List.count_pos_iff.mpr hp
        simp only [Op.refsAfter, List.count_erase_self, if_true]
        omega
      · simp only [Op.refsAfter, List.count_erase_of_ne hid, if_neg hid]
        omega
    | _ => exact hneutral True.intro
  | cache o =>
    have hs : s'.segs = s.segs := exec_segs hx
    rw [hrefs, hs]
    exact ⟨le_refl _, fun id _ => rfl⟩
  | _ => exact hneutral True.intro

end SegmentManager

namespace RefsExact

theorem perm {ls ls' : List Local} (hp : ls.Perm ls') (h : RefsExact s ls) : RefsExact s ls' where
  toAllMappings := h.toAllMappings.perm hp
  exact := by
    intro id
    rw [h.exact id]
    exact (hp.map _).sum_eq

/-- The thread changes, and holds the same references; its batch is the same. -/
theorem swap (h : RefsExact s (l :: rest)) (hr : l'.hist.refs = l.hist.refs) (hb : l'.batch = l.batch) :
    RefsExact s (l' :: rest) where
  toAllMappings := h.toAllMappings.swap hb
  exact := by
    intro id
    rw [h.exact id, refsHeld_cons, refsHeld_cons, hr]

theorem spawn {ls : List Local} (h : RefsExact s ls) (hr : l.hist.refs = []) (hb : l.batch = []) :
    RefsExact s (l :: ls) where
  toAllMappings := h.toAllMappings.spawn hb
  exact := by
    intro id
    rw [h.exact id, refsHeld_cons, hr, List.count_nil, Nat.zero_add]

/-- The references of a thread are among those counted. -/
theorem count_le (h : RefsExact s (l :: rest)) (id : Int) :
    l.hist.refs.count id ≤ s.segs.refCount id := by
  rw [h.exact id, refsHeld_cons]
  exact Nat.le_add_right _ _

/-- A segment that a thread holds a reference for has one counted. -/
theorem counts {ls : List Local} (h : RefsExact s ls) {x : Local} (hx : x ∈ ls) {id : Int}
    (hid : id ∈ x.hist.refs) : 0 < s.segs.refCount id := by
  rw [h.exact id]
  have hmem : x.hist.refs.count id ∈ ls.map (fun l => l.hist.refs.count id) := List.mem_map_of_mem hx
  exact lt_of_lt_of_le (List.count_pos_iff.mpr hid) (List.le_sum_of_mem hmem)

/-- What a thread finds is to a segment with an entry. -/
theorem teaches (h : RefsExact s (l :: rest)) {o : Op} {r : o.Reply}
    (hle : s.segs.tabled ≤ s'.segs.tabled) (hx : exec L s l o = some (s', l', r)) :
    o.Teaches s'.segs.tabled r := by
  cases o with
  | cache o =>
    cases o with
    | get key =>
      have hr : r = s.cache.find? key := by
        cases hx
        exact MetaCache.get_fst s.cache key
      cases r with
      | none => exact True.intro
      | some md => exact hle (h.cached key md hr.symm)
    | _ => exact True.intro
  | pebble o =>
    cases o with
    | getMapping key site =>
      have hr : r = s.db.disk.mapping.find? key := by
        cases hx
        rfl
      cases r with
      | none => exact True.intro
      | some md => exact hle (h.mapped key md hr.symm)
    | getMany keys =>
      have hr : r = s.db.disk.getMany keys := by
        cases hx
        rfl
      cases r with
      | none => exact True.intro
      | some found =>
        intro e he
        exact hle (h.mapped e.1 e.2 (Disk.find?_of_getMany keys hr.symm (SortedMap.mem_entries.mp he)))
    | iterMapping =>
      cases hx
      exact fun e he => h.mapped e.1 e.2 (SortedMap.mem_entries.mp he)
    | _ => exact True.intro
  | segs o =>
    cases o with
    | putObjectLocked key md old v =>
      cases hx
      exact SegmentManager.mem_tabled_putObjectLocked _ _ _ _ _
    | _ => exact True.intro
  | alloc o => exact True.intro
  | dev o => exact True.intro

/-- **The step lemma.** -/
theorem step (h : RefsExact s (l :: rest)) {o : Op} {r : o.Reply} (hp : o.refsPre l s.segs.tabled)
    (hx : exec L s l o = some (s', l', r)) :
    RefsExact s' (l' :: rest) ∧ s.segs.tabled ≤ s'.segs.tabled := by
  obtain ⟨hle, hcount⟩ := SegmentManager.counts_exec hp hx
  refine ⟨⟨(h.toAllMappings.mono fun md hmd => hle hmd).step ?_ hx, fun id => ?_⟩, hle⟩
  · intro md ho
    cases o with
    | cache o =>
      cases o with
      | put key m => exact Option.some.inj ho ▸ hle hp
      | _ => exact absurd ho (by simp [Op.brings?])
    | segs o =>
      cases o with
      | putObjectLocked key m old v =>
        rw [exec_segs hx]
        exact Option.some.inj ho ▸ SegmentManager.mem_tabled_putObjectLocked _ _ _ _ _
      | _ => exact absurd ho (by simp [Op.brings?])
    | _ => exact absurd ho (by simp [Op.brings?])
  · have heq := hcount id (h.count_le id)
    have hold := h.exact id
    rw [refsHeld_cons] at hold ⊢
    omega

/-- After `Open` nobody holds a reference, and every segment with a mapping has an entry. -/
theorem reopen (s : Sys) : RefsExact s.reopen [] where
  mapped := by
    intro key md hmd
    refine SegmentManager.mem_tabled.mpr ⟨_, SegmentManager.find?_rebuild_of_population ?_⟩
    exact Disk.population_pos.mpr ⟨key, md, hmd, rfl⟩
  cached := fun key md hmd => absurd hmd (by simp [Sys.reopen])
  staged := fun l hl => absurd hl List.not_mem_nil
  exact := fun id => SegmentManager.refCount_rebuild s.db.disk id

theorem init (bytes : Int → Byte) (dbFaults devFaults : List Bool) :
    RefsExact (Sys.init bytes dbFaults devFaults) [] where
  toAllMappings := .init bytes dbFaults devFaults
  exact := fun _ => rfl

end RefsExact

/-! ## 5. Runs -/

/-- The references as an invariant of all runs; what everybody may know are the segments that have
an entry. -/
def refsLearning (L : Layout) : Learning (machine L) (Set Int) where
  toRule := unrestricted
  know := fun s => s.segs.tabled
  pre := fun o l known => o.refsPre l known
  learned := fun o l r l' known =>
    l'.hist.call = l.hist.call ∧ l'.hist.refs = o.refsAfter l.hist.refs ∧ o.Teaches known r
  inv := RefsExact
  post := fun v l => l.hist.refs.Perm (l.hist.call.leaves v)
  pre_mono := by
    intro o l k k' hk hp
    cases o with
    | cache o =>
      cases o with
      | put key md => exact hk hp
      | _ => exact True.intro
    | segs o =>
      cases o with
      | ref id reader => exact hk hp
      | unref id => exact hp
      | _ => exact True.intro
    | _ => exact True.intro
  perm := fun _ _ _ hp h => h.perm hp
  spawn := fun _ _ _ _ h => h.spawn rfl rfl
  starts := by
    intro call k _
    have hcode := code_refers L call (x := ((machine L).fresh call, k)) (K := ∅)
      ⟨List.Perm.refl _, Set.empty_subset _⟩
    refine (hcode.carry (I := fun y => y.1.hist.call = call) rfl ?_).mono ?_
    · exact fun _ _ _ _ hl hg => hg.2.1.trans hl
    · rintro v y ⟨hat, hcall⟩
      rw [hcall]
      exact hat.refs
  retire := fun _ _ _ _ hpost h => ⟨h.swap rfl rfl, hpost⟩
  restart := fun _ s _ _ => RefsExact.reopen s
  sound := by
    intro s l rest o s' l' r h hp _ hx
    obtain ⟨h', hle⟩ := h.step hp hx
    exact ⟨h', hle, exec_call hx, refs_exec hx, h.teaches hle hx⟩

/-- `reclaimOnce` leaves a segment alone that is not reclaimable. -/
theorem SegmentManager.state?_gcFinalize (db : DB) (m : SegmentManager) (ids : List Int) {id : Int}
    (h : m.reclaimable id = false) : (gcFinalize db m ids).2.2.state? id = m.state? id := by
  have hnot : id ∉ (m.finalize ids).1.map Prod.fst := by
    intro hin
    rw [(mem_finalize ids m id hin).2] at h
    cases h
  have hfin := (finalize_state ids m id).2
  rw [if_neg hnot] at hfin
  unfold gcFinalize
  dsimp only
  split
  · exact hfin
  · split
    · exact hfin
    · rw [rollback_state, if_neg (fun hc => hnot hc.1), hfin]

/-- The references of a configuration: the counts are those of the calls, a call that has returned
has given back what it has taken, nobody gives back what he does not hold, and `reclaimOnce`
leaves the segments alone that a call holds a reference for. -/
structure References (L : Layout) (c : SysConf) : Prop where
  counted : ∀ id, c.shared.segs.refCount id = refsHeld c.locals id
  returned : ∀ th ∈ c.threads, ∀ v, th.2.value? = some v →
    th.1.hist.refs.Perm (th.1.hist.call.leaves v)
  own : ∀ t l id, c.next? t = some (l, .segs (.unref id)) → id ∈ l.hist.refs
  spared : ∀ t l ids c', c.next? t = some (l, .segs (.gcFinalize ids)) →
    (machine L).step c t = some c' → ∀ x ∈ c.locals, ∀ id ∈ x.hist.refs,
      c'.shared.segs.state? id = c.shared.segs.state? id

/-- A read stops after it has taken its two references; the object is deleted, and a round of
`reclaimOnce` finds nothing to free. -/
def readDuringDelete : List (Act Call) :=
  Act.calls (.put [1] 1 [7]) 0 15 ++ Act.calls (.readAt [1] 0 1) 1 4
    ++ Act.calls (.deleteMapping [1]) 2 6 ++ Act.calls (.reclaimOnce []) 3 1

end Taihu
