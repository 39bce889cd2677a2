/-
# What a step leaves alone

Most operations touch one part of the state.  The lemmas here say so once for each part, so that
an invariant that speaks of the mappings, say, only has to look at `Apply`.
-/
import Taihu.System

namespace Taihu

open Concur

/-! ## 1. Writes of segment records -/

/-- The mappings and the cursor are the same, and no segment has lost its record. -/
structure Disk.SameObjects (d d' : Disk) : Prop where
  mapping : d'.mapping = d.mapping
  cursor : d'.cursor = d.cursor
  records : ∀ id, (d.segment.find? id).isSome → (d'.segment.find? id).isSome

namespace Disk

theorem SameObjects.refl (d : Disk) : d.SameObjects d := ⟨rfl, rfl, fun _ h => h⟩

theorem SameObjects.trans {d d' d'' : Disk} (h : d.SameObjects d') (h' : d'.SameObjects d'') :
    d.SameObjects d'' where
  mapping := h'.mapping.trans h.mapping
  cursor := h'.cursor.trans h.cursor
  records := fun id hid => h'.records id (h.records id hid)

theorem sameObjects_setSegment (d : Disk) (id : Int) (md : SegmentMeta) :
    d.SameObjects (d.applyOp (.setSegment id md)) where
  mapping := rfl
  cursor := rfl
  records := fun _ h => apply_segment_isSome (b := [.setSegment id md]) h

theorem sameObjects_setSegments (xs : List (Int × SegmentMeta)) (d : Disk) :
    d.SameObjects (d.apply (xs.map (fun x => .setSegment x.1 x.2))) := by
  induction xs generalizing d with
  | nil => exact .refl d
  | cons x xs ih => exact (d.sameObjects_setSegment x.1 x.2).trans (ih _)

end Disk

theorem DB.write_sameObjects {db : DB} {f : Disk → Disk} (h : db.disk.SameObjects (f db.disk)) :
    db.disk.SameObjects (db.write f).2.disk := by
  rw [DB.write_disk]
  split
  · exact h
  · exact .refl _

namespace SegmentManager

theorem persist_sameObjects (db : DB) (id : Int) (e : SegEntry) :
    db.disk.SameObjects (persist db id e).2.disk :=
  DB.write_sameObjects (db.disk.sameObjects_setSegment id e.md)

theorem activate_sameObjects (db : DB) (m : SegmentManager) (id : Int) :
    db.disk.SameObjects (activate db m id).2.1.disk := persist_sameObjects db id _

theorem markFull_sameObjects (db : DB) (m : SegmentManager) (id : Int) :
    db.disk.SameObjects (markFull db m id).2.1.disk := by
  unfold markFull
  cases m.segs.find? id with
  | none => exact .refl _
  | some e => exact persist_sameObjects db id _

theorem markCompacting_sameObjects (db : DB) (m : SegmentManager) (id : Int) :
    db.disk.SameObjects (markCompacting db m id).2.1.disk := by
  unfold markCompacting
  cases m.segs.find? id with
  | none => exact .refl _
  | some e =>
    dsimp only
    split
    · exact persist_sameObjects db id _
    · exact .refl _

theorem popFree_sameObjects {db : DB} {m : SegmentManager} {x : Option Int × DB × SegmentManager}
    (h : popFree db m = some x) : db.disk.SameObjects x.2.1.disk := by
  rcases popFree_cases h with ⟨-, rfl⟩ | ⟨id, rest, e, ok, db', -, -, hp, hcase⟩
  · exact .refl _
  have hsame := persist_sameObjects db id (e.withState .active)
  rw [hp] at hsame
  rcases hcase with ⟨-, rfl⟩ | ⟨-, rfl⟩ <;> exact hsame

theorem gcFinalize_sameObjects (db : DB) (m : SegmentManager) (ids : List Int) :
    db.disk.SameObjects (gcFinalize db m ids).2.1.disk := by
  unfold gcFinalize
  have hsame := Disk.sameObjects_setSegments (m.finalize ids).1 db.disk
  dsimp only
  split
  · exact .refl _
  · split <;> exact DB.write_sameObjects hsame

end SegmentManager

/-- The segment manager writes segment records only. -/
theorem SegsOp.exec_disk {s s' : Sys} {b b' : Batch} {o : SegsOp} {r : o.Reply}
    (h : o.exec s b = some (s', b', r)) : s.db.disk.SameObjects s'.db.disk := by
  cases o
  case popFree =>
    simp only [SegsOp.exec] at h
    split at h
    · cases h
    · obtain ⟨x, hx, he⟩ := Option.map_eq_some_iff.mp h
      cases he
      exact SegmentManager.popFree_sameObjects hx
  case activate id =>
    simp only [SegsOp.exec] at h
    split at h <;> cases h
    exact SegmentManager.activate_sameObjects s.db s.segs id
  case markFull id =>
    simp only [SegsOp.exec] at h
    split at h <;> cases h
    exact SegmentManager.markFull_sameObjects s.db s.segs id
  case markCompacting id =>
    simp only [SegsOp.exec] at h
    split at h <;> cases h
    exact SegmentManager.markCompacting_sameObjects s.db s.segs id
  case gcFinalize ids =>
    simp only [SegsOp.exec] at h
    split at h <;> cases h
    exact SegmentManager.gcFinalize_sameObjects s.db s.segs ids
  case unlock => cases h; exact .refl _
  case putObjectLocked key md old v => cases h; exact .refl _
  case delObjectLocked key md => cases h; exact .refl _
  all_goals
    simp only [SegsOp.exec] at h
    split at h <;> cases h
    exact .refl _

/-- The methods of the segment manager leave the cache, the allocator, the device and the
committed values alone. -/
theorem SegsOp.exec_rest {s s' : Sys} {b b' : Batch} {o : SegsOp} {r : o.Reply}
    (h : o.exec s b = some (s', b', r)) :
    s'.cache = s.cache ∧ s'.alloc = s.alloc ∧ s'.allocMu = s.allocMu ∧ s'.dev = s.dev ∧
      s'.value = s.value := by
  cases o
  case popFree =>
    simp only [SegsOp.exec] at h
    split at h
    · cases h
    · obtain ⟨x, -, he⟩ := Option.map_eq_some_iff.mp h
      cases he
      exact ⟨rfl, rfl, rfl, rfl, rfl⟩
  case unlock => cases h; exact ⟨rfl, rfl, rfl, rfl, rfl⟩
  case putObjectLocked key md old v => cases h; exact ⟨rfl, rfl, rfl, rfl, rfl⟩
  case delObjectLocked key md => cases h; exact ⟨rfl, rfl, rfl, rfl, rfl⟩
  all_goals
    simp only [SegsOp.exec] at h
    split at h <;> cases h
    exact ⟨rfl, rfl, rfl, rfl, rfl⟩

/-! ## 2. Steps -/

section

variable {L : Layout} {s s' : Sys} {l l' : Local}

/-- A step of the segment manager, taken apart. -/
theorem exec_segsOp {o : SegsOp} {r : o.Reply} (h : exec L s l (.segs o) = some (s', l', r)) :
    ∃ b, o.exec s l.batch = some (s', b, r) ∧ l' = ⟨b, o.note s l.hist r⟩ := by
  obtain ⟨x, hx, he⟩ := Option.map_eq_some_iff.mp h
  cases he
  exact ⟨x.2.1, hx, rfl⟩

theorem exec_allocOp {o : AllocOp} {r : o.Reply} (h : exec L s l (.alloc o) = some (s', l', r)) :
    o.exec s = some (s', r) ∧ l' = { l with hist := o.note l.hist r } := by
  obtain ⟨x, hx, he⟩ := Option.map_eq_some_iff.mp h
  cases he
  exact ⟨hx, rfl⟩

/-- An `Apply`: it fails and only the batch is gone, or it commits the batch. -/
theorem exec_apply {ok : Bool} (h : exec L s l (.pebble .apply) = some (s', l', ok)) :
    ∃ fs, l' = ⟨[], PebbleOp.apply.note s l.batch l.hist ok⟩ ∧
      s' = if ok then { s with
        db := ⟨s.db.disk.apply l.batch, fs⟩, value := applyEffects s.value l.hist.stage }
      else { s with db := ⟨s.db.disk, fs⟩ } := by
  unfold exec PebbleOp.exec DB.write at h
  dsimp only at h
  split at h
  · cases h
    exact ⟨[], rfl, by rename_i hf; simp [hf]⟩
  · cases h
    exact ⟨_, rfl, rfl⟩
  · cases h
    exact ⟨_, rfl, rfl⟩

/-- The history after an operation. -/
def Op.note (s : Sys) (b : Batch) (h : Hist) : (o : Op) → o.Reply → Hist
  | .cache o, r => o.note h r
  | .pebble o, r => o.note s b h r
  | .segs o, r => o.note s h r
  | .alloc o, r => o.note h r
  | .dev o, r => o.note h r

theorem exec_hist {o : Op} {r : o.Reply} (h : exec L s l o = some (s', l', r)) :
    l'.hist = o.note s l.batch l.hist r := by
  cases o with
  | cache o => cases h; rfl
  | pebble o => cases o <;> cases h <;> rfl
  | segs o =>
    obtain ⟨b, -, rfl⟩ := exec_segsOp h
    rfl
  | alloc o =>
    obtain ⟨-, rfl⟩ := exec_allocOp h
    rfl
  | dev o => cases h; rfl

/-- The segment manager changes neither the call of a thread nor its extents nor the cursor it has
read. -/
theorem SegsOp.note_rest (s : Sys) (h : Hist) (o : SegsOp) (r : o.Reply) :
    (o.note s h r).call = h.call ∧ (o.note s h r).opens = h.opens ∧ (o.note s h r).cur = h.cur := by
  cases o with
  | putObjectLocked key md old v => cases v <;> exact ⟨rfl, rfl, rfl⟩
  | ref id reader =>
    cases reader with
    | none => exact ⟨rfl, rfl, rfl⟩
    | some x =>
      simp only [SegsOp.note]
      split <;> exact ⟨rfl, rfl, rfl⟩
  | canUse id => cases r <;> exact ⟨rfl, rfl, rfl⟩
  | markFull id => cases r <;> exact ⟨rfl, rfl, rfl⟩
  | popFree => cases r <;> exact ⟨rfl, rfl, rfl⟩
  | _ => exact ⟨rfl, rfl, rfl⟩

/-- A read of pebble changes neither the call nor the extents. -/
theorem PebbleOp.note_rest (s : Sys) (b : Batch) (h : Hist) {o : PebbleOp} (ho : o ≠ .apply)
    (r : o.Reply) : (o.note s b h r).call = h.call ∧ (o.note s b h r).opens = h.opens := by
  cases o with
  | getMapping key site =>
    constructor <;> cases site <;> cases r <;> simp only [PebbleOp.note] <;> (try split) <;> rfl
  | apply => exact absurd rfl ho
  | _ => cases r <;> exact ⟨rfl, rfl⟩

/-- A thread stays in its call. -/
theorem exec_call {o : Op} {r : o.Reply} (h : exec L s l o = some (s', l', r)) :
    l'.hist.call = l.hist.call := by
  rw [exec_hist h]
  cases o with
  | cache o => cases o <;> cases r <;> rfl
  | pebble o =>
    by_cases ho : o = .apply
    · subst ho
      cases r <;> rfl
    · exact (PebbleOp.note_rest s l.batch l.hist ho r).1
  | segs o => exact (SegsOp.note_rest s l.hist o r).1
  | alloc o =>
    cases o with
    | persist seg off => cases r <;> rfl
    | _ => rfl
  | dev o => cases o <;> cases r <;> rfl

/-- **What becomes of the extents a thread has open**: `take` opens one, a write of the cursor and
one of a block are noted in them, and `Apply` closes those whose mappings it commits. -/
theorem opens_cases {o : Op} {r : o.Reply} (h : exec L s l o = some (s', l', r)) :
    l'.hist.opens = l.hist.opens ∨
    (∃ n, o = .alloc (.take n) ∧ l'.hist.opens =
      ⟨⟨s.alloc.curSeg, s.alloc.curOff, n⟩, [], false⟩ :: l.hist.opens) ∨
    (∃ seg off, o = .alloc (.persist seg off) ∧
      l'.hist.opens = l.hist.opens.map (fun x => { x with durable := true })) ∨
    (∃ seg off block, o = .dev (.write seg off block) ∧
      l'.hist.opens = l.hist.opens.map (fun x => x.extend seg off block)) ∨
    (o = .pebble .apply ∧
      l'.hist.opens = l.hist.opens.filter (fun x => x.span ∉ l.batch.spans)) := by
  rw [exec_hist h]
  cases o with
  | cache o => exact Or.inl (by cases o <;> cases r <;> rfl)
  | pebble o =>
    by_cases ho : o = .apply
    · subst ho
      cases r with
      | true => exact Or.inr (Or.inr (Or.inr (Or.inr ⟨rfl, rfl⟩)))
      | false => exact Or.inl rfl
    · exact Or.inl (PebbleOp.note_rest s l.batch l.hist ho r).2
  | segs o => exact Or.inl (SegsOp.note_rest s l.hist o r).2.1
  | alloc o =>
    cases o with
    | take n =>
      obtain ⟨hx, -⟩ := exec_allocOp h
      cases hx
      exact Or.inr (Or.inl ⟨n, rfl, rfl⟩)
    | persist seg off =>
      cases r with
      | true => exact Or.inr (Or.inr (Or.inl ⟨seg, off, rfl, rfl⟩))
      | false => exact Or.inl rfl
    | _ => exact Or.inl rfl
  | dev o =>
    cases o with
    | write seg off block =>
      cases r with
      | true => exact Or.inr (Or.inr (Or.inr (Or.inl ⟨seg, off, block, rfl, rfl⟩)))
      | false => exact Or.inl rfl
    | read seg off => exact Or.inl rfl

/-- A block that is written leaves the extent where it is. -/
@[simp] theorem Opened.extend_span (x : Opened) (seg off : Int) (block : Bytes) :
    (x.extend seg off block).span = x.span := by
  unfold Opened.extend
  split <;> rfl

theorem exec_putObjectLocked {key : Key} {md : ObjectMeta} {old : Option ObjectMeta}
    {v : Option Bytes} {r : Unit}
    (h : exec L s l (.segs (.putObjectLocked key md old v)) = some (s', l', r)) :
    s' = { s with segs := (s.segs.putObjectLocked l.batch key md old).2 } ∧
      l' = ⟨(s.segs.putObjectLocked l.batch key md old).1,
        (SegsOp.putObjectLocked key md old v).note s l.hist r⟩ := by
  cases h
  exact ⟨rfl, rfl⟩

theorem exec_delObjectLocked {key : Key} {md : ObjectMeta} {r : Unit}
    (h : exec L s l (.segs (.delObjectLocked key md)) = some (s', l', r)) :
    s' = { s with segs := (s.segs.delObjectLocked l.batch key md).2 } ∧
      l' = ⟨(s.segs.delObjectLocked l.batch key md).1,
        (SegsOp.delObjectLocked key md).note s l.hist r⟩ := by
  cases h
  exact ⟨rfl, rfl⟩

theorem exec_cache {o : Op} {r : o.Reply} (h : exec L s l o = some (s', l', r))
    (ho : ∀ c, o ≠ .cache c) : s'.cache = s.cache := by
  cases o with
  | cache o => exact absurd rfl (ho o)
  | pebble o => cases o <;> cases h <;> rfl
  | segs o =>
    obtain ⟨b, hx, -⟩ := exec_segsOp h
    exact (SegsOp.exec_rest hx).1
  | alloc o =>
    obtain ⟨hx, -⟩ := exec_allocOp h
    cases o <;> simp only [AllocOp.exec] at hx
    case lock => split at hx <;> cases hx; rfl
    all_goals cases hx; rfl
  | dev o => cases h; rfl

theorem exec_alloc {o : Op} {r : o.Reply} (h : exec L s l o = some (s', l', r))
    (ho : ∀ a, o ≠ .alloc a) : s'.alloc = s.alloc ∧ s'.allocMu = s.allocMu := by
  cases o with
  | cache o => cases h; exact ⟨rfl, rfl⟩
  | pebble o => cases o <;> cases h <;> exact ⟨rfl, rfl⟩
  | segs o =>
    obtain ⟨b, hx, -⟩ := exec_segsOp h
    obtain ⟨-, ha, hm, -⟩ := SegsOp.exec_rest hx
    exact ⟨ha, hm⟩
  | alloc o => exact absurd rfl (ho o)
  | dev o => cases h; exact ⟨rfl, rfl⟩

/-- Only `Apply` changes a mapping. -/
theorem exec_mapping {o : Op} {r : o.Reply} (h : exec L s l o = some (s', l', r))
    (ho : o ≠ .pebble .apply) : s'.db.disk.mapping = s.db.disk.mapping := by
  cases o with
  | cache o => cases h; rfl
  | pebble o =>
    cases o with
    | apply => exact absurd rfl ho
    | _ => cases h; rfl
  | segs o =>
    obtain ⟨b, hx, -⟩ := exec_segsOp h
    exact (SegsOp.exec_disk hx).mapping
  | alloc o =>
    obtain ⟨hx, -⟩ := exec_allocOp h
    cases o <;> simp only [AllocOp.exec] at hx
    case lock => split at hx <;> cases hx; rfl
    case persist seg off =>
      cases hx
      rw [DB.write_disk]
      split <;> rfl
    all_goals cases hx; rfl
  | dev o => cases h; rfl

/-- Operations that change the caller's batch. -/
def Op.Batches : Op → Bool
  | .pebble .apply => true
  | .segs (.putObjectLocked _ _ _ _) => true
  | .segs (.delObjectLocked _ _) => true
  | _ => false

theorem exec_batch {o : Op} {r : o.Reply} (h : exec L s l o = some (s', l', r))
    (ho : o.Batches = false) : l'.batch = l.batch := by
  cases o with
  | cache o => cases h; rfl
  | pebble o =>
    cases o with
    | apply => exact absurd ho (by decide)
    | _ => cases h; rfl
  | segs o =>
    obtain ⟨b, hx, rfl⟩ := exec_segsOp h
    cases o
    case putObjectLocked => exact absurd ho (by simp [Op.Batches])
    case delObjectLocked => exact absurd ho (by simp [Op.Batches])
    case unlock => cases hx; rfl
    case popFree =>
      simp only [SegsOp.exec] at hx
      split at hx
      · cases hx
      · obtain ⟨x, -, he⟩ := Option.map_eq_some_iff.mp hx
        cases he
        rfl
    all_goals
      simp only [SegsOp.exec] at hx
      split at hx <;> cases hx
      rfl
  | alloc o =>
    obtain ⟨-, rfl⟩ := exec_allocOp h
    rfl
  | dev o => cases h; rfl

end

/-! ## 3. The keys of a batch -/

/-- The key whose mapping a write is about. -/
def BatchOp.key? : BatchOp → Option Key
  | .setMapping key _ => some key
  | .delMapping key => some key
  | .setSegment _ _ => none

/-- The keys whose mapping a batch writes. -/
def Batch.keys (b : Batch) : List Key := b.filterMap BatchOp.key?

theorem Batch.keys_append (b b' : Batch) : (b ++ b').keys = b.keys ++ b'.keys :=
  List.filterMap_append

theorem Batch.mem_keys {b : Batch} {key : Key} : key ∈ b.keys ↔ ∃ o ∈ b, o.key? = some key :=
  List.mem_filterMap

theorem Disk.find?_applyOp_of_ne {d : Disk} {o : BatchOp} {key : Key} (h : o.key? ≠ some key) :
    (d.applyOp o).mapping.find? key = d.mapping.find? key := by
  cases o with
  | setMapping key' md =>
    have hne : key ≠ key' := fun he => h (congrArg some he.symm)
    simp [applyOp, hne]
  | delMapping key' =>
    have hne : key ≠ key' := fun he => h (congrArg some he.symm)
    simp [applyOp, hne]
  | setSegment id md => rfl

/-- A batch leaves the mappings of the other keys alone. -/
theorem Disk.find?_apply_of_notMem {key : Key} {b : Batch} (d : Disk) (h : key ∉ b.keys) :
    (d.apply b).mapping.find? key = d.mapping.find? key := by
  induction b generalizing d with
  | nil => rfl
  | cons o b ih =>
    have ho : o.key? ≠ some key :=
      fun he => h (Batch.mem_keys.mpr ⟨o, List.mem_cons_self, he⟩)
    have hb : key ∉ Batch.keys b := fun hin => by
      obtain ⟨o', ho', he⟩ := Batch.mem_keys.mp hin
      exact h (Batch.mem_keys.mpr ⟨o', List.mem_cons_of_mem _ ho', he⟩)
    rw [Disk.apply_cons, ih _ hb, Disk.find?_applyOp_of_ne ho]

/-- What a batch does to a key it writes does not depend on the tables it is applied to. -/
theorem Disk.find?_apply_congr {key : Key} {b : Batch} {d d' : Disk}
    (h : d.mapping.find? key = d'.mapping.find? key ∨ key ∈ b.keys) :
    (d.apply b).mapping.find? key = (d'.apply b).mapping.find? key := by
  induction b generalizing d d' with
  | nil => exact h.resolve_right List.not_mem_nil
  | cons o b ih =>
    refine ih ?_
    by_cases ho : o.key? = some key
    · left
      cases o with
      | setMapping key' md => simp [applyOp, Option.some.inj ho]
      | delMapping key' => simp [applyOp, Option.some.inj ho]
      | setSegment id md => exact absurd ho (by simp [BatchOp.key?])
    · rw [find?_applyOp_of_ne ho, find?_applyOp_of_ne ho]
      refine h.imp_right fun hin => ?_
      obtain ⟨o', ho', he⟩ := Batch.mem_keys.mp hin
      rcases List.mem_cons.mp ho' with rfl | ho'
      · exact absurd he ho
      · exact Batch.mem_keys.mpr ⟨o', ho', he⟩

/-- The mapping a batch leaves a key it writes with. -/
def Batch.result (b : Batch) (key : Key) : Option ObjectMeta :=
  (Disk.empty.apply b).mapping.find? key

theorem Disk.find?_apply_of_mem {key : Key} {b : Batch} (d : Disk) (h : key ∈ b.keys) :
    (d.apply b).mapping.find? key = b.result key := Disk.find?_apply_congr (Or.inr h)

/-- Writes of segment records. -/
def Batch.records (xs : List (Int × SegmentMeta)) : Batch := xs.map (fun x => .setSegment x.1 x.2)

theorem Batch.keys_records (xs : List (Int × SegmentMeta)) : Batch.keys (records xs) = [] := by
  induction xs with
  | nil => rfl
  | cons x xs ih => exact ih

namespace SegmentManager

theorem dropObject_fst (m : SegmentManager) (b : Batch) (id : Int) :
    ∃ xs, (m.dropObject b id).1 = b ++ Batch.records xs := by
  unfold dropObject
  split
  · rename_i e _
    exact ⟨[(id, e.charged.md)], rfl⟩
  · exact ⟨[], (List.append_nil b).symm⟩

/-- `putObjectLocked` adds to the batch: the mapping, the record of its segment, and at most one
more record. -/
theorem putObjectLocked_fst (m : SegmentManager) (b : Batch) (key : Key) (md : ObjectMeta)
    (old : Option ObjectMeta) : ∃ sm xs, (m.putObjectLocked b key md old).1
      = b ++ ([.setMapping key md, .setSegment md.segmentID sm] ++ Batch.records xs) := by
  refine ⟨(m.addObject md.segmentID (oldSame md old)).1.md, ?_⟩
  unfold putObjectLocked
  cases old with
  | none => exact ⟨[], by simp [Batch.records]⟩
  | some o =>
    dsimp only
    split
    · exact ⟨[], by simp [Batch.records]⟩
    · obtain ⟨xs, hxs⟩ := dropObject_fst (m.addObject md.segmentID (oldSame md (some o))).2
        ((b ++ [.setMapping key md]) ++
          [.setSegment md.segmentID (m.addObject md.segmentID (oldSame md (some o))).1.md])
        o.segmentID
      exact ⟨xs, by rw [hxs]; simp⟩

/-- `delObjectLocked` adds to the batch: the deletion, and at most one record. -/
theorem delObjectLocked_fst (m : SegmentManager) (b : Batch) (key : Key) (md : ObjectMeta) :
    ∃ xs, (m.delObjectLocked b key md).1 = b ++ (.delMapping key :: Batch.records xs) := by
  obtain ⟨xs, hxs⟩ := dropObject_fst m (b ++ [.delMapping key]) md.segmentID
  exact ⟨xs, by rw [delObjectLocked, hxs]; simp⟩

theorem putObjectLocked_keys (m : SegmentManager) (b : Batch) (key : Key) (md : ObjectMeta)
    (old : Option ObjectMeta) :
    Batch.keys (m.putObjectLocked b key md old).1 = Batch.keys b ++ [key] := by
  obtain ⟨sm, xs, h⟩ := m.putObjectLocked_fst b key md old
  rw [h, Batch.keys_append, Batch.keys_append, Batch.keys_records]
  rfl

theorem delObjectLocked_keys (m : SegmentManager) (b : Batch) (key : Key) (md : ObjectMeta) :
    Batch.keys (m.delObjectLocked b key md).1 = Batch.keys b ++ [key] := by
  obtain ⟨xs, h⟩ := m.delObjectLocked_fst b key md
  rw [h, Batch.keys_append]
  exact congrArg (fun ks => Batch.keys b ++ (key :: ks)) (Batch.keys_records xs)

/-- What the extended batch does to the mappings. -/
theorem putObjectLocked_mapping (m : SegmentManager) (b : Batch) (key : Key) (md : ObjectMeta)
    (old : Option ObjectMeta) (d : Disk) :
    (d.apply (m.putObjectLocked b key md old).1).mapping = (d.apply b).mapping.insert key md := by
  obtain ⟨sm, xs, h⟩ := m.putObjectLocked_fst b key md old
  rw [h, Disk.apply_append, Disk.apply_append]
  exact (Disk.sameObjects_setSegments xs _).mapping

theorem delObjectLocked_mapping (m : SegmentManager) (b : Batch) (key : Key) (md : ObjectMeta)
    (d : Disk) :
    (d.apply (m.delObjectLocked b key md).1).mapping = (d.apply b).mapping.erase key := by
  obtain ⟨xs, h⟩ := m.delObjectLocked_fst b key md
  rw [h, Disk.apply_append, Disk.apply_cons]
  exact (Disk.sameObjects_setSegments xs _).mapping

end SegmentManager

end Taihu
