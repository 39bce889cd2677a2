/-
# The store holds what was committed

From outside, the store is a partial map from keys to bytes.  `value` in the history is that map:
what each key was last given by a put that committed, or nothing once a delete has.  The code has
it in two places, a mapping in pebble and bytes on the raw device, and it changes the one only by
batches and the other only by blocks, at different times and on behalf of any number of calls.

`ContentsKept` says that the two together are the map, in every state: the mapping of a key is that
of an object whose bytes are on the device, and these are the bytes of the map.  It also says what
this depends on: what the calls have written of their extents is there, a batch changes the mappings
as its commit will change the map, and the objects that calls hold are pinned.

Two things can go wrong, and the result is about runs in which they do not.  An extent can be handed
out twice (`Taihu.Extents`); and a move can commit bytes that are not those of the object any more,
if the key is written between its comparison and its commit: `MovesCurrent`.
-/
import Taihu.Readings
import Taihu.Pinned

namespace Taihu

open Concur
open Program hiding pure

variable {L : Layout} {s s' : Sys} {l l' : Local} {ls ls' rest : List Local} {strict : Bool}

/-! ## 1. Effects -/

/-- The value of a key after one more effect. -/
def Effect.on (e : Effect) (v : Option Bytes) : Option Bytes :=
  match e with
  | .store w => some w
  | .drop => none
  | .keep => v

theorem applyEffects_append (key : Key) (e : Effect) (es : List (Key × Effect)) :
    ∀ (value : Key → Option Bytes) (k : Key), applyEffects value (es ++ [(key, e)]) k
      = if k = key then e.on (applyEffects value es k) else applyEffects value es k := by
  induction es with
  | nil =>
    intro value k
    cases e <;> rfl
  | cons x es ih => exact fun value k => ih _ k

/-- Only `Apply` changes the committed values. -/
theorem exec_value {o : Op} {r : o.Reply} (h : exec L s l o = some (s', l', r))
    (ha : o ≠ .pebble .apply) : s'.value = s.value := by
  cases o with
  | cache o => cases h; rfl
  | pebble o =>
    cases o with
    | apply => exact absurd rfl ha
    | _ => cases h; rfl
  | segs o =>
    obtain ⟨b, hx, -⟩ := exec_segsOp h
    rw [(SegsOp.exec_rest hx).2.2.2.2]
  | alloc o =>
    obtain ⟨hx, -⟩ := exec_allocOp h
    cases o <;> simp only [AllocOp.exec] at hx
    case lock => split at hx <;> cases hx; rfl
    all_goals cases hx; rfl
  | dev o => cases h; rfl

/-! ## 2. What a batch will do -/

/-- The batch changes the mappings as the effects change the values: whatever relates what the
thread carries to the mappings it commits, the tables stay related. -/
def Local.Agrees (l : Local) : Prop :=
  ∀ R : ObjectMeta → Bytes → Prop, (∀ md v, Carried l.written md v → R md v) →
    ∀ (d : Disk) (value : Key → Option Bytes), (∀ key, Option.Rel R (d.mapping.find? key) (value key)) →
      ∀ key, Option.Rel R ((d.apply l.batch).mapping.find? key) (applyEffects value l.hist.stage key)

/-- The batch moves an object. -/
structure Local.Moves (l : Local) (key : Key) (md : ObjectMeta) : Prop where
  batch : ∀ d : Disk, (d.apply l.batch).mapping = d.mapping.insert key md
  stage : l.hist.stage = [(key, .keep)]
  copies : l.Copies key md

def Local.Staged (l : Local) : Prop := l.Agrees ∨ ∃ key md, l.Moves key md

theorem agrees_of_empty (hb : l.batch = []) (hs : l.hist.stage = []) : l.Agrees := by
  intro R _ d value h
  rw [hb, hs]
  exact h

theorem Local.Moves.moving {key : Key} {md : ObjectMeta} (h : l.Moves key md) : l.Moving :=
  ⟨key, h.stage ▸ List.mem_singleton_self _⟩

/-- What is carried is carried on until it is committed. -/
theorem carried_step {o : Op} {r : o.Reply} (hx : exec L s l o = some (s', l', r))
    (ha : o ≠ .pebble .apply) {md : ObjectMeta} {v : Bytes} (h : Carried l.written md v) :
    Carried l'.written md v := by
  by_cases hw : ∀ seg off block, o ≠ .dev (.write seg off block)
  · exact h.mono (written_grows hx ha hw)
  obtain ⟨seg, off, block, rfl⟩ : ∃ seg off block, o = .dev (.write seg off block) := by
    simpa using hw
  rw [written_write hx]
  cases r with
  | false => exact h
  | true =>
    obtain ⟨hlen, w, hin, hv⟩ := h
    have hgrown := Multiset.mem_map_of_mem (grown seg off block) hin
    rw [grown] at hgrown
    split at hgrown
    · exact ⟨hlen, _, hgrown, hv.trans (List.prefix_append _ _)⟩
    · exact ⟨hlen, w, hgrown, hv⟩

theorem Local.Agrees.same (h : l.Agrees) (hb : l'.batch = l.batch) (hs : l'.hist.stage = l.hist.stage)
    (hw : ∀ md v, Carried l.written md v → Carried l'.written md v) : l'.Agrees := by
  intro R hR d value hrel
  rw [hb, hs]
  exact h R (fun md v hc => hR md v (hw md v hc)) d value hrel

/-- One more write in the batch, and its effect. -/
theorem Local.Agrees.write (h : l.Agrees) (key : Key) (e : Effect) (m : Option ObjectMeta)
    (hb : ∀ (d : Disk) (k : Key), (d.apply l'.batch).mapping.find? k
      = if k = key then m else (d.apply l.batch).mapping.find? k)
    (hs : l'.hist.stage = l.hist.stage ++ [(key, e)])
    (hw : ∀ md v, Carried l.written md v → Carried l'.written md v)
    (he : ∀ v, Option.Rel (Carried l'.written) m (e.on v)) : l'.Agrees := by
  intro R hR d value hrel k
  have hold := h R (fun md v hc => hR md v (hw md v hc)) d value hrel k
  rw [hb, hs, applyEffects_append]
  split
  · have hnew := he (applyEffects value l.hist.stage k)
    generalize e.on (applyEffects value l.hist.stage k) = w at hnew
    cases hnew with
    | some hc => exact .some (hR _ _ hc)
    | none => exact .none
  · exact hold

/-- **The batch in the making.** -/
theorem staged_step (h : l.Staged) {o : Op} {r : o.Reply} (ho : o.Transfers l)
    (hm : l.Moving → o = .pebble .apply) (hx : exec L s l o = some (s', l', r)) : l'.Staged := by
  by_cases ha : o = .pebble .apply
  · subst ha
    obtain ⟨fs, rfl, -⟩ := exec_apply hx
    exact Or.inl (agrees_of_empty rfl (by cases r <;> rfl))
  obtain hagrees : l.Agrees := h.resolve_right fun ⟨key, md, hmv⟩ => ha (hm hmv.moving)
  have hcarried : ∀ md v, Carried l.written md v → Carried l'.written md v :=
    fun _ _ => carried_step hx ha
  by_cases hbatch : o.Batches = false
  · exact Or.inl (hagrees.same (exec_batch hx hbatch) (stage_same hx hbatch) hcarried)
  cases o with
  | segs o =>
    cases o with
    | putObjectLocked key md old v =>
      obtain ⟨-, hl⟩ := exec_putObjectLocked hx
      have hput : ∀ d : Disk, (d.apply l'.batch).mapping = (d.apply l.batch).mapping.insert key md := by
        intro d
        rw [congrArg Local.batch hl]
        exact SegmentManager.putObjectLocked_mapping _ _ _ _ _ d
      cases v with
      | some v =>
        refine Or.inl (hagrees.write key (.store v) (some md) (fun d k => ?_)
          (congrArg (fun x => x.hist.stage) hl) hcarried fun _ => .some (hcarried md v ho))
        by_cases hk : k = key <;> simp [hput, hk]
      | none =>
        obtain ⟨hb, hs, hcopies⟩ := ho
        refine Or.inr ⟨key, md, ⟨fun d => ?_, ?_, fun x hx1 hkey hcas => ?_⟩⟩
        · rw [hput, hb]
          rfl
        · rw [congrArg (fun x => x.hist.stage) hl]
          simp [SegsOp.note, hs]
        · rw [hl] at hx1 hcas
          obtain ⟨v, hv, hc⟩ := hcopies x hx1 hkey hcas
          exact ⟨v, hv, hcarried md v hc⟩
    | delObjectLocked key md =>
      obtain ⟨-, hl⟩ := exec_delObjectLocked hx
      refine Or.inl (hagrees.write key .drop none (fun d k => ?_)
        (congrArg (fun x => x.hist.stage) hl) hcarried fun _ => .none)
      rw [congrArg Local.batch hl, SegmentManager.delObjectLocked_mapping]
      by_cases hk : k = key <;> simp [hk]
    | _ => exact absurd rfl hbatch
  | pebble o =>
    cases o with
    | apply => exact absurd rfl ha
    | _ => exact absurd rfl hbatch
  | _ => exact absurd rfl hbatch

/-! ## 3. The invariant -/

/-- The bytes a thread has written of an extent are there. -/
def Opens (L : Layout) (s : Sys) (x : Span × Bytes) : Prop :=
  (x.2.length : Int) ≤ x.1.len ∧ s.dev.Shows L x.1.region x.1.start x.2

/-- Pebble and the device hold the committed values. -/
structure ContentsKept (L : Layout) (s : Sys) (ls : List Local) : Prop where
  stored : ∀ key, Option.Rel (s.dev.Stores L) (s.db.disk.mapping.find? key) (s.value key)
  opened : ∀ l ∈ ls, ∀ x ∈ l.written, Opens L s x
  staged : ∀ l ∈ ls, l.Staged
  refs : ∀ l ∈ ls, ∀ x ∈ l.hist.held, x.md.segmentID ∈ l.hist.refs
  held : ∀ l ∈ ls, ∀ x ∈ l.hist.held, Pinned L s ls x

/-- The operation is the commit of a batch. -/
def Op.commits : Op → Bool
  | .pebble .apply => true
  | _ => false

/-- A move commits the bytes of the object that its key has: it has read the object whose mapping it
compared, and the value of the key has not changed since. -/
def MovesCurrent (s : Sys) (l : Local) (o : Op) : Prop :=
  o.commits = true → ∀ e ∈ l.hist.stage, e.2 = .keep →
    ∃ x ∈ l.hist.copy, x.key = e.1 ∧ l.hist.cas = some (e.1, x.md) ∧ x.value = s.value e.1

instance (s : Sys) (l : Local) (o : Op) : Decidable (MovesCurrent s l o) :=
  inferInstanceAs (Decidable (_ → _))

/-- What is known of a step from the other invariants, and the conditions on it. -/
structure Supported (L : Layout) (strict : Bool) (s : Sys) (l : Local) (rest : List Local) (o : Op) :
    Prop where
  founded : Founded s l rest o
  places : PlacesKept L s (l :: rest)
  counted : RefsExact s (l :: rest)
  moves : MovesCurrent s l o
  current : strict = true → o.Current s

/-- An object that is mapped, with its value. -/
theorem ContentsKept.mapped (h : ContentsKept L s ls) {key : Key} {md : ObjectMeta}
    (hmd : s.db.disk.mapping.find? key = some md) : ∃ v, s.value key = some v ∧ s.dev.Stores L md v := by
  have hrel := h.stored key
  rw [hmd] at hrel
  generalize s.value key = w at hrel
  cases hrel with
  | some hs => exact ⟨_, rfl, hs⟩

namespace Supported

variable {o : Op} {r : o.Reply}

/-- The extents of two threads are apart. -/
theorem others (h : Supported L strict s l rest o) {y : Local} (hy : y ∈ rest) {a c : Span}
    (ha : a ∈ y.extents) (hc : c ∈ l.extents) : Span.Disjoint a c := by
  have hle : y.extents ≤ (rest.map Local.extents).sum := List.le_sum_of_mem (List.mem_map_of_mem hy)
  refine Span.Disjoint.symm (h.founded.kept.ahead.apart c a ?_)
  rw [taken_cons]
  exact (add_le_add (Multiset.singleton_le.mpr hc) ((Multiset.singleton_le.mpr ha).trans hle)).trans
    (Multiset.le_add_left _ _)

/-- The extents of one thread are apart. -/
theorem own (h : Supported L strict s l rest o) : Span.Apart (l.written.map Prod.fst) := by
  rw [written_spans]
  refine h.founded.kept.ahead.apart.mono ?_
  rw [taken_cons]
  exact (Multiset.le_add_right _ _).trans (Multiset.le_add_left _ _)

/-- A committed extent is apart from what is open. -/
theorem committed (h : Supported L strict s l rest o) {key : Key} {md : ObjectMeta}
    (hmd : s.db.disk.mapping.find? key = some md) {c : Span} (hc : c ∈ l.extents) :
    Span.Disjoint md.span c := by
  refine h.founded.kept.ahead.apart md.span c ?_
  rw [taken_cons]
  exact add_le_add (Multiset.singleton_le.mpr (Disk.mem_spans hmd))
    ((Multiset.singleton_le.mpr hc).trans (Multiset.le_add_right _ _))

theorem extentFits (h : Supported L strict s l rest o) : ∀ c ∈ l.extents, c.Fits L.segmentSizeBytes :=
  fun _ hc => h.places.span (mem_taken_of_extents hc)

/-- **What the stepping thread may rely on.** -/
theorem shown (h : Supported L strict s l rest o) (hk : ContentsKept L s (l :: rest)) : Shown L s l where
  apart := written_spans l ▸ h.own
  mapped := by
    intro key md hmd
    obtain ⟨v, hv, hs⟩ := hk.mapped hmd
    exact ⟨v, hv, hs.1, h.places.fits md.span (Multiset.mem_add.mpr (Or.inl (Disk.mem_spans hmd)))⟩
  held := by
    intro x hx v hv
    obtain ⟨w, hw, hs⟩ := (hk.held l List.mem_cons_self x hx).stores
    obtain rfl : w = v := Option.some.inj (hw.symm.trans hv)
    exact hs.2

end Supported

/-! ## 4. The step lemma -/

/-- A mapped object stays on the device. -/
theorem stores_step {o : Op} {r : o.Reply} (hs : Supported L strict s l rest o) (ho : o.Transfers l)
    (hx : exec L s l o = some (s', l', r)) {key : Key} {md : ObjectMeta}
    (hmd : s.db.disk.mapping.find? key = some md) {v : Bytes} (hv : s.dev.Stores L md v) :
    s'.dev.Stores L md v := by
  have hfit : md.span.Fits L.segmentSizeBytes :=
    hs.places.span (Multiset.mem_add.mpr (Or.inl (Disk.mem_spans hmd)))
  refine ⟨hv.1, ?_⟩
  have hle := le_align4k md.size
  exact shows_step (a := md.span) ho hx hs.extentFits hfit (fun _ hc => hs.committed hmd hc)
    (by rw [hv.1]; exact hle) hv.2

/-- What is carried is on the device. -/
theorem stores_of_carried (hopen : ∀ x ∈ l.written, Opens L s x) {md : ObjectMeta} {v : Bytes}
    (h : Carried l.written md v) : s.dev.Stores L md v := by
  obtain ⟨hlen, w, hin, hv⟩ := h
  exact ⟨hlen, (hopen _ hin).2.head hv⟩

/-- **Pebble and the device hold the values after a commit too.** -/
theorem stored_apply (h : ContentsKept L s (l :: rest)) (hs : Supported L strict s l rest (.pebble .apply))
    {ok : Bool} (hx : exec L s l (.pebble .apply) = some (s', l', ok)) (key : Key) :
    Option.Rel (s'.dev.Stores L) (s'.db.disk.mapping.find? key) (s'.value key) := by
  have hopen := h.opened l List.mem_cons_self
  obtain ⟨fs, -, hcase⟩ := exec_apply hx
  cases ok with
  | false =>
    subst hcase
    exact h.stored key
  | true =>
    subst hcase
    show Option.Rel (s.dev.Stores L) ((s.db.disk.apply l.batch).mapping.find? key)
      (applyEffects s.value l.hist.stage key)
    rcases h.staged l List.mem_cons_self with hagrees | ⟨k, md, hmoves⟩
    · exact hagrees _ (fun md v => stores_of_carried hopen) s.db.disk s.value h.stored key
    · -- the moved object has the bytes that its key has
      obtain ⟨x, hxc, hkey, hcas, hval⟩ := hs.moves rfl (k, .keep)
        (hmoves.stage ▸ List.mem_singleton_self _) rfl
      obtain ⟨v, hv, hcarried⟩ := hmoves.copies x hxc hkey hcas
      have hsame : applyEffects s.value l.hist.stage key = s.value key := by
        rw [hmoves.stage]
        show (if key = k then s.value key else s.value key) = s.value key
        rw [ite_self]
      rw [hmoves.batch, hsame, SortedMap.find?_insert]
      split
      · rename_i he
        subst he
        rw [← hval, hv]
        exact .some (stores_of_carried hopen hcarried)
      · exact h.stored key

theorem stored_step (h : ContentsKept L s (l :: rest)) {o : Op} {r : o.Reply}
    (hs : Supported L strict s l rest o) (ho : o.Transfers l) (hx : exec L s l o = some (s', l', r))
    (key : Key) : Option.Rel (s'.dev.Stores L) (s'.db.disk.mapping.find? key) (s'.value key) := by
  by_cases ha : o = .pebble .apply
  · subst ha
    exact stored_apply h hs hx key
  · rw [exec_mapping hx ha, exec_value hx ha]
    cases hmd : s.db.disk.mapping.find? key with
    | none =>
      have hrel := h.stored key
      rw [hmd] at hrel
      generalize s.value key = w at hrel
      cases hrel
      exact .none
    | some md =>
      obtain ⟨v, hv, hst⟩ := h.mapped hmd
      rw [hv]
      exact .some (stores_step hs ho hx hmd hst)

/-- A block that a thread writes grows one of its extents and leaves the others. -/
theorem opened_write (h : ∀ x ∈ l.written, Opens L s x) {o : Op} (hs : Supported L strict s l rest o)
    {seg off : Int} {block : Bytes} (ho : (Op.dev (.write seg off block)).Transfers l)
    (hbytes : s'.dev.bytes = s.dev.wrote L seg off block) :
    ∀ x ∈ l.written.map (grown seg off block), Opens L s' x := by
  obtain ⟨hblock, c, wc, hc, rfl, hoff, hlen⟩ := ho
  have hpos : (0 : Int) < blockSize := by decide
  have hfit : ∀ {a : Span} {w : Bytes}, (a, w) ∈ l.written → a.Fits L.segmentSizeBytes := by
    intro a w ha
    refine hs.extentFits a ?_
    rw [← written_spans]
    exact Multiset.mem_map_of_mem Prod.fst ha
  intro x hx
  obtain ⟨⟨a, w⟩, ha, rfl⟩ := Multiset.mem_map.mp hx
  obtain ⟨hw, hshows⟩ := h _ ha
  rcases Span.Apart.of_mem hs.own hc ha with he | hdis
  · obtain ⟨rfl, rfl⟩ := Prod.mk.inj he
    have hlt : (w.length : Int) < a.len := by omega
    rw [grown, if_pos ⟨rfl, hoff, hlt⟩]
    refine ⟨?_, ?_⟩
    · show ((w ++ block).length : Int) ≤ a.len
      rw [List.length_append]
      omega
    · subst hoff
      exact (hshows.before hbytes).append (Dev.shows_wrote hbytes (Int.le_of_eq hblock))
  · have hwc : (0 : Int) ≤ wc.length := Int.natCast_nonneg _
    have hleft : grown c.region off block (a, w) = (a, w) := by
      refine if_neg ?_
      rintro ⟨hr, hstart, hlt⟩
      have hlo : (0 : Int) ≤ w.length := Int.natCast_nonneg _
      refine hdis (c.region, off) ⟨rfl, ?_, ?_⟩ ⟨hr, ?_, ?_⟩
      · show c.start ≤ off
        omega
      · show off < c.start + c.len
        omega
      · show a.start ≤ off
        simp only at hstart
        omega
      · show off < a.start + a.len
        simp only at hstart hlt
        omega
    rw [hleft]
    refine ⟨hw, hshows.apart hdis.symm (hfit ha) (hfit hc) hw hbytes ⟨?_, ?_⟩⟩
    · show c.start ≤ off
      omega
    · show off + blockSize ≤ c.start + c.len
      omega

theorem opened_step (h : ContentsKept L s (l :: rest)) {o : Op} {r : o.Reply}
    (hs : Supported L strict s l rest o) (ho : o.Transfers l) (hx : exec L s l o = some (s', l', r)) :
    ∀ y ∈ l' :: rest, ∀ x ∈ y.written, Opens L s' x := by
  have hmine := h.opened l List.mem_cons_self
  intro y hy
  rcases List.mem_cons.mp hy with rfl | hy
  · by_cases hw : ∀ seg off block, o ≠ .dev (.write seg off block)
    · have hopen : ∀ x, Opens L s x → Opens L s' x :=
        fun x hx' => ⟨hx'.1, hx'.2.congr fun i _ => by rw [exec_bytes hx hw]⟩
      by_cases ha : o = .pebble .apply
      · subst ha
        exact fun x hin => hopen x (hmine x (Multiset.mem_of_le (written_apply_le hx) hin))
      by_cases ht : ∃ n, o = .alloc (.take n)
      · obtain ⟨n, rfl⟩ := ht
        rw [written_take hx]
        intro x hin
        rcases Multiset.mem_cons.mp hin with rfl | hin
        · exact ⟨hs.founded.alloc.1, Dev.shows_nil L _ _ _⟩
        · exact hopen x (hmine x hin)
      · rw [written_same hx ha (fun n hn => ht ⟨n, hn⟩) hw]
        exact fun x hin => hopen x (hmine x hin)
    · obtain ⟨seg, off, block, rfl⟩ : ∃ seg off block, o = .dev (.write seg off block) := by
        simpa using hw
      have hbytes := exec_devWrite hx
      rw [written_write hx]
      cases r with
      | false => exact fun x hin => ⟨(hmine x hin).1, (hmine x hin).2.congr fun i _ => by rw [hbytes]; rfl⟩
      | true => exact opened_write hmine hs ho hbytes
  · intro x hin
    obtain ⟨hw, hshows⟩ := h.opened y (List.mem_cons_of_mem _ hy) x hin
    have hext : x.1 ∈ y.extents := by
      rw [← written_spans]
      exact Multiset.mem_map_of_mem Prod.fst hin
    have htaken : x.1 ∈ s.taken (l :: rest) := by
      have hle : y.extents ≤ (rest.map Local.extents).sum := List.le_sum_of_mem (List.mem_map_of_mem hy)
      rw [taken_cons]
      exact Multiset.mem_add.mpr (Or.inr (Multiset.mem_add.mpr (Or.inr (Multiset.mem_of_le hle hext))))
    exact ⟨hw, shows_step ho hx hs.extentFits (hs.places.span htaken)
      (fun c hc => hs.others hy hext hc) hw hshows⟩

/-- **The step lemma.** -/
theorem ContentsKept.step (h : ContentsKept L s (l :: rest)) {o : Op} {r : o.Reply}
    (hs : Supported L strict s l rest o) (ho : o.Transfers l) (hm : l.Moving → o = .pebble .apply)
    (hx : exec L s l o = some (s', l', r)) : ContentsKept L s' (l' :: rest) := by
  have hpin : ∀ x, Pinned L s (l :: rest) x →
      ((∃ ids, o = .segs (.gcFinalize ids)) → 0 < s.segs.refCount x.md.segmentID) →
        Pinned L s' (l' :: rest) x :=
    fun x hx' href => hx'.step hs.founded hs.extentFits ho href hx
  have hcount : ∀ y ∈ l :: rest, ∀ x ∈ y.hist.held, 0 < s.segs.refCount x.md.segmentID :=
    fun y hy x hin => hs.counted.counts hy (h.refs y hy x hin)
  have hnew := held_step ho (h.refs l List.mem_cons_self) hx
  refine ⟨stored_step h hs ho hx, opened_step h hs ho hx, ?_, ?_, ?_⟩
  · intro y hy
    rcases List.mem_cons.mp hy with rfl | hy
    · exact staged_step (h.staged l List.mem_cons_self) ho hm hx
    · exact h.staged y (List.mem_cons_of_mem _ hy)
  · intro y hy x hin
    rcases List.mem_cons.mp hy with rfl | hy
    · exact (hnew x hin).1
    · exact h.refs y (List.mem_cons_of_mem _ hy) x hin
  · intro y hy x hin
    rcases List.mem_cons.mp hy with rfl | hy
    · rcases (hnew x hin).2 with hold | ⟨hmd, hval⟩
      · exact hpin x (h.held l List.mem_cons_self x hold) fun _ => hcount l List.mem_cons_self x hold
      · -- the object is mapped, so its extent is in use
        obtain ⟨v, hv, hst⟩ := h.mapped hmd
        have hp : Pinned L s (l :: rest) ⟨x.key, x.md, s.value x.key⟩ :=
          .of_mapped hs.founded.kept hs.places hmd hv hst
        rw [← hval] at hp
        refine hpin x hp ?_
        rintro ⟨ids, rfl⟩
        rw [exec_hist hx] at hin
        exact hcount l List.mem_cons_self x hin
    · exact hpin x (h.held y (List.mem_cons_of_mem _ hy) x hin) fun _ =>
        hcount y (List.mem_cons_of_mem _ hy) x hin

namespace ContentsKept

/-- The threads change: each is one there was, or has nothing open, held or staged. -/
theorem regroup (h : ContentsKept L s ls)
    (hls : ∀ y ∈ ls', y ∈ ls ∨ (y.written = 0 ∧ y.Staged ∧ y.hist.roll = none ∧ ∀ x ∈ y.hist.held,
      ∃ z ∈ ls, x ∈ z.hist.held ∧ z.hist.refs = y.hist.refs)) : ContentsKept L s ls' where
  stored := h.stored
  opened := by
    intro y hy x hin
    rcases hls y hy with hy | ⟨hw, -⟩
    · exact h.opened y hy x hin
    · rw [hw] at hin
      exact absurd hin (Multiset.notMem_zero x)
  staged := by
    intro y hy
    rcases hls y hy with hy | ⟨-, hst, -⟩
    · exact h.staged y hy
    · exact hst
  refs := by
    intro y hy x hin
    rcases hls y hy with hy | ⟨-, -, -, hheld⟩
    · exact h.refs y hy x hin
    · obtain ⟨z, hz, hxz, hrefs⟩ := hheld x hin
      exact hrefs ▸ h.refs z hz x hxz
  held := by
    intro y hy x hin
    have hp : Pinned L s ls x := by
      rcases hls y hy with hy | ⟨-, -, -, hheld⟩
      · exact h.held y hy x hin
      · obtain ⟨z, hz, hxz, -⟩ := hheld x hin
        exact h.held z hz x hxz
    refine hp.regroup (fun z hz a ha => ?_) fun id b ⟨z, hz, hr⟩ => ?_
    · rcases hls z hz with hz | ⟨hw, -⟩
      · exact ⟨z, hz, ha⟩
      · rw [← written_spans, hw] at ha
        exact absurd ha (Multiset.notMem_zero a)
    · rcases hls z hz with hz | ⟨-, -, hroll, -⟩
      · exact ⟨z, hz, hr⟩
      · exact absurd (hroll.symm.trans hr) (by simp)

theorem perm (hp : ls.Perm ls') (h : ContentsKept L s ls) : ContentsKept L s ls' :=
  h.regroup fun _ hy => Or.inl (hp.mem_iff.mpr hy)

theorem spawn (h : ContentsKept L s ls) (call : Call) :
    ContentsKept L s ((machine L).fresh call :: ls) := by
  refine h.regroup fun y hy => ?_
  rcases List.mem_cons.mp hy with rfl | hy
  · exact Or.inr ⟨rfl, Or.inl (agrees_of_empty rfl rfl), rfl, fun _ hx => absurd hx List.not_mem_nil⟩
  · exact Or.inl hy

/-- A call that returns gives up what it has open, and has committed all it has staged. -/
theorem retire (h : ContentsKept L s (l :: rest)) (hv : l.view = .idle) (hd : l.duty = .none) :
    ContentsKept L s (l.retire :: rest) := by
  refine h.regroup fun y hy => ?_
  rcases List.mem_cons.mp hy with rfl | hy
  · have hb : l.batch = [] := congrArg Duty.batch hd
    have hst : l.hist.stage = [] := List.map_eq_nil_iff.mp (congrArg Duty.stage hd)
    refine Or.inr ⟨rfl, Or.inl (agrees_of_empty hb hst), congrArg AllocView.roll hv, fun x hx => ?_⟩
    exact ⟨l, List.mem_cons_self, hx, rfl⟩
  · exact Or.inl (List.mem_cons_of_mem _ hy)

/-- Reopening finds everything where it was. -/
theorem reopen (h : ContentsKept L s ls) : ContentsKept L s.reopen [] where
  stored := h.stored
  opened := fun _ hy => absurd hy List.not_mem_nil
  staged := fun _ hy => absurd hy List.not_mem_nil
  refs := fun _ hy => absurd hy List.not_mem_nil
  held := fun _ hy => absurd hy List.not_mem_nil

theorem init (bytes : Int → Byte) (devFaults : List Bool) :
    ContentsKept L (Sys.init bytes [] devFaults) [] where
  stored := fun _ => .none
  opened := fun _ hy => absurd hy List.not_mem_nil
  staged := fun _ hy => absurd hy List.not_mem_nil
  refs := fun _ hy => absurd hy List.not_mem_nil
  held := fun _ hy => absurd hy List.not_mem_nil

end ContentsKept

/-! ## 5. Runs -/

/-- The conditions on a step: it spares the extents in use, a move commits the current object, and,
where they are strict, a reference is taken for the current mapping. -/
structure Serves (strict : Bool) (s : Sys) (l : Local) (rest : List Local) (o : Op) : Prop where
  spares : SparesExtents s l rest o
  moves : MovesCurrent s l o
  current : strict = true → o.Current s

instance (strict : Bool) (s : Sys) (l : Local) (rest : List Local) (o : Op) :
    Decidable (Serves strict s l rest o) :=
  decidable_of_iff (SparesExtents s l rest o ∧ MovesCurrent s l o ∧ (strict = true → o.Current s))
    ⟨fun ⟨h, hm, hc⟩ => ⟨h, hm, hc⟩, fun ⟨h, hm, hc⟩ => ⟨h, hm, hc⟩⟩

/-- Calls that commit what they have allocated, in sizes that fit, may start at any time, and the
store may be reopened at any time. -/
def servingSteps (L : Layout) (strict : Bool) : Rule sig Sys Local Call where
  permit := fun call => call.Modest L
  restarts := True
  allow := Serves strict

instance (L : Layout) (strict : Bool) (call : Call) : Decidable ((servingSteps L strict).permit call) :=
  inferInstanceAs (Decidable (call.Modest L))
instance (L : Layout) (strict : Bool) : Decidable (servingSteps L strict).restarts :=
  inferInstanceAs (Decidable True)
instance (L : Layout) (strict : Bool) (s : Sys) (l : Local) (ls : List Local) (o : Op) :
    Decidable ((servingSteps L strict).allow s l ls o) := inferInstanceAs (Decidable (Serves strict s l ls o))

/-- The contents as an invariant of runs, given what the other invariants say of every step. -/
def contentsDiscipline (L : Layout) (strict : Bool) : Discipline (machine L) where
  permit := fun call => call.Modest L
  restarts := True
  allow := Supported L strict
  contract := ((allocProtocol L).both (machine L).possible).both (transfers L strict)
  inv := ContentsKept L
  post := fun v l => (l.view = .idle ∧ l.duty = .none) ∧
    (strict = true → l.hist.call.Answers (· ∈ l.hist.snaps) v)
  perm := fun _ _ _ hp h => h.perm hp
  spawn := fun _ _ call _ h => h.spawn call
  starts := by
    intro call hp
    have howns : Owns 0 ((machine L).fresh call).look ((machine L).fresh call) :=
      ⟨rfl, rfl, Multiset.zero_le _, rfl⟩
    have hcall : ∀ (o : Op) (l1 : Local) (r : o.Reply) (l2 : Local), l1.hist.call = call →
        (transfers L strict).gives o l1 r l2 → l2.hist.call = call :=
      fun o l1 r l2 hl ⟨_, _, _, hx⟩ => (exec_call hx).trans hl
    have hcode := (code_transfers L strict hp.1 howns).carry (I := fun l => l.hist.call = call) rfl hcall
    refine ((code_allocates L call _ rfl).both (code_settles L call _ rfl)).both (hcode.mono ?_)
    rintro v l ⟨hans, rfl⟩
    exact hans
  retire := by
    rintro s l rest a ⟨⟨hv, hd⟩, hans⟩ h
    exact ⟨h.retire hv hd, ⟨hv, hd⟩, hans⟩
  restart := fun _ _ _ h => h.reopen
  sound := by
    rintro s l rest o s' l' r h ⟨-, ho, hm⟩ hs hx
    exact ⟨h.step hs ho hm hx, ⟨⟨s, s', hs.founded.kept.alloc.knows, hx⟩, s, s', True.intro, hx⟩,
      s, s', ⟨hs.shown h, hs.current⟩, hx⟩

/-- What holds before every action of such a run, so that a step is supported. -/
structure Serving (hL : L.Regular) (strict : Bool) (c : SysConf) (a : Act Call) : Prop where
  room : RoomKept hL c
  references : (refsLearning L).Holds c
  admits : (servingSteps L strict).Admits c a

theorem Serving.supported {hL : L.Regular} {c : SysConf} {a : Act Call} (h : Serving hL strict c a) :
    (contentsDiscipline L strict).Admits c a := by
  cases a with
  | spawn call => exact h.admits
  | restart => exact True.intro
  | step t =>
    intro l o hn
    obtain ⟨hs, hm, hc⟩ := h.admits l o hn
    exact ⟨founded_next h.room.extents hn hs, (h.room.places.next hn).1, (h.references.next hn).1, hm, hc⟩

/-- Before every action of such a run the extents, the places and the references are kept. -/
theorem along_serving (hL : L.Regular) {bytes : Int → Byte} {devFaults : List Bool} {as : List (Act Call)}
    (hok : (machine L).Along (servingSteps L strict).Admits (SysConf.init bytes [] devFaults) as) :
    (machine L).Along (Serving hL strict) (SysConf.init bytes [] devFaults) as := by
  have hroomy : ∀ {c : SysConf} {a : Act Call}, (servingSteps L strict).Admits c a →
      (roomySteps L).Admits c a := by
    intro c a h
    cases a with
    | spawn call => exact h
    | restart => exact True.intro
    | step t => exact fun l o hn => (h l o hn).spares
  have hroom := Machine.Along.keep (machine L) (I := RoomKept hL)
    (fun _ _ _ hI h hact => hI.act (hroomy h) hact) (roomKept_init hL bytes devFaults) hok
  have hrefs := Machine.Along.keep (machine L) (I := (refsLearning L).Holds)
    (fun c a _ hI _ hact => (refsLearning L).holds_act hI (unrestricted_admits c a) hact)
    ((refsLearning L).holds_initial (RefsExact.init bytes [] devFaults)) hroom
  exact hrefs.mono (machine L) fun c a ⟨hr, hroom, h⟩ => ⟨hroom, hr, h⟩

theorem contentsKept_of_run (hL : L.Regular) {bytes : Int → Byte} {devFaults : List Bool}
    {as : List (Act Call)} {c : SysConf}
    (hok : (machine L).Along (servingSteps L strict).Admits (SysConf.init bytes [] devFaults) as)
    (hrun : (machine L).run (SysConf.init bytes [] devFaults) as = some c) :
    (contentsDiscipline L strict).Holds c :=
  (contentsDiscipline L strict).run
    ((contentsDiscipline L strict).holds_initial (ContentsKept.init bytes devFaults))
    ((along_serving hL hok).mono (machine L) fun _ _ h => h.supported) hrun

/-! ## 6. The store -/

/-- What pebble and the device have of each key: the bytes at the place of its mapping. -/
def Sys.contents (L : Layout) (s : Sys) (key : Key) : Option Bytes :=
  (s.db.disk.mapping.find? key).map
    (fun md => bytesFrom s.dev.bytes md.size.toNat (devPos L md.segmentID md.offset))

theorem bytes_of_stores {d : Dev} {md : ObjectMeta} {v : Bytes} (h : d.Stores L md v) :
    bytesFrom d.bytes md.size.toNat (devPos L md.segmentID md.offset) = v := by
  have hlen : md.size.toNat = v.length := by
    have := h.1
    omega
  rw [hlen]
  exact h.2

theorem ContentsKept.contents (h : ContentsKept L s ls) : s.contents L = s.value := by
  funext key
  have hrel := h.stored key
  unfold Sys.contents
  generalize s.db.disk.mapping.find? key = m at hrel
  generalize s.value key = w at hrel
  cases hrel with
  | some hs => exact congrArg some (bytes_of_stores hs)
  | none => rfl

/-- Four segments of four blocks. -/
def smallDevice : Layout := ⟨16384, 4⟩

theorem smallDevice_regular : smallDevice.Regular := ⟨by decide, by decide, by decide, by decide⟩

/-- A reader holds an object, which is moved and then overwritten. -/
def movedAndOverwritten : List (Act Call) :=
  Act.calls (.put [1] 1 [7]) 0 15 ++ Act.calls (.readAt [1] 0 1) 1 4
    ++ Act.calls (.moveObject [1]) 2 22 ++ Act.calls (.put [1] 1 [9]) 3 14

end Taihu
