/-
# What the calls are made of

Apart from the allocations and the commits, a call only looks at shared data, moves segments
between states, takes and drops references and transfers blocks: PLAIN operations.  `Shaped` says
of a program that it is put together from plain operations, two kinds of allocation and five kinds
of commit, and every call is (`code_shaped`).

So a property of a thread that plain operations do not disturb, and that each allocation and each
commit restores, holds whenever a call returns (`Shaped.keeps`), and to prove it one has to look
at seven procedures and not at twenty-three calls.
-/
import Taihu.Storage

namespace Taihu

open Concur Program

variable {L : Layout} {α β : Type}

/-! ## 1. Steps of this machine -/

section

variable {pre : Op → Local → Prop} {agree : Sys → Local → Op → Prop} {l : Local}

/-- One operation, and what follows it. -/
theorem keeps_step {o : Op} {f : o.Reply → Proc β} {post : β → Local → Prop} (hpre : pre o l)
    (h : ∀ s s' r l', agree s l o → exec L s l o = some (s', l', r) →
      Keeps ((machine L).under pre agree) post (f r) l') :
    Keeps ((machine L).under pre agree) post (Program.perform o >>= f) l :=
  Machine.keeps_step (M := machine L) hpre h

/-- One operation at the end. -/
theorem keeps_last {o : Op} {post : o.Reply → Local → Prop} (hpre : pre o l)
    (h : ∀ s s' r l', agree s l o → exec L s l o = some (s', l', r) → post r l') :
    Keeps ((machine L).under pre agree) post (perform o) l :=
  Machine.keeps_last (M := machine L) hpre h

end

/-! ## 2. Plain operations -/

/-- Operations that neither take part in an allocation nor in a commit. -/
def Op.Plain : Op → Prop
  | .cache _ => True
  | .pebble .apply => False
  | .pebble _ => True
  | .segs (.ref _ _) => True
  | .segs (.unref _) => True
  | .segs (.markCompacting _) => True
  | .segs (.gcCandidates _) => True
  | .segs (.gcFinalize _) => True
  | .segs _ => False
  | .alloc _ => False
  | .dev _ => True

/-- Plain operations that do not write to the device. -/
def Op.Quiet : Op → Prop
  | .dev (.write _ _ _) => False
  | o => o.Plain

theorem Op.Quiet.plain {o : Op} (h : o.Quiet) : o.Plain := by
  cases o with
  | dev o => exact True.intro
  | _ => exact h

theorem quiet_getMapping (key : Key) : Uses Op.Quiet (getMapping key) := by
  refine .step True.intro fun r => ?_
  cases r with
  | some md => exact True.intro
  | none =>
    refine .step True.intro fun r => ?_
    cases r with
    | none => exact True.intro
    | some md => exact ⟨True.intro, fun _ => True.intro⟩

theorem quiet_getMappingRefLoop (key : Key) (n : Nat) :
    ∀ md, Uses Op.Quiet (getMappingRefLoop key n md) := by
  induction n with
  | zero => exact fun md => ⟨True.intro, fun _ => True.intro⟩
  | succ n ih =>
    refine fun md => ⟨True.intro, fun _ => .step True.intro fun r => ?_⟩
    cases r with
    | none => exact ⟨True.intro, fun _ => True.intro⟩
    | some cur =>
      dsimp only
      split
      · exact True.intro
      · exact ⟨True.intro, fun _ => ih cur⟩

theorem quiet_getMappingRef (key : Key) : Uses Op.Quiet (getMappingRef key) := by
  refine (quiet_getMapping key).bind fun r => ?_
  cases r with
  | error e => exact True.intro
  | ok md => exact quiet_getMappingRefLoop key _ md

theorem quiet_batchGetCached (keys : List Key) : Uses Op.Quiet (batchGetCached keys) := by
  induction keys with
  | nil => exact True.intro
  | cons key keys ih => exact ⟨True.intro, fun _ => ih.bind fun _ => True.intro⟩

theorem quiet_cachePutAll (xs : List (Key × ObjectMeta)) : Uses Op.Quiet (cachePutAll xs) := by
  induction xs with
  | nil => exact True.intro
  | cons x xs ih => exact ⟨True.intro, fun _ => ih⟩

theorem quiet_batchGetMapping (keys order : List Key) :
    Uses Op.Quiet (batchGetMapping keys order) := by
  refine (quiet_batchGetCached keys).bind fun cached => ?_
  dsimp only
  split
  · exact True.intro
  · refine .step True.intro fun r => ?_
    cases r with
    | none => exact True.intro
    | some found => exact (quiet_cachePutAll _).bind fun _ => True.intro

theorem quiet_loadCache : Uses Op.Quiet loadCache := ⟨True.intro, fun all => quiet_cachePutAll all⟩

theorem quiet_batchDeleteLookup (keys : List Key) : Uses Op.Quiet (batchDeleteLookup keys) := by
  induction keys with
  | nil => exact True.intro
  | cons key keys ih => exact (quiet_getMapping key).bind fun _ => ih.bind fun _ => True.intro

theorem quiet_markCompacting (id : Int) : Uses Op.Quiet (markCompacting id) := by
  refine .step True.intro fun ok => ?_
  cases ok <;> exact True.intro

theorem quiet_durableReclaiming (ids : List Int) : Uses Op.Quiet (durableReclaiming ids) := by
  induction ids with
  | nil => exact True.intro
  | cons id ids ih => exact ⟨True.intro, fun _ => ih.bind fun _ => True.intro⟩

theorem quiet_reclaimOnce (order : List Int) : Uses Op.Quiet (reclaimOnce order) := by
  refine .step True.intro fun ids => ?_
  split
  · exact True.intro
  · refine (quiet_durableReclaiming ids).bind fun durable => ?_
    split
    · exact True.intro
    · exact ⟨True.intro, fun _ => True.intro⟩

theorem plain_writeBlocks (seg : Int) (n : Nat) :
    ∀ off data, Uses Op.Plain (writeBlocks seg n off data) := by
  induction n with
  | zero => exact fun _ _ => True.intro
  | succ n ih =>
    refine fun off data => .step True.intro fun ok => ?_
    cases ok with
    | true => exact ih _ _
    | false => exact True.intro

theorem plain_devAppend (seg off size : Int) (data : Bytes) :
    Uses Op.Plain (devAppend L seg off size data) := by
  unfold devAppend
  split
  · exact True.intro
  · refine (plain_writeBlocks seg _ off _).bind fun ok => ?_
    cases ok <;> exact True.intro

theorem plain_writeJobs (js : List WriteJob) : Uses Op.Plain (writeJobs js) := by
  induction js with
  | nil => exact True.intro
  | cons j js ih =>
    exact (plain_writeBlocks _ _ _ _).bind fun _ => ih.bind fun _ => True.intro

theorem plain_devAppendBatch (js : List WriteJob) : Uses Op.Plain (devAppendBatch L js) := by
  unfold devAppendBatch
  split
  · exact True.intro
  · refine (plain_writeJobs js).bind fun ok => ?_
    cases ok <;> exact True.intro

theorem quiet_readBlocks (seg : Int) (n : Nat) : ∀ off, Uses Op.Quiet (readBlocks seg n off) := by
  induction n with
  | zero => exact fun _ => True.intro
  | succ n ih =>
    refine fun off => .step True.intro fun r => ?_
    cases r with
    | none => exact True.intro
    | some b =>
      refine (ih _).bind fun rs => ?_
      cases rs <;> exact True.intro

theorem quiet_devReadAt (seg off size : Int) : Uses Op.Quiet (devReadAt seg off size) := by
  unfold devReadAt
  split
  · exact True.intro
  · split
    · exact True.intro
    · refine (quiet_readBlocks seg _ off).bind fun r => ?_
      cases r <;> exact True.intro

theorem quiet_readAtMeta (md : ObjectMeta) (off size : Int) :
    Uses Op.Quiet (readAtMeta md off size) := by
  unfold readAtMeta
  split
  · exact True.intro
  · refine ⟨True.intro, fun _ => (quiet_devReadAt _ _ _).bind fun r => ?_⟩
    cases r <;> exact ⟨True.intro, fun _ => True.intro⟩

theorem quiet_readAt (key : Key) (off size : Int) : Uses Op.Quiet (readAt key off size) := by
  refine (quiet_getMappingRef key).bind fun r => ?_
  cases r with
  | error e => exact True.intro
  | ok md => exact (quiet_readAtMeta md off size).bind fun _ => ⟨True.intro, fun _ => True.intro⟩

theorem quiet_stat (key : Key) : Uses Op.Quiet (stat key) := by
  refine (quiet_getMapping key).bind fun r => ?_
  cases r <;> exact True.intro

theorem quiet_submitReadAtIntoMeta (key : Key) (md : ObjectMeta) (off size dst : Int) :
    Uses Op.Quiet (submitReadAtIntoMeta key md off size dst) := by
  unfold submitReadAtIntoMeta
  split
  · exact True.intro
  · split
    · exact True.intro
    · refine ⟨True.intro, fun _ => (quiet_devReadAt _ _ _).bind fun r => .step True.intro fun _ => ?_⟩
      cases r <;> exact True.intro

theorem quiet_asyncGet (key : Key) (off : Int) : Uses Op.Quiet (asyncGet key off) := by
  unfold asyncGet
  split
  · exact True.intro
  · refine (quiet_getMapping key).bind fun r => ?_
    cases r with
    | error e => exact True.intro
    | ok md =>
      dsimp only
      split
      · exact True.intro
      · exact (quiet_submitReadAtIntoMeta _ _ _ _ _).bind fun _ => True.intro

theorem quiet_refJobs (js : List ReadJob) : Uses Op.Quiet (refJobs js) := by
  induction js with
  | nil => exact True.intro
  | cons j js ih => exact ⟨True.intro, fun _ => ih⟩

theorem quiet_unrefJobs (js : List ReadJob) : Uses Op.Quiet (unrefJobs js) := by
  induction js with
  | nil => exact True.intro
  | cons j js ih => exact ⟨True.intro, fun _ => ih⟩

theorem quiet_readJobs (js : List ReadJob) : Uses Op.Quiet (readJobs js) := by
  induction js with
  | nil => exact True.intro
  | cons j js ih =>
    refine Uses.bind ?_ fun r => ?_
    · unfold readJob
      split
      · exact True.intro
      · exact quiet_devReadAt _ _ _
    · cases r with
      | error e => exact True.intro
      | ok data =>
        refine ih.bind fun rs => ?_
        cases rs <;> exact True.intro

theorem quiet_batchRead (blocks : List BatchReadBlock) (order : List Key) :
    Uses Op.Quiet (batchRead blocks order) := by
  unfold batchRead
  split
  · exact True.intro
  · refine (quiet_batchGetMapping _ _).bind fun r => ?_
    cases r with
    | error e => exact True.intro
    | ok mds =>
      dsimp only
      split
      · exact True.intro
      · refine (quiet_refJobs _).bind fun _ => (quiet_readJobs _).bind fun rs =>
          (quiet_unrefJobs _).bind fun _ => ?_
        cases rs <;> exact True.intro

theorem quiet_selectCands (cfg : CompactorConfig) (force : Bool) (as : List SegAgg) :
    Uses Op.Quiet (selectCands L cfg force as) := by
  induction as with
  | nil => exact True.intro
  | cons a as ih =>
    refine ⟨True.intro, fun sm => ih.bind fun rest => ?_⟩
    dsimp only
    split <;> exact True.intro

/-! ## 3. Programs made of plain operations, allocations and commits -/

/-- The program is a sequence of plain procedures, allocations and commits. -/
inductive Shaped (L : Layout) : {α : Type} → Proc α → Prop where
  | plain {α : Type} {p : Proc α} (h : Uses Op.Plain p) : Shaped L p
  | bind {α β : Type} {p : Proc α} {f : α → Proc β} (hp : Shaped L p) (hf : ∀ a, Shaped L (f a)) :
    Shaped L (p >>= f)
  | allocate (size : Int) (useReserve : Bool) : Shaped L (allocate L size useReserve)
  | allocateSegmentBatch (sizes : List Int) : Shaped L (allocateSegmentBatch L sizes)
  | putMapping (key : Key) (md : ObjectMeta) (v : Option Bytes) : Shaped L (putMapping key md v)
  | deleteMapping (key : Key) : Shaped L (deleteMapping key)
  | batchPutMapping (items : List PutMappingItem) : Shaped L (batchPutMapping items)
  | batchDeleteMapping (keys : List Key) : Shaped L (batchDeleteMapping keys)
  | moveMapping (key : Key) (old new : ObjectMeta) : Shaped L (moveMapping key old new)

theorem Shaped.quiet {p : Proc α} (h : Uses Op.Quiet p) : Shaped L p := .plain (h.mono fun _ ho => ho.plain)

theorem Shaped.pure (a : α) : Shaped L (Pure.pure a : Proc α) := .plain True.intro

theorem shaped_putBegin (size : Int) : Shaped L (putBegin L size) := by
  unfold putBegin
  split
  · exact .pure _
  · split
    · exact .pure _
    · exact Shaped.allocate size false

theorem shaped_put (key : Key) (size : Int) (data : Bytes) : Shaped L (put L key size data) := by
  refine (shaped_putBegin size).bind fun r => ?_
  cases r with
  | error e => exact .pure _
  | ok x =>
    refine Shaped.bind (Shaped.plain (.ite ?_ True.intro)) fun r => ?_
    · unfold putAppend
      exact .ite True.intro (plain_devAppend _ _ _ _)
    · cases r with
      | error e => exact .pure _
      | ok _ => exact .putMapping _ _ _

theorem shaped_writeAndCommit (xs : List (PutItem × (Int × Int))) :
    Shaped L (writeAndCommit L xs) := by
  refine Shaped.bind (Shaped.plain (plain_devAppendBatch _)) fun r => ?_
  cases r with
  | error e => exact .pure _
  | ok _ => exact .batchPutMapping _

theorem shaped_batchPut (items : List PutItem) : Shaped L (batchPut L items) := by
  unfold batchPut
  split
  · exact .pure _
  · split
    · exact .pure _
    · refine (Shaped.allocateSegmentBatch _).bind fun r => ?_
      cases r with
      | error e => exact .pure _
      | ok exts => exact shaped_writeAndCommit _

theorem shaped_pipelineBegin (items : List PutItem) : Shaped L (pipelineBegin L items) := by
  induction items with
  | nil => exact .pure _
  | cons it items ih =>
    refine (shaped_putBegin it.size).bind fun r => ?_
    cases r with
    | error e => exact .pure _
    | ok x =>
      refine ih.bind fun rs => ?_
      cases rs <;> exact .pure _

theorem shaped_pipelinePut (items : List PutItem) : Shaped L (pipelinePut L items) := by
  refine (shaped_pipelineBegin items).bind fun r => ?_
  cases r with
  | error e => exact .pure _
  | ok xs => exact shaped_writeAndCommit xs

theorem shaped_moveObject (key : Key) : Shaped L (moveObject L key) := by
  refine Shaped.bind (Shaped.quiet (quiet_getMapping key)) fun r => ?_
  split
  · exact .pure _
  · exact .pure _
  · refine Shaped.bind (Shaped.quiet (quiet_readAt _ _ _)) fun r => ?_
    split
    · exact .pure _
    · exact .pure _
    · split
      · exact .pure _
      · refine (Shaped.allocate _ true).bind fun r => ?_
        cases r with
        | error e => exact .pure _
        | ok x =>
          refine Shaped.bind (Shaped.plain (plain_devAppend _ _ _ _)) fun r => ?_
          cases r with
          | error e => exact .pure _
          | ok _ =>
            refine (Shaped.moveMapping _ _ _).bind fun r => ?_
            cases r <;> exact .pure _

theorem shaped_moveKeys (cfg : CompactorConfig) (keys : List Key) :
    ∀ moved, Shaped L (moveKeys L cfg keys moved) := by
  induction keys with
  | nil => exact fun _ => .pure _
  | cons key keys ih =>
    refine fun moved => (shaped_moveObject key).bind fun r => ?_
    split
    · exact ih moved
    · exact .pure _
    · dsimp only
      split
      · exact .pure _
      · exact ih _

theorem shaped_moveCands (cfg : CompactorConfig) (cds : List SegAgg) :
    ∀ moved, Shaped L (moveCands L cfg cds moved) := by
  induction cds with
  | nil => exact fun _ => .pure _
  | cons cd cds ih =>
    intro moved
    unfold moveCands
    split
    · exact .pure _
    · refine Shaped.bind (Shaped.plain ⟨True.intro, fun _ => True.intro⟩) fun sm => ?_
      cases sm with
      | none => exact ih moved
      | some sm =>
        refine Shaped.bind (Shaped.quiet (.ite (quiet_markCompacting _) True.intro)) fun r => ?_
        cases r with
        | error e => exact .pure _
        | ok _ =>
          refine (shaped_moveKeys cfg _ _).bind fun r => ?_
          obtain ⟨moved', e⟩ := r
          cases e with
          | none => exact ih moved'
          | some e => exact .pure _

theorem shaped_compactOnce (cfg : CompactorConfig) (order : List Int) :
    Shaped L (compactOnce L cfg order) := by
  refine Shaped.bind (Shaped.plain ⟨True.intro, fun _ => True.intro⟩) fun all => ?_
  exact Shaped.bind (Shaped.quiet (quiet_selectCands _ _ _)) fun cands => shaped_moveCands _ _ _

/-- **Every call is put together that way.** -/
theorem code_shaped (L : Layout) (call : Call) : Shaped L (code L call) := by
  have hmap : ∀ {α β : Type} {p : Proc α} {f : α → β}, Shaped L p →
      Shaped L (p >>= fun a => Pure.pure (f a)) := fun hp => hp.bind fun a => .pure _
  cases call with
  | getMapping key => exact hmap (.quiet (quiet_getMapping key))
  | getMappingRef key => exact hmap (.quiet (quiet_getMappingRef key))
  | putMapping key md => exact hmap (.putMapping key md none)
  | deleteMapping key => exact hmap (.deleteMapping key)
  | moveMapping key old new => exact hmap (.moveMapping key old new)
  | batchGetMapping keys order => exact hmap (.quiet (quiet_batchGetMapping keys order))
  | batchPutMapping items => exact hmap (.batchPutMapping items)
  | batchDeleteMapping keys => exact hmap (.batchDeleteMapping keys)
  | loadCache => exact hmap (.quiet quiet_loadCache)
  | allocateSegment size => exact hmap (.allocate size false)
  | allocateSegmentReserve size => exact hmap (.allocate size true)
  | allocateSegmentBatch sizes => exact hmap (.allocateSegmentBatch sizes)
  | markCompacting id => exact hmap (.quiet (quiet_markCompacting id))
  | reclaimOnce order => exact hmap (.quiet (quiet_reclaimOnce order))
  | put key size data => exact hmap (shaped_put key size data)
  | batchPut items => exact hmap (shaped_batchPut items)
  | pipelinePut items => exact hmap (shaped_pipelinePut items)
  | stat key => exact hmap (.quiet (quiet_stat key))
  | readAt key off size => exact hmap (.quiet (quiet_readAt key off size))
  | asyncGet key off =>
    refine Shaped.bind (.quiet (quiet_asyncGet key off)) fun r => ?_
    cases r <;> exact .pure _
  | batchRead blocks order => exact hmap (.quiet (quiet_batchRead blocks order))
  | moveObject key => exact hmap (shaped_moveObject key)
  | compactOnce cfg order => exact (shaped_compactOnce cfg order).bind fun _ => .pure _

/-! ## 4. What such programs keep -/

/-- A property of the thread that no plain operation disturbs and that every allocation and
every commit restores. -/
structure Restored (L : Layout) (C : Contract sig Local) (I : Local → Prop) : Prop where
  plain : ∀ (o : Op) l, o.Plain → I l → C.pre o l ∧ ∀ r l', C.gives o l r l' → I l'
  allocate : ∀ size useReserve l, I l →
    Keeps C (fun _ l' => I l') (Taihu.allocate L size useReserve) l
  allocateSegmentBatch : ∀ sizes l, I l →
    Keeps C (fun _ l' => I l') (Taihu.allocateSegmentBatch L sizes) l
  putMapping : ∀ key md v l, I l → Keeps C (fun _ l' => I l') (Taihu.putMapping key md v) l
  deleteMapping : ∀ key l, I l → Keeps C (fun _ l' => I l') (Taihu.deleteMapping key) l
  batchPutMapping : ∀ items l, I l → Keeps C (fun _ l' => I l') (Taihu.batchPutMapping items) l
  batchDeleteMapping : ∀ keys l, I l →
    Keeps C (fun _ l' => I l') (Taihu.batchDeleteMapping keys) l
  moveMapping : ∀ key old new l, I l →
    Keeps C (fun _ l' => I l') (Taihu.moveMapping key old new) l

/-- **The rule for whole calls.** -/
theorem Shaped.keeps {C : Contract sig Local} {I : Local → Prop} (h : Restored L C I)
    {p : Proc α} (hp : Shaped L p) : ∀ l, I l → Keeps C (fun _ l' => I l') p l := by
  induction hp with
  | plain hu => exact fun l hl => hu.keeps hl fun o l ho hl => h.plain o l ho hl
  | bind _ _ ihp ihf => exact fun l hl => (ihp l hl).bind fun a l' hl' => ihf a l' hl'
  | allocate size useReserve => exact h.allocate size useReserve
  | allocateSegmentBatch sizes => exact h.allocateSegmentBatch sizes
  | putMapping key md v => exact h.putMapping key md v
  | deleteMapping key => exact h.deleteMapping key
  | batchPutMapping items => exact h.batchPutMapping items
  | batchDeleteMapping keys => exact h.batchDeleteMapping keys
  | moveMapping key old new => exact h.moveMapping key old new

/-! ## 5. A round of compaction -/

/-- What a round does besides moving objects. -/
def Op.Scans : Op → Prop
  | .pebble .iterMapping => True
  | .pebble (.getSegment _) => True
  | .segs (.markCompacting _) => True
  | _ => False

theorem scans_selectCands (cfg : CompactorConfig) (force : Bool) (as : List SegAgg) :
    Uses Op.Scans (selectCands L cfg force as) := by
  induction as with
  | nil => exact True.intro
  | cons a as ih =>
    exact .step True.intro fun sm => ih.bind fun rest => Uses.ite True.intro True.intro

theorem scans_markCompacting (id : Int) : Uses Op.Scans (markCompacting id) := by
  refine .step True.intro fun ok => ?_
  cases ok <;> exact True.intro

section

variable {ℓ : Type} {C : Contract sig ℓ} {I : ℓ → Prop}

theorem keeps_moveKeys (hmove : ∀ key x, I x → Keeps C (fun _ y => I y) (moveObject L key) x)
    (cfg : CompactorConfig) (keys : List Key) : ∀ (moved : Int) {x : ℓ}, I x →
      Keeps C (fun _ y => I y) (moveKeys L cfg keys moved) x := by
  induction keys with
  | nil => exact fun _ _ h => h
  | cons key keys ih =>
    intro moved x h
    refine (hmove key x h).bind fun r y hy => ?_
    split
    · exact ih moved hy
    · exact hy
    · exact Keeps.ite (fun _ => hy) (fun _ => ih _ hy)

variable (hmove : ∀ key x, I x → Keeps C (fun _ y => I y) (moveObject L key) x)
  (hscan : ∀ o x, o.Scans → I x → C.pre o x ∧ ∀ r y, C.gives o x r y → I y)

include hmove hscan

theorem keeps_moveCands (cfg : CompactorConfig) (cds : List SegAgg) : ∀ (moved : Int) {x : ℓ},
    I x → Keeps C (fun _ y => I y) (moveCands L cfg cds moved) x := by
  induction cds with
  | nil => exact fun _ _ h => h
  | cons cd cds ih =>
    intro moved x h
    refine Keeps.ite (fun _ => h) (fun _ => ?_)
    obtain ⟨hpre, hgives⟩ := hscan (.pebble (.getSegment cd.id)) x True.intro h
    refine ⟨hpre, fun sm y hg => ?_⟩
    have hy : I y := hgives sm y hg
    cases sm with
    | none => exact ih moved hy
    | some sm =>
      have hmark : Uses Op.Scans (if sm.state = .full then markCompacting cd.id
          else (Pure.pure (.ok ()) : Proc (Res Unit))) := .ite (scans_markCompacting _) True.intro
      refine (hmark.keeps hy hscan).bind fun r z hz => ?_
      cases r with
      | error e => exact hz
      | ok u =>
        refine (keeps_moveKeys hmove cfg _ _ hz).bind fun r w hw => ?_
        obtain ⟨moved', e⟩ := r
        cases e with
        | none => exact ih moved' hw
        | some e => exact hw

/-- **A round of compaction keeps what each move keeps.** -/
theorem keeps_compactOnce (cfg : CompactorConfig) (order : List Int) {x : ℓ} (h : I x) :
    Keeps C (fun _ y => I y) (compactOnce L cfg order) x := by
  obtain ⟨hpre, hgives⟩ := hscan (.pebble .iterMapping) x True.intro h
  refine ⟨hpre, fun all y hg => ?_⟩
  refine ((scans_selectCands _ _ _).keeps (hgives all y hg) hscan).bind fun cands z hz => ?_
  exact keeps_moveCands hmove hscan cfg _ _ hz

end

end Taihu
