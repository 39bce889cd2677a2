/-
# Compaction allocates what fits

`PutBegin` and `batchPut` check the size of an object before they ask for an extent.  `moveObject`
does not: it asks for as much as the mapping it has looked up says.  So that its extents lie in
their segments, as those of `Taihu.AllocationGeometry` do, every mapping it can find must be of at
most a segment, in pebble and in the cache; and that is so because every mapping that is committed
was of an object that some call had checked, or of one that was moved.

`PlacesKept` is the invariant: all mappings are small, and every extent in use, committed or open, lies
in its segment and begins on a block.
-/
import Taihu.AllocationGeometry
import Taihu.Extents
import Taihu.References

namespace Taihu

open Concur
open Program hiding pure

variable {L : Layout} {s s' : Sys} {l l' : Local} {ls rest : List Local} {α β : Type}

/-! ## 1. Small mappings -/

/-- The object is no larger than a segment. -/
def Small (L : Layout) (md : ObjectMeta) : Prop := md.size ≤ L.segmentSizeBytes

/-- The mappings that can be found are small. -/
abbrev AllSmall (L : Layout) (s : Sys) : Prop := AllMappings (Small L) s []

/-- The operation brings in no mapping but a small one. -/
def Op.BringsSmall (L : Layout) (o : Op) : Prop := ∀ md, o.brings? = some md → Small L md

/-- The contract of the sizes. -/
def sizing (L : Layout) : Contract sig Local :=
  (machine L).under (fun o _ => o.BringsSmall L) (fun s _ _ => AllSmall L s)

/-- Operations that bring in no mapping. -/
def Op.BringsNone (o : Op) : Prop := o.brings? = none

theorem Op.BringsNone.small {o : Op} (h : o.BringsNone) : o.BringsSmall L := by
  intro md hmd
  rw [h] at hmd
  cases hmd

theorem keeps_sized {p : Proc α} (hu : Uses Op.BringsNone p) (l : Local) :
    Keeps (sizing L) (fun _ _ => True) p l :=
  hu.keeps (I := fun _ => True) True.intro fun _ _ ho _ => ⟨ho.small, fun _ _ _ => True.intro⟩

/-- What a lookup finds. -/
theorem AllMappings.get {P : ObjectMeta → Prop} (h : AllMappings P s []) {key : Key}
    {r : Option ObjectMeta} (hx : exec L s l (.cache (.get key)) = some (s', l', r)) {md : ObjectMeta}
    (hr : r = some md) : P md := by
  have hfind : r = s.cache.find? key := by
    cases hx
    exact MetaCache.get_fst s.cache key
  exact h.cached key md (hfind ▸ hr)

theorem AllMappings.getMapping {P : ObjectMeta → Prop} (h : AllMappings P s []) {key : Key}
    {site : ReadSite} {r : Option ObjectMeta}
    (hx : exec L s l (.pebble (.getMapping key site)) = some (s', l', r)) {md : ObjectMeta}
    (hr : r = some md) : P md := by
  cases hx
  exact h.mapped key md hr

theorem AllMappings.getMany {P : ObjectMeta → Prop} (h : AllMappings P s []) {keys : List Key}
    {r : Option (SortedMap Key ObjectMeta)}
    (hx : exec L s l (.pebble (.getMany keys)) = some (s', l', r)) {found : SortedMap Key ObjectMeta}
    (hr : r = some found) {x : Key × ObjectMeta} (hin : x ∈ found.entries) : P x.2 := by
  have hfound : s.db.disk.getMany keys = some found := by
    cases hx
    exact hr
  exact h.mapped x.1 x.2 (Disk.find?_of_getMany keys hfound (SortedMap.mem_entries.mp hin))

/-! ## 2. Lookups -/

section

variable {pre : Op → Local → Prop} {agree : Sys → Local → Op → Prop}

/-- The mapping a lookup returns is small, under any contract that can rely on it. -/
theorem small_getMapping (hpre : ∀ o l, o.Quiet → o.BringsSmall L → pre o l)
    (hag : ∀ s l o, agree s l o → AllSmall L s) (key : Key) (l : Local) :
    Keeps ((machine L).under pre agree) (fun r _ => OkAll (Small L) r) (getMapping key) l := by
  refine keeps_step (hpre _ _ True.intro (Op.BringsNone.small rfl)) fun s _ r l1 ha h1 => ?_
  cases r with
  | some md => exact (hag s l _ ha).get h1 rfl
  | none =>
    refine keeps_step (hpre _ _ True.intro (Op.BringsNone.small rfl)) fun s _ r l2 ha h2 => ?_
    cases r with
    | none => exact True.intro
    | some md =>
      have hmd : Small L md := (hag s l1 _ ha).getMapping h2 rfl
      refine keeps_step (hpre _ _ True.intro ?_) fun _ _ _ _ _ _ => hmd
      intro m hm
      exact Option.some.inj hm ▸ hmd

end

theorem sized_getMapping (key : Key) (l : Local) :
    Keeps (sizing L) (fun r _ => OkAll (Small L) r) (getMapping key) l :=
  small_getMapping (fun _ _ _ ho => ho) (fun _ _ _ ha => ha) key l

theorem bringsNone_getMappingRefLoop (key : Key) (n : Nat) :
    ∀ md, Uses Op.BringsNone (getMappingRefLoop key n md) := by
  induction n with
  | zero => exact fun _ => ⟨rfl, fun _ => True.intro⟩
  | succ n ih =>
    refine fun md => ⟨rfl, fun _ => .step rfl fun r => ?_⟩
    cases r with
    | none => exact ⟨rfl, fun _ => True.intro⟩
    | some cur => exact Uses.ite True.intro ⟨rfl, fun _ => ih cur⟩

/-- A procedure that begins with a lookup, and brings in nothing after it. -/
theorem sized_after_getMapping {key : Key} {f : Res ObjectMeta → Proc α}
    (hf : ∀ r, Uses Op.BringsNone (f r)) (l : Local) :
    Keeps (sizing L) (fun _ _ => True) (getMapping key >>= f) l :=
  (sized_getMapping key l).bind fun r l' _ => keeps_sized (hf r) l'

theorem sized_getMappingRef (key : Key) (l : Local) :
    Keeps (sizing L) (fun _ _ => True) (getMappingRef key) l := by
  refine sized_after_getMapping (fun r => ?_) l
  cases r with
  | error e => exact True.intro
  | ok md => exact bringsNone_getMappingRefLoop key _ md

theorem sized_cachePutAll (xs : List (Key × ObjectMeta)) : ∀ l : Local, (∀ x ∈ xs, Small L x.2) →
    Keeps (sizing L) (fun _ _ => True) (cachePutAll xs) l := by
  induction xs with
  | nil => exact fun _ _ => True.intro
  | cons x xs ih =>
    intro l h
    obtain ⟨hx, hxs⟩ := List.forall_mem_cons.mp h
    refine keeps_step ?_ fun _ _ _ l1 _ _ => ih l1 hxs
    intro md hmd
    exact Option.some.inj hmd ▸ hx

theorem bringsNone_batchGetCached (keys : List Key) : Uses Op.BringsNone (batchGetCached keys) := by
  induction keys with
  | nil => exact True.intro
  | cons key keys ih => exact .step rfl fun r => ih.bind fun rs => True.intro

theorem sized_batchGetMapping (keys order : List Key) (l : Local) :
    Keeps (sizing L) (fun _ _ => True) (batchGetMapping keys order) l := by
  refine (keeps_sized (bringsNone_batchGetCached keys) l).bind fun cached l1 _ => ?_
  refine Keeps.ite (fun _ => True.intro) (fun _ => ?_)
  refine keeps_step (Op.BringsNone.small rfl) fun s _ r l2 ha h2 => ?_
  cases r with
  | none => exact True.intro
  | some found =>
    refine (sized_cachePutAll _ l2 fun x hx => ?_).bind fun _ _ _ => True.intro
    exact ha.getMany h2 rfl (mem_rangeOrder_iff.mp hx)

theorem sized_loadCache (l : Local) : Keeps (sizing L) (fun _ _ => True) loadCache l := by
  refine keeps_step (Op.BringsNone.small rfl) fun s _ all l1 ha h1 => ?_
  refine sized_cachePutAll all l1 fun x hx => ?_
  cases h1
  exact ha.mapped x.1 x.2 (SortedMap.mem_entries.mp hx)

/-! ## 3. Commits -/

theorem bringsNone_delObject (key : Key) (md : ObjectMeta) : Uses Op.BringsNone (delObject key md) :=
  ⟨rfl, fun _ => ⟨rfl, fun _ => ⟨rfl, fun _ => ⟨rfl, fun _ => True.intro⟩⟩⟩⟩

theorem sized_deleteMapping (key : Key) (l : Local) :
    Keeps (sizing L) (fun _ _ => True) (deleteMapping key) l := by
  refine sized_after_getMapping (fun r => ?_) l
  cases r with
  | error e => exact True.intro
  | ok old =>
    refine (bringsNone_delObject key old).bind fun ok => ?_
    cases ok with
    | true => exact ⟨rfl, fun _ => True.intro⟩
    | false => exact True.intro

theorem sized_batchDeleteLookup (keys : List Key) : ∀ l : Local,
    Keeps (sizing L) (fun _ _ => True) (batchDeleteLookup keys) l := by
  induction keys with
  | nil => exact fun _ => True.intro
  | cons key keys ih =>
    intro l
    refine (sized_getMapping key l).bind fun r l1 _ => ?_
    exact (ih l1).bind fun _ _ _ => True.intro

theorem bringsNone_batchDeleteLocked (dels : List (Key × ObjectMeta)) :
    Uses Op.BringsNone (batchDeleteLocked dels) := by
  induction dels with
  | nil => exact True.intro
  | cons x dels ih => exact ⟨rfl, fun _ => ih⟩

theorem bringsNone_cacheDelAll (keys : List Key) : Uses Op.BringsNone (cacheDelAll keys) := by
  induction keys with
  | nil => exact True.intro
  | cons key keys ih => exact ⟨rfl, fun _ => ih⟩

theorem sized_batchDeleteMapping (keys : List Key) (l : Local) :
    Keeps (sizing L) (fun _ _ => True) (batchDeleteMapping keys) l := by
  refine (sized_batchDeleteLookup keys l).bind fun found l1 _ => keeps_sized ?_ l1
  refine Uses.ite True.intro ⟨rfl, fun _ => (bringsNone_batchDeleteLocked _).bind fun _ =>
    ⟨rfl, fun _ => .step rfl fun ok => ?_⟩⟩
  cases ok with
  | true => exact (bringsNone_cacheDelAll _).bind fun _ => True.intro
  | false => exact True.intro

theorem sized_putMapping (key : Key) {md : ObjectMeta} (hmd : Small L md) (v : Option Bytes) (l : Local) :
    Keeps (sizing L) (fun _ _ => True) (putMapping key md v) l := by
  have hput : ∀ m, some md = some m → Small L m := fun m hm => Option.some.inj hm ▸ hmd
  refine Keeps.bind (m := fun _ _ => True) (keeps_sized ?_ l) fun old l1 _ => ?_
  · refine .step rfl fun r => ?_
    cases r with
    | some om => exact True.intro
    | none => exact ⟨rfl, fun _ => True.intro⟩
  · refine keeps_step (Op.BringsNone.small rfl) fun _ _ _ l2 _ _ => keeps_step hput fun _ _ _ l3 _ _ =>
      keeps_step (Op.BringsNone.small rfl) fun _ _ _ l4 _ _ =>
        keeps_step (Op.BringsNone.small rfl) fun _ _ ok l5 _ _ => ?_
    cases ok with
    | true => exact keeps_step hput fun _ _ _ _ _ _ => True.intro
    | false => exact True.intro

theorem sized_batchPutLocked (items : List PutMappingItem) : ∀ l : Local,
    (∀ it ∈ items, Small L it.md) → Keeps (sizing L) (fun _ _ => True) (batchPutLocked items) l := by
  induction items with
  | nil => exact fun _ _ => True.intro
  | cons it items ih =>
    intro l h
    obtain ⟨hit, hitems⟩ := List.forall_mem_cons.mp h
    refine keeps_step (Op.BringsNone.small rfl) fun _ _ old l1 _ _ =>
      keeps_step ?_ fun _ _ _ l2 _ _ => ih l2 hitems
    exact fun m hm => Option.some.inj hm ▸ hit

theorem sized_batchPutMapping (items : List PutMappingItem) (h : ∀ it ∈ items, Small L it.md) (l : Local) :
    Keeps (sizing L) (fun _ _ => True) (batchPutMapping items) l := by
  refine Keeps.ite (fun _ => True.intro) (fun _ => ?_)
  refine keeps_step (Op.BringsNone.small rfl) fun _ _ _ l1 _ _ => ?_
  refine (sized_batchPutLocked items l1 h).bind fun _ l2 _ => ?_
  refine keeps_step (Op.BringsNone.small rfl) fun _ _ _ l3 _ _ =>
    keeps_step (Op.BringsNone.small rfl) fun _ _ ok l4 _ _ => ?_
  cases ok with
  | false => exact True.intro
  | true =>
    refine (sized_cachePutAll _ l4 fun x hx => ?_).bind fun _ _ _ => True.intro
    obtain ⟨it, hit, rfl⟩ := List.mem_map.mp hx
    exact h it hit

theorem sized_moveMapping (key : Key) (old : ObjectMeta) {new : ObjectMeta} (hnew : Small L new) (l : Local) :
    Keeps (sizing L) (fun _ _ => True) (moveMapping key old new) l := by
  have hput : ∀ m, some new = some m → Small L m := fun m hm => Option.some.inj hm ▸ hnew
  refine keeps_step (Op.BringsNone.small rfl) fun _ _ _ l1 _ _ =>
    keeps_step (Op.BringsNone.small rfl) fun _ _ cur l2 _ _ => Keeps.ite (fun _ => ?_) (fun _ => ?_)
  · refine keeps_step hput fun _ _ _ l3 _ _ =>
      keeps_step (Op.BringsNone.small rfl) fun _ _ ok l4 _ _ => ?_
    cases ok with
    | true =>
      exact keeps_step (Op.BringsNone.small rfl) fun _ _ _ l5 _ _ =>
        keeps_step hput fun _ _ _ _ _ _ => True.intro
    | false => exact keeps_step (Op.BringsNone.small rfl) fun _ _ _ _ _ _ => True.intro
  · exact keeps_step (Op.BringsNone.small rfl) fun _ _ _ _ _ _ => True.intro

/-! ## 4. Puts -/

theorem Op.IsAllocation.bringsNone {o : Op} (h : o.IsAllocation) : o.BringsNone := by
  cases o with
  | segs o => cases o <;> first | rfl | exact absurd h id
  | cache o => exact absurd h id
  | _ => rfl

theorem Op.IsTransfer.bringsNone {o : Op} (h : o.IsTransfer) : o.BringsNone := by
  cases o with
  | dev o => rfl
  | _ => exact absurd h id

theorem sized_allocation {p : Proc α} (hu : Uses Op.IsAllocation p) (l : Local) :
    Keeps (sizing L) (fun _ _ => True) p l := keeps_sized (hu.mono fun _ ho => ho.bringsNone) l

theorem sized_transfer {p : Proc α} (hu : Uses Op.IsTransfer p) (l : Local) :
    Keeps (sizing L) (fun _ _ => True) p l := keeps_sized (hu.mono fun _ ho => ho.bringsNone) l

theorem sized_putBegin (size : Int) (l : Local) :
    Keeps (sizing L) (fun r _ => OkAll (fun _ => size ≤ L.segmentSizeBytes) r) (putBegin L size) l := by
  unfold putBegin
  split
  · exact True.intro
  · split
    · exact True.intro
    · rename_i hle
      refine (sized_allocation (uses_allocate size false) l).mono fun r _ _ => ?_
      cases r with
      | error e => exact True.intro
      | ok x => exact Int.not_lt.mp hle

theorem sized_put (key : Key) (size : Int) (data : Bytes) (l : Local) :
    Keeps (sizing L) (fun _ _ => True) (put L key size data) l := by
  refine (sized_putBegin size l).bind fun r l1 hr => ?_
  cases r with
  | error e => exact True.intro
  | ok x =>
    have happend : Uses Op.IsTransfer (if 0 < size then putAppend L x.1 x.2 size data
        else (Pure.pure (.ok ()) : Proc (Res Unit))) :=
      .ite (.ite True.intro (transfers_devAppend _ _ _ _)) True.intro
    refine (sized_transfer happend l1).bind fun r l2 _ => ?_
    cases r with
    | error e => exact True.intro
    | ok u =>
      have hmd : Small L ⟨x.1, x.2, size⟩ := hr
      exact sized_putMapping key hmd _ l2

theorem sized_writeAndCommit (xs : List (PutItem × (Int × Int)))
    (h : ∀ x ∈ xs, x.1.size ≤ L.segmentSizeBytes) (l : Local) :
    Keeps (sizing L) (fun _ _ => True) (writeAndCommit L xs) l := by
  refine (sized_transfer (transfers_devAppendBatch _) l).bind fun r l1 _ => ?_
  cases r with
  | error e => exact True.intro
  | ok u =>
    refine sized_batchPutMapping _ (fun it hit => ?_) l1
    obtain ⟨x, hx, rfl⟩ := List.mem_map.mp hit
    exact h x hx

theorem sized_batchPut (items : List PutItem) (l : Local) :
    Keeps (sizing L) (fun _ _ => True) (batchPut L items) l := by
  refine Keeps.ite (fun _ => True.intro) (fun _ => ?_)
  split
  · exact True.intro
  · rename_i hchecked
    refine (sized_allocation (uses_allocateSegmentBatch _) l).bind fun r l1 _ => ?_
    cases r with
    | error e => exact True.intro
    | ok exts =>
      refine sized_writeAndCommit _ (fun x hx => ?_) l1
      have hin := (List.of_mem_zip hx).1
      exact size_le_of_checked hchecked _ (List.mem_map_of_mem hin)

theorem sized_pipelineBegin (items : List PutItem) : ∀ l : Local,
    Keeps (sizing L) (fun r _ => OkAll (fun xs => ∀ x ∈ xs, x.1.size ≤ L.segmentSizeBytes) r)
      (pipelineBegin L items) l := by
  induction items with
  | nil => exact fun _ _ hx => absurd hx List.not_mem_nil
  | cons it items ih =>
    intro l
    refine (sized_putBegin it.size l).bind fun r l1 hr => ?_
    cases r with
    | error e => exact True.intro
    | ok x =>
      refine (ih l1).bind fun rs l2 hrs => ?_
      cases rs with
      | error e => exact True.intro
      | ok xs => exact List.forall_mem_cons.mpr ⟨hr, hrs⟩

theorem sized_pipelinePut (items : List PutItem) (l : Local) :
    Keeps (sizing L) (fun _ _ => True) (pipelinePut L items) l := by
  refine (sized_pipelineBegin items l).bind fun r l1 hr => ?_
  cases r with
  | error e => exact True.intro
  | ok xs => exact sized_writeAndCommit xs hr l1

/-! ## 5. Reads and compaction -/

theorem bringsNone_readAtMeta (md : ObjectMeta) (off size : Int) :
    Uses Op.BringsNone (readAtMeta md off size) := by
  unfold readAtMeta
  split
  · exact True.intro
  · refine ⟨rfl, fun _ => ((transfers_devReadAt _ _ _).mono fun _ ho => ho.bringsNone).bind fun r => ?_⟩
    cases r <;> exact ⟨rfl, fun _ => True.intro⟩

theorem sized_readAt (key : Key) (off size : Int) (l : Local) :
    Keeps (sizing L) (fun _ _ => True) (readAt key off size) l := by
  refine (sized_getMappingRef key l).bind fun r l1 _ => keeps_sized ?_ l1
  cases r with
  | error e => exact True.intro
  | ok md => exact (bringsNone_readAtMeta md off size).bind fun r => ⟨rfl, fun _ => True.intro⟩

theorem bringsNone_submitReadAtIntoMeta (key : Key) (md : ObjectMeta) (off size dst : Int) :
    Uses Op.BringsNone (submitReadAtIntoMeta key md off size dst) := by
  unfold submitReadAtIntoMeta
  split
  · exact True.intro
  · refine Uses.ite True.intro ⟨rfl, fun _ => ((transfers_devReadAt _ _ _).mono
      fun _ ho => ho.bringsNone).bind fun r => ⟨rfl, fun _ => ?_⟩⟩
    cases r <;> exact True.intro

theorem sized_asyncGet (key : Key) (off : Int) (l : Local) :
    Keeps (sizing L) (fun _ _ => True) (asyncGet key off) l := by
  refine Keeps.ite (fun _ => True.intro) (fun _ => sized_after_getMapping (fun r => ?_) l)
  cases r with
  | error e => exact True.intro
  | ok md => exact Uses.ite True.intro ((bringsNone_submitReadAtIntoMeta _ _ _ _ _).bind fun _ => True.intro)

theorem bringsNone_refJobs (js : List ReadJob) : Uses Op.BringsNone (refJobs js) := by
  induction js with
  | nil => exact True.intro
  | cons j js ih => exact ⟨rfl, fun _ => ih⟩

theorem bringsNone_unrefJobs (js : List ReadJob) : Uses Op.BringsNone (unrefJobs js) := by
  induction js with
  | nil => exact True.intro
  | cons j js ih => exact ⟨rfl, fun _ => ih⟩

theorem sized_batchRead (blocks : List BatchReadBlock) (order : List Key) (l : Local) :
    Keeps (sizing L) (fun _ _ => True) (batchRead blocks order) l := by
  refine Keeps.ite (fun _ => True.intro) (fun _ => ?_)
  refine (sized_batchGetMapping _ order l).bind fun r l1 _ => keeps_sized ?_ l1
  cases r with
  | error e => exact True.intro
  | ok mds =>
    dsimp only
    split
    · exact True.intro
    · refine (bringsNone_refJobs _).bind fun _ => ((transfers_readJobs _).mono
        fun _ ho => ho.bringsNone).bind fun r => (bringsNone_unrefJobs _).bind fun _ => ?_
      cases r <;> exact True.intro

theorem sized_moveObject (key : Key) (l : Local) :
    Keeps (sizing L) (fun _ _ => True) (moveObject L key) l := by
  refine (sized_getMapping key l).bind fun r l1 hr => ?_
  split
  · exact True.intro
  · exact True.intro
  · rename_i md
    refine (sized_readAt _ _ _ l1).bind fun r l2 _ => ?_
    split
    · exact True.intro
    · exact True.intro
    · refine Keeps.ite (fun _ => True.intro) (fun _ => ?_)
      refine (sized_allocation (uses_allocate _ true) l2).bind fun r l3 _ => ?_
      cases r with
      | error e => exact True.intro
      | ok x =>
        refine (sized_transfer (transfers_devAppend _ _ _ _) l3).bind fun r l4 _ => ?_
        cases r with
        | error e => exact True.intro
        | ok u =>
          have hnew : Small L ⟨x.1, x.2, md.size⟩ := hr
          refine (sized_moveMapping key md hnew l4).bind fun r _ _ => ?_
          cases r <;> exact True.intro

theorem Op.Scans.bringsNone {o : Op} (h : o.Scans) : o.BringsNone := by
  cases o with
  | segs o => cases o <;> first | rfl | exact absurd h id
  | cache o => exact absurd h id
  | _ => rfl

theorem sized_compactOnce (cfg : CompactorConfig) (order : List Int) (l : Local) :
    Keeps (sizing L) (fun _ _ => True) (compactOnce L cfg order) l :=
  keeps_compactOnce (I := fun _ => True) (fun key l1 _ => sized_moveObject key l1)
    (fun _ _ ho _ => ⟨ho.bringsNone.small, fun _ _ _ => True.intro⟩) cfg order True.intro

theorem bringsNone_reclaimOnce (order : List Int) : Uses Op.BringsNone (reclaimOnce order) := by
  have hdurable : ∀ ids, Uses Op.BringsNone (durableReclaiming ids) := by
    intro ids
    induction ids with
    | nil => exact True.intro
    | cons id ids ih => exact .step rfl fun _ => ih.bind fun _ => True.intro
  exact .step rfl fun ids => Uses.ite True.intro ((hdurable ids).bind fun _ =>
    Uses.ite True.intro (uses_perform rfl))

/-- **Every call brings in small mappings only**, if its caller supplies none. -/
theorem code_sized (L : Layout) {call : Call} (hs : call.supplied = false) (l : Local) :
    Keeps (sizing L) (fun _ _ => True) (code L call) l := by
  have hmap : ∀ {α : Type} {p : Proc α} {f : α → Result}, Keeps (sizing L) (fun _ _ => True) p l →
      Keeps (sizing L) (fun _ _ => True) (p >>= fun a => Pure.pure (f a)) l :=
    fun hp => hp.bind fun _ _ _ => True.intro
  cases call with
  | getMapping key => exact (sized_getMapping key l).bind fun _ _ _ => True.intro
  | getMappingRef key => exact hmap (sized_getMappingRef key l)
  | putMapping key md => exact absurd hs (by simp [Call.supplied])
  | deleteMapping key => exact hmap (sized_deleteMapping key l)
  | moveMapping key old new => exact absurd hs (by simp [Call.supplied])
  | batchGetMapping keys order => exact hmap (sized_batchGetMapping keys order l)
  | batchPutMapping items => exact absurd hs (by simp [Call.supplied])
  | batchDeleteMapping keys => exact hmap (sized_batchDeleteMapping keys l)
  | loadCache => exact hmap (sized_loadCache l)
  | allocateSegment size => exact hmap (sized_allocation (uses_allocate size false) l)
  | allocateSegmentReserve size => exact hmap (sized_allocation (uses_allocate size true) l)
  | allocateSegmentBatch sizes => exact hmap (sized_allocation (uses_allocateSegmentBatch sizes) l)
  | markCompacting id => exact hmap (keeps_sized ((scans_markCompacting id).mono fun _ ho => ho.bringsNone) l)
  | reclaimOnce order => exact hmap (keeps_sized (bringsNone_reclaimOnce order) l)
  | put key size data => exact hmap (sized_put key size data l)
  | batchPut items => exact hmap (sized_batchPut items l)
  | pipelinePut items => exact hmap (sized_pipelinePut items l)
  | stat key =>
    refine hmap (sized_after_getMapping (fun r => ?_) l)
    cases r <;> exact True.intro
  | readAt key off size => exact hmap (sized_readAt key off size l)
  | asyncGet key off =>
    refine (sized_asyncGet key off l).bind fun r _ _ => ?_
    cases r <;> exact True.intro
  | batchRead blocks order => exact hmap (sized_batchRead blocks order l)
  | moveObject key => exact hmap (sized_moveObject key l)
  | compactOnce cfg order => exact hmap (sized_compactOnce cfg order l)

/-! ## 6. Allocations fit, those of compaction too -/

/-- The contract of the geometry, where the mappings that can be found are small. -/
def geometrySmall (L : Layout) : Contract sig Local :=
  (machine L).under (fun o l => o.Proper L l) (fun s l _ => InDevice L s ∧ Knows s l ∧ AllSmall L s)

theorem keeps_small {p : Proc α} {post : α → Local → Prop} (h : Keeps (geometry L) post p l) :
    Keeps (geometrySmall L) post p l := by
  induction p generalizing l with
  | pure a => exact h
  | request o next ih =>
    exact ⟨h.1, fun r l' ⟨s, s', ha, hx⟩ => ih r (h.2 r l' ⟨s, s', ⟨ha.1, ha.2.1⟩, hx⟩)⟩

theorem geometry_moveObject (hL : L.Regular) (key : Key) (l : Local) :
    Keeps (geometrySmall L) (fun _ _ => True) (moveObject L key) l := by
  refine (small_getMapping (fun _ _ ho _ => ho.inside.proper) (fun _ _ _ ha => ha.2.2) key l).bind
    fun r l1 hr => ?_
  split
  · exact True.intro
  · exact True.intro
  · rename_i md
    have hmd : md.size ≤ L.segmentSizeBytes := hr
    refine (keeps_small (keeps_inside (inside_of_quiet (quiet_readAt _ _ _)) l1)).bind fun r l2 _ => ?_
    split
    · exact True.intro
    · exact True.intro
    · refine Keeps.ite (fun _ => True.intro) (fun _ => ?_)
      refine (keeps_small (geometry_allocate hL hmd true l2)).bind fun r l3 h3 => ?_
      cases r with
      | error e => exact True.intro
      | ok x =>
        refine (keeps_small (keeps_inside (inside_devAppend _ h3) l3)).bind fun r l4 _ => ?_
        cases r with
        | error e => exact True.intro
        | ok u =>
          have hseg : L.HasSegment (ObjectMeta.mk x.1 x.2 md.size).segmentID := h3.segment
          refine (keeps_small (keeps_inside (inside_moveMapping key md hseg) l4)).bind fun r _ _ => ?_
          cases r <;> exact True.intro

theorem geometry_compactOnce (hL : L.Regular) (cfg : CompactorConfig) (order : List Int) (l : Local) :
    Keeps (geometrySmall L) (fun _ _ => True) (compactOnce L cfg order) l := by
  refine keeps_compactOnce (I := fun _ => True) (fun key l1 _ => geometry_moveObject hL key l1)
    (fun o _ ho _ => ⟨?_, fun _ _ _ => True.intro⟩) cfg order True.intro
  cases o with
  | segs o => cases o <;> first | exact True.intro | exact absurd ho id
  | pebble o => exact True.intro
  | _ => exact absurd ho id

/-- The sizes of the allocations that a caller asks for. -/
def Call.asks : Call → List Int
  | .allocateSegment size => [size]
  | .allocateSegmentReserve size => [size]
  | .allocateSegmentBatch sizes => sizes
  | _ => []

/-- Allocations ask for at most a segment, and nobody supplies a mapping. -/
def Call.Modest (L : Layout) (call : Call) : Prop :=
  call.supplied = false ∧ ∀ size ∈ call.asks, 0 ≤ size ∧ size ≤ L.segmentSizeBytes

instance (L : Layout) (call : Call) : Decidable (call.Modest L) := inferInstanceAs (Decidable (_ ∧ _))

/-- **Every call keeps to the device**, compaction included. -/
theorem code_placed (hL : L.Regular) {call : Call} (h : call.Modest L) (l : Local) :
    Keeps (geometrySmall L) (fun _ _ => True) (code L call) l := by
  have hproper : call.Proper L → Keeps (geometrySmall L) (fun _ _ => True) (code L call) l :=
    fun hp => keeps_small ((code_geometry hL hp l).mono fun _ _ _ => True.intro)
  obtain ⟨hs, hsize⟩ := h
  cases call with
  | allocateSegment size => exact hproper (hsize size List.mem_cons_self)
  | allocateSegmentReserve size => exact hproper (hsize size List.mem_cons_self)
  | allocateSegmentBatch sizes => exact hproper hsize
  | putMapping key md => exact absurd hs (by simp [Call.supplied])
  | moveMapping key old new => exact absurd hs (by simp [Call.supplied])
  | batchPutMapping items => exact absurd hs (by simp [Call.supplied])
  | moveObject key => exact (geometry_moveObject hL key l).bind fun _ _ _ => True.intro
  | compactOnce cfg order => exact (geometry_compactOnce hL cfg order l).bind fun _ _ _ => True.intro
  | _ => exact hproper True.intro

/-! ## 7. The invariant -/

/-- What is known of a step from the extents in use: they are kept, and the operation takes part in
that. -/
structure Founded (s : Sys) (l : Local) (rest : List Local) (o : Op) : Prop where
  kept : ExtentsKept s (l :: rest)
  alloc : o.allocPre l.view
  backed : o.Backed l
  spares : SparesExtents s l rest o

/-- All mappings are small, and every extent in use lies in its segment. -/
structure PlacesKept (L : Layout) (s : Sys) (ls : List Local) : Prop where
  state : InDevice L s
  batches : ∀ l ∈ ls, l.InDevice L
  small : AllMappings (Small L) s ls
  fits : ∀ a ∈ s.taken ls, L.Fits a.len (a.region, a.start)

namespace PlacesKept

/-- The threads change: no batch has grown, and nothing has been taken. -/
theorem regroup {ls' : List Local} (h : PlacesKept L s ls)
    (hls : ∀ x ∈ ls', x.batch = [] ∨ ∃ y ∈ ls, x.batch = y.batch) (hT : s.taken ls' ≤ s.taken ls) :
    PlacesKept L s ls' where
  state := h.state
  batches := by
    intro x hx o ho
    rcases hls x hx with hb | ⟨y, hy, hb⟩
    · rw [hb] at ho
      exact absurd ho List.not_mem_nil
    · exact h.batches y hy o (hb ▸ ho)
  small := h.small.regroup hls
  fits := fun a ha => h.fits a (Multiset.mem_of_le hT ha)

/-- **The step lemma.** -/
theorem step (h : PlacesKept L s (l :: rest)) {o : Op} {r : o.Reply} (hf : Founded s l rest o)
    (hp : o.Proper L l) (ho : o.BringsSmall L) (hx : exec L s l o = some (s', l', r)) :
    PlacesKept L s' (l' :: rest) := by
  have hknows := hf.kept.alloc.knows
  obtain ⟨hs, hl⟩ := h.state.step (h.batches l List.mem_cons_self) hknows hp hx
  refine ⟨hs, fun x hin => ?_, h.small.step ho hx, fun a ha => ?_⟩
  · rcases List.mem_cons.mp hin with rfl | hin
    · exact hl
    · exact h.batches x (List.mem_cons_of_mem _ hin)
  · by_cases happly : o = .pebble .apply
    · subst happly
      have hfill := hf.kept.fills l List.mem_cons_self
      have hT : s'.taken (l' :: rest) ≤ s.taken (l :: rest) := (taken_apply hfill.staged hx).1
      exact h.fits a (Multiset.mem_of_le hT ha)
    by_cases htake : ∃ n, o = .alloc (.take n)
    · obtain ⟨n, rfl⟩ := htake
      rw [taken_take hx] at ha
      rcases Multiset.mem_cons.mp ha with rfl | ha
      · obtain ⟨-, -, c, hc, hfit⟩ := hp
        obtain ⟨hx', -⟩ := exec_allocOp hx
        cases hx'
        rw [hknows c hc]
        exact hfit
      · exact h.fits a ha
    · rw [taken_same hx happly fun n hn => htake ⟨n, hn⟩] at ha
      exact h.fits a ha

theorem span (h : PlacesKept L s ls) {a : Span} (ha : a ∈ s.taken ls) : a.Fits L.segmentSizeBytes :=
  ⟨(h.fits a ha).nonneg, (h.fits a ha).within⟩

end PlacesKept

/-- Modest calls may start, the store may be reopened at any time, and the extents in use are
kept. -/
def foundedSteps (L : Layout) : Rule sig Sys Local Call where
  permit := fun call => call.Modest L
  restarts := True
  allow := Founded

/-- The places as an invariant of runs. -/
def placingDiscipline (hL : L.Regular) : Discipline (machine L) where
  toRule := foundedSteps L
  contract := (geometrySmall L).both (sizing L)
  inv := PlacesKept L
  post := fun _ _ => True
  perm := fun _ _ _ hp h => h.regroup (fun x hx => Or.inr ⟨x, hp.mem_iff.mpr hx, rfl⟩)
    (le_of_eq (taken_perm hp))
  spawn := by
    intro s ls call _ h
    refine h.regroup (fun x hx => ?_) (le_of_eq (taken_spawn s call ls))
    rcases List.mem_cons.mp hx with rfl | hx
    · exact Or.inl rfl
    · exact Or.inr ⟨x, hx, rfl⟩
  starts := fun call hp =>
    ((code_placed hL hp _).both (code_sized L hp.1 _)).mono fun _ _ _ => True.intro
  retire := by
    intro s l rest a _ h
    refine ⟨h.regroup (fun x hx => ?_) (taken_retire s l rest), True.intro⟩
    rcases List.mem_cons.mp hx with rfl | hx
    · exact Or.inr ⟨l, List.mem_cons_self, rfl⟩
    · exact Or.inr ⟨x, List.mem_cons_of_mem _ hx, rfl⟩
  restart := fun _ s ls h =>
    ⟨h.state.reopen hL, fun _ hl => absurd hl List.not_mem_nil, h.small.reopen,
      fun a ha => h.fits a (Multiset.mem_of_le ((taken_reopen s ls).trans (takenDurably_le s ls)) ha)⟩
  sound := by
    intro s l rest o s' l' r h hp hf hx
    have hsmall : AllSmall L s := h.small.regroup fun x hx => absurd hx List.not_mem_nil
    exact ⟨h.step hf hp.1 hp.2 hx, ⟨s, s', ⟨h.state, hf.kept.alloc.knows, hsmall⟩, hx⟩,
      s, s', hsmall, hx⟩

theorem placesKept_init (hL : L.Regular) (bytes : Int → Byte) (devFaults : List Bool) :
    PlacesKept L (Sys.init bytes [] devFaults) [] where
  state := inDevice_init hL bytes [] devFaults
  batches := fun _ hl => absurd hl List.not_mem_nil
  small := .init bytes [] devFaults
  fits := by
    intro a ha
    rw [taken_nil] at ha
    exact absurd ha (Multiset.notMem_zero a)

/-! ## 8. Runs that spare the extents in use -/

/-- Modest calls may start, the store may be reopened at any time, and the steps spare the extents in
use. -/
def roomySteps (L : Layout) : Rule sig Sys Local Call where
  permit := fun call => call.Modest L
  restarts := True
  allow := fun s l ls o => SparesExtents s l ls o

instance (L : Layout) (call : Call) : Decidable ((roomySteps L).permit call) :=
  inferInstanceAs (Decidable (call.Modest L))
instance (L : Layout) : Decidable (roomySteps L).restarts := inferInstanceAs (Decidable True)
instance (L : Layout) (s : Sys) (l : Local) (ls : List Local) (o : Op) :
    Decidable ((roomySteps L).allow s l ls o) := inferInstanceAs (Decidable (SparesExtents s l ls o))

/-- The operations of a step that spares the extents take part in keeping them. -/
theorem founded_next {c : SysConf} {t : Nat} {o : Op} (h : (extentsDiscipline L).Holds c)
    (hn : c.next? t = some (l, o)) (hs : SparesExtents c.shared l (c.others t) o) :
    Founded c.shared l (c.others t) o := by
  obtain ⟨hinv, ⟨⟨hp, -⟩, hb⟩⟩ := h.next hn
  exact ⟨hinv, hp, hb, hs⟩

/-- The extents are kept, and with them their places. -/
structure RoomKept (hL : L.Regular) (c : SysConf) : Prop where
  extents : (extentsDiscipline L).Holds c
  places : (placingDiscipline hL).Holds c

theorem RoomKept.act {hL : L.Regular} {c c' : SysConf} {a : Act Call} (h : RoomKept hL c)
    (ha : (roomySteps L).Admits c a) (hact : (machine L).act c a = some c') : RoomKept hL c' := by
  have hext : (extentsDiscipline L).Admits c a := by
    cases a with
    | spawn call => exact ha.1
    | restart => exact True.intro
    | step t => exact ha
  have hplc : (placingDiscipline hL).Admits c a := by
    cases a with
    | spawn call => exact ha
    | restart => exact True.intro
    | step t => exact fun l o hn => founded_next h.extents hn (ha l o hn)
  exact ⟨(extentsDiscipline L).holds_act h.extents hext hact, (placingDiscipline hL).holds_act h.places hplc hact⟩

theorem roomKept_init (hL : L.Regular) (bytes : Int → Byte) (devFaults : List Bool) :
    RoomKept hL (SysConf.init bytes [] devFaults) :=
  ⟨(extentsDiscipline L).holds_initial (extentsKept_init bytes devFaults),
    (placingDiscipline hL).holds_initial (placesKept_init hL bytes devFaults)⟩

end Taihu
