/-
# Reads that share a batch

`shmBatchReader.run` of `internal/transport/server_shm_linux.go`, with `Storage.BatchRead` of
`internal/storage/read.go` and `ReadAtIntoBatch` of `internal/device/device.go`.

A worker gathers the tasks of many streams and hands them to the storage in one call; the call
returns one error, and every task of the batch is told it.  The module says when a task cannot
tell the batch from a batch of its own.

The storage does not change while the batch is read, and a transfer of the device ends the same
way each time it is submitted: `ev.Res` below is what the last attempt has given.  What the ring
accepts of a batch is a parameter, since it depends on the transfers that are in flight.
-/
import Mathlib
import Taihu.Sequential

namespace Taihu

variable {L : Layout}

/-! ## 1. The lookup -/

/-- What `BatchGetMapping` returns to a caller that runs alone. -/
def Solo.getAll (x : Solo) (keys : List Key) : Res (List ObjectMeta) :=
  keys.mapM (fun key => foundOr (x.look key))

theorem mapM_foundOr (f : Key → Option ObjectMeta) (keys : List Key) :
    keys.mapM (fun key => foundOr (f key)) =
      if ∀ key ∈ keys, (f key).isSome then .ok (keys.filterMap f) else .error .notFound := by
  induction keys with
  | nil => rfl
  | cons key keys ih =>
    rw [List.mapM_cons, ih, List.filterMap_cons]
    cases hf : f key with
    | none =>
      have hnot : ¬ ∀ k ∈ key :: keys, (f k).isSome := fun h => by
        have := h key List.mem_cons_self
        rw [hf] at this
        cases this
      rw [if_neg hnot]
      rfl
    | some md =>
      by_cases hall : ∀ key ∈ keys, (f key).isSome
      · rw [if_pos hall, if_pos]
        · rfl
        · intro k hk
          rcases List.mem_cons.mp hk with rfl | hk
          · rw [hf]
            rfl
          · exact hall k hk
      · rw [if_neg hall, if_neg (fun h => hall (fun k hk => h k (List.mem_cons_of_mem _ hk)))]
        rfl

theorem getMany_none {d : Disk} {keys : List Key} :
    d.getMany keys = none ↔ ∃ key ∈ keys, d.mapping.find? key = none := by
  induction keys with
  | nil => simp [Disk.getMany]
  | cons key keys ih =>
    unfold Disk.getMany
    cases hf : d.mapping.find? key with
    | none => simp [hf]
    | some md =>
      rw [Option.map_eq_none_iff, ih]
      simp [hf]

theorem getMany_some {d : Disk} {keys : List Key} {found : SortedMap Key ObjectMeta}
    (h : d.getMany keys = some found) {key : Key} (hkey : key ∈ keys) :
    found.find? key = d.mapping.find? key := by
  induction keys generalizing found with
  | nil => cases hkey
  | cons k keys ih =>
    unfold Disk.getMany at h
    cases hf : d.mapping.find? k with
    | none =>
      rw [hf] at h
      cases h
    | some md =>
      rw [hf] at h
      obtain ⟨out, hout, rfl⟩ := Option.map_eq_some_iff.mp h
      rw [SortedMap.find?_insert]
      split
      · rename_i hk
        rw [hk, hf]
      · rename_i hk
        exact ih hout ((List.mem_cons.mp hkey).resolve_left hk)

theorem runs_mappingGetMany {x : Solo} (keys : List Key) :
    Runs L (mappingGetMany keys) x x (x.disk.getMany keys) :=
  fun s h v => ⟨PebbleOp.note (x.sys s v) x.batch h (.getMany keys) (x.disk.getMany keys), v, rfl⟩

theorem runs_cacheFill (xs : List (Key × ObjectMeta)) : ∀ x : Solo,
    ∃ c, Runs L (cachePutAll xs) x { x with cache := c } () := by
  induction xs with
  | nil => exact fun x => ⟨x.cache, .pure _⟩
  | cons y ys ih =>
    intro x
    obtain ⟨c, hc⟩ := ih { x with cache := x.cache.put y.1 y.2 }
    exact ⟨c, (runs_cachePut y.1 y.2).bind hc⟩

theorem runs_batchGetCached (keys : List Key) : ∀ x : Solo, ∃ c,
    Runs L (batchGetCached keys) x { x with cache := c }
      (keys.map (fun key => (key, x.cache.find? key))) := by
  induction keys with
  | nil => exact fun x => ⟨x.cache, .pure _⟩
  | cons key keys ih =>
    intro x
    obtain ⟨c, hc⟩ := ih { x with cache := (x.cache.get key).2 }
    refine ⟨c, (runs_cacheGet key).bind (hc.bind ?_)⟩
    simp only [MetaCache.find?_get]
    exact .pure _

/-- **`BatchGetMapping`, for a caller alone**: the mapping of each key, if none is missing. -/
theorem runs_batchGetMapping (x : Solo) (keys order : List Key) :
    ∃ c, Runs L (batchGetMapping keys order) x { x with cache := c } (x.getAll keys) := by
  obtain ⟨c, hc⟩ := runs_batchGetCached (L := L) keys x
  have hmissed : ∀ key, key ∈ ((((keys.map (fun key => (key, x.cache.find? key))).filter
      (fun y => y.2.isNone)).map Prod.fst).dedup) ↔ key ∈ keys ∧ x.cache.find? key = none := by
    intro key
    simp only [List.mem_dedup, List.mem_map, List.mem_filter, Option.isNone_iff_eq_none]
    constructor
    · rintro ⟨y, ⟨⟨k, hk, rfl⟩, hnone⟩, rfl⟩
      exact ⟨hk, hnone⟩
    · rintro ⟨hk, hnone⟩
      exact ⟨(key, x.cache.find? key), ⟨⟨key, hk, rfl⟩, hnone⟩, rfl⟩
  unfold Solo.getAll
  rw [mapM_foundOr]
  by_cases hnil : ((((keys.map (fun key => (key, x.cache.find? key))).filter
      (fun y => y.2.isNone)).map Prod.fst).dedup) = []
  · -- the cache has all of them
    have hhit : ∀ key ∈ keys, x.look key = x.cache.find? key ∧ (x.cache.find? key).isSome := by
      intro key hkey
      cases hf : x.cache.find? key with
      | none =>
        have := (hmissed key).mpr ⟨hkey, hf⟩
        rw [hnil] at this
        cases this
      | some md =>
        rw [Solo.look, hf]
        exact ⟨rfl, rfl⟩
    refine ⟨c, hc.bind ?_⟩
    simp only [hnil, if_true]
    rw [if_pos (fun key hkey => by rw [(hhit key hkey).1]; exact (hhit key hkey).2),
      List.filterMap_map]
    have heq : keys.filterMap x.look = keys.filterMap (Prod.snd ∘ fun key =>
        (key, x.cache.find? key)) := List.filterMap_congr (fun key hkey => (hhit key hkey).1)
    rw [heq]
    exact .pure _
  · cases hmany : x.disk.getMany ((((keys.map (fun key => (key, x.cache.find? key))).filter
      (fun y => y.2.isNone)).map Prod.fst).dedup) with
    | none =>
      refine ⟨c, hc.bind ?_⟩
      simp only [hnil, if_false]
      refine (runs_mappingGetMany _).bind ?_
      rw [hmany]
      obtain ⟨key, hkey, hnone⟩ := getMany_none.mp hmany
      obtain ⟨hmem, hcache⟩ := (hmissed key).mp hkey
      rw [if_neg (fun h => by simpa [Solo.look, hcache, hnone] using h key hmem)]
      exact .pure _
    | some found =>
      have hlook : ∀ key ∈ keys, x.look key = (x.cache.find? key <|> found.find? key) := by
        intro key hkey
        cases hf : x.cache.find? key with
        | some md => rw [Solo.look, hf]; rfl
        | none => rw [Solo.look, hf, getMany_some hmany ((hmissed key).mpr ⟨hkey, hf⟩)]
      have hsome : ∀ key ∈ keys, (x.look key).isSome := by
        intro key hkey
        cases hf : x.cache.find? key with
        | some md => rw [Solo.look, hf]; rfl
        | none =>
          rw [Solo.look, hf]
          refine Option.isSome_iff_ne_none.mpr (fun hnone => ?_)
          have := getMany_none.mpr ⟨key, (hmissed key).mpr ⟨hkey, hf⟩, hnone⟩
          rw [hmany] at this
          cases this
      obtain ⟨c', hc'⟩ := runs_cacheFill (L := L) (rangeOrder Prod.fst order found.entries)
        { x with cache := c }
      refine ⟨c', hc.bind ?_⟩
      simp only [hnil, if_false]
      refine (runs_mappingGetMany _).bind ?_
      dsimp only
      rw [hmany]
      refine hc'.bind ?_
      rw [if_pos hsome, List.filterMap_map]
      have heq : keys.filterMap x.look = keys.filterMap ((fun y => y.2 <|> found.find? y.1) ∘
          fun key => (key, x.cache.find? key)) := List.filterMap_congr hlook
      rw [heq]
      exact .pure _

namespace BatchReader

/-! ## 2. The device -/

/-- The errors of a read. -/
inductive ReadErr where
  | notFound
  | invalidRange
  | dst (len dlen : Int)
  | offset (off : Int)
  | size (size : Int)
  | unaligned
  | closed
  | errno (e : Nat)
  deriving DecidableEq, Repr

/-- `ReadJob`.  `Buf` is `Dst[:dlen]`, so its length is `size`; `aligned` is `bufAligned`. -/
structure ReadJob where
  segmentID : Int
  off : Int
  size : Int
  aligned : Bool
  deriving DecidableEq, Repr

/-- The device: what a transfer ends with, an errno or the bytes it has read, and how many of
the transfers of a batch the ring accepts (0 also when it returns an error). -/
structure ReadDev where
  isClosed : Bool
  read : ReadJob → Except Nat Bytes
  ring : List ReadJob → Nat

/-- `ns[j]`, and what has been put into the buffer of the `j`-th job. -/
structure Slot where
  n : Int
  placed : Option Bytes
  deriving DecidableEq, Repr

def Slot.empty : Slot := ⟨0, none⟩

/-- A loop over jobs that returns at the first error. -/
def pass (f : ReadJob → Slot → Except ReadErr Slot) :
    List (ReadJob × Nat) → (Nat → Slot) → Except ReadErr Unit × (Nat → Slot)
  | [], st => (.ok (), st)
  | (j, i) :: js, st =>
    match f j (st i) with
    | .error e => (.error e, st)
    | .ok s => pass f js (Function.update st i s)

namespace ReadDev

variable (d : ReadDev)

/-- `ReadAtInto`, less its `io.EOF` for no bytes, which its callers here drop. -/
def readAtInto (j : ReadJob) : Except ReadErr Bytes :=
  if j.off < 0 ∨ j.off % blockSize ≠ 0 then .error (.offset j.off)
  else if j.size < 0 ∨ j.size % blockSize ≠ 0 then .error (.size j.size)
  else if j.size = 0 then .ok []
  else if ¬ j.aligned then .error .unaligned
  else if d.isClosed then .error .closed
  else
    match d.read j with
    | .error e => .error (.errno e)
    | .ok data => .ok data

/-- One job of `readJobsIndividually`, and of the two loops at the end of `ReadAtIntoBatch`. -/
def readInto (j : ReadJob) (s : Slot) : Except ReadErr Slot :=
  if j.size ≤ 0 then .ok s
  else
    match d.readAtInto j with
    | .error e => .error e
    | .ok data => .ok ⟨data.length, some data⟩

/-- The bytes that an accepted transfer puts into its buffer. -/
def arrival (j : ReadJob) (s : Slot) : Except ReadErr Slot :=
  match d.read j with
  | .error _ => .ok s
  | .ok data => .ok { s with placed := some data }

/-- What a completed transfer counts as: one that has read something counts as a whole one. -/
def counted (j : ReadJob) (data : Bytes) : Int :=
  if 0 < data.length ∧ (data.length : Int) < j.size then j.size else data.length

/-- The event of an accepted transfer. -/
def completion (j : ReadJob) (s : Slot) : Except ReadErr Slot :=
  match d.read j with
  | .error e => .error (.errno e)
  | .ok data => .ok { s with n := counted j data }

/-- The jobs that are submitted together. -/
def Direct (j : ReadJob) : Prop :=
  ¬ (j.off < 0 ∨ j.off % blockSize ≠ 0 ∨ j.size ≤ 0 ∨ j.size % blockSize ≠ 0 ∨ ¬ j.aligned)

instance (j : ReadJob) : Decidable (Direct j) := inferInstanceAs (Decidable (¬ _))

/-- `specs0`, each with its position in `jobs`. -/
def specs (jobs : List ReadJob) : List (ReadJob × Nat) :=
  jobs.zipIdx.filter (fun x => Direct x.1)

/-- How many of them the ring accepts. -/
def submitted (jobs : List ReadJob) : Nat := d.ring ((specs jobs).map Prod.fst)

/-- `ReadAtIntoBatch`. -/
def readAtIntoBatch (jobs : List ReadJob) : Except ReadErr Unit × (Nat → Slot) :=
  let st := fun _ => Slot.empty
  if specs jobs = [] then pass d.readInto jobs.zipIdx st
  else if d.isClosed then (.error .closed, st)
  else if (specs jobs).take (d.submitted jobs) = [] then pass d.readInto jobs.zipIdx st
  else
    let accepted := (specs jobs).take (d.submitted jobs)
    match pass d.completion accepted (pass d.arrival accepted st).2 with
    | (.error e, st) => (.error e, st)
    | (.ok (), st) =>
      match pass d.readInto (jobs.zipIdx.filter (fun x => ¬ Direct x.1)) st with
      | (.error e, st) => (.error e, st)
      | (.ok (), st) => pass d.readInto ((specs jobs).drop (d.submitted jobs)) st

end ReadDev

/-! ## 3. The batch -/

/-- `shmBatchTask`, less `want`, which is `ChunkSize`.  Of the buffer only its length and its
address matter. -/
structure ShmBatchTask where
  key : Key
  pos : Int
  buf : Int
  aligned : Bool
  deriving DecidableEq, Repr

/-- The job of a block and the window it is for; `none` where the window is empty. -/
def blockJob (md : ObjectMeta) (t : ShmBatchTask) : Except ReadErr (Option (ReadJob × Int)) :=
  match readWindow md t.pos chunkSize true with
  | .error .eof => .ok none
  | .error _ => .error .invalidRange
  | .ok w =>
    if t.buf < w.dlen then .error (.dst t.buf w.dlen)
    else .ok (some (⟨md.segmentID, w.relStart, w.dlen, t.aligned⟩, w.want))

/-- Phase 1 of `BatchRead`. -/
def blockJobs (x : Solo) (tasks : List ShmBatchTask) :
    Except ReadErr (List (Option (ReadJob × Int))) :=
  match x.getAll (tasks.map ShmBatchTask.key) with
  | .error _ => .error .notFound
  | .ok metas => (metas.zip tasks).mapM (fun b => blockJob b.1 b.2)

/-- The entry of `devJobs`; a block without a job leaves the zero value there. -/
def devJob (p : Option (ReadJob × Int)) : ReadJob :=
  match p with
  | none => ⟨0, 0, 0, false⟩
  | some (j, _) => j

/-- `BatchedReadResult`; `eof` is `Err == io.EOF`. -/
structure BatchedReadResult where
  n : Int
  eof : Bool
  deriving DecidableEq, Repr

/-- The result of a block whose job has read `n` bytes. -/
def blockResult (p : Option (ReadJob × Int)) (n : Int) : BatchedReadResult :=
  match p with
  | none => ⟨0, true⟩
  | some (_, want) =>
    let want := if n < want then n else want
    ⟨want, decide (want < chunkSize)⟩

/-- `BatchRead`.  The references to the segments that it takes and returns are left out. -/
def batchRead (x : Solo) (d : ReadDev) (tasks : List ShmBatchTask) :
    Except ReadErr (List BatchedReadResult) × (Nat → Slot) :=
  let st := fun _ => Slot.empty
  if tasks = [] then (.ok [], st)
  else
    match blockJobs x tasks with
    | .error e => (.error e, st)
    | .ok ps =>
      if ps.all Option.isNone then (.ok (ps.map (fun p => blockResult p 0)), st)
      else
        match d.readAtIntoBatch (ps.map devJob) with
        | (.error e, st) => (.error e, st)
        | (.ok (), st) => (.ok (ps.zipIdx.map (fun p => blockResult p.1 (st p.2).n)), st)

/-- `shmBatchResult`, and what is in the buffer of the task. -/
structure ShmBatchResult where
  n : Int
  final : Bool
  rerr : Option ReadErr
  placed : Option Bytes
  deriving DecidableEq, Repr

/-- What `run` tells the `i`-th task of its batch. -/
def deliver (x : Solo) (d : ReadDev) (tasks : List ShmBatchTask) (i : Nat) : ShmBatchResult :=
  match batchRead x d tasks with
  | (.error e, st) => ⟨0, false, some e, (st i).placed⟩
  | (.ok res, st) =>
    let r := res.getD i ⟨0, false⟩
    ⟨r.n, decide (chunkSize ≤ r.n) || r.eof, none, (st i).placed⟩

/-- **Each task is told what it would be told alone.** -/
def Isolated (x : Solo) (d : ReadDev) (tasks : List ShmBatchTask) : Prop :=
  ∀ (i : Nat) (t : ShmBatchTask), tasks[i]? = some t → deliver x d tasks i = deliver x d [t] 0

/-! ## 4. Passes over jobs -/

section Pass

variable {f : ReadJob → Slot → Except ReadErr Slot}

/-- A slot stays as it is where the jobs that have it leave it. -/
theorem pass_keep {l : List (ReadJob × Nat)} {i : Nat}
    (h : ∀ x ∈ l, x.2 = i → ∀ s, f x.1 s = .ok s) (st : Nat → Slot) :
    (pass f l st).2 i = st i := by
  induction l generalizing st with
  | nil => rfl
  | cons x l ih =>
    have hl := ih (fun y hy => h y (List.mem_cons_of_mem x hy))
    unfold pass
    by_cases hx : x.2 = i
    · rw [h x List.mem_cons_self hx]
      simp only
      rw [hl, hx, Function.update_eq_self]
    · cases f x.1 (st x.2) with
      | error e => rfl
      | ok s =>
        simp only
        rw [hl, Function.update_of_ne (Ne.symm hx)]

/-- The slots of other jobs stay as they are. -/
theorem pass_other {l : List (ReadJob × Nat)} {i : Nat} (h : i ∉ l.map Prod.snd)
    (st : Nat → Slot) : (pass f l st).2 i = st i :=
  pass_keep (fun _ hx he => absurd (he ▸ List.mem_map_of_mem hx) h) st

/-- **A pass in which no job fails.** -/
theorem pass_ok {l : List (ReadJob × Nat)} (hl : (l.map Prod.snd).Nodup) (st : Nat → Slot)
    (h : ∀ x ∈ l, ∃ s, f x.1 (st x.2) = .ok s) :
    (pass f l st).1 = .ok () ∧ ∀ x ∈ l, f x.1 (st x.2) = .ok ((pass f l st).2 x.2) := by
  induction l generalizing st with
  | nil => exact ⟨rfl, fun x hx => absurd hx List.not_mem_nil⟩
  | cons x l ih =>
    rw [List.map_cons, List.nodup_cons] at hl
    obtain ⟨s, hs⟩ := h x List.mem_cons_self
    have hother : ∀ y ∈ l, Function.update st x.2 s y.2 = st y.2 := by
      intro y hy
      refine Function.update_of_ne (fun he => hl.1 ?_) _ _
      exact he ▸ List.mem_map_of_mem hy
    obtain ⟨hres, hslots⟩ := ih hl.2 (Function.update st x.2 s) (fun y hy => by
      rw [hother y hy]
      exact h y (List.mem_cons_of_mem x hy))
    unfold pass
    rw [hs]
    refine ⟨hres, fun y hy => ?_⟩
    rcases List.mem_cons.mp hy with rfl | hy
    · rw [hs]
      simp only
      rw [pass_other hl.1, Function.update_self]
    · rw [← hother y hy]
      exact hslots y hy

/-- A pass whose first job fails. -/
theorem pass_error {l : List (ReadJob × Nat)} {s : Nat → Slot} {e : ReadErr} (hl : l ≠ [])
    (h : ∀ x ∈ l, f x.1 (s x.2) = .error e) : pass f l s = (.error e, s) := by
  cases l with
  | nil => exact absurd rfl hl
  | cons x l =>
    unfold pass
    rw [h x List.mem_cons_self]

/-- A pass that leaves each slot. -/
theorem pass_id {l : List (ReadJob × Nat)} {s : Nat → Slot}
    (h : ∀ x ∈ l, f x.1 (s x.2) = .ok (s x.2)) : pass f l s = (.ok (), s) := by
  induction l with
  | nil => rfl
  | cons x l ih =>
    unfold pass
    rw [h x List.mem_cons_self]
    simp only [Function.update_eq_self]
    exact ih (fun y hy => h y (List.mem_cons_of_mem x hy))

end Pass

/-! ## 5. Reading a batch of jobs -/

namespace ReadDev

variable {d : ReadDev} {jobs : List ReadJob} {j : ReadJob}

theorem nodup_zipIdx : (jobs.zipIdx.map Prod.snd).Nodup := List.nodup_zipIdx_map_snd jobs

theorem nodup_specs : ((specs jobs).map Prod.snd).Nodup :=
  nodup_zipIdx.sublist (List.filter_sublist.map _)

/-- A job that reads alone: all checks pass, and the transfer succeeds. -/
theorem direct_of_readAtInto {data : Bytes} (hsize : 0 < j.size)
    (h : d.readAtInto j = .ok data) : Direct j ∧ d.isClosed = false ∧ d.read j = .ok data := by
  unfold readAtInto at h
  split at h
  · cases h
  rename_i hoff
  split at h
  · cases h
  rename_i hmod
  rw [if_neg (Int.ne_of_gt hsize)] at h
  split at h
  · cases h
  rename_i halign
  split at h
  · cases h
  rename_i hopen
  cases hread : d.read j with
  | error e =>
    rw [hread] at h
    cases h
  | ok data' =>
    rw [hread] at h
    cases h
    refine ⟨?_, Bool.not_eq_true _ ▸ hopen, rfl⟩
    rintro (h | h | h | h | h)
    · exact hoff (.inl h)
    · exact hoff (.inr h)
    · exact absurd hsize (Int.not_lt.mpr h)
    · exact hmod (.inr h)
    · exact halign h

/-- What the device says of a job that passes the checks. -/
theorem readAtInto_of_direct (h : Direct j) : d.readAtInto j =
    if d.isClosed then .error .closed
    else match d.read j with
      | .error e => .error (.errno e)
      | .ok data => .ok data := by
  unfold Direct at h
  simp only [not_or] at h
  obtain ⟨h1, h2, h3, h4, h5⟩ := h
  unfold readAtInto
  rw [if_neg (not_or.mpr ⟨h1, h2⟩), if_neg (not_or.mpr ⟨by omega, h4⟩), if_neg (by omega),
    if_neg h5]

theorem mem_specs {x : ReadJob × Nat} :
    x ∈ specs jobs ↔ jobs[x.2]? = some x.1 ∧ Direct x.1 := by
  unfold specs
  rw [List.mem_filter, List.mem_zipIdx_iff_getElem?, decide_eq_true_iff]

/-- The ring has accepted the `i`-th job. -/
def Accepts (d : ReadDev) (jobs : List ReadJob) (i : Nat) : Prop :=
  i ∈ ((specs jobs).take (d.submitted jobs)).map Prod.snd

instance (d : ReadDev) (jobs : List ReadJob) (i : Nat) : Decidable (d.Accepts jobs i) :=
  inferInstanceAs (Decidable (_ ∈ _))

/-- A job that reads fills its slot. -/
theorem readInto_ok {data : Bytes} (hsize : 0 < j.size) (h : d.readAtInto j = .ok data)
    (s : Slot) : d.readInto j s = .ok ⟨data.length, some data⟩ := by
  unfold readInto
  rw [if_neg (Int.not_le.mpr hsize), h]

/-- The accepted part of a batch in which every job reads. -/
theorem completion_ok {l : List (ReadJob × Nat)} (hl : (l.map Prod.snd).Nodup)
    (h : ∀ x ∈ l, ∃ data, d.read x.1 = .ok data) (st : Nat → Slot) :
    (pass d.completion l (pass d.arrival l st).2).1 = .ok () ∧
      ∀ x ∈ l, ∀ data, d.read x.1 = .ok data →
        (pass d.completion l (pass d.arrival l st).2).2 x.2 = ⟨counted x.1 data, some data⟩ := by
  have harrive : ∀ {x : ReadJob × Nat} {data : Bytes} (s : Slot), d.read x.1 = .ok data →
      d.arrival x.1 s = .ok { s with placed := some data } := by
    intro x data s hdata
    unfold arrival
    rw [hdata]
  have hcomplete : ∀ {x : ReadJob × Nat} {data : Bytes} (s : Slot), d.read x.1 = .ok data →
      d.completion x.1 s = .ok { s with n := counted x.1 data } := by
    intro x data s hdata
    unfold completion
    rw [hdata]
  obtain ⟨-, hplaced⟩ := pass_ok (f := d.arrival) hl st (fun x hx => by
    obtain ⟨data, hdata⟩ := h x hx
    exact ⟨_, harrive _ hdata⟩)
  obtain ⟨hres, hslots⟩ := pass_ok (f := d.completion) hl (pass d.arrival l st).2 (fun x hx => by
    obtain ⟨data, hdata⟩ := h x hx
    exact ⟨_, hcomplete _ hdata⟩)
  refine ⟨hres, fun x hx data hdata => ?_⟩
  have hp := hplaced x hx
  have hs := hslots x hx
  rw [harrive _ hdata] at hp
  rw [hcomplete _ hdata, ← Except.ok.inj hp] at hs
  exact (Except.ok.inj hs).symm

/-- **A batch in which every job reads.**  A short transfer counts as a whole one where the ring
has accepted it. -/
theorem readAtIntoBatch_ok
    (h : ∀ j ∈ jobs, 0 < j.size → ∃ data, d.readAtInto j = .ok data) :
    (d.readAtIntoBatch jobs).1 = .ok () ∧
      ∀ (i : Nat) (j : ReadJob), jobs[i]? = some j → 0 < j.size → ∀ data,
        d.readAtInto j = .ok data → (d.readAtIntoBatch jobs).2 i =
          ⟨if d.Accepts jobs i then counted j data else data.length, some data⟩ := by
  have hstep : ∀ x ∈ jobs.zipIdx, ∀ s, ∃ s', d.readInto x.1 s = .ok s' := by
    intro x hx s
    by_cases hsize : 0 < x.1.size
    · obtain ⟨data, hdata⟩ := h x.1 (List.fst_mem_of_mem_zipIdx hx) hsize
      exact ⟨_, readInto_ok hsize hdata s⟩
    · exact ⟨s, if_pos (Int.not_lt.mp hsize)⟩
  have hone : ∀ (st : Nat → Slot) {l : List (ReadJob × Nat)}, l ⊆ jobs.zipIdx →
      (l.map Prod.snd).Nodup → (pass d.readInto l st).1 = .ok () ∧
        ∀ x ∈ l, 0 < x.1.size → ∀ data, d.readAtInto x.1 = .ok data →
          (pass d.readInto l st).2 x.2 = ⟨data.length, some data⟩ := by
    intro st l hsub hnodup
    obtain ⟨hres, hslots⟩ := pass_ok hnodup st (fun x hx => hstep x (hsub hx) (st x.2))
    refine ⟨hres, fun x hx hsize data hdata => ?_⟩
    have hslot := hslots x hx
    rw [readInto_ok hsize hdata] at hslot
    exact (Except.ok.inj hslot).symm
  have hall : ∀ {i : Nat} {j : ReadJob}, jobs[i]? = some j → (j, i) ∈ jobs.zipIdx :=
    fun hi => List.mem_zipIdx_iff_getElem?.mpr hi
  unfold readAtIntoBatch
  by_cases hnone : (specs jobs).take (d.submitted jobs) = []
  · -- nothing is accepted: one by one
    have hind : (if specs jobs = [] then pass d.readInto jobs.zipIdx (fun _ => Slot.empty)
        else if d.isClosed then (.error .closed, fun _ => Slot.empty)
        else pass d.readInto jobs.zipIdx (fun _ => Slot.empty)) =
          pass d.readInto jobs.zipIdx (fun _ => Slot.empty) := by
      by_cases hspecs : specs jobs = []
      · rw [if_pos hspecs]
      · obtain ⟨x, hx⟩ := List.exists_mem_of_ne_nil _ hspecs
        obtain ⟨hi, hdirect⟩ := mem_specs.mp hx
        have hsize : 0 < x.1.size := by
          unfold Direct at hdirect
          omega
        obtain ⟨data, hdata⟩ := h x.1 (List.mem_of_getElem? hi) hsize
        rw [if_neg hspecs, if_neg (Bool.eq_false_iff.mp (direct_of_readAtInto hsize hdata).2.1)]
    simp only [hnone, if_true, hind]
    obtain ⟨hres, hslots⟩ := hone (fun _ => Slot.empty) (List.Subset.refl _) nodup_zipIdx
    refine ⟨hres, fun i j hi hsize data hdata => ?_⟩
    have hrefused : ¬ d.Accepts jobs i := by
      unfold Accepts
      rw [hnone]
      exact List.not_mem_nil
    rw [if_neg hrefused]
    exact hslots (j, i) (hall hi) hsize data hdata
  · -- the accepted ones together, then the others
    have hspecs : specs jobs ≠ [] := fun h => hnone (by rw [h, List.take_nil])
    have hreads : ∀ x ∈ specs jobs, 0 < x.1.size ∧ ∃ data, d.readAtInto x.1 = .ok data ∧
        d.isClosed = false ∧ d.read x.1 = .ok data := by
      intro x hx
      obtain ⟨hi, hdirect⟩ := mem_specs.mp hx
      have hsize : 0 < x.1.size := by
        unfold Direct at hdirect
        omega
      obtain ⟨data, hdata⟩ := h x.1 (List.mem_of_getElem? hi) hsize
      exact ⟨hsize, data, hdata, (direct_of_readAtInto hsize hdata).2⟩
    have hopen : ¬ d.isClosed := by
      obtain ⟨x, hx⟩ := List.exists_mem_of_ne_nil _ hspecs
      obtain ⟨-, -, -, hopen, -⟩ := hreads x hx
      exact Bool.eq_false_iff.mp hopen
    have hsplit : ((specs jobs).take (d.submitted jobs)).map Prod.snd ++
        ((specs jobs).drop (d.submitted jobs)).map Prod.snd = (specs jobs).map Prod.snd := by
      rw [← List.map_append, List.take_append_drop]
    have hnodupAll : ((specs jobs).map Prod.snd).Nodup := nodup_specs
    rw [← hsplit] at hnodupAll
    obtain ⟨hnodup, hnodup', hapart⟩ := List.nodup_append.mp hnodupAll
    have hzero : ∀ x ∈ jobs.zipIdx.filter (fun x => ¬ Direct x.1), ∀ s,
        d.readInto x.1 s = .ok s := by
      intro x hx s
      obtain ⟨hx, hdirect⟩ := List.mem_filter.mp hx
      refine if_pos (Int.not_lt.mp (fun hsize => of_decide_eq_true hdirect ?_))
      obtain ⟨data, hdata⟩ := h x.1 (List.fst_mem_of_mem_zipIdx hx) hsize
      exact (direct_of_readAtInto hsize hdata).1
    obtain ⟨hres, hslots⟩ := completion_ok hnodup (fun x hx => by
      obtain ⟨-, data, -, -, hread⟩ := hreads x (List.mem_of_mem_take hx)
      exact ⟨data, hread⟩) (fun _ => Slot.empty)
    simp only [if_neg hspecs, if_neg hopen, if_neg hnone]
    generalize pass d.completion ((specs jobs).take (d.submitted jobs))
      (pass d.arrival ((specs jobs).take (d.submitted jobs)) (fun _ => Slot.empty)).2 = r
      at hres hslots
    obtain ⟨r, st⟩ := r
    cases hres
    have hfallback := pass_id (s := st) (fun x hx => hzero x hx (st x.2))
    simp only [hfallback]
    have hsub : (specs jobs).drop (d.submitted jobs) ⊆ jobs.zipIdx :=
      fun x hx => List.mem_of_mem_filter (List.mem_of_mem_drop hx)
    obtain ⟨hres', hslots'⟩ := hone st hsub hnodup'
    refine ⟨hres', fun i j hi hsize data hdata => ?_⟩
    have hread := direct_of_readAtInto hsize hdata
    have hmem : (j, i) ∈ specs jobs := mem_specs.mpr ⟨hi, hread.1⟩
    rw [← List.take_append_drop (d.submitted jobs) (specs jobs)] at hmem
    by_cases hacc : d.Accepts jobs i
    · rw [if_pos hacc, pass_other (fun hin => hapart i hacc i hin rfl)]
      rcases List.mem_append.mp hmem with hmem | hmem
      · exact hslots (j, i) hmem data hread.2.2
      · exact absurd rfl (hapart i hacc i (List.mem_map_of_mem hmem))
    · rw [if_neg hacc]
      rcases List.mem_append.mp hmem with hmem | hmem
      · exact absurd (List.mem_map_of_mem hmem) hacc
      · exact hslots' (j, i) hmem hsize data hdata

/-- The slot of a job of no bytes stays empty. -/
theorem readAtIntoBatch_zero {i : Nat} (hi : jobs[i]? = some j) (hsize : j.size ≤ 0) :
    (d.readAtIntoBatch jobs).2 i = Slot.empty := by
  have hown : ∀ x ∈ jobs.zipIdx, x.2 = i → x.1 = j := by
    rintro ⟨j', i'⟩ hx rfl
    have := List.mem_zipIdx_iff_getElem?.mp hx
    rw [hi] at this
    exact (Option.some.inj this).symm
  have hread : ∀ {l : List (ReadJob × Nat)}, l ⊆ jobs.zipIdx → ∀ st,
      (pass d.readInto l st).2 i = st i := by
    intro l hsub st
    refine pass_keep (fun x hx he s => ?_) st
    rw [hown x (hsub hx) he]
    exact if_pos hsize
  have hspecs : ∀ {l : List (ReadJob × Nat)}, l ⊆ specs jobs → i ∉ l.map Prod.snd := by
    intro l hsub hin
    obtain ⟨x, hx, he⟩ := List.mem_map.mp hin
    obtain ⟨hx, hdirect⟩ := mem_specs.mp (hsub hx)
    rw [he, hi] at hx
    cases hx
    unfold Direct at hdirect
    omega
  unfold readAtIntoBatch
  by_cases h1 : specs jobs = []
  · simp only [h1, if_true]
    exact hread (List.Subset.refl _) _
  by_cases h2 : d.isClosed
  · simp only [if_neg h1, if_pos h2]
  by_cases h3 : (specs jobs).take (d.submitted jobs) = []
  · simp only [if_neg h1, if_neg h2, if_pos h3]
    exact hread (List.Subset.refl _) _
  simp only [if_neg h1, if_neg h2, if_neg h3]
  have hacc := hspecs (List.take_subset (d.submitted jobs) (specs jobs))
  have hdone : (pass d.completion ((specs jobs).take (d.submitted jobs))
      (pass d.arrival ((specs jobs).take (d.submitted jobs)) (fun _ => Slot.empty)).2).2 i =
        Slot.empty := (pass_other hacc _).trans (pass_other hacc _)
  generalize pass d.completion ((specs jobs).take (d.submitted jobs))
    (pass d.arrival ((specs jobs).take (d.submitted jobs)) (fun _ => Slot.empty)).2 = r at hdone
  obtain ⟨r, st⟩ := r
  cases r with
  | error e => exact hdone
  | ok u =>
    simp only
    have hrest := hread (l := jobs.zipIdx.filter (fun x => ¬ Direct x.1))
      List.filter_sublist.subset st
    generalize pass d.readInto (jobs.zipIdx.filter (fun x => ¬ Direct x.1)) st = r at hrest
    obtain ⟨r, st'⟩ := r
    cases r with
    | error e => exact hrest.trans hdone
    | ok u =>
      simp only
      rw [pass_other (hspecs (List.drop_subset _ _))]
      exact hrest.trans hdone

/-- **A batch in which every job fails with one error.** -/
theorem readAtIntoBatch_error {e : ReadErr} (hjobs : jobs ≠ [])
    (h : ∀ j ∈ jobs, 0 < j.size ∧ d.readAtInto j = .error e) :
    d.readAtIntoBatch jobs = (.error e, fun _ => Slot.empty) := by
  have hstep : ∀ x ∈ jobs.zipIdx, ∀ s, d.readInto x.1 s = .error e := by
    intro x hx s
    obtain ⟨hsize, herr⟩ := h x.1 (List.fst_mem_of_mem_zipIdx hx)
    unfold readInto
    rw [if_neg (Int.not_le.mpr hsize), herr]
  have hzip : jobs.zipIdx ≠ [] := fun hz => hjobs (List.zipIdx_eq_nil_iff.mp hz)
  have hind := pass_error (s := fun _ => Slot.empty) hzip (fun x hx => hstep x hx _)
  unfold readAtIntoBatch
  by_cases hspecs : specs jobs = []
  · simp only [hspecs, if_true]
    exact hind
  simp only [if_neg hspecs]
  have hdirect : ∀ x ∈ specs jobs, Direct x.1 ∧ d.readAtInto x.1 = .error e := by
    intro x hx
    obtain ⟨hi, hdirect⟩ := mem_specs.mp hx
    exact ⟨hdirect, (h x.1 (List.mem_of_getElem? hi)).2⟩
  by_cases hclosed : d.isClosed
  · obtain ⟨x, hx⟩ := List.exists_mem_of_ne_nil _ hspecs
    obtain ⟨hx, herr⟩ := hdirect x hx
    rw [readAtInto_of_direct hx, if_pos hclosed] at herr
    cases herr
    rw [if_pos hclosed]
  rw [if_neg hclosed]
  by_cases hnone : (specs jobs).take (d.submitted jobs) = []
  · rw [if_pos hnone]
    exact hind
  · have hread : ∀ x ∈ (specs jobs).take (d.submitted jobs), ∃ n,
        d.read x.1 = .error n ∧ e = .errno n := by
      intro x hx
      obtain ⟨hx, herr⟩ := hdirect x (List.mem_of_mem_take hx)
      rw [readAtInto_of_direct hx, if_neg hclosed] at herr
      cases hr : d.read x.1 with
      | ok data =>
        rw [hr] at herr
        cases herr
      | error n =>
        rw [hr] at herr
        cases herr
        exact ⟨n, rfl, rfl⟩
    have harrive := pass_id (f := d.arrival) (s := fun _ => Slot.empty)
      (l := (specs jobs).take (d.submitted jobs)) (fun x hx => by
        obtain ⟨n, hn, -⟩ := hread x hx
        unfold arrival
        rw [hn])
    have hfail := pass_error (f := d.completion) (s := fun _ => Slot.empty) hnone (e := e)
      (fun x hx => by
        obtain ⟨n, hn, rfl⟩ := hread x hx
        unfold completion
        rw [hn])
    rw [if_neg hnone, harrive]
    simp only [hfail]

end ReadDev

/-! ## 6. A task by itself -/

/-- What phase 1 makes of one task. -/
def planOf (x : Solo) (t : ShmBatchTask) : Except ReadErr (Option (ReadJob × Int)) :=
  match x.look t.key with
  | none => .error .notFound
  | some md => blockJob md t

/-- **What is wrong with a task by itself**: its key, its range, its buffer or its transfer. -/
def fault (x : Solo) (d : ReadDev) (t : ShmBatchTask) : Option ReadErr :=
  match planOf x t with
  | .error e => some e
  | .ok none => none
  | .ok (some (j, _)) =>
    match d.readAtInto j with
    | .error e => some e
    | .ok _ => none

/-- The transfer of a task stops inside its window, having read something. -/
def ReadsShort (x : Solo) (d : ReadDev) (t : ShmBatchTask) : Prop :=
  ∃ j want data, planOf x t = .ok (some (j, want)) ∧ d.readAtInto j = .ok data ∧
    0 < data.length ∧ (data.length : Int) < want

/-- The jobs of a batch. -/
def jobsOf (x : Solo) (tasks : List ShmBatchTask) : List ReadJob :=
  tasks.map (fun t => devJob ((planOf x t).toOption.join))

/-- The ring has accepted the transfer of the `i`-th task of a batch. -/
def Accepted (x : Solo) (d : ReadDev) (tasks : List ShmBatchTask) (i : Nat) : Prop :=
  d.Accepts (jobsOf x tasks) i

instance (x : Solo) (d : ReadDev) (tasks : List ShmBatchTask) (i : Nat) :
    Decidable (Accepted x d tasks i) := inferInstanceAs (Decidable (d.Accepts _ _))

section Batch

variable {x : Solo} {d : ReadDev} {tasks : List ShmBatchTask} {t : ShmBatchTask} {md : ObjectMeta}

/-- The window of a job is not empty, and lies in what the job reads. -/
theorem blockJob_window {j : ReadJob} {want : Int} (h : blockJob md t = .ok (some (j, want))) :
    0 < want ∧ want ≤ j.size ∧ want ≤ chunkSize := by
  unfold blockJob at h
  split at h
  · cases h
  · cases h
  · rename_i w hw
    split at h
    · cases h
    cases h
    unfold readWindow at hw
    split at hw
    · cases hw
    rename_i hrange
    simp only [not_or, not_lt] at hrange
    have hchunk : 0 < chunkSize := by decide
    obtain ⟨want, hwant⟩ : ∃ want, want =
        if chunkSize > md.size - t.pos then md.size - t.pos else chunkSize := ⟨_, rfl⟩
    simp only [← hwant] at hw
    split at hw
    · cases hw
    cases hw
    have hle := le_align4k (md.offset + t.pos + want)
    have hsmall : 0 ≤ want ∧ want ≤ chunkSize := by
      split at hwant
      · omega
      · omega
    refine ⟨by simp only; omega, ?_, hsmall.2⟩
    simp only [if_true]
    omega

theorem planOf_window {j : ReadJob} {want : Int} (h : planOf x t = .ok (some (j, want))) :
    0 < want ∧ want ≤ j.size ∧ want ≤ chunkSize := by
  unfold planOf at h
  split at h
  · cases h
  · exact blockJob_window h

theorem mapM_blockJob (metas : List ObjectMeta) (h : tasks.map (fun t => x.look t.key) =
    metas.map some) : (metas.zip tasks).mapM (fun b => blockJob b.1 b.2) =
      tasks.mapM (planOf x) := by
  induction tasks generalizing metas with
  | nil =>
    rw [List.zip_nil_right]
    rfl
  | cons t tasks ih =>
    cases metas with
    | nil => cases h
    | cons md metas =>
      obtain ⟨hlook, hrest⟩ := List.cons.inj h
      have hplan : planOf x t = blockJob md t := by
        unfold planOf
        rw [show x.look t.key = some md from hlook]
      rw [List.zip_cons_cons, List.mapM_cons, List.mapM_cons, ih metas hrest, hplan]

/-- **Phase 1**: a missing key fails first, then the first task whose block is refused. -/
theorem blockJobs_eq : blockJobs x tasks =
    if ∀ t ∈ tasks, (x.look t.key).isSome then tasks.mapM (planOf x) else .error .notFound := by
  unfold blockJobs Solo.getAll
  rw [mapM_foundOr]
  by_cases hall : ∀ t ∈ tasks, (x.look t.key).isSome
  · have hkeys : ∀ key ∈ tasks.map ShmBatchTask.key, (x.look key).isSome := by
      intro key hkey
      obtain ⟨t, ht, rfl⟩ := List.mem_map.mp hkey
      exact hall t ht
    rw [if_pos hkeys, if_pos hall]
    refine mapM_blockJob _ ?_
    clear hkeys
    induction tasks with
    | nil => rfl
    | cons t tasks ih =>
      obtain ⟨md, hmd⟩ := Option.isSome_iff_exists.mp (hall t List.mem_cons_self)
      rw [List.map_cons, List.map_cons, List.filterMap_cons, hmd, List.map_cons,
        ih (fun t ht => hall t (List.mem_cons_of_mem _ ht))]
  · have hkeys : ¬ ∀ key ∈ tasks.map ShmBatchTask.key, (x.look key).isSome :=
      fun h => hall (fun t ht => h t.key (List.mem_map_of_mem ht))
    rw [if_neg hkeys, if_neg hall]

/-- The errors that the device returns. -/
def ReadErr.OfDevice : ReadErr → Prop
  | .offset _ | .size _ | .unaligned | .closed | .errno _ => True
  | .notFound | .invalidRange | .dst _ _ => False

theorem ofDevice_readAtInto {j : ReadJob} {e : ReadErr} (h : d.readAtInto j = .error e) :
    e.OfDevice := by
  unfold ReadDev.readAtInto at h
  split at h
  · cases h
    trivial
  split at h
  · cases h
    trivial
  split at h
  · cases h
  split at h
  · cases h
    trivial
  split at h
  · cases h
    trivial
  cases hr : d.read j with
  | ok data =>
    rw [hr] at h
    cases h
  | error n =>
    rw [hr] at h
    cases h
    trivial

theorem not_ofDevice_planOf {e : ReadErr} (h : planOf x t = .error e) : ¬ e.OfDevice := by
  unfold planOf blockJob at h
  split at h
  · cases h
    exact id
  split at h
  · cases h
  · cases h
    exact id
  split at h
  · cases h
    exact id
  · cases h

theorem mapM_ok {α β ε : Type} {f : α → Except ε β} {g : α → β} {l : List α}
    (h : ∀ a ∈ l, f a = .ok (g a)) : l.mapM f = .ok (l.map g) := by
  induction l with
  | nil => rfl
  | cons a l ih =>
    rw [List.mapM_cons, h a List.mem_cons_self, ih (fun b hb => h b (List.mem_cons_of_mem a hb))]
    rfl

/-- A task whose phase 1 passes. -/
theorem blockJobs_ok {p : ShmBatchTask → Option (ReadJob × Int)}
    (h : ∀ t ∈ tasks, planOf x t = .ok (p t)) : blockJobs x tasks = .ok (tasks.map p) := by
  rw [blockJobs_eq, if_pos, mapM_ok h]
  intro t ht
  have hplan := h t ht
  unfold planOf at hplan
  split at hplan
  · cases hplan
  · rename_i hlook
    rw [hlook]
    rfl

theorem blockJobs_error {e : ReadErr} (hne : tasks ≠ []) (h : ∀ t ∈ tasks, planOf x t = .error e) :
    blockJobs x tasks = .error e := by
  obtain ⟨t, ts, rfl⟩ := List.exists_cons_of_ne_nil hne
  have hplan := h t List.mem_cons_self
  rw [blockJobs_eq]
  by_cases hall : ∀ t' ∈ t :: ts, (x.look t'.key).isSome
  · rw [if_pos hall, List.mapM_cons, hplan]
    rfl
  · rw [if_neg hall]
    -- one key is missing, so `e` says so
    obtain ⟨t', ht'⟩ := not_forall.mp hall
    obtain ⟨ht', hnone⟩ := Classical.not_imp.mp ht'
    have hplan' := h t' ht'
    unfold planOf at hplan'
    rw [Option.not_isSome_iff_eq_none.mp hnone] at hplan'
    cases hplan'
    rfl

/-- What a task is told that has no fault; `accepted` is whether the ring took its transfer. -/
def told (x : Solo) (d : ReadDev) (t : ShmBatchTask) (accepted : Bool) : ShmBatchResult :=
  match planOf x t with
  | .ok (some (j, want)) =>
    match d.readAtInto j with
    | .ok data =>
      let n : Int := if accepted then ReadDev.counted j data else data.length
      ⟨if n < want then n else want, true, none, some data⟩
    | .error _ => ⟨0, true, none, none⟩
  | _ => ⟨0, true, none, none⟩

theorem final_true (n : Int) : (decide (chunkSize ≤ n) || decide (n < chunkSize)) = true := by
  rcases Int.lt_or_le n chunkSize with h | h
  · rw [decide_eq_true h, Bool.or_true]
  · rw [decide_eq_true h, Bool.true_or]

/-- **A batch without faults**: each task is told what its own transfer gives. -/
theorem deliver_of_no_fault (h : ∀ t ∈ tasks, fault x d t = none) {i : Nat}
    (hi : tasks[i]? = some t) : deliver x d tasks i = told x d t (Accepted x d tasks i) := by
  have hplan : ∀ t ∈ tasks, planOf x t = .ok (planOf x t).toOption.join := by
    intro t ht
    have hf := h t ht
    unfold fault at hf
    rcases hp : planOf x t with e | p
    · rw [hp] at hf
      cases hf
    · rfl
  have hread : ∀ j ∈ jobsOf x tasks, 0 < j.size → ∃ data, d.readAtInto j = .ok data := by
    intro j hj hsize
    obtain ⟨t, ht, rfl⟩ := List.mem_map.mp hj
    have hf := h t ht
    unfold fault at hf
    rw [hplan t ht] at hf
    rcases hp : (planOf x t).toOption.join with _ | ⟨j, want⟩
    · rw [hp] at hsize
      exact absurd hsize (by decide)
    · rw [hp] at hf
      show ∃ data, d.readAtInto j = .ok data
      cases hr : d.readAtInto j with
      | ok data => exact ⟨data, rfl⟩
      | error e =>
        simp only [hr] at hf
        cases hf
  have hmem := List.mem_of_getElem? hi
  have hne : tasks ≠ [] := List.ne_nil_of_mem hmem
  have hjobs : (tasks.map (fun t => (planOf x t).toOption.join)).map devJob = jobsOf x tasks := by
    rw [List.map_map]
    rfl
  have hjob : (jobsOf x tasks)[i]? = some (devJob (planOf x t).toOption.join) := by
    rw [jobsOf, List.getElem?_map, hi]
    rfl
  obtain ⟨hres, hslots⟩ := ReadDev.readAtIntoBatch_ok hread
  unfold deliver batchRead
  rw [if_neg hne, blockJobs_ok hplan]
  simp only [hjobs]
  by_cases hnone : (tasks.map (fun t => (planOf x t).toOption.join)).all Option.isNone
  · have hp : (planOf x t).toOption.join = none :=
      Option.isNone_iff_eq_none.mp (List.all_eq_true.mp hnone _ (List.mem_map_of_mem hmem))
    rw [if_pos hnone]
    simp only [List.getD_eq_getElem?_getD, List.getElem?_map, hi, Option.map_some,
      Option.getD_some, hp]
    unfold told
    rw [hplan t hmem, hp]
    rfl
  · rw [if_neg hnone]
    have hslot := ReadDev.readAtIntoBatch_zero (d := d) hjob
    replace hslots := hslots i _ hjob
    generalize d.readAtIntoBatch (jobsOf x tasks) = r at hres hslots hslot
    obtain ⟨r, st⟩ := r
    replace hres : r = .ok () := hres
    subst hres
    dsimp only at hslot hslots
    have hget : (((tasks.map (fun t => (planOf x t).toOption.join)).zipIdx.map
        (fun p => blockResult p.1 (st p.2).n)).getD i ⟨0, false⟩) =
          blockResult (planOf x t).toOption.join (st i).n := by
      simp only [List.getD_eq_getElem?_getD, List.getElem?_map, List.getElem?_zipIdx, hi,
        Option.map_some, Option.getD_some, Nat.zero_add]
    simp only [hget]
    have hp := hplan t hmem
    unfold told
    rcases hq : (planOf x t).toOption.join with _ | ⟨j, want⟩
    · rw [hq] at hp
      rw [hp]
      rw [hq] at hslot
      rw [hslot (Int.le_refl 0)]
      rfl
    · rw [hq] at hp hslots
      have hsize : 0 < j.size := by
        obtain ⟨hpos, hle, -⟩ := planOf_window hp
        omega
      obtain ⟨data, hdata⟩ := hread _ (List.mem_of_getElem? hjob) (by rw [hq]; exact hsize)
      rw [hq] at hdata
      rw [hp, hslots hsize data hdata]
      have hdata' : d.readAtInto j = .ok data := hdata
      simp only [hdata', blockResult, final_true]
      by_cases hacc : Accepted x d tasks i
      · have htook : d.Accepts (jobsOf x tasks) i := hacc
        rw [decide_eq_true hacc]
        simp only [if_pos htook, if_true]
        rfl
      · have hleft : ¬ d.Accepts (jobsOf x tasks) i := hacc
        rw [decide_eq_false hacc]
        simp only [if_neg hleft, Bool.false_eq_true, if_false]

/-- **A batch of one fault**: each task is told it, and no buffer is touched. -/
theorem deliver_of_fault {e : ReadErr} (h : ∀ t ∈ tasks, fault x d t = some e) {i : Nat}
    (hi : tasks[i]? = some t) : deliver x d tasks i = ⟨0, false, some e, none⟩ := by
  have hmem := List.mem_of_getElem? hi
  have hne : tasks ≠ [] := List.ne_nil_of_mem hmem
  have hcases : ∀ t ∈ tasks, planOf x t = .error e ∨ ∃ j want,
      planOf x t = .ok (some (j, want)) ∧ d.readAtInto j = .error e := by
    intro t ht
    have hf := h t ht
    unfold fault at hf
    rcases hp : planOf x t with e' | _ | ⟨j, want⟩
    · rw [hp] at hf
      exact .inl (congrArg Except.error (Option.some.inj hf))
    · rw [hp] at hf
      cases hf
    · rw [hp] at hf
      cases hr : d.readAtInto j with
      | ok data =>
        simp only [hr] at hf
        cases hf
      | error e' =>
        simp only [hr] at hf
        cases hf
        exact .inr ⟨j, want, rfl, hr⟩
  unfold deliver batchRead
  rw [if_neg hne]
  rcases hcases t hmem with herr | ⟨j, want, hok, herr⟩
  · -- phase 1 refuses every task
    have hplan : ∀ t ∈ tasks, planOf x t = .error e := by
      intro t' ht'
      rcases hcases t' ht' with h' | ⟨j, want, -, h'⟩
      · exact h'
      · exact absurd (ofDevice_readAtInto h') (not_ofDevice_planOf herr)
    rw [blockJobs_error hne hplan]
    rfl
  · -- every transfer fails
    have hplan : ∀ t ∈ tasks, ∃ j want,
        planOf x t = .ok (some (j, want)) ∧ d.readAtInto j = .error e := by
      intro t' ht'
      rcases hcases t' ht' with h' | h'
      · exact absurd (ofDevice_readAtInto herr) (not_ofDevice_planOf h')
      · exact h'
    have hps : ∀ t ∈ tasks, planOf x t = .ok (planOf x t).toOption.join := by
      intro t ht
      obtain ⟨j, want, hp, -⟩ := hplan t ht
      rw [hp]
      rfl
    have hnone : ¬ (tasks.map (fun t => (planOf x t).toOption.join)).all Option.isNone := by
      intro hall
      have := List.all_eq_true.mp hall _ (List.mem_map_of_mem hmem)
      rw [hok] at this
      cases this
    rw [blockJobs_ok hps]
    simp only [if_neg hnone]
    rw [ReadDev.readAtIntoBatch_error (e := e)]
    · rfl
    · simpa using hne
    · intro j' hj'
      rw [List.map_map] at hj'
      obtain ⟨t', ht', rfl⟩ := List.mem_map.mp hj'
      obtain ⟨j', want', hp, herr'⟩ := hplan t' ht'
      obtain ⟨hpos, hle, -⟩ := planOf_window hp
      show 0 < (devJob (planOf x t').toOption.join).size ∧ _
      rw [Function.comp, hp]
      exact ⟨by show 0 < j'.size; omega, herr'⟩

end Batch

/-! ## 7. When the tasks of a batch cannot tell it -/

section Isolation

variable {x : Solo} {d : ReadDev} {tasks : List ShmBatchTask} {t : ShmBatchTask}

/-- Whether the ring has taken a transfer shows in a short one only. -/
theorem told_inj_iff (h : fault x d t = none) (a b : Bool) :
    told x d t a = told x d t b ↔ (ReadsShort x d t → a = b) := by
  rcases hp : planOf x t with e | _ | ⟨j, want⟩
  · unfold fault at h
    rw [hp] at h
    cases h
  · have hlong : ¬ ReadsShort x d t := by
      rintro ⟨j, want, data, hj, -⟩
      rw [hp] at hj
      cases hj
    have hsame : told x d t a = told x d t b := by
      unfold told
      rw [hp]
    exact ⟨fun _ hs => absurd hs hlong, fun _ => hsame⟩
  · obtain ⟨data, hdata⟩ : ∃ data, d.readAtInto j = .ok data := by
      unfold fault at h
      rw [hp] at h
      cases hr : d.readAtInto j with
      | ok data => exact ⟨data, rfl⟩
      | error e =>
        simp only [hr] at h
        cases h
    obtain ⟨hpos, hle, -⟩ := planOf_window hp
    have htold : ∀ c : Bool, told x d t c =
        ⟨if (if c then ReadDev.counted j data else (data.length : Int)) < want then
            (if c then ReadDev.counted j data else (data.length : Int)) else want,
          true, none, some data⟩ := by
      intro c
      unfold told
      rw [hp]
      simp only [hdata]
    have hshort : ReadsShort x d t ↔ 0 < data.length ∧ (data.length : Int) < want := by
      constructor
      · rintro ⟨j', want', data', hj, hd, hs⟩
        rw [hp] at hj
        cases hj
        rw [hdata] at hd
        cases hd
        exact hs
      · rintro ⟨h0, hs⟩
        exact ⟨j, want, data, hp, hdata, h0, hs⟩
    rw [htold, htold, hshort]
    by_cases hs : 0 < data.length ∧ (data.length : Int) < want
    · have hcount : ReadDev.counted j data = j.size := if_pos ⟨hs.1, by omega⟩
      rw [hcount]
      constructor
      · intro heq _
        have hn := congrArg ShmBatchResult.n heq
        cases a <;> cases b
        · rfl
        · simp only [Bool.false_eq_true, if_false, if_true, if_pos hs.2,
            if_neg (Int.not_lt.mpr hle)] at hn
          omega
        · simp only [Bool.false_eq_true, if_false, if_true, if_pos hs.2,
            if_neg (Int.not_lt.mpr hle)] at hn
          omega
        · rfl
      · intro hab
        rw [hab hs]
    · refine ⟨fun _ hs' => absurd hs' hs, fun _ => ?_⟩
      -- a transfer that has read the window, or nothing, counts alike
      have hn : ∀ c : Bool, (if (if c then ReadDev.counted j data else (data.length : Int)) < want
          then (if c then ReadDev.counted j data else (data.length : Int)) else want) =
          if data.length = 0 then 0 else want := by
        intro c
        unfold ReadDev.counted
        rcases Nat.eq_zero_or_pos data.length with h0 | h0
        · cases c <;> simp [h0, hpos]
        · have hge : ¬ (data.length : Int) < want := fun hlt => hs ⟨h0, hlt⟩
          have hne : data.length ≠ 0 := Nat.pos_iff_ne_zero.mp h0
          rw [if_neg hne]
          cases c
          · simp only [Bool.false_eq_true, if_false, if_neg hge]
          · simp only [if_true]
            split
            · rw [if_neg (Int.not_lt.mpr hle)]
            · rfl
      rw [hn, hn]

/-- A batch fails as a whole, or tells no task of an error. -/
theorem deliver_rerr (x : Solo) (d : ReadDev) (tasks : List ShmBatchTask) :
    (∃ e, ∀ i, (deliver x d tasks i).rerr = some e) ∨ ∀ i, (deliver x d tasks i).rerr = none := by
  unfold deliver
  rcases batchRead x d tasks with ⟨e | res, st⟩
  · exact .inl ⟨e, fun _ => rfl⟩
  · exact .inr (fun _ => rfl)

/-- What a task is told alone. -/
theorem deliver_alone_rerr (x : Solo) (d : ReadDev) (t : ShmBatchTask) :
    (deliver x d [t] 0).rerr = fault x d t := by
  cases hf : fault x d t with
  | none =>
    have hall : ∀ t' ∈ [t], fault x d t' = none := by
      intro t' ht'
      rw [List.mem_singleton.mp ht', hf]
    rw [deliver_of_no_fault hall rfl]
    unfold told
    split
    · split
      · rfl
      · rfl
    · rfl
  | some e =>
    have hall : ∀ t' ∈ [t], fault x d t' = some e := by
      intro t' ht'
      rw [List.mem_singleton.mp ht', hf]
    rw [deliver_of_fault hall rfl]

end Isolation

/-- A store with one object of a block. -/
def oneObject : Solo :=
  ⟨{ Disk.empty with mapping := SortedMap.empty.insert [1] ⟨0, 0, 4096⟩ }, .empty, .empty, false, []⟩

/-- A device that reads whole blocks. -/
def readsAll : ReadDev := ⟨false, fun j => .ok (List.replicate j.size.toNat 7), List.length⟩

end BatchReader

end Taihu
