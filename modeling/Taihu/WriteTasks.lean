/-
# The write pipeline

`internal/transport/batch.go` (`batchWriter.run`), with `Device.Append`, `Device.AppendBatch`,
`Storage.PutAppend`, `PutCommit`, `BatchAppend` and `BatchPutCommit` as one worker meets them.
`Storage.lean` has the device calls as steps that other threads may come between; here nothing
comes between, and what matters is which transfers (`WriteIO`) are submitted and which of them
fail.  A transfer that fails leaves the medium as it was; whether it fails depends on the
transfer (`io`), and whether the metadata store takes a commit on the store (`dbOk`), so that
the same transfer meets the same fate in a batch and on its own.
-/
import Taihu.Storage
import Taihu.Lib.Overwrite

namespace Taihu

/-! ## 1. Transfers -/

/-- A position on the device: a segment and an offset in it. -/
abbrev Pos := Int × Int

/-- A transfer: `data` to offset `off` of a segment. -/
structure WriteIO where
  seg : Int
  off : Int
  data : Bytes

namespace WriteIO

/-- What the transfer puts where. -/
def write (s : WriteIO) : Pos → Option Byte := fun p =>
  if p.1 = s.seg ∧ s.off ≤ p.2 ∧ p.2 < s.off + s.data.length then
    some (s.data.getD (p.2 - s.off).toNat 0)
  else none

end WriteIO

/-- The transfers of one job: the whole blocks, and the rest filled up to a block. -/
def WriteJob.specs (j : WriteJob) : List WriteIO :=
  if align4k j.size = 0 then []
  else
    let bulkEnd := j.size - j.size % blockSize
    let tailLen := j.size - bulkEnd
    (if 0 < bulkEnd then [⟨j.seg, j.off, j.data.take bulkEnd.toNat⟩] else []) ++
      (if 0 < tailLen then
        [⟨j.seg, j.off + bulkEnd, padBlock ((j.data.take j.size.toNat).drop bulkEnd.toNat)⟩]
      else [])

/-- The bytes of the device, and the mappings. -/
structure Volume where
  bytes : Pos → Byte
  mapping : Key → Option ObjectMeta

section Device

variable (L : Layout) (io : WriteIO → Bool)

/-- Transfers one after another, until one fails. -/
def submitUntil : List WriteIO → (Pos → Byte) → Bool × (Pos → Byte)
  | [], f => (true, f)
  | s :: ss, f => if io s then submitUntil ss (Overwrite.apply f s.write) else (false, f)

/-- Transfers that are all submitted. -/
def submitAll (ss : List WriteIO) (f : Pos → Byte) : Bool × (Pos → Byte) :=
  (ss.all io, Overwrite.applyAll f ((ss.filter io).map WriteIO.write))

/-- `Device.Append`. -/
def appendJob (j : WriteJob) (f : Pos → Byte) : Res Unit × (Pos → Byte) :=
  match appendCheck L j.off j.size j.data with
  | some e => (.error e, f)
  | none => match submitUntil io j.specs f with
    | (true, f') => (.ok (), f')
    | (false, f') => (.error .io, f')

/-- `Storage.PutAppend`. -/
def putAppendJob (j : WriteJob) (f : Pos → Byte) : Res Unit × (Pos → Byte) :=
  if (j.data.length : Int) < j.size then (.error .shortWrite, f) else appendJob L io j f

/-- A call of `PutAppend` for each job, until one fails. -/
def putAppends : List WriteJob → (Pos → Byte) → Res Unit × (Pos → Byte)
  | [], f => (.ok (), f)
  | j :: js, f => match putAppendJob L io j f with
    | (.ok (), f') => putAppends js f'
    | (.error e, f') => (.error e, f')

/-- `Device.AppendBatch`: all jobs are checked before the first is submitted. -/
def appendBatch (jobs : List WriteJob) (f : Pos → Byte) : Res Unit × (Pos → Byte) :=
  match jobs.findSome? (appendBatchCheck L) with
  | some e => (.error e, f)
  | none => match submitAll io (jobs.flatMap WriteJob.specs) f with
    | (true, f') => (.ok (), f')
    | (false, f') => (.error .io, f')

end Device

/-! ## 2. Tasks -/

/-- `size` of an object that comes in frames. -/
def framesSize (frames : List Bytes) : Int := (frames.flatten.length : Int)

/-- The jobs of an object: frame after frame, the first at `pos` of the extent. -/
def jobsFrom (seg off : Int) : Int → List Bytes → List WriteJob
  | _, [] => []
  | pos, p :: ps => ⟨seg, off + pos, p, p.length⟩ :: jobsFrom seg off (pos + p.length) ps

/-- `writeTask`, with the frames its jobs were made of.  Its extent is what `PutBegin` gives:
aligned, and inside the segment. -/
structure WriteTask (L : Layout) where
  key : Key
  seg : Int
  off : Int
  frames : List Bytes
  off_nonneg : 0 ≤ off
  off_mod : off % blockSize = 0
  fits : off + align4k (framesSize frames) ≤ L.segmentSizeBytes

namespace WriteTask

variable {L : Layout}

def size (t : WriteTask L) : Int := framesSize t.frames

def jobs (t : WriteTask L) : List WriteJob := jobsFrom t.seg t.off 0 t.frames

/-- The mapping that is committed. -/
def md (t : WriteTask L) : ObjectMeta := ⟨t.seg, t.off, t.size⟩

/-- The extent that `PutBegin` has allocated. -/
def extent (t : WriteTask L) : Span := ⟨t.seg, t.off, align4k t.size⟩

/-- The task of `handleShmPut`: a job for each frame. -/
def ofShm (key : Key) (seg off : Int) (frames : List Bytes) (h0 : 0 ≤ off)
    (hmod : off % blockSize = 0) (hfits : off + align4k (framesSize frames) ≤ L.segmentSizeBytes) :
    WriteTask L := ⟨key, seg, off, frames, h0, hmod, hfits⟩

/-- The task of `handlePut`: the frames are collected in one buffer. -/
def ofTcp (key : Key) (seg off : Int) (frames : List Bytes) (h0 : 0 ≤ off)
    (hmod : off % blockSize = 0) (hfits : off + align4k (framesSize frames) ≤ L.segmentSizeBytes) :
    WriteTask L :=
  ⟨key, seg, off, [frames.flatten], h0, hmod, by
    simpa only [framesSize, List.flatten_singleton] using hfits⟩

end WriteTask

section Tasks

variable {L : Layout} (io : WriteIO → Bool) (dbOk : Bool)

/-- One mapping set. -/
def setMapping (m : Key → Option ObjectMeta) (it : Key × ObjectMeta) : Key → Option ObjectMeta :=
  Function.update m it.1 (some it.2)

/-- `PutCommit`, or `BatchPutCommit`: all mappings at once, or none. -/
def commitAll (items : List (Key × ObjectMeta)) (v : Volume) : Res Unit × Volume :=
  if dbOk then
    (.ok (), { v with mapping := items.foldl setMapping v.mapping })
  else (.error .io, v)

/-- A task on its own: `PutAppend` for each job, then `PutCommit`. -/
def runAlone (t : WriteTask L) (v : Volume) : Res Unit × Volume :=
  match putAppends L io t.jobs v.bytes with
  | (.error e, f) => (.error e, { v with bytes := f })
  | (.ok (), f) => commitAll dbOk [(t.key, t.md)] { v with bytes := f }

/-- `batchWriter.run`, for one batch: the error and what becomes of the volume.  Every task gets
the one error. -/
def runBatch (batch : List (WriteTask L)) (v : Volume) : Res Unit × Volume :=
  let jobs := batch.flatMap WriteTask.jobs
  match (if jobs = [] then (.ok (), v.bytes) else appendBatch L io jobs v.bytes) with
  | (.error e, f) => (.error e, { v with bytes := f })
  | (.ok (), f) => commitAll dbOk (batch.map (fun t => (t.key, t.md))) { v with bytes := f }

/-- **No task of the batch can tell that it was not alone**: it gets the same result, where it
succeeds its mapping and the bytes of its extent are the same, and where it fails the mapping of
its key is what it was. -/
def Isolated (batch : List (WriteTask L)) (v : Volume) : Prop :=
  ∀ t ∈ batch,
    (runBatch io dbOk batch v).1 = (runAlone io dbOk t v).1 ∧
    ((runBatch io dbOk batch v).1 = .ok () →
      (runBatch io dbOk batch v).2.mapping t.key = (runAlone io dbOk t v).2.mapping t.key ∧
      ∀ p, t.extent.Covers p →
        (runBatch io dbOk batch v).2.bytes p = (runAlone io dbOk t v).2.bytes p) ∧
    ((runBatch io dbOk batch v).1 ≠ .ok () →
      (runBatch io dbOk batch v).2.mapping t.key = v.mapping t.key)

end Tasks

/-! ## 3. The jobs of a task -/

theorem framesSize_cons (p : Bytes) (ps : List Bytes) :
    framesSize (p :: ps) = p.length + framesSize ps := by
  unfold framesSize
  rw [List.flatten_cons, List.length_append, Int.natCast_add]

theorem framesSize_nonneg (ps : List Bytes) : 0 ≤ framesSize ps := Int.natCast_nonneg _

/-- Where the jobs of an object lie. -/
theorem mem_jobsFrom {seg off pos : Int} {ps : List Bytes} {j : WriteJob}
    (h : j ∈ jobsFrom seg off pos ps) :
    j.seg = seg ∧ j.size = j.data.length ∧ off + pos ≤ j.off ∧
      j.off + j.size ≤ off + pos + framesSize ps := by
  induction ps generalizing pos with
  | nil => exact absurd h List.not_mem_nil
  | cons p ps ih =>
    rw [framesSize_cons]
    rcases List.mem_cons.mp h with rfl | h
    · have := framesSize_nonneg ps
      exact ⟨rfl, rfl, Int.le_refl _, by show off + pos + p.length ≤ _; omega⟩
    · obtain ⟨hseg, hsize, hoff, hend⟩ := ih h
      exact ⟨hseg, hsize, by omega, by omega⟩

/-- A job that passes the checks of `Append` and of `AppendBatch` if it is aligned. -/
structure Checked (L : Layout) (j : WriteJob) : Prop where
  size_eq : j.size = j.data.length
  append : appendCheck L j.off j.size j.data = if j.off % blockSize = 0 then none else some .io
  batch : appendBatchCheck L j = if j.off % blockSize = 0 then none else some .io

namespace WriteTask

variable {L : Layout} {t : WriteTask L} {j : WriteJob}

/-- An aligned job stays inside the extent, with the zeros behind its data. -/
theorem job_within (h : j ∈ t.jobs) (hmod : j.off % blockSize = 0) :
    j.seg = t.seg ∧ t.off ≤ j.off ∧ j.off + align4k j.size ≤ t.off + align4k t.size := by
  obtain ⟨hseg, -, hoff, hend⟩ := mem_jobsFrom h
  have hsize : framesSize t.frames ≤ align4k t.size := le_align4k t.size
  have hsub : (t.off + align4k t.size - j.off) % blockSize = 0 := by
    have h1 := t.off_mod
    have h2 := align4k_mod t.size
    unfold blockSize at *
    omega
  have hle := align4k_le_of_mod (n := j.size) (m := t.off + align4k t.size - j.off)
    (by have := mem_jobsFrom h; omega) hsub (by omega)
  exact ⟨hseg, by omega, by omega⟩

theorem checked (h : j ∈ t.jobs) : Checked L j := by
  obtain ⟨-, hsize, hoff, -⟩ := mem_jobsFrom h
  have h0 : ¬ j.off < 0 := by
    have := t.off_nonneg
    omega
  have hdata : ¬ (j.data.length : Int) < j.size := by omega
  refine ⟨hsize, ?_, ?_⟩
  all_goals
    by_cases hmod : j.off % blockSize = 0
    · have hfits : ¬ j.off + align4k j.size > L.segmentSizeBytes := by
        have h1 := (job_within h hmod).2.2
        have h2 : t.off + align4k t.size ≤ L.segmentSizeBytes := t.fits
        omega
      simp [appendCheck, appendBatchCheck, h0, hmod, hfits, hdata]
    · simp [appendCheck, appendBatchCheck, hmod]

end WriteTask

/-! ## 4. Appending -/

/-- The job is aligned, and the device takes its transfers. -/
def WriteJob.Good (io : WriteIO → Bool) (j : WriteJob) : Prop :=
  j.off % blockSize = 0 ∧ ∀ s ∈ j.specs, io s = true

instance (io : WriteIO → Bool) (j : WriteJob) : Decidable (j.Good io) :=
  inferInstanceAs (Decidable (_ ∧ ∀ s ∈ j.specs, io s = true))

/-- What the transfers of jobs leave when none fails. -/
def written (jobs : List WriteJob) (f : Pos → Byte) : Pos → Byte :=
  Overwrite.applyAll f ((jobs.flatMap WriteJob.specs).map WriteIO.write)

section Append

variable {L : Layout} {io : WriteIO → Bool} {j : WriteJob} {js : List WriteJob}

theorem written_cons (f : Pos → Byte) : written (j :: js) f = written js (written [j] f) := by
  unfold written
  rw [List.flatMap_cons, List.map_append, Overwrite.applyAll_append, List.flatMap_singleton]

theorem submitUntil_ok {ss : List WriteIO} (h : ∀ s ∈ ss, io s = true) (f : Pos → Byte) :
    submitUntil io ss f = (true, Overwrite.applyAll f (ss.map WriteIO.write)) := by
  induction ss generalizing f with
  | nil => rfl
  | cons s ss ih =>
    rw [submitUntil, if_pos (h s List.mem_cons_self),
      ih (fun s' hs' => h s' (List.mem_cons_of_mem s hs'))]
    rfl

theorem submitUntil_fails {ss : List WriteIO} (h : ¬ ∀ s ∈ ss, io s = true) (f : Pos → Byte) :
    (submitUntil io ss f).1 = false := by
  induction ss generalizing f with
  | nil => exact absurd (fun s hs => absurd hs List.not_mem_nil) h
  | cons s ss ih =>
    rw [submitUntil]
    by_cases hs : io s = true
    · rw [if_pos hs]
      refine ih (fun hall => h ?_) _
      intro s' hs'
      rcases List.mem_cons.mp hs' with rfl | hs'
      · exact hs
      · exact hall s' hs'
    · rw [if_neg hs]

theorem putAppendJob_ok (hc : Checked L j) (h : j.Good io) (f : Pos → Byte) :
    putAppendJob L io j f = (.ok (), written [j] f) := by
  have hdata : ¬ (j.data.length : Int) < j.size := by have := hc.size_eq; omega
  rw [putAppendJob, if_neg hdata, appendJob, hc.append, if_pos h.1]
  simp only
  rw [submitUntil_ok h.2, written, List.flatMap_singleton]

theorem putAppendJob_fails (hc : Checked L j) (h : ¬ j.Good io) (f : Pos → Byte) :
    (putAppendJob L io j f).1 = .error .io := by
  have hdata : ¬ (j.data.length : Int) < j.size := by have := hc.size_eq; omega
  rw [putAppendJob, if_neg hdata, appendJob, hc.append]
  by_cases hmod : j.off % blockSize = 0
  · have hio : (submitUntil io j.specs f).1 = false :=
      submitUntil_fails (fun hall => h ⟨hmod, hall⟩) f
    rw [if_pos hmod]
    rcases hs : submitUntil io j.specs f with ⟨ok, f'⟩
    rw [hs] at hio
    cases hio
    rfl
  · rw [if_neg hmod]

/-- `PutAppend` for each job. -/
theorem putAppends_ok (hc : ∀ j ∈ js, Checked L j) (h : ∀ j ∈ js, j.Good io) (f : Pos → Byte) :
    putAppends L io js f = (.ok (), written js f) := by
  induction js generalizing f with
  | nil => rfl
  | cons j js ih =>
    have hcons : written (j :: js) f = written js (written [j] f) := written_cons f
    rw [putAppends, putAppendJob_ok (hc j List.mem_cons_self) (h j List.mem_cons_self)]
    simp only
    rw [ih (fun i hi => hc i (List.mem_cons_of_mem j hi))
      (fun i hi => h i (List.mem_cons_of_mem j hi)), hcons]

theorem putAppends_fails (hc : ∀ j ∈ js, Checked L j) (h : ¬ ∀ j ∈ js, j.Good io)
    (f : Pos → Byte) : (putAppends L io js f).1 = .error .io := by
  induction js generalizing f with
  | nil => exact absurd (fun j hj => absurd hj List.not_mem_nil) h
  | cons j js ih =>
    rw [putAppends]
    have hcj := hc j List.mem_cons_self
    by_cases hj : j.Good io
    · rw [putAppendJob_ok hcj hj]
      refine ih (fun i hi => hc i (List.mem_cons_of_mem j hi)) (fun hall => h ?_) _
      intro i hi
      rcases List.mem_cons.mp hi with rfl | hi
      · exact hj
      · exact hall i hi
    · have hfail := putAppendJob_fails hcj hj f
      rcases hp : putAppendJob L io j f with ⟨r, f'⟩
      rw [hp] at hfail
      cases hfail
      rfl

/-- `AppendBatch` fails or succeeds as the calls of `Append` do. -/
theorem appendBatch_ok (hc : ∀ j ∈ js, Checked L j) (h : ∀ j ∈ js, j.Good io) (f : Pos → Byte) :
    appendBatch L io js f = (.ok (), written js f) := by
  have hcheck : js.findSome? (appendBatchCheck L) = none := by
    rw [List.findSome?_eq_none_iff]
    intro j hj
    rw [(hc j hj).batch, if_pos (h j hj).1]
  have hio : ∀ s ∈ js.flatMap WriteJob.specs, io s = true := by
    intro s hs
    obtain ⟨j, hj, hs⟩ := List.mem_flatMap.mp hs
    exact (h j hj).2 s hs
  rw [appendBatch, hcheck]
  simp only
  rw [submitAll, List.all_eq_true.mpr hio, List.filter_eq_self.mpr hio]
  rfl

theorem appendBatch_fails (hc : ∀ j ∈ js, Checked L j) (h : ¬ ∀ j ∈ js, j.Good io)
    (f : Pos → Byte) : (appendBatch L io js f).1 = .error .io := by
  rw [appendBatch]
  cases hcheck : js.findSome? (appendBatchCheck L) with
  | some e =>
    obtain ⟨j, hj, he⟩ := List.exists_of_findSome?_eq_some hcheck
    rw [(hc j hj).batch] at he
    split at he
    · cases he
    · cases he
      rfl
  | none =>
    have hall : ((js.flatMap WriteJob.specs).all io) = false := by
      rw [Bool.eq_false_iff]
      intro hall
      refine h (fun j hj => ⟨?_, ?_⟩)
      · by_contra hmod
        have := List.findSome?_eq_none_iff.mp hcheck j hj
        rw [(hc j hj).batch, if_neg hmod] at this
        cases this
      · intro s hs
        exact List.all_eq_true.mp hall s (List.mem_flatMap.mpr ⟨j, hj, hs⟩)
    simp only
    rw [submitAll, hall]

end Append

/-! ## 5. Where the transfers go -/

theorem padBlock_length {b : Bytes} (h : (b.length : Int) ≤ blockSize) :
    ((padBlock b).length : Int) = blockSize := by
  have hb : blockSize = 4096 := rfl
  rw [padBlock, List.length_append, List.length_replicate]
  omega

/-- The transfers of a job write its blocks. -/
theorem WriteJob.specs_within {j : WriteJob} (hsize : j.size = j.data.length) {s : WriteIO}
    (hs : s ∈ j.specs) : s.seg = j.seg ∧ j.off ≤ s.off ∧
      s.off + s.data.length ≤ j.off + align4k j.size := by
  have hle := le_align4k j.size
  have hmod := align4k_mod j.size
  have hrem : j.size % blockSize < blockSize := Int.emod_lt_of_pos _ (by decide)
  have hnonneg : 0 ≤ j.size % blockSize := Int.emod_nonneg _ (by decide)
  unfold WriteJob.specs at hs
  split at hs
  · exact absurd hs List.not_mem_nil
  · rcases List.mem_append.mp hs with hs | hs
    · split at hs
      · rw [List.mem_singleton.mp hs]
        refine ⟨rfl, Int.le_refl _, ?_⟩
        show j.off + ((j.data.take _).length : Int) ≤ _
        rw [List.length_take]
        omega
      · exact absurd hs List.not_mem_nil
    · split at hs
      · rename_i htail
        rw [List.mem_singleton.mp hs]
        refine ⟨rfl, Int.le_add_of_nonneg_right (by unfold blockSize at *; omega), ?_⟩
        show j.off + _ + ((padBlock _).length : Int) ≤ _
        have hup : j.size - j.size % blockSize + blockSize ≤ align4k j.size := by
          unfold blockSize at *
          omega
        have hrest : ((((j.data.take j.size.toNat).drop
            (j.size - j.size % blockSize).toNat).length : Nat) : Int) ≤ blockSize := by
          rw [List.length_drop, List.length_take]
          unfold blockSize at *
          omega
        rw [padBlock_length hrest]
        omega
      · exact absurd hs List.not_mem_nil

/-- A transfer does not reach positions outside of what it writes. -/
theorem WriteIO.write_eq_none {s : WriteIO} {p : Pos}
    (h : ¬ (p.1 = s.seg ∧ s.off ≤ p.2 ∧ p.2 < s.off + s.data.length)) : s.write p = none :=
  if_neg h

namespace WriteTask

variable {L : Layout} {t : WriteTask L}

/-- The task's frames are aligned and the device takes all its transfers. -/
def Good (io : WriteIO → Bool) (t : WriteTask L) : Prop := ∀ j ∈ t.jobs, j.Good io

instance (io : WriteIO → Bool) (t : WriteTask L) : Decidable (t.Good io) :=
  inferInstanceAs (Decidable (∀ j ∈ t.jobs, j.Good io))

theorem checked_all (batch : List (WriteTask L)) :
    ∀ j ∈ batch.flatMap WriteTask.jobs, Checked L j := by
  intro j hj
  obtain ⟨t, -, hj⟩ := List.mem_flatMap.mp hj
  exact t.checked hj

theorem good_all {io : WriteIO → Bool} {batch : List (WriteTask L)} :
    (∀ j ∈ batch.flatMap WriteTask.jobs, j.Good io) ↔ ∀ t ∈ batch, t.Good io := by
  rw [List.forall_mem_flatMap]
  rfl

/-- A task whose frames are aligned writes only into its extent. -/
theorem write_outside {io : WriteIO → Bool} (h : t.Good io) {p : Pos} (hp : ¬ t.extent.Covers p)
    {w : Pos → Option Byte} (hw : w ∈ (t.jobs.flatMap WriteJob.specs).map WriteIO.write) :
    w p = none := by
  obtain ⟨s, hs, rfl⟩ := List.mem_map.mp hw
  obtain ⟨j, hj, hs⟩ := List.mem_flatMap.mp hs
  obtain ⟨hseg, hlo, hhi⟩ := job_within hj (h j hj).1
  obtain ⟨hseg', hlo', hhi'⟩ := WriteJob.specs_within (mem_jobsFrom hj).2.1 hs
  refine WriteIO.write_eq_none (fun hcov => hp ?_)
  refine ⟨?_, ?_, ?_⟩
  · show t.seg = p.1
    rw [hcov.1, hseg', hseg]
  · show t.off ≤ p.2
    omega
  · show p.2 < t.off + align4k t.size
    omega

end WriteTask

/-! ## 6. Isolation -/

/-- Tasks of different keys, with extents that do not meet. -/
def Apart {L : Layout} (t t' : WriteTask L) : Prop := t.key ≠ t'.key ∧ t.extent.Disjoint t'.extent

section Isolation

variable {L : Layout} {io : WriteIO → Bool} {dbOk : Bool} {batch : List (WriteTask L)}
  {t : WriteTask L}

theorem runAlone_good (h : t.Good io) (v : Volume) :
    runAlone io dbOk t v =
      commitAll dbOk [(t.key, t.md)] { v with bytes := written t.jobs v.bytes } := by
  rw [runAlone, putAppends_ok (fun j hj => t.checked hj) h]

theorem runAlone_bad (h : ¬ t.Good io) (v : Volume) :
    (runAlone io dbOk t v).1 = .error .io := by
  have hfail : (putAppends L io t.jobs v.bytes).1 = .error .io :=
    putAppends_fails (fun j hj => t.checked hj) h v.bytes
  rw [runAlone]
  rcases hp : putAppends L io t.jobs v.bytes with ⟨r, f⟩
  rw [hp] at hfail
  cases hfail
  rfl

theorem runBatch_good (h : ∀ t ∈ batch, t.Good io) (v : Volume) :
    runBatch io dbOk batch v = commitAll dbOk (batch.map (fun t => (t.key, t.md)))
      { v with bytes := written (batch.flatMap WriteTask.jobs) v.bytes } := by
  rw [runBatch]
  by_cases hnil : batch.flatMap WriteTask.jobs = []
  · rw [if_pos hnil, hnil]
    rfl
  · rw [if_neg hnil, appendBatch_ok (WriteTask.checked_all batch) (WriteTask.good_all.mpr h)]

theorem runBatch_bad (h : ¬ ∀ t ∈ batch, t.Good io) (v : Volume) :
    (runBatch io dbOk batch v).1 = .error .io ∧
      (runBatch io dbOk batch v).2.mapping = v.mapping := by
  have hbad : ¬ ∀ j ∈ batch.flatMap WriteTask.jobs, j.Good io :=
    fun hall => h (WriteTask.good_all.mp hall)
  have hnil : batch.flatMap WriteTask.jobs ≠ [] := by
    intro hnil
    rw [hnil] at hbad
    exact hbad (fun j hj => absurd hj List.not_mem_nil)
  have hfail := appendBatch_fails (WriteTask.checked_all batch) hbad v.bytes
  rw [runBatch, if_neg hnil]
  rcases hp : appendBatch L io (batch.flatMap WriteTask.jobs) v.bytes with ⟨r, f⟩
  rw [hp] at hfail
  cases hfail
  exact ⟨rfl, rfl⟩

theorem commitAll_fst (items items' : List (Key × ObjectMeta)) (v v' : Volume) :
    (commitAll dbOk items v).1 = (commitAll dbOk items' v').1 := by
  cases dbOk <;> rfl

theorem commitAll_bytes (items : List (Key × ObjectMeta)) (v : Volume) :
    (commitAll dbOk items v).2.bytes = v.bytes := by
  cases dbOk <;> rfl

theorem commitAll_error {items : List (Key × ObjectMeta)} {v : Volume}
    (h : (commitAll dbOk items v).1 ≠ .ok ()) : (commitAll dbOk items v).2 = v := by
  cases dbOk with
  | false => rfl
  | true => exact absurd rfl h

theorem foldl_setMapping_of_ne {items : List (Key × ObjectMeta)} (m : Key → Option ObjectMeta)
    {key : Key} (h : ∀ it ∈ items, key ≠ it.1) : items.foldl setMapping m key = m key := by
  induction items generalizing m with
  | nil => rfl
  | cons it items ih =>
    rw [List.foldl_cons, ih _ (fun i hi => h i (List.mem_cons_of_mem it hi)), setMapping,
      Function.update_of_ne (h it List.mem_cons_self)]

/-- The mappings of a batch with different keys. -/
theorem foldl_setMapping_mem {items : List (Key × ObjectMeta)}
    (hkeys : items.Pairwise (fun a b => a.1 ≠ b.1)) (m : Key → Option ObjectMeta)
    {it : Key × ObjectMeta} (hit : it ∈ items) : items.foldl setMapping m it.1 = some it.2 := by
  induction items generalizing m with
  | nil => exact absurd hit List.not_mem_nil
  | cons a items ih =>
    obtain ⟨ha, hrest⟩ := List.pairwise_cons.mp hkeys
    rw [List.foldl_cons]
    rcases List.mem_cons.mp hit with rfl | hit
    · rw [foldl_setMapping_of_ne _ ha, setMapping, Function.update_self]
    · exact ih hrest _ hit

/-- In a batch without failures the bytes of an extent are those its own task writes. -/
theorem written_batch (h : ∀ t ∈ batch, t.Good io) (hapart : batch.Pairwise Apart) (ht : t ∈ batch)
    (f : Pos → Byte) {p : Pos} (hp : t.extent.Covers p) :
    written (batch.flatMap WriteTask.jobs) f p = written t.jobs f p := by
  obtain ⟨before, after, rfl⟩ := List.append_of_mem ht
  obtain ⟨-, hcons, hcross⟩ := List.pairwise_append.mp hapart
  have hafter := (List.pairwise_cons.mp hcons).1
  have houtside : ∀ t' ∈ before ++ after, ¬ t'.extent.Covers p := by
    intro t' ht' hcov
    rcases List.mem_append.mp ht' with hb | ha
    · exact (hcross t' hb t List.mem_cons_self).2 p hcov hp
    · exact (hafter t' ha).2 p hp hcov
  have hskip : ∀ ts : List (WriteTask L), (∀ t' ∈ ts, t' ∈ before ++ after) →
      ∀ w ∈ ((ts.flatMap WriteTask.jobs).flatMap WriteJob.specs).map WriteIO.write,
        w p = none := by
    intro ts hts w hw
    rw [List.flatMap_assoc, List.map_flatMap] at hw
    obtain ⟨t', ht', hw⟩ := List.mem_flatMap.mp hw
    have hmem := hts t' ht'
    have hgood : t'.Good io := by
      refine h t' ?_
      rcases List.mem_append.mp hmem with hb | ha
      · exact List.mem_append_left _ hb
      · exact List.mem_append_right _ (List.mem_cons_of_mem t ha)
    exact t'.write_outside hgood (houtside t' hmem) hw
  unfold written
  rw [List.flatMap_append, List.flatMap_cons, List.flatMap_append, List.flatMap_append,
    List.map_append, List.map_append]
  exact Overwrite.applyAll_between f (hskip before (fun t' ht' => List.mem_append_left _ ht'))
    (hskip after (fun t' ht' => List.mem_append_right _ ht'))

end Isolation

/-- A task of a small device. -/
def smallTask (key : Byte) (off : Int) (frames : List Bytes) (h0 : 0 ≤ off)
    (hmod : off % blockSize = 0) (hfits : off + align4k (framesSize frames) ≤ 16384) :
    WriteTask ⟨16384, 4⟩ :=
  .ofShm [key] 0 off frames h0 hmod hfits

/-- Two puts of one frame each. -/
def wholeBatch : List (WriteTask ⟨16384, 4⟩) :=
  [smallTask 1 0 [[7]] (by decide) (by decide) (by decide),
    smallTask 2 4096 [[8, 9]] (by decide) (by decide) (by decide)]

/-- The same with a put in two frames of one byte. -/
def oddBatch : List (WriteTask ⟨16384, 4⟩) :=
  smallTask 3 8192 [[5], [6]] (by decide) (by decide) (by decide) :: wholeBatch

/-- Nothing stored. -/
def blankVolume : Volume := ⟨fun _ => 0, fun _ => none⟩

end Taihu
