/-
# Zero-copy puts

`ShmPutWriter` of `internal/transport/client_shm_linux.go` (`PutBegin`, `Reserve`, `Write`,
`Commit`), and the server's `handleShmPut` on the bytes that it has put into the stream.

A call of `Reserve` hands out a slice of the stream behind a pad of its own, but the frame it
belongs to may have begun in an earlier slice.  The head of a frame is written when the next
frame begins, or by `Commit`.  A slice holds whatever was in the shared memory before (`buf`)
until the caller has filled its data area.  `Write` is `Reserve` and a copy, so one call stands
for both.
-/
import Taihu.ShmBytes
import Taihu.WriteTasks

namespace Taihu.PutWriter

open Codec Protocol ShmBytes

/-! ## 1. The writer -/

/-- A call of `Reserve` with what the caller puts into the slice. -/
structure PutCall where
  buf : List Byte
  data : Bytes
  data_pos : 0 < data.length
  data_le : data.length ≤ chunkSize.toNat
  reserved : buf.length = shmDataPad + data.length

/-- The slice when it is filled. -/
def PutCall.full (c : PutCall) : List Byte := copyAt c.buf shmDataPad c.data

/-- `ShmPutWriter`.  `closed` are the bytes of the frames that are committed; `frameHead` is the
slice in which the current frame begins, `tail` the slices behind it. -/
structure ShmPutWriter where
  size : Int64
  written : Int
  curLen : Nat
  closed : List Byte
  frameHead : Option (List Byte)
  tail : List Byte

namespace ShmPutWriter

/-- `PutBegin`, less the header frame. -/
def begin (size : Int64) : ShmPutWriter := ⟨size, 0, 0, [], none, []⟩

/-- `shmCommitFrame` for the current frame. -/
def commitFrame (w : ShmPutWriter) : ShmPutWriter :=
  match w.frameHead with
  | none => w
  | some head =>
    { w with
      closed := w.closed ++ (shmWriteHead head opPutData w.curLen ++ w.tail)
      curLen := 0
      frameHead := none
      tail := [] }

/-- A filled slice, in which a frame begins unless one is open. -/
def addSlice (w : ShmPutWriter) (full : List Byte) : ShmPutWriter :=
  match w.frameHead with
  | none => { w with frameHead := some full }
  | some _ => { w with tail := w.tail ++ full }

/-- `Reserve`, and the caller fills the slice. -/
def reserve (w : ShmPutWriter) (c : PutCall) : ShmPutWriter :=
  let cut := if 0 < w.curLen ∧ w.curLen + c.data.length > chunkSize.toNat then w.commitFrame else w
  let w := cut.addSlice c.full
  { w with curLen := w.curLen + c.data.length, written := w.written + c.data.length }

/-- What is in the stream when `Commit` waits for the response; `none` where it returns
`ErrShortWrite`.  `header` and `last` are the slices of the frames around the data. -/
def commit (w : ShmPutWriter) (header last : List Byte) : Option (List Byte) :=
  if w.written ≠ w.size.toInt then none
  else
    let w := if 0 < w.curLen then w.commitFrame else w
    some (header ++ (w.closed ++ last))

/-- The calls of `Reserve`, one after another. -/
def run (w : ShmPutWriter) (calls : List PutCall) : ShmPutWriter := calls.foldl reserve w

/-- No call adds to a frame that an earlier one has begun. -/
def Unshared : ShmPutWriter → List PutCall → Prop
  | _, [] => True
  | w, c :: cs =>
    (w.curLen = 0 ∨ w.curLen + c.data.length > chunkSize.toNat) ∧ Unshared (w.reserve c) cs

end ShmPutWriter

/-! ## 2. The server -/

/-- The frame loop of `handleShmPut`: the data of the frames, or `none` where the request is
refused. -/
def readPutFrames (size : Int) : Nat → Int → List Bytes →
    Parser Byte FrameErr (Option (List Bytes))
  | 0, _, _ => throw .blocked
  | fuel + 1, pos, frames => do
    let f ← shmReadFrame
    if f.1 = opPutData then
      if pos + f.2.length > size then pure none
      else readPutFrames size fuel (pos + f.2.length) (frames ++ [f.2])
    else if f.1 = opPutEnd then
      if pos ≠ size then pure none else pure (some frames)
    else pure none

/-- What `handleShmPut` takes off the stream for a header: the key and the frames. -/
def handleShmPut (maxObjectSize : Int) (fuel : Nat) (payload : List Byte) :
    Parser Byte FrameErr (Option (Key × List Bytes)) :=
  match (parsePutHeader.on (newSliceReader payload)).1 with
  | .error _ => pure none
  | .ok (key, size) =>
    if size.toInt < 0 then pure none
    else if size.toInt > maxObjectSize then pure none
    else if size.toInt = 0 then do
      let f ← shmReadFrame
      if f.1 = opPutEnd then pure (some (key, [])) else pure none
    else do
      let frames ← readPutFrames size.toInt fuel 0 []
      pure (frames.map (fun fs => (key, fs)))

/-- `handleStream`, for one request. -/
def handlePut (maxObjectSize : Int) (fuel : Nat) :
    Parser Byte FrameErr (Option (Key × List Bytes)) := do
  let f ← shmReadFrame
  if f.1 = opPutHeader then handleShmPut maxObjectSize fuel f.2 else pure none

/-- The put that the server takes off the bytes of the stream. -/
def taken (maxObjectSize : Int) (bytes : List Byte) : Option (Key × List Bytes) :=
  match (handlePut maxObjectSize (bytes.length + 1)).on ⟨bytes, 0⟩ with
  | (.ok r, _) => r
  | (.error _, _) => none

/-- The task is written and its mapping committed, by the handler itself or by the write
pipeline in some batch: the cases in which the server answers `CodeOK`. -/
inductive Written {L : Layout} (t : WriteTask L) (v v' : Volume) : Prop where
  | alone (io : WriteIO → Bool) (dbOk : Bool) (h : runAlone io dbOk t v = (.ok (), v'))
  | batched (io : WriteIO → Bool) (dbOk : Bool) (batch : List (WriteTask L)) (ht : t ∈ batch)
    (hapart : batch.Pairwise Apart) (h : runBatch io dbOk batch v = (.ok (), v'))

/-- The bytes of a control frame. -/
def bytesOf (c : CtrlSlice) : List Byte := shmWriteFrame c.buf c.op c.payload

/-- The frames around the data of a put of `size` bytes under `key`. -/
structure Around (key : Key) (size : Int64) where
  header : CtrlSlice
  last : CtrlSlice
  header_op : header.op = opPutHeader
  header_payload : header.payload = encodePutHeader key size
  last_op : last.op = opPutEnd
  last_payload : last.payload = []

/-- **`Commit` returns nil**: the server has taken a put off the stream, written its frames and
committed its mapping. -/
structure CommitNil (L : Layout) (maxObjectSize : Int) {key : Key} {size : Int64}
    (a : Around key size) (w : ShmPutWriter) (v v' : Volume) where
  bytes : List Byte
  task : WriteTask L
  commit_eq : w.commit (bytesOf a.header) (bytesOf a.last) = some bytes
  taken_eq : taken maxObjectSize bytes = some (task.key, task.frames)
  written : Written task v v'

/-- The object of a key. -/
def object (v : Volume) (key : Key) : Option Bytes :=
  (v.mapping key).map (fun md =>
    (List.range md.size.toNat).map (fun (i : Nat) => v.bytes (md.segmentID, md.offset + i)))

/-! ## 3. What a written task stores -/

/-- What a transfer puts at its `i`-th position. -/
theorem write_at (s : WriteIO) {i : Nat} (h : i < s.data.length) :
    s.write (s.seg, s.off + i) = some (s.data.getD i 0) := by
  have hidx : (s.off + (i : Int) - s.off).toNat = i := by omega
  rw [ WriteIO.write, if_pos ⟨rfl, by show s.off ≤ s.off + (i : Int); omega,
    by show s.off + (i : Int) < _; omega⟩]
  show some (s.data.getD (s.off + (i : Int) - s.off).toNat 0) = _
  rw [hidx]

/-- A transfer that begins behind a position. -/
theorem write_before {s : WriteIO} {p : Pos} (h : p.2 < s.off) : s.write p = none :=
  WriteIO.write_eq_none (fun hcov => absurd hcov.2.1 (Int.not_le.mpr h))

/-- A job's data are where it was told to write them. -/
theorem written_job {j : WriteJob} (hsize : j.size = j.data.length) (f : Pos → Byte) {k : Nat}
    (hk : k < j.data.length) : Taihu.written [j] f (j.seg, j.off + k) = j.data.getD k 0 := by
  have halign : ¬ align4k j.size = 0 := by
    have := le_align4k j.size
    omega
  have htake : j.data.take j.size.toNat = j.data := List.take_of_length_le (by omega)
  obtain ⟨bulk, hbulk, hle⟩ : ∃ bulk : Nat, j.size - j.size % blockSize = bulk ∧
      bulk ≤ j.data.length := by
    refine ⟨(j.size - j.size % blockSize).toNat, ?_, ?_⟩
    all_goals
      unfold blockSize
      omega
  have hrem : j.size - j.size % blockSize + blockSize > j.size := by
    unfold blockSize
    omega
  unfold Taihu.written
  rw [List.flatMap_singleton, WriteJob.specs, if_neg halign, List.map_append,
    Overwrite.applyAll_append, htake, hbulk, Int.toNat_natCast]
  by_cases hlt : k < bulk
  · -- the whole blocks; the transfer of the rest begins behind them
    rw [Overwrite.applyAll_of_none, if_pos (by omega)]
    · show (( WriteIO.write _ _).getD _) = _
      have hlen : k < (j.data.take bulk).length := by
        rw [List.length_take]
        omega
      rw [write_at ⟨j.seg, j.off, j.data.take bulk⟩ hlen, Option.getD_some,
        List.getD_eq_getElem?_getD, List.getD_eq_getElem?_getD, List.getElem?_take_of_lt hlt]
    · intro w hw
      obtain ⟨s, hs, rfl⟩ := List.mem_map.mp hw
      split at hs
      · rw [List.mem_singleton.mp hs]
        exact write_before (by show j.off + (k : Int) < j.off + (bulk : Int); omega)
      · exact absurd hs List.not_mem_nil
  · rw [if_pos (show 0 < j.size - (bulk : Int) by omega)]
    have hpos : j.off + (k : Int) = (j.off + (bulk : Int)) + ((k - bulk : Nat) : Int) := by omega
    have hdrop : k - bulk < (j.data.drop bulk).length := by
      rw [List.length_drop]
      omega
    have hpad : k - bulk < (padBlock (j.data.drop bulk)).length := by
      rw [padBlock, List.length_append]
      omega
    show (( WriteIO.write _ _).getD _) = _
    rw [hpos, write_at ⟨j.seg, j.off + bulk, padBlock (j.data.drop bulk)⟩ hpad, Option.getD_some]
    show (padBlock _).getD _ 0 = _
    rw [padBlock, List.getD_append _ _ _ _ hdrop, List.getD_eq_getElem?_getD,
      List.getElem?_drop, List.getD_eq_getElem?_getD, Nat.add_sub_cancel' (Nat.le_of_not_lt hlt)]

/-- The jobs of frames store the frames one behind another. -/
theorem written_frames (seg off : Int) (f : Pos → Byte) {pos : Int} {ps : List Bytes} {k : Nat}
    (hk : k < ps.flatten.length) :
    Taihu.written (jobsFrom seg off pos ps) f (seg, off + pos + k) = ps.flatten.getD k 0 := by
  induction ps generalizing pos f k with
  | nil => exact absurd hk (Nat.not_lt_zero _)
  | cons p ps ih =>
    rw [jobsFrom, written_cons]
    rw [List.flatten_cons] at hk ⊢
    by_cases hp : k < p.length
    · -- the jobs of later frames write behind this one
      have hlater : ∀ w ∈ ((jobsFrom seg off (pos + p.length) ps).flatMap WriteJob.specs).map
          WriteIO.write, w (seg, off + pos + k) = none := by
        intro w hw
        obtain ⟨s, hs, rfl⟩ := List.mem_map.mp hw
        obtain ⟨j, hj, hs⟩ := List.mem_flatMap.mp hs
        obtain ⟨-, hsize, hoff, -⟩ := mem_jobsFrom hj
        have hlo := (WriteJob.specs_within hsize hs).2.1
        exact write_before (by show off + pos + (k : Int) < s.off; omega)
      rw [Taihu.written, Overwrite.applyAll_of_none _ hlater, List.getD_append _ _ _ _ hp]
      exact written_job (j := ⟨seg, off + pos, p, p.length⟩) rfl f hp
    · have hlen : (p ++ ps.flatten).length = p.length + ps.flatten.length := List.length_append
      have hpos : off + pos + (k : Int) = off + (pos + p.length) + ((k - p.length : Nat) : Int) := by
        omega
      rw [hpos, ih _ (by omega), List.getD_append_right _ _ _ _ (Nat.le_of_not_lt hp)]

section Stored

variable {L : Layout} {t : WriteTask L} {v v' : Volume}

theorem object_eq {f : Pos → Byte} (hmap : v'.mapping t.key = some t.md)
    (hbytes : ∀ p, t.extent.Covers p → v'.bytes p = Taihu.written t.jobs f p) :
    object v' t.key = some t.frames.flatten := by
  have hsize : t.md.size.toNat = t.frames.flatten.length := Int.toNat_natCast _
  rw [object, hmap, Option.map_some, hsize]
  congr 1
  apply List.ext_getElem
  · rw [List.length_map, List.length_range]
  · intro i hi hi'
    rw [List.getElem_map, List.getElem_range]
    have hcov : t.extent.Covers (t.seg, t.off + (i : Int)) := by
      have hle : t.size ≤ align4k t.size := le_align4k t.size
      have hlen : (i : Int) < t.size := Int.ofNat_lt.mpr hi'
      exact ⟨rfl, by show t.off ≤ t.off + (i : Int); omega,
        by show t.off + (i : Int) < t.off + align4k t.size; omega⟩
    show v'.bytes (t.seg, t.off + (i : Int)) = _
    have hwritten : Taihu.written (jobsFrom t.seg t.off 0 t.frames) f (t.seg, t.off + 0 + i) =
        t.frames.flatten.getD i 0 := written_frames t.seg t.off f hi'
    rw [Int.add_zero] at hwritten
    rw [hbytes _ hcov, WriteTask.jobs, hwritten, List.getD_eq_getElem _ _ hi']

theorem commitAll_ok {dbOk : Bool} {items : List (Key × ObjectMeta)} {u : Volume}
    (h : commitAll dbOk items u = (.ok (), v')) :
    v' = { u with mapping := items.foldl setMapping u.mapping } := by
  cases dbOk with
  | false => cases h
  | true =>
    cases h
    rfl

/-- **A written task stores its frames**, one behind another. -/
theorem object_of_written (h : Written t v v') : object v' t.key = some t.frames.flatten := by
  cases h with
  | alone io dbOk h =>
    by_cases hgood : t.Good io
    · rw [runAlone_good hgood] at h
      rw [commitAll_ok h]
      refine object_eq (f := v.bytes) ?_ (fun p _ => rfl)
      have hmem : (t.key, t.md) ∈ [(t.key, t.md)] := List.mem_singleton.mpr rfl
      exact foldl_setMapping_mem (List.pairwise_singleton _ _) v.mapping hmem
    · have hbad : (runAlone io dbOk t v).1 = .error .io := runAlone_bad hgood v
      rw [h] at hbad
      cases hbad
  | batched io dbOk batch ht hapart h =>
    by_cases hall : ∀ t ∈ batch, t.Good io
    · rw [runBatch_good hall] at h
      rw [commitAll_ok h]
      refine object_eq (f := v.bytes) ?_ (fun p hp => written_batch hall hapart ht v.bytes hp)
      have hkeys : (batch.map (fun t => (t.key, t.md))).Pairwise (fun a b => a.1 ≠ b.1) := by
        rw [List.pairwise_map]
        exact hapart.imp (fun h => h.1)
      have hmem : (t.key, t.md) ∈ batch.map (fun t => (t.key, t.md)) :=
        List.mem_map.mpr ⟨t, ht, rfl⟩
      exact foldl_setMapping_mem hkeys v.mapping hmem
    · have hbad : (runBatch io dbOk batch v).1 = .error .io := (runBatch_bad hall v).1
      rw [h] at hbad
      cases hbad

end Stored

/-! ## 4. What the writer puts into the stream -/

/-- The bytes of a data frame. -/
def FrameOf (d : Bytes) (l : List Byte) : Prop :=
  Reads shmReadFrame (opPutData, d) l ∧ 0 < l.length

theorem full_eq (c : PutCall) : c.full = c.buf.take shmDataPad ++ c.data := by
  have htake : (c.buf.take shmDataPad).length = shmDataPad := by
    rw [List.length_take, c.reserved]
    exact Nat.min_eq_left (Nat.le_add_right _ _)
  have hdrop : (c.buf.drop shmDataPad).length = c.data.length := by
    rw [List.length_drop, c.reserved, Nat.add_sub_cancel_left]
  have hwrite := copyAt_append (c.buf.take shmDataPad) (c.buf.drop shmDataPad) c.data
    (Nat.le_of_eq hdrop.symm)
  rw [List.take_append_drop, htake, ← hdrop, List.drop_length, List.append_nil] at hwrite
  exact hwrite

theorem full_length (c : PutCall) : c.full.length = shmDataPad + c.data.length := by
  rw [full_eq, List.length_append, List.length_take, c.reserved,
    Nat.min_eq_left (Nat.le_add_right _ _)]

/-- The pad of a slice, less the place of the head. -/
def PutCall.pad (c : PutCall) : List Byte := (c.buf.take shmDataPad).drop 5

theorem pad_length (c : PutCall) : c.pad.length = shmDataPad - 5 := by
  rw [PutCall.pad, List.length_drop, List.length_take, c.reserved,
    Nat.min_eq_left (Nat.le_add_right _ _)]

/-- A head in front of a filled slice. -/
theorem head_full (c : PutCall) (n : Nat) : shmWriteHead c.full opPutData n =
    u32 (UInt32.ofNat (shmOpLen + n)) ++ ([opPutData] ++ (c.pad ++ c.data)) := by
  have hlen : 5 ≤ c.full.length := by
    rw [full_length]
    unfold shmDataPad
    omega
  have hdrop : c.full.drop 5 = c.pad ++ c.data := by
    have hle : 5 ≤ (c.buf.take shmDataPad).length := by
      rw [List.length_take, c.reserved, Nat.min_eq_left (Nat.le_add_right _ _)]
      decide
    rw [full_eq, List.drop_append_of_le_length hle]
    rfl
  rw [shmWriteHead_eq hlen, hdrop]

/-- The head is the only thing that a filled slice lacks to be a frame. -/
theorem frameOf_full (c : PutCall) :
    FrameOf c.data (shmWriteHead c.full opPutData c.data.length) := by
  have hbegins : Begins (opPutData, c.data) c.pad []
      (shmWriteHead c.full opPutData c.data.length) := by
    refine ⟨c.data_le, ?_, ?_⟩
    · rw [pad_length]
      rfl
    · rw [head_full, List.append_nil]
  refine ⟨hbegins.reads, ?_⟩
  rw [head_full]
  simp

/-- The writer has put `frames` into the stream: all but the last are committed, and the last is
alone in its slice. -/
inductive Tidy (w : ShmPutWriter) (frames : List Bytes) : Prop where
  | empty (hframes : frames = []) (hclosed : w.closed = []) (hcur : w.curLen = 0)
    (hhead : w.frameHead = none) (htail : w.tail = [])
  | opened (init : List Bytes) (c : PutCall) (ls : List (List Byte))
    (hframes : frames = init ++ [c.data]) (hls : List.Forall₂ FrameOf init ls)
    (hclosed : w.closed = ls.flatten) (hcur : w.curLen = c.data.length)
    (hhead : w.frameHead = some c.full) (htail : w.tail = [])

/-- The frames that are in the stream when the current one is committed. -/
theorem Tidy.commitFrame {w : ShmPutWriter} {frames : List Bytes} (h : Tidy w frames)
    (hcur : 0 < w.curLen) :
    ∃ ls, List.Forall₂ FrameOf frames ls ∧ w.commitFrame.closed = ls.flatten ∧
      w.commitFrame.curLen = 0 ∧ w.commitFrame.frameHead = none ∧ w.commitFrame.tail = [] := by
  cases h with
  | empty _ _ h0 => omega
  | opened init c ls hframes hls hclosed hlen hhead htail =>
    refine ⟨ls ++ [shmWriteHead c.full opPutData c.data.length], ?_, ?_⟩
    · rw [hframes]
      exact List.rel_append hls (.cons (frameOf_full c) .nil)
    · unfold ShmPutWriter.commitFrame
      rw [hhead]
      refine ⟨?_, rfl, rfl, rfl⟩
      show w.closed ++ (shmWriteHead c.full opPutData w.curLen ++ w.tail) = _
      rw [hclosed, hlen, htail, List.append_nil, List.flatten_append, List.flatten_singleton]

/-- A call that begins a frame. -/
theorem Tidy.reserve {w : ShmPutWriter} {frames : List Bytes} (h : Tidy w frames) (c : PutCall)
    (hcall : w.curLen = 0 ∨ w.curLen + c.data.length > chunkSize.toNat) :
    Tidy (w.reserve c) (frames ++ [c.data]) := by
  by_cases hcur : 0 < w.curLen
  · have hcut : 0 < w.curLen ∧ w.curLen + c.data.length > chunkSize.toNat := by omega
    obtain ⟨ls, hls, hclosed, hlen, hhead, htail⟩ := h.commitFrame hcur
    unfold ShmPutWriter.reserve ShmPutWriter.addSlice
    rw [if_pos hcut]
    simp only [hhead, hlen]
    exact .opened frames c ls rfl hls hclosed (Nat.zero_add _) rfl htail
  · have hcut : ¬ (0 < w.curLen ∧ w.curLen + c.data.length > chunkSize.toNat) := fun h => hcur h.1
    cases h with
    | empty hframes hclosed hlen hhead htail =>
      unfold ShmPutWriter.reserve ShmPutWriter.addSlice
      rw [if_neg hcut]
      simp only [hhead, hlen]
      rw [hframes]
      exact .opened [] c [] rfl .nil hclosed (Nat.zero_add _) rfl htail
    | opened init c' ls hframes hls hclosed hlen hhead htail =>
      have := c'.data_pos
      omega

theorem commitFrame_written (w : ShmPutWriter) :
    w.commitFrame.written = w.written ∧ w.commitFrame.size = w.size := by
  unfold ShmPutWriter.commitFrame
  split <;> exact ⟨rfl, rfl⟩

theorem addSlice_written (w : ShmPutWriter) (full : List Byte) :
    (w.addSlice full).written = w.written ∧ (w.addSlice full).size = w.size := by
  unfold ShmPutWriter.addSlice
  split <;> exact ⟨rfl, rfl⟩

theorem reserve_written (w : ShmPutWriter) (c : PutCall) :
    (w.reserve c).written = w.written + c.data.length ∧ (w.reserve c).size = w.size := by
  unfold ShmPutWriter.reserve
  show (ShmPutWriter.addSlice _ _).written + _ = _ ∧ (ShmPutWriter.addSlice _ _).size = _
  rw [(addSlice_written _ _).1, (addSlice_written _ _).2]
  split
  · rw [(commitFrame_written w).1, (commitFrame_written w).2]
    exact ⟨rfl, rfl⟩
  · exact ⟨rfl, rfl⟩

theorem run_written (calls : List PutCall) (w : ShmPutWriter) :
    (w.run calls).written = w.written + framesSize (calls.map PutCall.data) ∧
      (w.run calls).size = w.size := by
  induction calls generalizing w with
  | nil => exact ⟨(Int.add_zero _).symm, rfl⟩
  | cons c cs ih =>
    obtain ⟨hwritten, hsize⟩ := ih (w.reserve c)
    obtain ⟨hwritten', hsize'⟩ := reserve_written w c
    refine ⟨hwritten.trans ?_, hsize.trans hsize'⟩
    rw [hwritten', List.map_cons, framesSize_cons, Int.add_assoc]

/-- **A run in which no frame is shared** leaves one frame for each call. -/
theorem Tidy.run {w : ShmPutWriter} {frames : List Bytes} (h : Tidy w frames)
    (calls : List PutCall) (hcalls : w.Unshared calls) :
    Tidy (w.run calls) (frames ++ calls.map PutCall.data) := by
  induction calls generalizing w frames with
  | nil =>
    rw [List.map_nil, List.append_nil]
    exact h
  | cons c cs ih =>
    have := ih (h.reserve c hcalls.1) hcalls.2
    rwa [List.append_assoc] at this

/-! ## 5. What the server takes off the stream -/

theorem forall₂_frameOf {frames : List Bytes} {ls : List (List Byte)}
    (h : List.Forall₂ FrameOf frames ls) : frames.length ≤ ls.flatten.length := by
  induction h with
  | nil => exact Nat.le_refl _
  | cons hl _ ih =>
    rw [List.length_cons, List.flatten_cons, List.length_append]
    have := hl.2
    omega

/-- The frame loop takes frames that sum up to the size. -/
theorem readPutFrames_reads {size pos : Int} {frames : List Bytes} {ls : List (List Byte)}
    {last : List Byte} (h : List.Forall₂ FrameOf frames ls)
    (hlast : Reads shmReadFrame (opPutEnd, []) last) (hsize : pos + framesSize frames = size)
    {fuel : Nat} (hfuel : frames.length < fuel) (acc : List Bytes) :
    Reads (readPutFrames size fuel pos acc) (some (acc ++ frames)) (ls.flatten ++ last) := by
  induction h generalizing pos fuel acc with
  | nil =>
    obtain ⟨fuel, rfl⟩ : ∃ n, fuel = n + 1 := ⟨fuel - 1, by simp at hfuel; omega⟩
    have hpos : pos = size := (Int.add_zero pos).symm.trans hsize
    rw [readPutFrames, List.flatten_nil, List.nil_append, List.append_nil,
      ← List.append_nil last]
    refine hlast.bind ?_
    rw [if_neg (by decide), if_pos rfl, if_neg (not_not.mpr hpos)]
    exact Reads.pure _
  | @cons d l frames ls hd hds ih =>
    obtain ⟨fuel, rfl⟩ : ∃ n, fuel = n + 1 := ⟨fuel - 1, by omega⟩
    rw [framesSize_cons] at hsize
    have hnonneg := framesSize_nonneg frames
    rw [readPutFrames, List.flatten_cons, List.append_assoc]
    refine hd.1.bind ?_
    rw [if_pos rfl, if_neg (by show ¬ pos + (d.length : Int) > size; omega)]
    have hrest : pos + d.length + framesSize frames = size := by omega
    have hread := ih hrest (by simp at hfuel; omega) (acc ++ [d])
    rwa [List.append_assoc, List.singleton_append] at hread

section Taken

variable {key : Key} {size : Int64}

theorem reads_bytesOf (c : CtrlSlice) : Reads shmReadFrame (c.op, c.payload) (bytesOf c) := by
  obtain ⟨pad, h⟩ := begins_write c
  exact h.reads

theorem Around.reads_header (a : Around key size) :
    Reads shmReadFrame (opPutHeader, encodePutHeader key size) (bytesOf a.header) := by
  rw [← a.header_op, ← a.header_payload]
  exact reads_bytesOf a.header

theorem Around.reads_last (a : Around key size) :
    Reads shmReadFrame (opPutEnd, []) (bytesOf a.last) := by
  rw [← a.last_op, ← a.last_payload]
  exact reads_bytesOf a.last

/-- A header that parses has a key that is not too long. -/
theorem keyOk_of_parse (a : Around key size) {x : Key × Int64} {r : Reader Byte}
    (h : parsePutHeader.on (newSliceReader (encodePutHeader key size)) = (.ok x, r)) :
    KeyOk key := by
  obtain ⟨hx, hun⟩ := undoes_parsePutHeader.wrote _ _ _ (Nat.zero_le _) h
  have hlen : key.length < 2 ^ 32 := by
    have hle := a.header.payload_le
    have hchunk : chunkSize.toNat = 4194304 := rfl
    rw [a.header_payload, encodePutHeader_eq, List.length_append, putKey_length] at hle
    omega
  have hlen' : x.1.length < 2 ^ 32 := Nat.lt_of_le_of_lt hx (by decide)
  have hun' : encodePutHeader key size = encodePutHeader x.1 x.2 ++ r.unread := hun
  have htake := congrArg (List.take 4) hun'
  rw [encodePutHeader_eq, encodePutHeader_eq, putKey, putKey, List.append_assoc, List.append_assoc,
    List.append_assoc, List.take_left' (u32_length _),
    List.take_left' (u32_length _)] at htake
  have hcount := congrArg ofDigits htake
  have hpow : 256 ^ 4 = 2 ^ 32 := by decide
  rw [u32, u32, ofDigits_digits, ofDigits_digits, UInt32.toNat_ofNat_of_lt' hlen,
    UInt32.toNat_ofNat_of_lt' hlen', hpow, Nat.mod_eq_of_lt hlen, Nat.mod_eq_of_lt hlen'] at hcount
  rw [KeyOk, hcount]
  exact hx

instance (key : Key) : Decidable (KeyOk key) := inferInstanceAs (Decidable (_ ≤ _))

/-- **The frames of a put come off the stream as they were put in**, unless the header is
refused.  What comes behind the end of the put does not matter. -/
theorem taken_frames (a : Around key size) {frames : List Bytes} {ls : List (List Byte)}
    (h : List.Forall₂ FrameOf frames ls) (hpos : ∀ d ∈ frames, 0 < d.length)
    (hsize : framesSize frames = size.toInt) {last : List Byte}
    (hlast : Reads shmReadFrame (opPutEnd, []) last) (rest : List Byte) (maxObjectSize : Int) :
    taken maxObjectSize (bytesOf a.header ++ (ls.flatten ++ (last ++ rest))) =
      if KeyOk key ∧ size.toInt ≤ maxObjectSize then some (key, frames) else none := by
  have hlen := forall₂_frameOf h
  have hnonneg := framesSize_nonneg frames
  unfold taken handlePut
  generalize hb : bytesOf a.header ++ (ls.flatten ++ (last ++ rest)) = bytes
  have hfuel : frames.length < bytes.length + 1 := by
    rw [← hb, List.length_append, List.length_append]
    omega
  have hfits : (⟨bytes, 0⟩ : Reader Byte).Fits := Nat.zero_le _
  have hun : (⟨bytes, 0⟩ : Reader Byte).unread =
      bytesOf a.header ++ (ls.flatten ++ (last ++ rest)) := hb.symm
  rw [on_bind, a.reads_header ⟨bytes, 0⟩ _ hfits hun]
  simp only
  rw [if_true, handleShmPut]
  have hfits' := fits_skip hfits hun
  have hun' := unread_skip hun
  generalize ({ b := bytes, pos := 0 + (bytesOf a.header).length } : Reader Byte) = r
    at hfits' hun'
  by_cases hkey : KeyOk key
  · have hround := undoes_parsePutHeader.round_trip (a := (key, size)) hkey
    have hparse : (parsePutHeader.on (newSliceReader (encodePutHeader key size))).1 =
        .ok (key, size) := congrArg Prod.fst hround
    rw [hparse]
    simp only
    rw [if_neg (show ¬ size.toInt < 0 by omega)]
    by_cases hmax : size.toInt > maxObjectSize
    · rw [if_pos hmax, if_neg (fun h => absurd h.2 (Int.not_le.mpr hmax))]
      rfl
    rw [if_neg hmax, if_pos (show KeyOk key ∧ size.toInt ≤ maxObjectSize from
      ⟨hkey, Int.not_lt.mp hmax⟩)]
    by_cases hzero : size.toInt = 0
    · have hnil : frames = [] := by
        cases frames with
        | nil => rfl
        | cons d frames =>
          have hd := hpos d List.mem_cons_self
          have := framesSize_nonneg frames
          rw [framesSize_cons] at hsize
          omega
      subst hnil
      cases h
      rw [if_pos hzero, on_bind, hlast r rest hfits' hun']
      rfl
    · have hread := readPutFrames_reads h hlast ((Int.zero_add _).trans hsize) hfuel []
      rw [if_neg hzero, on_bind, hread r rest hfits' (by rw [hun', List.append_assoc])]
      rfl
  · rw [if_neg (fun h => hkey h.1)]
    rcases hparse : parsePutHeader.on (newSliceReader (encodePutHeader key size)) with ⟨y, r'⟩
    cases y with
    | error e => rfl
    | ok y => exact absurd (keyOk_of_parse a hparse) hkey

end Taken

/-- The bytes of an `OpPutEnd` frame. -/
def endBytes : List Byte := [0, 0, 0, 1, 3]

theorem reads_endBytes : Reads shmReadFrame (opPutEnd, []) endBytes := by
  have h : Begins (opPutEnd, []) [] [] endBytes := ⟨by decide, rfl, by decide⟩
  exact h.reads

/-- A call that adds to a frame that is open. -/
theorem reserve_shared {w : ShmPutWriter} {c : PutCall} {head : List Byte}
    (hhead : w.frameHead = some head) (hfit : w.curLen + c.data.length ≤ chunkSize.toNat) :
    w.reserve c = { w with
      tail := w.tail ++ c.full
      curLen := w.curLen + c.data.length
      written := w.written + c.data.length } := by
  have hcut : ¬ (0 < w.curLen ∧ w.curLen + c.data.length > chunkSize.toNat) := by omega
  have hadd : w.addSlice c.full = { w with tail := w.tail ++ c.full } := by
    unfold ShmPutWriter.addSlice
    rw [hhead]
  unfold ShmPutWriter.reserve
  rw [if_neg hcut]
  simp only [hadd]

/-- `Commit` with a frame open. -/
theorem commit_opened {w : ShmPutWriter} {head : List Byte} (hhead : w.frameHead = some head)
    (hcur : 0 < w.curLen) (hall : w.written = w.size.toInt) (header last : List Byte) :
    w.commit header last =
      some (header ++ ((w.closed ++ (shmWriteHead head opPutData w.curLen ++ w.tail)) ++ last)) := by
  unfold ShmPutWriter.commit
  rw [if_neg (not_not.mpr hall), if_pos hcur]
  unfold ShmPutWriter.commitFrame
  rw [hhead]

/-- A call that adds to the frame of the call before it, and whose data end in a block that begins
like an `OpPutEnd` frame: the server takes the pad of the second slice for data, and that block
for the end of the put. -/
theorem taken_of_shared {key : Key} {size : Int64} (a : Around key size) {init : List Bytes}
    {ls : List (List Byte)} (c c' : PutCall) (w : ShmPutWriter)
    (hls : List.Forall₂ FrameOf init ls) (hinit : ∀ d ∈ init, 0 < d.length)
    (hclosed : w.closed = ls.flatten) (hcur : w.curLen = c.data.length)
    (hhead : w.frameHead = some c.full) (htail : w.tail = []) (hwsize : w.size = size)
    (hwritten : w.written = framesSize init + c.data.length)
    (hshare : c.data.length + c'.data.length ≤ chunkSize.toNat) (filler : List Byte) {junk : List Byte}
    (hdata : c'.data = filler ++ (endBytes ++ junk)) (hjunk : junk.length = 4091)
    (hsize : w.written + c'.data.length = size.toInt) (maxObjectSize : Int) :
    ∃ bytes, (w.reserve c').commit (bytesOf a.header) (bytesOf a.last) = some bytes ∧
      taken maxObjectSize bytes = if KeyOk key ∧ size.toInt ≤ maxObjectSize then
        some (key, init ++ [c.data ++ (c'.buf.take shmDataPad ++ filler)]) else none := by
  have hpos := c.data_pos
  have hlen' : c'.data.length = filler.length + 4096 := by
    rw [hdata, List.length_append, List.length_append, hjunk]
    rfl
  have hpad : (c'.buf.take shmDataPad).length = 4096 := by
    rw [List.length_take, c'.reserved, Nat.min_eq_left (Nat.le_add_right _ _)]
    rfl
  have hpayload : (c.data ++ (c'.buf.take shmDataPad ++ filler)).length =
      c.data.length + c'.data.length := by
    rw [List.length_append, List.length_append, hpad, hlen', Nat.add_comm 4096]
  have hframe : FrameOf (c.data ++ (c'.buf.take shmDataPad ++ filler))
      (u32 (UInt32.ofNat (shmOpLen + (c.data.length + c'.data.length))) ++
        ([opPutData] ++ (c.pad ++ (c.data ++ (c'.buf.take shmDataPad ++ filler))))) := by
    have hbegins : Begins (opPutData, c.data ++ (c'.buf.take shmDataPad ++ filler)) c.pad []
        (u32 (UInt32.ofNat (shmOpLen + (c.data.length + c'.data.length))) ++
          ([opPutData] ++ (c.pad ++ (c.data ++ (c'.buf.take shmDataPad ++ filler))))) := by
      refine ⟨?_, ?_, ?_⟩
      · show (c.data ++ (c'.buf.take shmDataPad ++ filler)).length ≤ _
        rw [hpayload]
        exact hshare
      · rw [pad_length]
        rfl
      · rw [hpayload, List.append_nil]
    exact ⟨hbegins.reads, by simp⟩
  have hcommit : (w.reserve c').commit (bytesOf a.header) (bytesOf a.last) =
      some (bytesOf a.header ++ ((ls.flatten ++
        (shmWriteHead c.full opPutData (c.data.length + c'.data.length) ++ c'.full)) ++
        bytesOf a.last)) := by
    have hfit : w.curLen + c'.data.length ≤ chunkSize.toNat := by rwa [hcur]
    rw [reserve_shared hhead hfit, hcur, htail, hclosed, List.nil_append]
    have hall : w.written + c'.data.length = w.size.toInt := by rw [hsize, hwsize]
    have hopen := commit_opened (w := { w with
      tail := c'.full
      curLen := c.data.length + c'.data.length
      written := w.written + c'.data.length }) hhead (Nat.add_pos_left hpos _) hall
      (bytesOf a.header) (bytesOf a.last)
    rwa [hclosed] at hopen
  refine ⟨_, hcommit, ?_⟩
  have hframes : framesSize (init ++ [c.data ++ (c'.buf.take shmDataPad ++ filler)]) =
      size.toInt := by
    have happ : framesSize (init ++ [c.data ++ (c'.buf.take shmDataPad ++ filler)]) =
        framesSize init + (c.data ++ (c'.buf.take shmDataPad ++ filler)).length := by
      unfold framesSize
      rw [List.flatten_append, List.flatten_singleton, List.length_append, Int.natCast_add]
    rw [happ, hpayload, ← hsize, hwritten, Int.natCast_add, Int.add_assoc]
  have htake := taken_frames a (List.rel_append hls (.cons hframe .nil)) ?_ hframes reads_endBytes
    (junk ++ bytesOf a.last) maxObjectSize
  · rw [← htake]
    congr 1
    rw [head_full, full_eq, hdata, List.flatten_append, List.flatten_singleton]
    simp only [List.append_assoc]
  · intro d hd
    rcases List.mem_append.mp hd with hd | hd
    · exact hinit d hd
    · rw [List.mem_singleton.mp hd, hpayload]
      omega

/-! ## 7. Two runs -/

/-- The frames around a put under the key `[9]`. -/
def aroundSmall (size : Int64) : Around [9] size where
  header := ⟨opPutHeader, encodePutHeader [9] size, List.replicate 18 0, by
    rw [encodePutHeader_eq]
    simp [putI64]
    decide, by
    rw [encodePutHeader_eq]
    simp [putI64]
    decide⟩
  last := ⟨opPutEnd, [], List.replicate 5 0, by decide, by decide⟩
  header_op := rfl
  header_payload := rfl
  last_op := rfl
  last_payload := rfl

/-- A slice of shared memory that holds zeros, filled with `data`. -/
def callOf (data : Bytes) (h : 0 < data.length) (hle : data.length ≤ chunkSize.toNat) : PutCall :=
  ⟨List.replicate (shmDataPad + data.length) 0, data, h, hle, List.length_replicate⟩

/-- Where the server takes one frame off the stream, `Commit` can return nil, and the frame is
the object. -/
theorem commitNil_of_taken {size : Int64} {calls : List PutCall} {bytes : List Byte} {d : Bytes}
    (hd : align4k d.length ≤ 16384)
    (hcommit : ((ShmPutWriter.begin size).run calls).commit (bytesOf (aroundSmall size).header)
      (bytesOf (aroundSmall size).last) = some bytes)
    (htaken : taken 16384 bytes = some ([9], [d])) :
    ∃ v', Nonempty (CommitNil ⟨16384, 4⟩ 16384 (aroundSmall size)
      ((ShmPutWriter.begin size).run calls) blankVolume v') ∧ object v' [9] = some d := by
  have hsize : framesSize [d] = d.length := by rw [framesSize, List.flatten_singleton]
  have hfits : 0 + align4k (framesSize [d]) ≤ 16384 := by
    rw [hsize, Int.zero_add]
    exact hd
  let t : WriteTask ⟨16384, 4⟩ := .ofShm [9] 0 0 [d] (Int.le_refl 0) (by decide) hfits
  have hgood : t.Good (fun _ => true) := by
    intro j hj
    rw [List.mem_singleton.mp hj]
    exact ⟨show (0 + 0 : Int) % blockSize = 0 by decide, fun _ _ => rfl⟩
  have hwritten : Written t blankVolume (runAlone (fun _ => true) true t blankVolume).2 :=
    .alone (fun _ => true) true (by rw [runAlone_good hgood]; rfl)
  have hobject := object_of_written hwritten
  have hdata : t.frames.flatten = d := List.flatten_singleton
  rw [hdata] at hobject
  exact ⟨_, ⟨⟨bytes, t, hcommit, htaken, hwritten⟩⟩, hobject⟩

theorem commit_one (c : PutCall) {size : Int64} (hsize : size.toInt = c.data.length)
    (header last : List Byte) : ((ShmPutWriter.begin size).run [c]).commit header last =
      some (header ++ (shmWriteHead c.full opPutData c.data.length ++ last)) := by
  have hpos := c.data_pos
  simp [ShmPutWriter.commit, ShmPutWriter.run, ShmPutWriter.reserve, ShmPutWriter.addSlice,
    ShmPutWriter.begin, ShmPutWriter.commitFrame, hsize, hpos]

/-- A put of one call is stored. -/
theorem commitNil_one (c : PutCall) {size : Int64} (hsize : size.toInt = c.data.length)
    (hmax : size.toInt ≤ 16384) (hd : align4k c.data.length ≤ 16384) :
    ∃ v', Nonempty (CommitNil ⟨16384, 4⟩ 16384 (aroundSmall size)
      ((ShmPutWriter.begin size).run [c]) blankVolume v') := by
  have hframes : framesSize [c.data] = size.toInt := by
    rw [framesSize, List.flatten_singleton, hsize]
  have htaken := taken_frames (aroundSmall size) (.cons (frameOf_full c) .nil)
    (by intro d hd; rw [List.mem_singleton.mp hd]; exact c.data_pos) hframes
    (aroundSmall size).reads_last [] 16384
  rw [List.append_nil, List.flatten_singleton, if_pos ⟨by decide, hmax⟩] at htaken
  obtain ⟨v', hnil, -⟩ := commitNil_of_taken hd (commit_one c hsize _ _) htaken
  exact ⟨v', hnil⟩

def loneCall : PutCall := callOf [1, 2, 3] (by decide) (by decide)

/-- 4096 bytes of data that begin like an `OpPutEnd` frame. -/
def endData : Bytes := endBytes ++ List.replicate 4091 5

theorem endData_length : endData.length = 4096 := by
  have hfive : endBytes.length = 5 := rfl
  rw [endData, List.length_append, List.length_replicate, hfive]

def headCall : PutCall := callOf [7] (by decide) (by decide)

def endCall : PutCall := callOf endData (by rw [endData_length]; decide)
  (by rw [endData_length]; decide)

theorem callOf_pad (data : Bytes) (h hle) :
    (callOf data h hle).buf.take shmDataPad = List.replicate shmDataPad 0 := by
  show List.take shmDataPad (List.replicate (shmDataPad + data.length) 0) = _
  rw [List.take_replicate, Nat.min_eq_left (Nat.le_add_right _ _)]

theorem run_two (w : ShmPutWriter) (c c' : PutCall) :
    (w.run [c]).reserve c' = w.run [c, c'] := rfl

end Taihu.PutWriter
