/-
# The bytes of a shared memory stream

`internal/transport/shm_frame_linux.go` (`shmReadFrame`, `shmWriteFrame`, `shmCommitFrame`) and
the parts of `server_shm_linux.go` that fill in reserved slices (`shmWriteDataFrameBatch`,
`shmWriteDataFrameDirect`, `shmWriteDataFramesChain`, `fillPutResp`, `fillPendingHeader`).
`ShmStream.lean` says which frames are written; here they are bytes.

One direction of a stream is the reserved slices one behind another, and the peer reads frames
off it.  A slice holds whatever was in the shared memory before (`buf`), and the data area of a
slot whatever the device has left there (`area`).
-/
import Taihu.Protocol
import Taihu.ShmStream
import Mathlib

namespace Taihu.ShmBytes

open Codec Protocol

/-! ## 1. Frames -/

/-- `ShmDataPad`. -/
def shmDataPad : Nat := 4096

/-- `shmLenPrefixLen`. -/
def shmLenPrefixLen : Nat := 4

/-- `shmOpLen`. -/
def shmOpLen : Nat := 1

/-- `shmMaxFrameSize`. -/
def shmMaxFrameSize : Nat := shmOpLen + chunkSize.toNat

def opPutHeader : Byte := 0x01
def opPutData : Byte := 0x02
def opPutEnd : Byte := 0x03
def opResp : Byte := 0x04
def opGetData : Byte := 0x06
def opGetErr : Byte := 0x08
def opStatResp : Byte := 0x0B
def opGetDataFinal : Byte := 0x86

/-- The frames that carry a pad in front of their payload. -/
def IsData (op : Byte) : Prop := op = opGetData ∨ op = opGetDataFinal ∨ op = opPutData

instance (op : Byte) : Decidable (IsData op) := inferInstanceAs (Decidable (_ ∨ _))

/-- `ErrShmBadFrame`, or no bytes to read yet. -/
inductive FrameErr where
  | blocked
  | badFrame
  deriving DecidableEq, Repr

/-- The op and the payload of a frame. -/
abbrev Frame := Byte × List Byte

/-- Where `shmReadFrame` skips the pad. -/
def skipPad (op : Byte) : Parser Byte FrameErr (List Byte) :=
  if IsData op then next .blocked (shmDataPad - shmLenPrefixLen - shmOpLen) else pure []

/-- `shmReadFrame`. -/
def shmReadFrame : Parser Byte FrameErr Frame := do
  let lb ← next .blocked shmLenPrefixLen
  let n := ofDigits lb
  if n < shmOpLen ∨ n > shmMaxFrameSize then throw .badFrame
  else
    let b ← next .blocked shmOpLen
    let op := b.headD 0
    let _ ← skipPad op
    let payload ← next .blocked (n - shmOpLen)
    pure (op, payload)

/-- How much a frame takes: what `shmWriteFrame` reserves, and what `shmReadFrame` reads. -/
def frameLen (op : Byte) (n : Nat) : Nat :=
  if IsData op then shmDataPad + n else shmLenPrefixLen + shmOpLen + n

/-- [4B len][1B op], as `shmCommitFrame` and the others write it. -/
def shmWriteHead (buf : List Byte) (op : Byte) (n : Nat) : List Byte :=
  copyAt (copyAt buf 0 (u32 (UInt32.ofNat (shmOpLen + n)))) shmLenPrefixLen [op]

/-- `shmWriteFrame`: what becomes of the slice `buf` of `frameLen` bytes. -/
def shmWriteFrame (buf : List Byte) (op : Byte) (payload : List Byte) : List Byte :=
  let buf := shmWriteHead buf op payload.length
  let payloadOff := if IsData op then shmDataPad else shmLenPrefixLen + shmOpLen
  copyAt buf payloadOff payload

/-! ## 2. Responses -/

/-- `EncCode`. -/
def encCode (c : Taihu.ErrCode) : List Byte :=
  u32 (match c with
    | .ok => 0
    | .notFound => 1
    | .invalidRange => 2
    | .tooLarge => 3
    | .noSpace => 4
    | .internal => 5
    | .invalidArgument => 6)

/-- A frame of `ShmStream.lean` on the wire. -/
def wire : ShmFrame → Frame
  | .get (.data payload) => (opGetData, payload)
  | .get (.final payload) => (opGetDataFinal, payload)
  | .get (.err code) => (opGetErr, encCode code)
  | .placeholder => (opGetErr, encCode .internal)
  | .resp code => (opResp, encCode code)
  | .statResp size => (opStatResp, u64 (UInt64.ofInt size))

/-- The slice of a call of `shmWriteFrame`. -/
structure CtrlSlice where
  op : Byte
  payload : List Byte
  buf : List Byte
  payload_le : payload.length ≤ chunkSize.toNat
  reserved : buf.length = frameLen op payload.length

/-- A reserved slice with a data area, and what was read into the area: `n` bytes of it are data,
for a request of `want` bytes at `pos` that ends at `stop`. -/
structure DataSlot where
  pos : Int
  want : Int
  stop : Int
  buf : List Byte
  area : List Byte
  n : Nat
  rerr : Option Err
  want_le : want ≤ chunkSize
  reserved : buf.length = shmDataPad + (align4k want).toNat
  area_length : area.length = (align4k want).toNat
  n_le : (n : Int) ≤ want

/-- The slice of `fillPutResp`. -/
structure RespSlice where
  code : Taihu.ErrCode
  buf : List Byte
  reserved : buf.length = shmLenPrefixLen + shmOpLen + 4

/-- `fillPutResp`. -/
def fillPutResp (r : RespSlice) : List Byte :=
  copyAt (shmWriteHead r.buf opResp 4) (shmLenPrefixLen + shmOpLen) (encCode r.code)

namespace DataSlot

/-- The data that was read. -/
def data (s : DataSlot) : List Byte := s.area.take s.n

/-- The placeholder head, and the data area after the read. -/
def placed (s : DataSlot) : List Byte :=
  let buf := copyAt (shmWriteHead s.buf opGetErr 4) (shmLenPrefixLen + shmOpLen) (encCode .internal)
  copyAt buf shmDataPad s.area

/-- The code of a failed read, over that of the placeholder. -/
def failed (s : DataSlot) (e : Err) : List Byte :=
  copyAt s.placed (shmLenPrefixLen + shmOpLen) (encCode (mapStorageErr e))

/-- The head of a data frame, over the placeholder. -/
def filled (s : DataSlot) (op : Byte) : List Byte := shmWriteHead s.placed op s.n

/-- What is done with the outcome of a read: the end of `shmWriteDataFrameDirect`, of the
goroutines of `shmWriteDataFramesChain`, and `fillPendingHeader`. -/
def finish (s : DataSlot) : List Byte :=
  match s.rerr with
  | none => s.filled (if s.pos + s.n ≥ s.stop then opGetDataFinal else opGetData)
  | some .eof => s.filled opGetDataFinal
  | some e => s.failed e

end DataSlot

/-- `shmWriteDataFrameDirect`. -/
def shmWriteDataFrameDirect (s : DataSlot) : List Byte := s.finish

/-- `fillPendingHeader`, on the slice of `trySubmitAsyncGet`. -/
def fillPendingHeader (s : DataSlot) : List Byte := s.finish

/-- `shmWriteDataFramesChain`: the slices in the order in which they were reserved. -/
def shmWriteDataFramesChain (slots : List DataSlot) : List (List Byte) := slots.map DataSlot.finish

/-- `shmWriteDataFrameBatch`; `final` is what the batch reader says. -/
def shmWriteDataFrameBatch (s : DataSlot) (final : Bool) : List Byte :=
  match s.rerr with
  | some e => s.failed e
  | none => s.filled (if final then opGetDataFinal else opGetData)

/-- A response of the server, by who writes it. -/
inductive Response where
  | write (c : CtrlSlice)
  | putResp (r : RespSlice)
  | batch (s : DataSlot) (final : Bool)
  | direct (s : DataSlot)
  | chain (slots : List DataSlot)
  | pending (s : DataSlot)

/-- The frame that is meant for a slot. -/
def DataSlot.frame (s : DataSlot) : Frame := wire (.get (getFrame s.pos s.stop s.data s.rerr))

/-- The frame that is meant for a slot of the batch reader. -/
def DataSlot.batchFrame (s : DataSlot) (final : Bool) : Frame :=
  wire (.get (match s.rerr with
    | some e => .err (mapStorageErr e)
    | none => if final then .final s.data else .data s.data))

/-- The reserved slices of a response in their order, each with the frame that is meant. -/
def Response.slices : Response → List (Frame × List Byte)
  | write c => [((c.op, c.payload), shmWriteFrame c.buf c.op c.payload)]
  | putResp r => [(wire (.resp r.code), fillPutResp r)]
  | batch s final => [(s.batchFrame final, shmWriteDataFrameBatch s final)]
  | direct s => [(s.frame, shmWriteDataFrameDirect s)]
  | chain slots => (slots.map DataSlot.frame).zip (shmWriteDataFramesChain slots)
  | pending s => [(s.frame, fillPendingHeader s)]

/-- The frames that are meant. -/
def meant (rs : List Response) : List Frame := (rs.flatMap Response.slices).map Prod.fst

/-- One direction of the stream. -/
def sent (rs : List Response) : List Byte := ((rs.flatMap Response.slices).map Prod.snd).flatten

/-- The peer's first reads give `fs`, and then nothing is left. -/
def ReadBack (bytes : List Byte) (fs : List Frame) : Prop :=
  (many shmReadFrame fs.length []).run ⟨bytes, 0⟩ = ((fs, none), ⟨bytes, bytes.length⟩)

/-! ## 3. Reading a frame -/

/-- How long the pad behind the op is. -/
def padLen (op : Byte) : Nat := if IsData op then shmDataPad - shmLenPrefixLen - shmOpLen else 0

/-- The bytes begin with a frame; `tail` is what is left of them. -/
structure Begins (f : Frame) (pad tail l : List Byte) : Prop where
  small : f.2.length ≤ chunkSize.toNat
  pad_length : pad.length = padLen f.1
  bytes : l = u32 (UInt32.ofNat (shmOpLen + f.2.length)) ++ ([f.1] ++ (pad ++ (f.2 ++ tail)))

theorem frameLen_eq (op : Byte) (n : Nat) :
    frameLen op n = shmLenPrefixLen + shmOpLen + padLen op + n := by
  unfold frameLen padLen shmDataPad shmLenPrefixLen shmOpLen
  split <;> omega

theorem Begins.length {f : Frame} {pad tail l : List Byte} (h : Begins f pad tail l) :
    l.length = frameLen f.1 f.2.length + tail.length := by
  rw [h.bytes, frameLen_eq, ← h.pad_length]
  simp [shmLenPrefixLen, shmOpLen]
  omega

theorem reads_skipPad {op : Byte} {pad : List Byte} (h : pad.length = padLen op) :
    Reads (skipPad op) pad pad := by
  unfold skipPad
  rw [padLen] at h
  split at h
  · rename_i hop
    rw [if_pos hop]
    exact (undoes_next _ _).reads pad h
  · rename_i hop
    rw [if_neg hop, List.eq_nil_of_length_eq_zero h]
    exact Reads.pure []

/-- The length field of a frame that is not too long. -/
theorem ofDigits_head {n : Nat} (hn : n ≤ chunkSize.toNat) :
    ofDigits (u32 (UInt32.ofNat (shmOpLen + n))) = shmOpLen + n := by
  have hlt : shmOpLen + n < 2 ^ 32 := by
    have : chunkSize.toNat = 4194304 := rfl
    unfold shmOpLen
    omega
  rw [u32, ofDigits_digits, UInt32.toNat_ofNat_of_lt' hlt]
  exact Nat.mod_eq_of_lt hlt

/-- A frame with nothing behind it in its slice is read back. -/
theorem Begins.reads {f : Frame} {pad l : List Byte} (h : Begins f pad [] l) :
    Reads shmReadFrame f l := by
  obtain ⟨op, payload⟩ := f
  have hn := ofDigits_head h.small
  have hok : ¬ (shmOpLen + payload.length < shmOpLen ∨
      shmOpLen + payload.length > shmMaxFrameSize) := by
    have := h.small
    unfold shmMaxFrameSize
    simp only at this
    omega
  have hlen : shmOpLen + payload.length - shmOpLen = payload.length := Nat.add_sub_cancel_left ..
  rw [h.bytes]
  unfold shmReadFrame
  refine ((undoes_next _ _).reads (u32 (UInt32.ofNat (shmOpLen + payload.length))) ?_).bind ?_
  · exact u32_length _
  rw [hn, if_neg hok, hlen]
  refine ((undoes_next _ _).reads [op] rfl).bind ?_
  refine (reads_skipPad h.pad_length).bind ?_
  exact ((undoes_next _ _).reads payload rfl).bind (Reads.pure _)

theorem skipPad_ok {op : Byte} {r r' : Reader Byte} {pad : List Byte}
    (h : (skipPad op).on r = (.ok pad, r')) : r'.pos = r.pos + padLen op := by
  unfold skipPad at h
  unfold padLen
  split at h
  · rename_i hop
    rw [if_pos hop]
    exact (next_ok h).2
  · rename_i hop
    rw [if_neg hop]
    cases h
    rfl

/-- What `shmReadFrame` returns tells how much it has read. -/
theorem shmReadFrame_advances : Advances shmReadFrame (fun f => frameLen f.1 f.2.length) := by
  intro r f r' h
  obtain ⟨lb, r₁, h₁, h⟩ := on_bind_ok h
  dsimp only at h
  split at h
  · cases h
  · rename_i hn
    obtain ⟨b, r₂, h₂, h⟩ := on_bind_ok h
    obtain ⟨pad, r₃, h₃, h⟩ := on_bind_ok h
    obtain ⟨payload, r₄, h₄, h⟩ := on_bind_ok h
    cases h
    obtain ⟨hlen, hpos⟩ := next_ok h₄
    rw [hpos, skipPad_ok h₃, (next_ok h₂).2, (next_ok h₁).2]
    show _ = r.pos + frameLen (b.headD 0) payload.length
    rw [frameLen_eq, hlen]
    omega

/-! ## 4. Reading all frames -/

/-- Sums of which one is bounded by the other are equal only if their terms are. -/
theorem eq_of_sum_eq {α : Type} (f g : α → Nat) (l : List α) (hle : ∀ x ∈ l, f x ≤ g x)
    (h : (l.map f).sum = (l.map g).sum) : ∀ x ∈ l, f x = g x := by
  induction l with
  | nil => exact fun x hx => absurd hx List.not_mem_nil
  | cons x l ih =>
    have hx := hle x List.mem_cons_self
    have hl : ∀ y ∈ l, f y ≤ g y := fun y hy => hle y (List.mem_cons_of_mem x hy)
    have hsum : (l.map f).sum ≤ (l.map g).sum := List.sum_le_sum hl
    rw [List.map_cons, List.sum_cons, List.map_cons, List.sum_cons] at h
    intro y hy
    rcases List.mem_cons.mp hy with rfl | hy
    · omega
    · exact ih hl (by omega) y hy

/-- **Slices that begin with their frames are read back if and only if nothing is left in any of
them.** -/
theorem readBack_iff (ps : List (Frame × List Byte))
    (h : ∀ p ∈ ps, ∃ pad tail, Begins p.1 pad tail p.2) :
    ReadBack (ps.map Prod.snd).flatten (ps.map Prod.fst) ↔
      ∀ p ∈ ps, p.2.length = frameLen p.1.1 p.1.2.length := by
  constructor
  · intro hread
    obtain ⟨xs, hxs, hpos⟩ := many_advances shmReadFrame_advances _ _ _ hread
    rw [List.nil_append] at hxs
    rw [← hxs] at hpos
    have hsum : (ps.map (fun p => frameLen p.1.1 p.1.2.length)).sum =
        (ps.map (fun p => p.2.length)).sum := by
      have hlen : (ps.map Prod.snd).flatten.length = (ps.map (fun p => p.2.length)).sum := by
        rw [List.length_flatten, List.map_map]
        rfl
      rw [List.map_map, Nat.zero_add] at hpos
      exact hpos.symm.trans hlen
    refine fun p hp => (eq_of_sum_eq _ _ ps ?_ hsum p hp).symm
    intro p hp
    obtain ⟨pad, tail, hb⟩ := h p hp
    rw [hb.length]
    exact Nat.le_add_right _ _
  · intro hlen
    have hall : List.Forall₂ (Reads shmReadFrame) (ps.map Prod.fst) (ps.map Prod.snd) := by
      rw [List.forall₂_map_left_iff, List.forall₂_map_right_iff, List.forall₂_same]
      intro p hp
      obtain ⟨pad, tail, hb⟩ := h p hp
      have htail : tail = [] := by
        have := hb.length
        rw [hlen p hp] at this
        exact List.eq_nil_of_length_eq_zero (by omega)
      subst htail
      exact hb.reads
    have := many_reads hall [] ⟨(ps.map Prod.snd).flatten, 0⟩ [] (Nat.zero_le _)
      (List.append_nil _).symm
    rw [Nat.zero_add] at this
    exact this

/-! ## 5. What the writers leave in their slices -/

@[simp] theorem encCode_length (c : Taihu.ErrCode) : (encCode c).length = 4 := u32_length _

theorem shmWriteHead_eq {buf : List Byte} (h : 5 ≤ buf.length) (op : Byte) (n : Nat) :
    shmWriteHead buf op n = u32 (UInt32.ofNat (shmOpLen + n)) ++ ([op] ++ buf.drop 5) := by
  have hlen : copyAt buf 0 (u32 (UInt32.ofNat (shmOpLen + n))) =
      u32 (UInt32.ofNat (shmOpLen + n)) ++ buf.drop 4 := by
    have := copyAt_append [] buf (u32 (UInt32.ofNat (shmOpLen + n))) (by rw [u32_length]; omega)
    rwa [List.nil_append, List.nil_append, u32_length] at this
  have hop := copyAt_append (u32 (UInt32.ofNat (shmOpLen + n))) (buf.drop 4) [op]
    (by rw [List.length_drop, List.length_singleton]; omega)
  rw [u32_length, List.length_singleton, List.drop_drop, List.append_assoc] at hop
  rw [shmWriteHead, hlen]
  exact hop

/-- A write behind the head. -/
theorem copyAt_behind_head {l p r s : List Byte} {o : Byte} {i : Nat}
    (hlen : l.length = 4) (hi : i = 5 + p.length) (h : s.length ≤ r.length) :
    copyAt (l ++ ([o] ++ (p ++ r))) i s = l ++ ([o] ++ (p ++ (s ++ r.drop s.length))) := by
  have hwrite := copyAt_append (l ++ ([o] ++ p)) r s h
  have hw : (l ++ ([o] ++ p)).length = i := by
    rw [hi]
    simp [hlen]
    omega
  rw [hw] at hwrite
  simpa using hwrite

theorem begins_write (c : CtrlSlice) :
    ∃ pad, Begins (c.op, c.payload) pad [] (shmWriteFrame c.buf c.op c.payload) := by
  have hbuf : c.buf.length = 5 + padLen c.op + c.payload.length :=
    c.reserved.trans (frameLen_eq _ _)
  have hpad : ((c.buf.drop 5).take (padLen c.op)).length = padLen c.op := by
    rw [List.length_take, List.length_drop]
    omega
  have hrest : ((c.buf.drop 5).drop (padLen c.op)).length = c.payload.length := by
    rw [List.length_drop, List.length_drop]
    omega
  have hoff : (if IsData c.op then shmDataPad else shmLenPrefixLen + shmOpLen) =
      5 + ((c.buf.drop 5).take (padLen c.op)).length := by
    rw [hpad, padLen]
    split <;> rfl
  refine ⟨_, c.payload_le, hpad, ?_⟩
  have hwrite := copyAt_behind_head (o := c.op)
    (u32_length (UInt32.ofNat (shmOpLen + c.payload.length))) hoff (Nat.le_of_eq hrest.symm)
  have hleft : ((c.buf.drop 5).drop (padLen c.op)).drop c.payload.length = [] :=
    List.drop_eq_nil_of_le (Nat.le_of_eq hrest)
  rw [List.take_append_drop, hleft] at hwrite
  rw [shmWriteFrame, shmWriteHead_eq (by omega)]
  exact hwrite

theorem begins_putResp (r : RespSlice) :
    Begins (wire (.resp r.code)) [] [] (fillPutResp r) := by
  have hbuf : r.buf.length = 9 := r.reserved
  have hrest : (r.buf.drop 5).length = (encCode r.code).length := by
    rw [List.length_drop, encCode_length, hbuf]
  have hcode := encCode_length r.code
  refine ⟨?_, rfl, ?_⟩
  · show (encCode r.code).length ≤ _
    rw [hcode]
    decide
  · have hwrite := copyAt_behind_head (i := 5) (p := []) (o := opResp)
      (u32_length (UInt32.ofNat (shmOpLen + 4))) rfl (Nat.le_of_eq hrest.symm)
    have hleft : (r.buf.drop 5).drop (encCode r.code).length = [] :=
      List.drop_eq_nil_of_le (Nat.le_of_eq hrest)
    rw [hleft] at hwrite
    rw [fillPutResp, shmWriteHead_eq (by omega)]
    show _ = u32 (UInt32.ofNat (shmOpLen + (encCode r.code).length)) ++ _
    rw [hcode]
    exact hwrite

namespace DataSlot

/-- The head and the pad of a slot, and its area behind them. -/
theorem placed_eq (s : DataSlot) : ∃ pad, pad.length = shmDataPad - shmLenPrefixLen - shmOpLen ∧
    s.placed = u32 (UInt32.ofNat (shmOpLen + 4)) ++ ([opGetErr] ++ (pad ++ s.area)) := by
  have hbuf : s.buf.length = 4096 + s.area.length := by
    rw [s.area_length]
    exact s.reserved
  have hcode := copyAt_behind_head (i := 5) (p := []) (o := opGetErr) (r := s.buf.drop 5)
    (s := encCode .internal) (u32_length (UInt32.ofNat (shmOpLen + 4))) rfl
    (by rw [encCode_length, List.length_drop]; omega)
  rw [encCode_length, List.drop_drop] at hcode
  have hpad : (encCode .internal ++ (s.buf.drop 9).take 4087).length = 4091 := by
    rw [List.length_append, encCode_length, List.length_take, List.length_drop]
    omega
  have hrest : ((s.buf.drop 9).drop 4087).length = s.area.length := by
    rw [List.length_drop, List.length_drop]
    omega
  have harea := copyAt_behind_head (i := 4096) (o := opGetErr)
    (u32_length (UInt32.ofNat (shmOpLen + 4))) (by rw [hpad]) (Nat.le_of_eq hrest.symm)
  have hleft : ((s.buf.drop 9).drop 4087).drop s.area.length = [] :=
    List.drop_eq_nil_of_le (Nat.le_of_eq hrest)
  rw [List.append_assoc, List.take_append_drop, hleft, List.append_nil] at harea
  refine ⟨_, hpad, ?_⟩
  rw [placed, shmWriteHead_eq (by omega)]
  exact (congrArg (fun p => copyAt p 4096 s.area) hcode).trans harea

theorem data_length (s : DataSlot) : s.data.length = s.n := by
  have hn := s.n_le
  have hle := le_align4k s.want
  rw [data, List.length_take, s.area_length]
  omega

theorem placed_length (s : DataSlot) :
    s.placed.length = shmDataPad + (align4k s.want).toNat := by
  obtain ⟨pad, hpad, hplaced⟩ := s.placed_eq
  rw [hplaced, ← s.area_length]
  simp [hpad, shmDataPad, shmLenPrefixLen, shmOpLen]
  omega

theorem begins_filled (s : DataSlot) {op : Byte} (hop : IsData op) :
    ∃ pad tail, Begins (op, s.data) pad tail (s.filled op) := by
  obtain ⟨pad, hpad, hplaced⟩ := s.placed_eq
  refine ⟨pad, s.area.drop s.n, ?_, ?_, ?_⟩
  · have hn := s.n_le
    have hwant := s.want_le
    show s.data.length ≤ _
    rw [s.data_length]
    omega
  · rw [hpad, padLen, if_pos hop]
  · have hlen : 5 ≤ s.placed.length := by
      rw [s.placed_length]
      unfold shmDataPad
      omega
    have hdrop : s.placed.drop 5 = pad ++ s.area := by
      rw [hplaced, ← List.append_assoc, List.drop_left' (by simp)]
    rw [filled, shmWriteHead_eq hlen, hdrop]
    show _ = u32 (UInt32.ofNat (shmOpLen + s.data.length)) ++ ([op] ++ (pad ++ (s.data ++ _)))
    rw [s.data_length, data, List.take_append_drop]

theorem begins_failed (s : DataSlot) (e : Err) :
    ∃ pad tail, Begins (wire (.get (.err (mapStorageErr e)))) pad tail (s.failed e) := by
  obtain ⟨pad, hpad, hplaced⟩ := s.placed_eq
  have hcode := encCode_length (mapStorageErr e)
  refine ⟨[], (pad ++ s.area).drop 4, ?_, rfl, ?_⟩
  · show (encCode (mapStorageErr e)).length ≤ _
    rw [hcode]
    decide
  · have hwrite := copyAt_behind_head (i := 5) (p := []) (o := opGetErr) (r := pad ++ s.area)
      (s := encCode (mapStorageErr e)) (u32_length (UInt32.ofNat (shmOpLen + 4))) rfl
      (by
        rw [hcode, List.length_append, hpad]
        unfold shmDataPad shmLenPrefixLen shmOpLen
        omega)
    rw [hcode] at hwrite
    show _ = u32 (UInt32.ofNat (shmOpLen + (encCode (mapStorageErr e)).length)) ++ _
    rw [hcode, failed, hplaced]
    exact hwrite

/-- The frame that is meant carries the data, or it is an error. -/
theorem frame_cases (s : DataSlot) :
    ((s.rerr = none ∨ s.rerr = some .eof) ∧
      ∃ op, IsData op ∧ s.frame = (op, s.data) ∧ s.finish = s.filled op) ∨
    (¬ (s.rerr = none ∨ s.rerr = some .eof) ∧
      ∃ e, s.frame = wire (.get (.err (mapStorageErr e))) ∧ s.finish = s.failed e) := by
  have hn : (s.data.length : Int) = s.n := congrArg Nat.cast s.data_length
  unfold frame getFrame finish
  rw [hn]
  rcases s.rerr with _ | e
  · left
    by_cases hend : s.pos + s.n ≥ s.stop
    · rw [if_pos hend, if_pos hend]
      exact ⟨.inl rfl, opGetDataFinal, by decide, rfl, rfl⟩
    · rw [if_neg hend, if_neg hend]
      exact ⟨.inl rfl, opGetData, by decide, rfl, rfl⟩
  · cases e with
    | eof => exact .inl ⟨.inr rfl, opGetDataFinal, by decide, rfl, rfl⟩
    | _ => exact .inr ⟨by simp, _, rfl, rfl⟩

theorem batchFrame_cases (s : DataSlot) (final : Bool) :
    (s.rerr = none ∧ ∃ op, IsData op ∧ s.batchFrame final = (op, s.data) ∧
      shmWriteDataFrameBatch s final = s.filled op) ∨
    (s.rerr ≠ none ∧ ∃ e, s.batchFrame final = wire (.get (.err (mapStorageErr e))) ∧
      shmWriteDataFrameBatch s final = s.failed e) := by
  unfold batchFrame shmWriteDataFrameBatch
  rcases s.rerr with _ | e
  · cases final with
    | false => exact .inl ⟨rfl, opGetData, by decide, rfl, rfl⟩
    | true => exact .inl ⟨rfl, opGetDataFinal, by decide, rfl, rfl⟩
  · exact .inr ⟨by simp, e, rfl, rfl⟩

/-- The read has filled the whole data area. -/
def Full (s : DataSlot) : Prop :=
  (s.rerr = none ∨ s.rerr = some .eof) ∧ (s.n : Int) = align4k s.want

/-- `Full`, for the batch reader. -/
def BatchFull (s : DataSlot) : Prop := s.rerr = none ∧ (s.n : Int) = align4k s.want

theorem filled_length (s : DataSlot) (op : Byte) : (s.filled op).length = s.placed.length := by
  have h := s.placed_length
  unfold filled shmWriteHead
  rw [copyAt_length, copyAt_length]
  · rw [u32_length, h]
    unfold shmDataPad
    omega
  · rw [copyAt_length]
    · rw [h]
      unfold shmDataPad shmLenPrefixLen
      simp
      omega
    · rw [u32_length, h]
      unfold shmDataPad
      omega

theorem failed_length (s : DataSlot) (e : Err) : (s.failed e).length = s.placed.length := by
  have h := s.placed_length
  unfold failed
  rw [copyAt_length]
  rw [encCode_length, h]
  unfold shmDataPad shmLenPrefixLen shmOpLen
  omega

/-- A data frame fills its slice only where the whole area was read. -/
theorem filled_exact (s : DataSlot) {op : Byte} (hop : IsData op) :
    (s.filled op).length = frameLen op s.data.length ↔ (s.n : Int) = align4k s.want := by
  have hnonneg := align4k_nonneg s.want
  rw [s.filled_length, s.placed_length, s.data_length, frameLen, if_pos hop]
  omega

/-- An error never fills its slice. -/
theorem failed_inexact (s : DataSlot) (e : Err) (c : Taihu.ErrCode) :
    (s.failed e).length ≠ frameLen opGetErr (encCode c).length := by
  have hop : ¬ IsData opGetErr := by decide
  rw [s.failed_length, s.placed_length, encCode_length, frameLen, if_neg hop]
  unfold shmDataPad shmLenPrefixLen shmOpLen
  omega

theorem begins_finish (s : DataSlot) : ∃ pad tail, Begins s.frame pad tail s.finish := by
  rcases s.frame_cases with ⟨-, op, hop, hframe, hfin⟩ | ⟨-, e, hframe, hfin⟩
  · rw [hframe, hfin]
    exact s.begins_filled hop
  · rw [hframe, hfin]
    exact s.begins_failed e

theorem finish_exact (s : DataSlot) :
    s.finish.length = frameLen s.frame.1 s.frame.2.length ↔ s.Full := by
  rcases s.frame_cases with ⟨herr, op, hop, hframe, hfin⟩ | ⟨herr, e, hframe, hfin⟩
  · rw [hframe, hfin, s.filled_exact hop]
    exact ⟨fun h => ⟨herr, h⟩, And.right⟩
  · rw [hframe, hfin]
    exact ⟨fun h => absurd h (s.failed_inexact e _), fun h => absurd h.1 herr⟩

theorem begins_batch (s : DataSlot) (final : Bool) :
    ∃ pad tail, Begins (s.batchFrame final) pad tail (shmWriteDataFrameBatch s final) := by
  rcases s.batchFrame_cases final with ⟨-, op, hop, hframe, hfin⟩ | ⟨-, e, hframe, hfin⟩
  · rw [hframe, hfin]
    exact s.begins_filled hop
  · rw [hframe, hfin]
    exact s.begins_failed e

theorem batch_exact (s : DataSlot) (final : Bool) :
    (shmWriteDataFrameBatch s final).length =
      frameLen (s.batchFrame final).1 (s.batchFrame final).2.length ↔ s.BatchFull := by
  rcases s.batchFrame_cases final with ⟨herr, op, hop, hframe, hfin⟩ | ⟨herr, e, hframe, hfin⟩
  · rw [hframe, hfin, s.filled_exact hop]
    exact ⟨fun h => ⟨herr, h⟩, And.right⟩
  · rw [hframe, hfin]
    exact ⟨fun h => absurd h (s.failed_inexact e _), fun h => absurd h.1 herr⟩

end DataSlot

/-! ## 6. The stream of responses -/

namespace Response

/-- Every read into a slot of the response has filled it. -/
def Full : Response → Prop
  | write _ => True
  | putResp _ => True
  | batch s _ => s.BatchFull
  | direct s => s.Full
  | chain slots => ∀ s ∈ slots, s.Full
  | pending s => s.Full

theorem slices_begin (r : Response) : ∀ p ∈ r.slices, ∃ pad tail, Begins p.1 pad tail p.2 := by
  intro p hp
  cases r with
  | write c =>
    rw [List.mem_singleton.mp hp]
    obtain ⟨pad, h⟩ := begins_write c
    exact ⟨pad, [], h⟩
  | putResp r =>
    rw [List.mem_singleton.mp hp]
    exact ⟨_, _, begins_putResp r⟩
  | batch s final =>
    rw [List.mem_singleton.mp hp]
    exact s.begins_batch final
  | direct s =>
    rw [List.mem_singleton.mp hp]
    exact s.begins_finish
  | chain slots =>
    rw [slices, shmWriteDataFramesChain, List.zip_map'] at hp
    obtain ⟨s, -, rfl⟩ := List.mem_map.mp hp
    exact s.begins_finish
  | pending s =>
    rw [List.mem_singleton.mp hp]
    exact s.begins_finish

/-- Nothing is left in the slices of a response if and only if its reads were full. -/
theorem slices_exact (r : Response) :
    (∀ p ∈ r.slices, p.2.length = frameLen p.1.1 p.1.2.length) ↔ r.Full := by
  cases r with
  | write c =>
    simp only [slices, List.forall_mem_singleton, Full, iff_true]
    obtain ⟨pad, h⟩ := begins_write c
    exact h.length
  | putResp r =>
    simp only [slices, List.forall_mem_singleton, Full, iff_true]
    exact (begins_putResp r).length
  | batch s final =>
    simp only [slices, List.forall_mem_singleton]
    exact s.batch_exact final
  | direct s =>
    simp only [slices, List.forall_mem_singleton]
    exact s.finish_exact
  | chain slots =>
    rw [slices, shmWriteDataFramesChain, List.zip_map', List.forall_mem_map]
    exact forall₂_congr (fun s _ => s.finish_exact)
  | pending s =>
    simp only [slices, List.forall_mem_singleton]
    exact s.finish_exact

end Response

/-- **The peer reads back exactly the frames of a stream of responses, and all its bytes, if and
only if every read into a reserved slot has filled it.** -/
theorem frames_read_back_iff (rs : List Response) :
    ReadBack (sent rs) (meant rs) ↔ ∀ r ∈ rs, r.Full := by
  have hbegin : ∀ p ∈ rs.flatMap Response.slices, ∃ pad tail, Begins p.1 pad tail p.2 := by
    intro p hp
    obtain ⟨r, -, hr⟩ := List.mem_flatMap.mp hp
    exact r.slices_begin p hr
  rw [sent, meant, readBack_iff _ hbegin, List.forall_mem_flatMap]
  exact forall₂_congr (fun r _ => r.slices_exact)

/-- A read of 4096 bytes at the start of an object that has five. -/
def shortSlot : DataSlot where
  pos := 0
  want := 4096
  stop := 4096
  buf := List.replicate 8192 0
  area := List.replicate 4096 1
  n := 5
  rerr := some .eof
  want_le := by decide
  reserved := List.length_replicate
  area_length := List.length_replicate
  n_le := by decide

/-- A direct read that is read back alone was full. -/
theorem DataSlot.full_of_readBack (s : DataSlot)
    (h : ReadBack (sent [.direct s]) (meant [.direct s])) : s.Full := by
  have hslices : [Response.direct s].flatMap Response.slices = [(s.frame, s.finish)] := rfl
  rw [sent, meant, hslices, readBack_iff] at h
  · exact s.finish_exact.mp (h (s.frame, s.finish) (List.mem_singleton.mpr rfl))
  · intro p hp
    rw [List.mem_singleton.mp hp]
    exact s.begins_finish

/-- A short read leaves bytes behind its frame. -/
theorem short_read_leaves_bytes :
    ¬ ReadBack (sent [.direct shortSlot]) (meant [.direct shortSlot]) := by
  intro h
  have hn : ((5 : Nat) : Int) = align4k 4096 := (shortSlot.full_of_readBack h).2
  exact absurd hn (by decide)

end Taihu.ShmBytes
