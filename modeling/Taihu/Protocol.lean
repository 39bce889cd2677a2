/-
# The wire codec

`internal/transport/protocol/protocol.go`: the payloads of the requests and responses, and the
parsers that read them from a `SliceReader`.  An encoder makes a zeroed slice and writes the
fields at offsets it computes itself (`copyAt`); a parser knows no offset and reads field after
field.  All numbers are big-endian, and signed numbers are sent as unsigned ones.
-/
import Taihu.Connection
import Taihu.Lib.Codec

namespace Taihu.Protocol

open Codec

/-! ## 1. Slices -/

/-- `make([]byte, n)`. -/
def blank (n : Nat) : List Byte := List.replicate n 0

/-- `copy(p[i:], src)`. -/
def copyAt (p : List Byte) (i : Nat) (src : List Byte) : List Byte :=
  p.take i ++ src.take (p.length - i) ++ p.drop (i + src.length)

/-- The bytes of `binary.BigEndian.PutUint32`. -/
def u32 (x : UInt32) : List Byte := digits 4 x.toNat

/-- The bytes of `binary.BigEndian.PutUint64`. -/
def u64 (x : UInt64) : List Byte := digits 8 x.toNat

/-- Writes behind one another, the first at `i`. -/
def writeAll (p : List Byte) : Nat → List (List Byte) → List Byte
  | _, [] => p
  | i, src :: srcs => writeAll (copyAt p i src) (i + src.length) srcs

@[simp] theorem u32_length (x : UInt32) : (u32 x).length = 4 := digits_length 4 _

@[simp] theorem u64_length (x : UInt64) : (u64 x).length = 8 := digits_length 8 _

/-- A write that fits replaces what was there. -/
theorem copyAt_append (w rest src : List Byte) (h : src.length ≤ rest.length) :
    copyAt (w ++ rest) w.length src = (w ++ src) ++ rest.drop src.length := by
  have htake : (w ++ rest).take w.length = w := List.take_left
  have hdrop : (w ++ rest).drop (w.length + src.length) = rest.drop src.length := by
    rw [List.drop_append, List.drop_eq_nil_of_le (Nat.le_add_right _ _), Nat.add_sub_cancel_left,
      List.nil_append]
  have hsrc : src.take ((w ++ rest).length - w.length) = src := by
    apply List.take_of_length_le
    rw [List.length_append]
    omega
  rw [copyAt, htake, hdrop, hsrc]

/-- A write that fits leaves the length of the slice. -/
theorem copyAt_length {p src : List Byte} {i : Nat} (h : i + src.length ≤ p.length) :
    (copyAt p i src).length = p.length := by
  rw [copyAt, List.length_append, List.length_append, List.length_take, List.length_take,
    List.length_drop]
  omega

theorem copyAt_blank (w src : List Byte) (n : Nat) :
    copyAt (w ++ blank (src.length + n)) w.length src = (w ++ src) ++ blank n := by
  have hdrop : (blank (src.length + n)).drop src.length = blank n := by
    rw [blank, List.drop_replicate, Nat.add_sub_cancel_left]
    rfl
  rw [copyAt_append, hdrop]
  rw [blank, List.length_replicate]
  exact Nat.le_add_right _ _

/-- What is written behind one another fills the slice. -/
theorem writeAll_blank (srcs : List (List Byte)) (w : List Byte) :
    writeAll (w ++ blank srcs.flatten.length) w.length srcs = w ++ srcs.flatten := by
  induction srcs generalizing w with
  | nil => rfl
  | cons src srcs ih =>
    rw [List.flatten_cons, List.length_append, writeAll, copyAt_blank, ← List.length_append, ih,
      List.append_assoc]

theorem writeAll_append (p : List Byte) (i : Nat) (l l' : List (List Byte)) :
    writeAll p i (l ++ l') = writeAll (writeAll p i l) (i + l.flatten.length) l' := by
  induction l generalizing p i with
  | nil => rfl
  | cons src l ih =>
    rw [List.cons_append, writeAll, ih, writeAll, List.flatten_cons, List.length_append,
      Nat.add_assoc]

/-! ## 2. Encoders -/

/-- `ErrCode`. -/
abbrev ErrCode := UInt32

def codeOK : ErrCode := 0

/-- `EncodePutHeader`: keyLen(4) key size(8). -/
def encodePutHeader (key : Key) (size : Int64) : List Byte :=
  let p := blank (4 + key.length + 8)
  let p := copyAt p 0 (u32 (UInt32.ofNat key.length))
  let p := copyAt p 4 key
  copyAt p (4 + key.length) (u64 size.toUInt64)

/-- `EncodeGetReq`: keyLen(4) key off(8) size(8). -/
def encodeGetReq (key : Key) (off size : Int64) : List Byte :=
  let p := blank (4 + key.length + 16)
  let p := copyAt p 0 (u32 (UInt32.ofNat key.length))
  let p := copyAt p 4 key
  let p := copyAt p (4 + key.length) (u64 off.toUInt64)
  copyAt p (4 + key.length + 8) (u64 size.toUInt64)

/-- `EncodeKeyReq`: keyLen(4) key. -/
def encodeKeyReq (key : Key) : List Byte :=
  let p := blank (4 + key.length)
  let p := copyAt p 0 (u32 (UInt32.ofNat key.length))
  copyAt p 4 key

/-- `EncodePong`: code(4) server_time_unix_nano(8). -/
def encodePong (code : ErrCode) (t : Int64) : List Byte :=
  let p := blank 12
  let p := copyAt p 0 (u32 code)
  copyAt p 4 (u64 t.toUInt64)

/-- `EncodeMetaResp`: segID(8) off(8) size(8). -/
def encodeMetaResp (segID off size : Int64) : List Byte :=
  let p := blank 24
  let p := copyAt p 0 (u64 segID.toUInt64)
  let p := copyAt p 8 (u64 off.toUInt64)
  copyAt p 16 (u64 size.toUInt64)

structure SegmentSummary where
  total : Int64
  free : Int64
  active : Int64
  full : Int64
  reclaiming : Int64
  cursorSeg : Int64
  cursorOff : Int64
  segSize : Int64
  objectCount : Int64
  deriving DecidableEq, Repr

/-- `EncodeSegSum`: code(4) and the nine numbers. -/
def encodeSegSum (code : ErrCode) (s : SegmentSummary) : List Byte :=
  let p := blank (4 + 8 * 9)
  let p := copyAt p 0 (u32 code)
  let putI64 := fun p b (v : Int64) => copyAt p b (u64 v.toUInt64)
  let p := putI64 p 4 s.total
  let p := putI64 p 12 s.free
  let p := putI64 p 20 s.active
  let p := putI64 p 28 s.full
  let p := putI64 p 36 s.reclaiming
  let p := putI64 p 44 s.cursorSeg
  let p := putI64 p 52 s.cursorOff
  let p := putI64 p 60 s.segSize
  putI64 p 68 s.objectCount

structure SegmentEntry where
  segmentID : Int64
  state : Byte
  aliveCount : Int64
  reclaimSeq : Int64
  deriving DecidableEq, Repr

/-- `SegItemLen`. -/
def segItemLen : Nat := 8 + 1 + 8 + 8

/-- The loop of `EncodeSegData`. -/
def segDataLoop (p : List Byte) : Nat → List SegmentEntry → List Byte
  | _, [] => p
  | i, e :: entries =>
    let b := 4 + i * segItemLen
    let p := copyAt p b (u64 e.segmentID.toUInt64)
    let p := copyAt p (b + 8) [e.state]
    let p := copyAt p (b + 9) (u64 e.aliveCount.toUInt64)
    let p := copyAt p (b + 17) (u64 e.reclaimSeq.toUInt64)
    segDataLoop p (i + 1) entries

/-- `EncodeSegData`: count(4) and the entries. -/
def encodeSegData (entries : List SegmentEntry) : List Byte :=
  let p := blank (4 + entries.length * segItemLen)
  let p := copyAt p 0 (u32 (UInt32.ofNat entries.length))
  segDataLoop p 0 entries

/-- The first loop of `EncodeKeysData`, which sums up the size. -/
def keysDataSize (keys : List Key) : Nat := keys.foldl (fun size k => size + (4 + k.length)) 4

/-- The second loop of `EncodeKeysData`. -/
def keysDataLoop (p : List Byte) : Nat → List Key → List Byte
  | _, [] => p
  | pos, k :: keys =>
    let p := copyAt p pos (u32 (UInt32.ofNat k.length))
    let pos := pos + 4
    let p := copyAt p pos k
    keysDataLoop p (pos + k.length) keys

/-- `EncodeKeysData`: count(4) and the keys, each as keyLen(4) key. -/
def encodeKeysData (keys : List Key) : List Byte :=
  let p := blank (keysDataSize keys)
  let p := copyAt p 0 (u32 (UInt32.ofNat keys.length))
  keysDataLoop p 4 keys

/-! ## 3. Parsers -/

/-- `io.ErrUnexpectedEOF`, and the errors of package `ierr` that a parser returns. -/
inductive ParseErr where
  | unexpectedEOF
  | keyTooLong
  | notFound
  | invalidRange
  | tooLarge
  | noSpace
  | invalidArgument
  | rpcError
  deriving DecidableEq, Repr

/-- `MapCode`, for a code that is not `CodeOK`. -/
def mapCode (c : ErrCode) : ParseErr :=
  if c = 1 then .notFound
  else if c = 2 then .invalidRange
  else if c = 3 then .tooLarge
  else if c = 4 then .noSpace
  else if c = 6 then .invalidArgument
  else .rpcError

/-- A parser over a `SliceReader`, which is `Codec.Reader` at bytes. -/
abbrev Parse (α : Type) := Parser Byte ParseErr α

/-- `SliceReader.Next`, and `SliceReader.ReadString`. -/
def readBytes (size : Nat) : Parse (List Byte) := next .unexpectedEOF size

/-- `ReadU32`. -/
def readU32 : Parse UInt32 := do
  let n ← readBytes 4 >>= fun b => pure (ofDigits b)
  pure (UInt32.ofNat n)

/-- `ReadU64`. -/
def readU64 : Parse UInt64 := do
  let n ← readBytes 8 >>= fun b => pure (ofDigits b)
  pure (UInt64.ofNat n)

/-- `int64(n)` of what `ReadU64` reads. -/
def readI64 : Parse Int64 := do
  let n ← readU64
  pure n.toInt64

/-- `ParseKeyReq`, with which the other parsers of a key begin too. -/
def parseKeyReq : Parse Key := do
  let kl ← readU32
  if kl.toNat > maxKeyLen then throw .keyTooLong
  else readBytes kl.toNat

/-- `ParsePutHeader`. -/
def parsePutHeader : Parse (Key × Int64) := do
  let key ← parseKeyReq
  let size ← readI64
  pure (key, size)

/-- `ParseGetReq`. -/
def parseGetReq : Parse (Key × Int64 × Int64) := do
  let key ← parseKeyReq
  let off ← readI64
  let size ← readI64
  pure (key, off, size)

/-- `ParsePong`. -/
def parsePong : Parse Int64 := do
  let code ← readU32
  if code ≠ codeOK then throw (mapCode code)
  else readI64

/-- `ParseMetaResp`. -/
def parseMetaResp : Parse (Int64 × Int64 × Int64) := do
  let segID ← readI64
  let off ← readI64
  let size ← readI64
  pure (segID, off, size)

/-- The loop of `ParseSegSum` over the fields. -/
def readSummary : Parse SegmentSummary := do
  let total ← readI64
  let free ← readI64
  let active ← readI64
  let full ← readI64
  let reclaiming ← readI64
  let cursorSeg ← readI64
  let cursorOff ← readI64
  let segSize ← readI64
  let objectCount ← readI64
  pure ⟨total, free, active, full, reclaiming, cursorSeg, cursorOff, segSize, objectCount⟩

/-- `ParseSegSum`. -/
def parseSegSum : Parse SegmentSummary := do
  let code ← readU32
  if code ≠ codeOK then throw (mapCode code)
  else readSummary

/-- One turn of the loop of `ParseSegData`. -/
def readSegmentEntry : Parse SegmentEntry := do
  let id ← readI64
  let st ← readBytes 1
  let alive ← readI64
  let seq ← readI64
  pure ⟨id, st.headD 0, alive, seq⟩

/-- The `count` of a list. -/
def readCount : Parse Nat := do
  let count ← readU32
  pure count.toNat

/-- `ParseSegData`, which appends to `out`. -/
def parseSegData : ListParser Byte ParseErr SegmentEntry := counted readCount readSegmentEntry

/-- `ParseKeysData`, which appends to `out`. -/
def parseKeysData : ListParser Byte ParseErr Key := counted readCount parseKeyReq

/-! ## 4. What the encoders write -/

/-- keyLen(4) key. -/
def putKey (key : Key) : List Byte := u32 (UInt32.ofNat key.length) ++ key

/-- A signed number. -/
def putI64 (x : Int64) : List Byte := u64 x.toUInt64

def putSegmentEntry (e : SegmentEntry) : List Byte :=
  putI64 e.segmentID ++ ([e.state] ++ (putI64 e.aliveCount ++ putI64 e.reclaimSeq))

def putSummary (s : SegmentSummary) : List Byte :=
  putI64 s.total ++ (putI64 s.free ++ (putI64 s.active ++ (putI64 s.full ++ (putI64 s.reclaiming ++
    (putI64 s.cursorSeg ++ (putI64 s.cursorOff ++ (putI64 s.segSize ++ putI64 s.objectCount)))))))

@[simp] theorem putKey_length (key : Key) : (putKey key).length = 4 + key.length := by
  rw [putKey, List.length_append, u32_length]

/-- What is written into an empty slice of the right size. -/
theorem writeAll_fresh {n : Nat} (srcs : List (List Byte)) (h : n = srcs.flatten.length) :
    writeAll (blank n) 0 srcs = srcs.flatten := by
  rw [h]
  exact writeAll_blank srcs []

theorem encodeKeyReq_eq (key : Key) : encodeKeyReq key = putKey key := by
  have h := writeAll_fresh (n := 4 + key.length) [u32 (UInt32.ofNat key.length), key] (by simp)
  simpa [writeAll, encodeKeyReq, putKey] using h

theorem encodePutHeader_eq (key : Key) (size : Int64) :
    encodePutHeader key size = putKey key ++ putI64 size := by
  have h := writeAll_fresh (n := 4 + key.length + 8)
    [u32 (UInt32.ofNat key.length), key, putI64 size] (by simp [putI64, Nat.add_assoc])
  simpa [writeAll, encodePutHeader, putKey, putI64] using h

theorem encodeGetReq_eq (key : Key) (off size : Int64) :
    encodeGetReq key off size = putKey key ++ (putI64 off ++ putI64 size) := by
  have h := writeAll_fresh (n := 4 + key.length + 16)
    [u32 (UInt32.ofNat key.length), key, putI64 off, putI64 size]
    (by simp [putI64, Nat.add_assoc])
  simpa [writeAll, encodeGetReq, putKey, putI64] using h

theorem encodePong_eq (code : ErrCode) (t : Int64) :
    encodePong code t = u32 code ++ putI64 t := by
  have h := writeAll_fresh (n := 12) [u32 code, putI64 t] (by simp [putI64])
  simpa [writeAll, encodePong, putI64] using h

theorem encodeMetaResp_eq (segID off size : Int64) :
    encodeMetaResp segID off size = putI64 segID ++ (putI64 off ++ putI64 size) := by
  have h := writeAll_fresh (n := 24) [putI64 segID, putI64 off, putI64 size] (by simp [putI64])
  simpa [writeAll, encodeMetaResp, putI64] using h

theorem encodeSegSum_eq (code : ErrCode) (s : SegmentSummary) :
    encodeSegSum code s = u32 code ++ putSummary s := by
  have h := writeAll_fresh (n := 4 + 8 * 9)
    [u32 code, putI64 s.total, putI64 s.free, putI64 s.active, putI64 s.full, putI64 s.reclaiming,
      putI64 s.cursorSeg, putI64 s.cursorOff, putI64 s.segSize, putI64 s.objectCount]
    (by simp [putI64])
  simpa [writeAll, encodeSegSum, putSummary, putI64] using h

theorem segDataLoop_eq (p : List Byte) (i : Nat) (entries : List SegmentEntry) :
    segDataLoop p i entries = writeAll p (4 + i * segItemLen) (entries.flatMap (fun e =>
      [putI64 e.segmentID, [e.state], putI64 e.aliveCount, putI64 e.reclaimSeq])) := by
  induction entries generalizing p i with
  | nil => rfl
  | cons e entries ih =>
    rw [segDataLoop, ih, List.flatMap_cons, writeAll_append]
    simp [writeAll, putI64, segItemLen, Nat.add_assoc, Nat.add_mul]

theorem encodeSegData_eq (entries : List SegmentEntry) :
    encodeSegData entries =
      u32 (UInt32.ofNat entries.length) ++ entries.flatMap putSegmentEntry := by
  have hflat : (entries.flatMap (fun e => [putI64 e.segmentID, [e.state], putI64 e.aliveCount,
      putI64 e.reclaimSeq])).flatten = entries.flatMap putSegmentEntry := by
    induction entries with
    | nil => rfl
    | cons e entries ih => simp [ih, putSegmentEntry]
  have hlen : (entries.flatMap putSegmentEntry).length = entries.length * segItemLen := by
    simp [List.length_flatMap, putSegmentEntry, putI64, segItemLen]
  have h := writeAll_fresh (n := 4 + entries.length * segItemLen)
    (u32 (UInt32.ofNat entries.length) :: entries.flatMap (fun e =>
      [putI64 e.segmentID, [e.state], putI64 e.aliveCount, putI64 e.reclaimSeq]))
    (by rw [List.flatten_cons, hflat, List.length_append, hlen, u32_length])
  rw [List.flatten_cons, hflat, writeAll] at h
  rw [encodeSegData, segDataLoop_eq, ← h, u32_length]
  simp

theorem keysDataSize_eq (keys : List Key) : keysDataSize keys = 4 + (keys.flatMap putKey).length := by
  have hfold : ∀ n, keys.foldl (fun size k => size + (4 + k.length)) n =
      n + (keys.flatMap putKey).length := by
    induction keys with
    | nil => exact fun n => rfl
    | cons k keys ih =>
      intro n
      rw [List.foldl_cons, ih, List.flatMap_cons, List.length_append, putKey_length, Nat.add_assoc]
  exact hfold 4

theorem keysDataLoop_eq (p : List Byte) (pos : Nat) (keys : List Key) :
    keysDataLoop p pos keys =
      writeAll p pos (keys.flatMap (fun k => [u32 (UInt32.ofNat k.length), k])) := by
  induction keys generalizing p pos with
  | nil => rfl
  | cons k keys ih =>
    rw [keysDataLoop, ih, List.flatMap_cons, writeAll_append]
    simp [writeAll, Nat.add_assoc]

theorem encodeKeysData_eq (keys : List Key) :
    encodeKeysData keys = u32 (UInt32.ofNat keys.length) ++ keys.flatMap putKey := by
  have hflat : (keys.flatMap (fun k => [u32 (UInt32.ofNat k.length), k])).flatten =
      keys.flatMap putKey := by
    induction keys with
    | nil => rfl
    | cons k keys ih => simp [ih, putKey]
  have h := writeAll_fresh (n := keysDataSize keys)
    (u32 (UInt32.ofNat keys.length) :: keys.flatMap (fun k => [u32 (UInt32.ofNat k.length), k]))
    (by rw [List.flatten_cons, hflat, List.length_append, keysDataSize_eq, u32_length])
  rw [List.flatten_cons, hflat, writeAll] at h
  rw [encodeKeysData, keysDataLoop_eq, ← h, u32_length]

/-! ## 5. The parsers undo the encoders -/

theorem undoes_readU32 : Undoes readU32 u32 (fun _ => True) := by
  refine (undoes_digits (B := 256) ParseErr.unexpectedEOF 4).map UInt32.ofNat UInt32.toNat _ ?_ ?_
  · intro n hn
    exact ⟨trivial, UInt32.toNat_ofNat_of_lt' hn⟩
  · intro x _
    exact ⟨UInt32.ofNat_toNat, x.toNat_lt⟩

theorem undoes_readU64 : Undoes readU64 u64 (fun _ => True) := by
  refine (undoes_digits (B := 256) ParseErr.unexpectedEOF 8).map UInt64.ofNat UInt64.toNat _ ?_ ?_
  · intro n hn
    exact ⟨trivial, UInt64.toNat_ofNat_of_lt' hn⟩
  · intro x _
    exact ⟨UInt64.ofNat_toNat, x.toNat_lt⟩

/-- A signed number and the unsigned one that is sent have the same bits. -/
theorem undoes_readI64 : Undoes readI64 putI64 (fun _ => True) := by
  refine undoes_readU64.map UInt64.toInt64 Int64.toUInt64 _ ?_ ?_
  · intro n _
    exact ⟨trivial, rfl⟩
  · intro x _
    exact ⟨rfl, trivial⟩

/-- The keys that the parsers accept. -/
def KeyOk (key : Key) : Prop := key.length ≤ maxKeyLen

theorem undoes_parseKeyReq : Undoes parseKeyReq putKey KeyOk := by
  unfold parseKeyReq putKey
  refine undoes_readU32.field (fun key : Key => UInt32.ofNat key.length) (fun _ _ => trivial)
    (fun kl _ => ?_)
  refine ((undoes_next _ _).guard (kl.toNat > maxKeyLen) ParseErr.keyTooLong).congr ?_ (fun _ _ => rfl)
  intro key
  refine ⟨?_, ?_⟩
  · rintro ⟨hkey, rfl⟩
    have hlt : key.length < 2 ^ 32 := Nat.lt_of_le_of_lt hkey (by decide)
    rw [UInt32.toNat_ofNat_of_lt' hlt]
    exact ⟨Nat.not_lt_of_ge hkey, rfl⟩
  · rintro ⟨hkl, hlen⟩
    refine ⟨?_, ?_⟩
    · rw [KeyOk, hlen]
      exact Nat.le_of_not_gt hkl
    · rw [hlen, UInt32.ofNat_toNat]

theorem undoes_parsePutHeader : Undoes parsePutHeader
    (fun a => encodePutHeader a.1 a.2) (fun a => KeyOk a.1) := by
  have h : Undoes parsePutHeader (fun a => putKey a.1 ++ putI64 a.2) (fun a => KeyOk a.1) := by
    refine undoes_parseKeyReq.field Prod.fst (fun _ h => h) (fun key hkey => ?_)
    refine undoes_readI64.map (fun size => (key, size)) Prod.snd _ ?_ ?_
    · exact fun size _ => ⟨⟨hkey, rfl⟩, rfl⟩
    · rintro ⟨_, size⟩ ⟨_, rfl⟩
      exact ⟨rfl, trivial⟩
  exact h.congr (fun _ => Iff.rfl) (fun a _ => encodePutHeader_eq a.1 a.2)

theorem undoes_parseGetReq : Undoes parseGetReq
    (fun a => encodeGetReq a.1 a.2.1 a.2.2) (fun a => KeyOk a.1) := by
  have h : Undoes parseGetReq (fun a => putKey a.1 ++ (putI64 a.2.1 ++ putI64 a.2.2))
      (fun a => KeyOk a.1) := by
    refine undoes_parseKeyReq.field Prod.fst (fun _ h => h) (fun key hkey => ?_)
    refine undoes_readI64.field (fun a : Key × Int64 × Int64 => a.2.1) (fun _ _ => trivial) (fun off _ => ?_)
    refine undoes_readI64.map (fun size => (key, off, size)) (fun a => a.2.2) _ ?_ ?_
    · exact fun size _ => ⟨⟨⟨hkey, rfl⟩, rfl⟩, rfl⟩
    · rintro ⟨_, _, size⟩ ⟨⟨_, rfl⟩, rfl⟩
      exact ⟨rfl, trivial⟩
  exact h.congr (fun _ => Iff.rfl) (fun a _ => encodeGetReq_eq a.1 a.2.1 a.2.2)

/-- A response that begins with `CodeOK`. -/
theorem undoes_code {α : Type} {p : Parse α} {put : α → List Byte} (hp : Undoes p put (fun _ => True)) :
    Undoes (readU32 >>= fun code => if code ≠ codeOK then throw (mapCode code) else p)
      (fun a => u32 codeOK ++ put a) (fun _ => True) := by
  refine undoes_readU32.field (fun _ => codeOK) (fun _ _ => trivial) (fun code _ => ?_)
  refine (hp.guard (code ≠ codeOK) (mapCode code)).congr ?_ (fun _ _ => rfl)
  intro a
  exact ⟨fun h => ⟨not_not.mpr h.2.symm, trivial⟩, fun h => ⟨trivial, (not_not.mp h.1).symm⟩⟩

theorem undoes_parsePong : Undoes parsePong (encodePong codeOK) (fun _ => True) :=
  (undoes_code undoes_readI64).congr (fun _ => Iff.rfl) (fun t _ => encodePong_eq codeOK t)

theorem undoes_parseMetaResp : Undoes parseMetaResp
    (fun a => encodeMetaResp a.1 a.2.1 a.2.2) (fun _ => True) := by
  have h : Undoes parseMetaResp (fun a => putI64 a.1 ++ (putI64 a.2.1 ++ putI64 a.2.2))
      (fun _ => True) := by
    refine undoes_readI64.field Prod.fst (fun _ _ => trivial) (fun segID _ => ?_)
    refine undoes_readI64.field (fun a : Int64 × Int64 × Int64 => a.2.1) (fun _ _ => trivial) (fun off _ => ?_)
    refine undoes_readI64.map (fun size => (segID, off, size)) (fun a => a.2.2) _ ?_ ?_
    · exact fun size _ => ⟨⟨⟨trivial, rfl⟩, rfl⟩, rfl⟩
    · rintro ⟨_, _, size⟩ ⟨⟨_, rfl⟩, rfl⟩
      exact ⟨rfl, trivial⟩
  exact h.congr (fun _ => Iff.rfl) (fun a _ => encodeMetaResp_eq a.1 a.2.1 a.2.2)

theorem undoes_readSummary : Undoes readSummary putSummary (fun _ => True) := by
  refine undoes_readI64.field SegmentSummary.total (fun _ _ => trivial) (fun total _ => ?_)
  refine undoes_readI64.field SegmentSummary.free (fun _ _ => trivial) (fun free _ => ?_)
  refine undoes_readI64.field SegmentSummary.active (fun _ _ => trivial) (fun active _ => ?_)
  refine undoes_readI64.field SegmentSummary.full (fun _ _ => trivial) (fun full _ => ?_)
  refine undoes_readI64.field SegmentSummary.reclaiming (fun _ _ => trivial) (fun recl _ => ?_)
  refine undoes_readI64.field SegmentSummary.cursorSeg (fun _ _ => trivial) (fun seg _ => ?_)
  refine undoes_readI64.field SegmentSummary.cursorOff (fun _ _ => trivial) (fun off _ => ?_)
  refine undoes_readI64.field SegmentSummary.segSize (fun _ _ => trivial) (fun size _ => ?_)
  refine undoes_readI64.map (fun count => ⟨total, free, active, full, recl, seg, off, size, count⟩)
    SegmentSummary.objectCount _ ?_ ?_
  · intro count _
    refine ⟨?_, rfl⟩
    simp
  · rintro ⟨_, _, _, _, _, _, _, _, count⟩ ⟨⟨⟨⟨⟨⟨⟨⟨_, rfl⟩, rfl⟩, rfl⟩, rfl⟩, rfl⟩, rfl⟩, rfl⟩, rfl⟩
    exact ⟨rfl, trivial⟩

theorem undoes_parseSegSum : Undoes parseSegSum (encodeSegSum codeOK) (fun _ => True) :=
  (undoes_code undoes_readSummary).congr (fun _ => Iff.rfl) (fun s _ => encodeSegSum_eq codeOK s)

theorem undoes_readSegmentEntry :
    Undoes readSegmentEntry putSegmentEntry (fun _ => True) := by
  refine undoes_readI64.field SegmentEntry.segmentID (fun _ _ => trivial) (fun id _ => ?_)
  refine (undoes_next _ 1).field (fun e : SegmentEntry => [e.state]) (fun _ _ => rfl) (fun st hst => ?_)
  refine undoes_readI64.field SegmentEntry.aliveCount (fun _ _ => trivial) (fun alive _ => ?_)
  refine undoes_readI64.map (fun seq => ⟨id, st.headD 0, alive, seq⟩) SegmentEntry.reclaimSeq _
    ?_ ?_
  · intro seq _
    obtain ⟨b, rfl⟩ := List.length_eq_one_iff.mp hst
    simp
  · rintro ⟨_, _, _, seq⟩ ⟨⟨⟨_, rfl⟩, rfl⟩, rfl⟩
    exact ⟨rfl, trivial⟩

theorem undoes_readCount :
    Undoes readCount (fun n => u32 (UInt32.ofNat n)) (fun n => n < 2 ^ 32) := by
  refine undoes_readU32.map UInt32.toNat UInt32.ofNat _ ?_ ?_
  · exact fun x _ => ⟨x.toNat_lt, UInt32.ofNat_toNat⟩
  · exact fun n hn => ⟨UInt32.toNat_ofNat_of_lt' hn, trivial⟩

theorem undoes_parseSegData : Undoes parseSegData.parser encodeSegData
    (fun entries => entries.length < 2 ^ 32) :=
  (undoes_counted undoes_readSegmentEntry undoes_readCount).congr
    (fun _ => (and_iff_left (fun _ _ => trivial)).symm) (fun entries _ => encodeSegData_eq entries)

theorem undoes_parseKeysData : Undoes parseKeysData.parser encodeKeysData
    (fun keys => keys.length < 2 ^ 32 ∧ ∀ key ∈ keys, KeyOk key) :=
  (undoes_counted undoes_parseKeyReq undoes_readCount).congr (fun _ => Iff.rfl)
    (fun keys _ => encodeKeysData_eq keys)

/-! ## 6. The codec -/

/-- `NewSliceReader`. -/
def newSliceReader (b : List Byte) : Reader Byte := ⟨b, 0⟩

/-- The parser returns the values in `P` that were encoded, and reads the payload to its end. -/
def RoundTrips {α : Type} (p : Parse α) (encode : α → List Byte) (P : α → Prop) : Prop :=
  ∀ a, P a → p.on (newSliceReader (encode a)) = (.ok a, ⟨encode a, (encode a).length⟩)

/-- Encoding what the parser returns gives the bytes it has read. -/
def ReEncodes {α : Type} (p : Parse α) (encode : α → List Byte) : Prop :=
  ∀ b a r, p.on (newSliceReader b) = (.ok a, r) → encode a = b.take r.pos

/-- The parser ends inside the slice, also where it fails. -/
def StaysInside {α : Type} (p : Parse α) : Prop :=
  ∀ b, (p.on (newSliceReader b)).2.b = b ∧ (p.on (newSliceReader b)).2.pos ≤ b.length

/-- `RoundTrips` for a list that is appended to `out`. -/
def ListRoundTrips {α : Type} (p : ListParser Byte ParseErr α) (encode : List α → List Byte)
    (P : List α → Prop) : Prop :=
  ∀ out xs, P xs →
    (p out).run (newSliceReader (encode xs)) = ((out ++ xs, none), ⟨encode xs, (encode xs).length⟩)

/-- `ReEncodes` for a list that is appended to `out`. -/
def ListReEncodes {α : Type} (p : ListParser Byte ParseErr α) (encode : List α → List Byte) :
    Prop :=
  ∀ out b out' r, (p out).run (newSliceReader b) = ((out', none), r) →
    ∃ xs, out' = out ++ xs ∧ encode xs = b.take r.pos

/-- `StaysInside` for a list; what was in `out` stays there also where the parser fails. -/
def ListStaysInside {α : Type} (p : ListParser Byte ParseErr α) : Prop :=
  ∀ out b, ((p out).run (newSliceReader b)).2.b = b ∧
    ((p out).run (newSliceReader b)).2.pos ≤ b.length ∧
    ∃ xs, ((p out).run (newSliceReader b)).1.1 = out ++ xs

section Undo

variable {α : Type} {p : Parse α} {put : α → List Byte} {P : α → Prop}

theorem RoundTrips.of_undoes (h : Undoes p put P) : RoundTrips p put P :=
  fun _ ha => h.round_trip ha

theorem ReEncodes.of_undoes (h : Undoes p put P) : ReEncodes p put :=
  fun _ _ _ hr => h.exact hr

theorem StaysInside.of_undoes (h : Undoes p put P) : StaysInside p := by
  intro b
  obtain ⟨hb, -, hfits⟩ := h.stays (newSliceReader b) (Nat.zero_le _)
  refine ⟨hb, ?_⟩
  rw [Reader.Fits, hb] at hfits
  exact hfits

end Undo

section UndoLists

variable {α : Type} {item : Parse α} {put : List α → List Byte} {P : List α → Prop}

theorem ListRoundTrips.of_undoes (h : Undoes (counted readCount item).parser put P) :
    ListRoundTrips (counted readCount item) put P := by
  intro out xs hxs
  have hrun := (parser_ok_iff _ _ _ _).mp (h.round_trip hxs)
  rw [counted_from, newSliceReader, hrun]

theorem ListReEncodes.of_undoes (h : Undoes (counted readCount item).parser put P) :
    ListReEncodes (counted readCount item) put := by
  intro out b out' r hr
  rw [counted_from] at hr
  rcases hrun : (counted readCount item []).run (newSliceReader b) with ⟨⟨ys, e⟩, r'⟩
  rw [hrun] at hr
  cases hr
  exact ⟨ys, rfl, h.exact ((parser_ok_iff _ _ _ _).mpr hrun)⟩

theorem ListStaysInside.of_undoes (h : Undoes (counted readCount item).parser put P) :
    ListStaysInside (counted readCount item) := by
  intro out b
  obtain ⟨hb, hpos⟩ := StaysInside.of_undoes h b
  rw [parser_on_reader] at hb hpos
  rw [counted_from]
  exact ⟨hb, hpos, _, rfl⟩

end UndoLists

/-- **The wire codec**: what is encoded is parsed back, what is parsed is what would have been
encoded, and no parser leaves its slice. -/
structure WireCodec : Prop where
  putHeader : RoundTrips parsePutHeader (fun a => encodePutHeader a.1 a.2) (fun a => KeyOk a.1)
  getReq : RoundTrips parseGetReq (fun a => encodeGetReq a.1 a.2.1 a.2.2) (fun a => KeyOk a.1)
  keyReq : RoundTrips parseKeyReq encodeKeyReq KeyOk
  metaResp : RoundTrips parseMetaResp (fun a => encodeMetaResp a.1 a.2.1 a.2.2) (fun _ => True)
  pong : RoundTrips parsePong (encodePong codeOK) (fun _ => True)
  segSum : RoundTrips parseSegSum (encodeSegSum codeOK) (fun _ => True)
  segData : ListRoundTrips parseSegData encodeSegData (fun entries => entries.length < 2 ^ 32)
  keysData : ListRoundTrips parseKeysData encodeKeysData
    (fun keys => keys.length < 2 ^ 32 ∧ ∀ key ∈ keys, KeyOk key)
  putHeader_exact : ReEncodes parsePutHeader (fun a => encodePutHeader a.1 a.2)
  getReq_exact : ReEncodes parseGetReq (fun a => encodeGetReq a.1 a.2.1 a.2.2)
  keyReq_exact : ReEncodes parseKeyReq encodeKeyReq
  segData_exact : ListReEncodes parseSegData encodeSegData
  keysData_exact : ListReEncodes parseKeysData encodeKeysData
  putHeader_inside : StaysInside parsePutHeader
  getReq_inside : StaysInside parseGetReq
  keyReq_inside : StaysInside parseKeyReq
  metaResp_inside : StaysInside parseMetaResp
  pong_inside : StaysInside parsePong
  segSum_inside : StaysInside parseSegSum
  segData_inside : ListStaysInside parseSegData
  keysData_inside : ListStaysInside parseKeysData

theorem undoes_keyReq : Undoes parseKeyReq encodeKeyReq KeyOk :=
  undoes_parseKeyReq.congr (fun _ => Iff.rfl) (fun key _ => encodeKeyReq_eq key)

theorem wire_codec : WireCodec where
  putHeader := .of_undoes undoes_parsePutHeader
  getReq := .of_undoes undoes_parseGetReq
  keyReq := .of_undoes undoes_keyReq
  metaResp := .of_undoes undoes_parseMetaResp
  pong := .of_undoes undoes_parsePong
  segSum := .of_undoes undoes_parseSegSum
  segData := .of_undoes undoes_parseSegData
  keysData := .of_undoes undoes_parseKeysData
  putHeader_exact := .of_undoes undoes_parsePutHeader
  getReq_exact := .of_undoes undoes_parseGetReq
  keyReq_exact := .of_undoes undoes_keyReq
  segData_exact := .of_undoes undoes_parseSegData
  keysData_exact := .of_undoes undoes_parseKeysData
  putHeader_inside := .of_undoes undoes_parsePutHeader
  getReq_inside := .of_undoes undoes_parseGetReq
  keyReq_inside := .of_undoes undoes_keyReq
  metaResp_inside := .of_undoes undoes_parseMetaResp
  pong_inside := .of_undoes undoes_parsePong
  segSum_inside := .of_undoes undoes_parseSegSum
  segData_inside := .of_undoes undoes_parseSegData
  keysData_inside := .of_undoes undoes_parseKeysData

/-- A header comes back whole. -/
theorem wire_codec_header :
    parsePutHeader.on (newSliceReader (encodePutHeader [7, 255] (-1))) =
      (.ok ([7, 255], -1), ⟨encodePutHeader [7, 255] (-1), 14⟩) :=
  wire_codec.putHeader ([7, 255], -1) (show 2 ≤ maxKeyLen by decide)

/-- The count has four bytes: of `2 ^ 32` entries none comes back. -/
theorem segData_count_wraps : ¬ ∀ entries : List SegmentEntry,
    (parseSegData []).run (newSliceReader (encodeSegData entries)) =
      ((entries, none), ⟨encodeSegData entries, (encodeSegData entries).length⟩) := by
  intro hall
  have hlen : (List.replicate (2 ^ 32) (⟨0, 0, 0, 0⟩ : SegmentEntry)).length = 2 ^ 32 :=
    List.length_replicate
  generalize List.replicate (2 ^ 32) (⟨0, 0, 0, 0⟩ : SegmentEntry) = entries at hlen
  have hzero : UInt32.ofNat entries.length = 0 := by
    rw [hlen]
    decide
  have hread : readCount.on (newSliceReader (encodeSegData entries)) =
      (.ok 0, ⟨encodeSegData entries, 4⟩) := by
    have h := undoes_readCount.reads 0 (by decide) (newSliceReader (encodeSegData entries))
      (entries.flatMap putSegmentEntry) (Nat.zero_le _) ?_
    · exact h
    · show (encodeSegData entries).drop 0 = _
      rw [List.drop_zero, encodeSegData_eq, hzero]
      rfl
  have hrun : (parseSegData []).run (newSliceReader (encodeSegData entries)) =
      (([], none), ⟨encodeSegData entries, 4⟩) := by
    rw [parseSegData, counted_run, hread]
    rfl
  have hnil : entries = [] := by
    have h := (hall entries).symm.trans hrun
    exact congrArg (fun x => x.1.1) h
  rw [hnil] at hlen
  exact absurd hlen (by decide)

end Taihu.Protocol
