/-
# Enumerating over a connection

`handleSegments` and `handleListKeys` of `internal/transport/server_admin.go`, `Segments` and
`ListKeys` of `client_admin.go` and of `internal/storage/admin.go`, with `writeFrame` and
`readLoop` of `frame.go`.

The server cuts what it enumerates into pieces, one to a frame, and the client appends the pieces
to one another.  Each frame has to pass the limit on its length that the read loop of the other
side checks.  A piece of keys takes as many as fit (`packCount`); one key always fits, because a
stored key is short.

`enumerations_delivered` says what the two calls return, whatever else is sent on the connection
in between.  A prefix that is longer than any stored key may be is refused
(`long_prefix_is_refused`), so the calls are about prefixes of at most `MaxKeyLen` bytes.
-/
import Taihu.BatchLookup
import Taihu.Protocol
import Taihu.Lib.Packing

namespace Taihu.Enumeration

open Codec Protocol Packing

/-! ## 1. Frames -/

/-- `ChunkSize`, as a length. -/
def chunkLen : Nat := 1 <<< 22

/-- `FrameHeaderLen`: the stream id and the op. -/
def frameHeaderLen : Nat := 5

/-- `MaxFrameTotal`. -/
def maxFrameTotal : Nat := frameHeaderLen + chunkLen

/-- `OpCode`. -/
abbrev OpCode := Byte

def opResp : OpCode := 4
def opSegReq : OpCode := 16
def opSegSum : OpCode := 17
def opSegData : OpCode := 18
def opSegEnd : OpCode := 19
def opKeysReq : OpCode := 20
def opKeysData : OpCode := 21

/-- What a handler or a call has of a frame: `frameMsg`. -/
abbrev Msg := OpCode × List Byte

/-- A frame on the wire. -/
structure Frame where
  sid : UInt32
  msg : Msg
  deriving DecidableEq, Repr

/-- `writeFrame`: len(4) sid(4) op(1) payload. -/
def Frame.bytes (f : Frame) : List Byte :=
  u32 (UInt32.ofNat (frameHeaderLen + f.msg.2.length)) ++ (u32 f.sid ++ (f.msg.1 :: f.msg.2))

/-- One round of `readLoop`: the frame, and the bytes behind it.  `none` where the loop ends: a
frame that is too short or too long, or bytes that do not come. -/
def readFrame (b : List Byte) : Option (Frame × List Byte) :=
  if b.length < 4 then none
  else
    let lenField := ofDigits (b.take 4)
    if lenField < frameHeaderLen ∨ lenField > maxFrameTotal then none
    else if b.length < 4 + lenField then none
    else
      let sub := (b.take (4 + lenField)).drop 4
      some (⟨UInt32.ofNat (ofDigits (sub.take 4)), (sub.getD 4 0, sub.drop frameHeaderLen)⟩,
        b.drop (4 + lenField))

/-- `readLoop`: the frames it dispatches, in at most `n` rounds. -/
def readRounds : Nat → List Byte → List Frame
  | 0, _ => []
  | n + 1, b =>
    match readFrame b with
    | none => []
    | some (f, rest) => f :: readRounds n rest

/-- `readLoop`.  A round takes bytes, so there are no more rounds than bytes. -/
def readLoop (b : List Byte) : List Frame := readRounds b.length b

/-- What `dispatch` delivers to one stream. -/
def inStream (sid : UInt32) (frames : List Frame) : List Msg :=
  (frames.filter (fun f => f.sid = sid)).map Frame.msg

/-! ## 2. The storage -/

/-- `mappingModel.iter`, the keys: the iterator of `getMany`, from its first record on. -/
def iterKeys (d : Disk) : Res (List Key) :=
  (newIter d.keyspace kvPrefixMapping (appendUpper kvPrefixMapping)).mapM (fun e => do
    let _ ← e.2.objectMeta
    return e.1.drop kvPrefixMapping.length)

/-- `ListKeys`. -/
def listKeys (d : Disk) (pre : Key) : Res (List Key) := do
  let keys ← iterKeys d
  return keys.filter (fun key => pre.length ≤ key.length ∧ key.take pre.length = pre)

/-- `metastore.SegmentEntry`. -/
structure SegmentDetail where
  segmentID : Int64
  state : SegmentState
  aliveCount : Int64
  reclaimSeq : Int64
  deriving DecidableEq, Repr

/-- `uint8(e.State)`. -/
def stateByte : SegmentState → Byte
  | .free => 0
  | .active => 1
  | .full => 2
  | .reclaiming => 3
  | .compacting => 4

/-- The callback of `Segments`, for one record. -/
def countState (s : SegmentSummary) (e : SegmentDetail) : SegmentSummary :=
  let s := { s with total := s.total + 1 }
  match e.state with
  | .free => { s with free := s.free + 1 }
  | .active => { s with active := s.active + 1 }
  | .full => { s with full := s.full + 1 }
  | .reclaiming => { s with reclaiming := s.reclaiming + 1 }
  | .compacting => s

/-- `Segments`: `records` in the range order of the table, `cursor` and the size of a segment are
what the store has.  The objects are counted as far as the iteration goes. -/
def segments (records : List SegmentDetail) (cursor : Int64 × Int64) (segSize : Int64) (d : Disk) :
    SegmentSummary × List SegmentDetail :=
  let zero : SegmentSummary := ⟨0, 0, 0, 0, 0, cursor.1, cursor.2, segSize, 0⟩
  let sum := records.foldl countState zero
  let count := match iterKeys d with
    | .ok keys => keys.foldl (fun n _ => n + 1) (0 : Int64)
    | .error _ => 0
  ({ sum with objectCount := count }, records.mergeSort (fun a b => a.segmentID ≤ b.segmentID))

/-! ## 3. The server -/

/-- The number of a code. -/
def codeNumber : Taihu.ErrCode → Protocol.ErrCode
  | .ok => codeOK
  | .notFound => 1
  | .invalidRange => 2
  | .tooLarge => 3
  | .noSpace => 4
  | .internal => 5
  | .invalidArgument => 6

/-- `EncCode`. -/
def encCode (c : Taihu.ErrCode) : List Byte := copyAt (blank 4) 0 (u32 (codeNumber c))

/-- The inner loop of `handleListKeys`: how many keys still fit behind `size` bytes. -/
def packCount : Nat → List Key → Nat
  | _, [] => 0
  | size, k :: remain =>
    if size + 4 + k.length ≤ chunkLen then packCount (size + 4 + k.length) remain + 1 else 0

/-- `handleListKeys`, after the payload of its first frame: the frames it writes; `none` while
its loop has not ended after `fuel` rounds. -/
def handleListKeys (fuel : Nat) (d : Disk) (payload : List Byte) : Option (List Msg) :=
  match (parseKeyReq.on (newSliceReader payload)).1 with
  | .error _ => some [(opResp, encCode .invalidArgument)]
  | .ok pre =>
    match listKeys d pre with
    | .error e => some [(opResp, encCode (mapStorageErr e))]
    | .ok keys => (pack (packCount 4) fuel keys).map (fun pieces =>
        pieces.map (fun piece => (opKeysData, encodeKeysData piece)) ++ [(opResp, encCode .ok)])

/-- `maxPerFrame`. -/
def maxPerFrame : Nat := (chunkLen - 4) / segItemLen

/-- The entry as it is sent. -/
def SegmentDetail.wire (e : SegmentDetail) : SegmentEntry :=
  ⟨e.segmentID, stateByte e.state, e.aliveCount, e.reclaimSeq⟩

/-- `handleSegments`, with what `Segments` returns. -/
def handleSegments (fuel : Nat) (sum : SegmentSummary) (entries : List SegmentDetail) :
    Option (List Msg) :=
  (pack (fun wire => min wire.length maxPerFrame) fuel (entries.map SegmentDetail.wire)).map
    (fun pieces => (opSegSum, encodeSegSum codeOK sum) ::
      (pieces.map (fun piece => (opSegData, encodeSegData piece)) ++ [(opSegEnd, [])]))

/-! ## 4. The client -/

/-- The errors of the two calls, less those of the connection. -/
inductive CallErr where
  | parse (e : ParseErr)
  | missingSummary
  | unexpectedOp (op : OpCode)
  deriving DecidableEq, Repr

/-- The loop of `ListKeys` over the frames of its stream; `none` while it waits for another. -/
def listKeysLoop : List Key → List Msg → Option (Except CallErr (List Key))
  | _, [] => none
  | keys, (op, payload) :: msgs =>
    if op = opKeysData then
      match (parseKeysData keys).run (newSliceReader payload) with
      | ((keys, none), _) => listKeysLoop keys msgs
      | ((_, some e), _) => some (.error (.parse e))
    else if op = opResp then
      match (readU32.on (newSliceReader payload)).1 with
      | .error e => some (.error (.parse e))
      | .ok code => if code ≠ codeOK then some (.error (.parse (mapCode code))) else some (.ok keys)
    else some (.error (.unexpectedOp op))

/-- `sum`, when it has come, and `entries`. -/
structure Gathering where
  sum : Option SegmentSummary
  entries : List SegmentEntry

/-- The loop of `Segments`. -/
def segmentsLoop : Gathering → List Msg →
    Option (Except CallErr (SegmentSummary × List SegmentEntry))
  | _, [] => none
  | g, (op, payload) :: msgs =>
    if op = opSegSum then
      match (parseSegSum.on (newSliceReader payload)).1 with
      | .error e => some (.error (.parse e))
      | .ok sum => segmentsLoop { g with sum := some sum } msgs
    else if op = opSegData then
      match (parseSegData g.entries).run (newSliceReader payload) with
      | ((entries, none), _) => segmentsLoop { g with entries := entries } msgs
      | ((_, some e), _) => some (.error (.parse e))
    else if op = opSegEnd then
      match g.sum with
      | none => some (.error .missingSummary)
      | some sum => some (.ok (sum, g.entries))
    else if op = opResp then
      match (readU32.on (newSliceReader payload)).1 with
      | .error e => some (.error (.parse e))
      | .ok code =>
        if code ≠ codeOK then some (.error (.parse (mapCode code)))
        else some (.ok (⟨0, 0, 0, 0, 0, 0, 0, 0, 0⟩, []))
    else some (.error (.unexpectedOp op))

/-! ## 5. The read loop -/

variable {f : Frame} {b : List Byte} {wire : List Frame}

/-- The frames pass the limit of the read loop. -/
def Within (wire : List Frame) : Prop := ∀ f ∈ wire, f.msg.2.length ≤ chunkLen

theorem ofDigits_u32 (x : UInt32) : ofDigits (u32 x) = x.toNat :=
  (ofDigits_digits (B := 256) 4 x.toNat).trans (Nat.mod_eq_of_lt x.toNat_lt)

theorem bytes_length (f : Frame) : f.bytes.length = 9 + f.msg.2.length := by
  simp only [Frame.bytes, List.length_append, u32_length, List.length_cons]
  omega

/-- **A frame within the limit is read as it was written.** -/
theorem readFrame_bytes (hf : f.msg.2.length ≤ chunkLen) (rest : List Byte) :
    readFrame (f.bytes ++ rest) = some (f, rest) := by
  have hchunk : chunkLen = 4194304 := by decide
  have hmax : maxFrameTotal = 4194309 := by decide
  have hhead : frameHeaderLen = 5 := rfl
  have hlen : (UInt32.ofNat (frameHeaderLen + f.msg.2.length)).toNat = 5 + f.msg.2.length := by
    rw [UInt32.toNat_ofNat_of_lt' (by rw [hhead]; show 5 + f.msg.2.length < 2 ^ 32; omega), hhead]
  have hfield : ofDigits ((f.bytes ++ rest).take 4) = 5 + f.msg.2.length := by
    have htake : (f.bytes ++ rest).take 4 = u32 (UInt32.ofNat (frameHeaderLen + f.msg.2.length)) := by
      rw [Frame.bytes, List.append_assoc]
      exact List.take_left' (u32_length _)
    rw [htake, ofDigits_u32, hlen]
  have hall : (f.bytes ++ rest).take (4 + (5 + f.msg.2.length)) = f.bytes := by
    have : 4 + (5 + f.msg.2.length) = f.bytes.length := by
      rw [bytes_length]
      omega
    rw [this]
    exact List.take_left
  have hrest : (f.bytes ++ rest).drop (4 + (5 + f.msg.2.length)) = rest := by
    have : 4 + (5 + f.msg.2.length) = f.bytes.length := by
      rw [bytes_length]
      omega
    rw [this]
    exact List.drop_left
  have hsub : f.bytes.drop 4 = u32 f.sid ++ (f.msg.1 :: f.msg.2) := List.drop_left' (u32_length _)
  have hsid : (u32 f.sid ++ (f.msg.1 :: f.msg.2)).take 4 = u32 f.sid := List.take_left' (u32_length _)
  have hop : (u32 f.sid ++ (f.msg.1 :: f.msg.2)).drop 4 = f.msg.1 :: f.msg.2 :=
    List.drop_left' (u32_length _)
  have htotal : (f.bytes ++ rest).length = 9 + f.msg.2.length + rest.length := by
    rw [List.length_append, bytes_length]
  unfold readFrame
  rw [if_neg (by omega)]
  simp only [hfield, hall, hrest, hsub, hsid]
  rw [if_neg (by omega), if_neg (by omega), ofDigits_u32, UInt32.ofNat_toNat]
  have hgetD : (u32 f.sid ++ (f.msg.1 :: f.msg.2)).getD 4 0 = f.msg.1 := by
    rw [List.getD_eq_getElem?_getD, ← List.head?_drop, hop]
    rfl
  have hpayload : (u32 f.sid ++ (f.msg.1 :: f.msg.2)).drop frameHeaderLen = f.msg.2 := by
    rw [hhead, show 5 = 4 + 1 from rfl, ← List.drop_drop, hop]
    rfl
  rw [hgetD, hpayload]

theorem readRounds_bytes (h : Within wire) : ∀ n, wire.length ≤ n →
    readRounds n (wire.flatMap Frame.bytes) = wire := by
  induction wire with
  | nil =>
    intro n _
    cases n <;> rfl
  | cons f wire ih =>
    intro n hn
    obtain ⟨n, rfl⟩ : ∃ k, n = k + 1 := ⟨n - 1, by simp at hn; omega⟩
    rw [List.flatMap_cons, readRounds, readFrame_bytes (h f List.mem_cons_self)]
    simp only
    rw [ih (fun g hg => h g (List.mem_cons_of_mem f hg)) n (Nat.le_of_succ_le_succ hn)]

/-- **The read loop dispatches the frames that were written.** -/
theorem readLoop_bytes (h : Within wire) : readLoop (wire.flatMap Frame.bytes) = wire := by
  refine readRounds_bytes h _ ?_
  rw [List.length_flatMap]
  calc wire.length = (wire.map (fun _ => 1)).sum := by simp
    _ ≤ (wire.map (fun f => f.bytes.length)).sum := by
      refine List.sum_le_sum fun f _ => ?_
      rw [bytes_length]
      omega

/-! ## 6. What the storage enumerates -/

variable {d : Disk} {pre key : Key}

theorem mapM_ok {γ δ : Type} {g : γ → Res δ} {h : γ → δ} : ∀ {l : List γ},
    (∀ x ∈ l, g x = .ok (h x)) → l.mapM g = .ok (l.map h)
  | [], _ => rfl
  | x :: l, hl => by
    rw [List.mapM_cons, hl x List.mem_cons_self, mapM_ok fun y hy => hl y (List.mem_cons_of_mem x hy)]
    rfl

/-- A record in the interval of the mappings is a mapping. -/
theorem mem_iter {e : Key × Record}
    (he : e ∈ newIter d.keyspace kvPrefixMapping (appendUpper kvPrefixMapping)) :
    ∃ key md, e = (keyMapping key, .mapping md) ∧ d.mapping.find? key = some md := by
  obtain ⟨hmem, hin⟩ := List.mem_filter.mp he
  obtain ⟨key, hkey⟩ := mem_range_mapping.mp (by simpa using hin)
  have hfind := SortedMap.mem_entries.mp hmem
  rw [← hkey, show kvPrefixMapping ++ key = keyMapping key from rfl, find?_keyspace] at hfind
  obtain ⟨md, hmd, hval⟩ := Option.map_eq_some_iff.mp hfind
  exact ⟨key, md, Prod.ext hkey.symm hval.symm, hmd⟩

/-- **The iteration** visits the stored keys, each once, in byte order. -/
theorem iterKeys_spec (d : Disk) : ∃ keys, iterKeys d = .ok keys ∧ keys.Pairwise (· < ·) ∧
    ∀ key, key ∈ keys ↔ ∃ md, d.mapping.find? key = some md := by
  refine ⟨(newIter d.keyspace kvPrefixMapping (appendUpper kvPrefixMapping)).map
    (fun e => e.1.drop kvPrefixMapping.length), mapM_ok fun e he => ?_, ?_, fun key => ?_⟩
  · obtain ⟨key, md, rfl, -⟩ := mem_iter he
    rfl
  · refine List.Pairwise.map _ (fun _ _ h => h) ?_
    refine List.Pairwise.imp_of_mem ?_
      (d.keyspace.sorted.filter (fun e => kvPrefixMapping ≤ e.1 ∧ e.1 < appendUpper kvPrefixMapping))
    intro a b ha hb hlt
    obtain ⟨ka, ma, rfl, -⟩ := mem_iter ha
    obtain ⟨kb, mb, rfl, -⟩ := mem_iter hb
    simp only [keyMapping, List.drop_left]
    rcases lt_trichotomy ka kb with h | rfl | h
    · exact h
    · exact absurd hlt (lt_irrefl _)
    · exact absurd hlt (lt_asymm (List.append_left_lt h))
  · rw [List.mem_map]
    constructor
    · rintro ⟨e, he, rfl⟩
      obtain ⟨key, md, rfl, hmd⟩ := mem_iter he
      rw [keyMapping, List.drop_left]
      exact ⟨md, hmd⟩
    · rintro ⟨md, hmd⟩
      refine ⟨(keyMapping key, .mapping md), List.mem_filter.mpr ⟨SortedMap.mem_entries.mpr ?_, ?_⟩,
        List.drop_left⟩
      · rw [find?_keyspace, hmd]
        rfl
      · exact decide_eq_true (mem_range_mapping.mpr (List.prefix_append kvPrefixMapping key))

/-- The keys that a call with prefix `pre` is to return. -/
structure Matching (d : Disk) (pre : Key) (keys : List Key) : Prop where
  sorted : keys.Pairwise (· < ·)
  mem_iff : ∀ key, key ∈ keys ↔ (∃ md, d.mapping.find? key = some md) ∧ pre <+: key

theorem listKeys_spec (d : Disk) (pre : Key) :
    ∃ keys, listKeys d pre = .ok keys ∧ Matching d pre keys := by
  obtain ⟨keys, hiter, hsorted, hmem⟩ := iterKeys_spec d
  refine ⟨_, by rw [listKeys, hiter]; rfl, hsorted.filter _, fun key => ?_⟩
  rw [List.mem_filter, hmem key, decide_eq_true_eq]
  refine and_congr_right fun _ => ?_
  rw [List.prefix_iff_eq_take]
  constructor
  · exact fun h => h.2.symm
  · intro h
    refine ⟨?_, h.symm⟩
    rw [h, List.length_take]
    exact Nat.min_le_right _ _

/-! ## 7. The pieces fit -/

/-- What the inner loop takes fits behind `size` bytes. -/
theorem packCount_fits (keys : List Key) : ∀ size, size ≤ chunkLen →
    size + ((keys.take (packCount size keys)).flatMap putKey).length ≤ chunkLen := by
  induction keys with
  | nil => exact fun size h => h
  | cons k keys ih =>
    intro size h
    rw [packCount]
    split
    · rename_i hfit
      have := ih (size + 4 + k.length) hfit
      rw [List.take_succ_cons, List.flatMap_cons, List.length_append, putKey_length]
      omega
    · exact h

/-- **Progress**: a key of at most `MaxKeyLen` bytes fits into an empty frame. -/
theorem packCount_pos {k : Key} (keys : List Key) (h : KeyOk k) : 0 < packCount 4 (k :: keys) := by
  have hk : k.length ≤ 65536 := h
  have hchunk : chunkLen = 4194304 := by decide
  rw [packCount, if_pos (by omega)]
  exact Nat.succ_pos _

theorem encodeKeysData_length (keys : List Key) :
    (encodeKeysData keys).length = 4 + (keys.flatMap putKey).length := by
  rw [encodeKeysData_eq, List.length_append, u32_length]

theorem length_le_flatMap_putKey (keys : List Key) : 4 * keys.length ≤ (keys.flatMap putKey).length := by
  induction keys with
  | nil => exact Nat.le_refl _
  | cons k keys ih =>
    rw [List.flatMap_cons, List.length_append, putKey_length, List.length_cons]
    omega

/-- A piece of keys: it fits into a frame, and its count into four bytes. -/
theorem keys_piece (keys : List Key) :
    (encodeKeysData (keys.take (packCount 4 keys))).length ≤ chunkLen ∧
      (keys.take (packCount 4 keys)).length < 2 ^ 32 := by
  have hchunk : chunkLen = 4194304 := by decide
  have hfits := packCount_fits keys 4 (by omega)
  have hlen := length_le_flatMap_putKey (keys.take (packCount 4 keys))
  rw [encodeKeysData_length]
  constructor <;> omega

theorem encodeSegData_length (entries : List SegmentEntry) :
    (encodeSegData entries).length = 4 + entries.length * segItemLen := by
  have hitem : ∀ e : SegmentEntry, (putSegmentEntry e).length = segItemLen := fun e => by
    simp [putSegmentEntry, putI64, segItemLen]
  rw [encodeSegData_eq, List.length_append, u32_length]
  congr 1
  induction entries with
  | nil => simp
  | cons e entries ih =>
    rw [List.flatMap_cons, List.length_append, ih, hitem, List.length_cons, Nat.succ_mul, Nat.add_comm]

theorem encodeSegSum_length (sum : SegmentSummary) : (encodeSegSum codeOK sum).length = 76 := by
  rw [encodeSegSum_eq]
  simp [putSummary, putI64]

/-- A piece of entries. -/
theorem segs_piece (entries : List SegmentEntry) :
    (encodeSegData (entries.take (min entries.length maxPerFrame))).length ≤ chunkLen ∧
      (entries.take (min entries.length maxPerFrame)).length < 2 ^ 32 := by
  have hmax : maxPerFrame = 167772 := by decide
  have hchunk : chunkLen = 4194304 := by decide
  have hitem : segItemLen = 25 := rfl
  rw [encodeSegData_length, List.length_take, hmax, hitem]
  constructor <;> omega

/-! ## 8. The client reads the pieces back -/

theorem encCode_eq (c : Taihu.ErrCode) : encCode c = u32 (codeNumber c) := by
  have := copyAt_blank [] (u32 (codeNumber c)) 0
  rw [u32_length] at this
  exact this.trans (List.append_nil _)

theorem readU32_encCode (c : Taihu.ErrCode) :
    (readU32.on (newSliceReader (encCode c))).1 = .ok (codeNumber c) := by
  rw [encCode_eq, newSliceReader, undoes_readU32.round_trip trivial]

/-- **The frames of the keys**, whatever comes behind them. -/
theorem listKeysLoop_data (pieces : List (List Key)) : ∀ (out : List Key) (rest : List Msg),
    (∀ piece ∈ pieces, piece.length < 2 ^ 32 ∧ ∀ key ∈ piece, KeyOk key) →
    listKeysLoop out (pieces.map (fun piece => (opKeysData, encodeKeysData piece)) ++ rest) =
      listKeysLoop (out ++ pieces.flatten) rest := by
  induction pieces with
  | nil =>
    intro out rest _
    rw [List.flatten_nil, List.append_nil]
    rfl
  | cons piece pieces ih =>
    intro out rest h
    have hpiece := ListRoundTrips.of_undoes undoes_parseKeysData out piece (h piece List.mem_cons_self)
    rw [List.map_cons, List.cons_append, listKeysLoop, if_pos rfl]
    rw [show parseKeysData = counted readCount parseKeyReq from rfl, hpiece]
    simp only
    rw [ih _ _ fun p hp => h p (List.mem_cons_of_mem piece hp), List.flatten_cons, List.append_assoc]

theorem listKeysLoop_code (keys : List Key) (c : Taihu.ErrCode) :
    listKeysLoop keys [(opResp, encCode c)] =
      if codeNumber c ≠ codeOK then some (.error (.parse (mapCode (codeNumber c))))
      else some (.ok keys) := by
  rw [listKeysLoop, if_neg (by decide), if_pos rfl, readU32_encCode]

/-- **The frames of the entries.** -/
theorem segmentsLoop_data (pieces : List (List SegmentEntry)) : ∀ (g : Gathering) (rest : List Msg),
    (∀ piece ∈ pieces, piece.length < 2 ^ 32) →
    segmentsLoop g (pieces.map (fun piece => (opSegData, encodeSegData piece)) ++ rest) =
      segmentsLoop { g with entries := g.entries ++ pieces.flatten } rest := by
  induction pieces with
  | nil =>
    intro g rest _
    rw [List.flatten_nil, List.append_nil]
    rfl
  | cons piece pieces ih =>
    intro g rest h
    have hpiece := ListRoundTrips.of_undoes undoes_parseSegData g.entries piece
      (h piece List.mem_cons_self)
    rw [List.map_cons, List.cons_append, segmentsLoop, if_neg (by decide), if_pos rfl]
    rw [show parseSegData = counted readCount readSegmentEntry from rfl, hpiece]
    simp only
    rw [ih _ _ fun p hp => h p (List.mem_cons_of_mem piece hp), List.flatten_cons, List.append_assoc]

theorem segmentsLoop_sum (g : Gathering) (sum : SegmentSummary) (rest : List Msg) :
    segmentsLoop g ((opSegSum, encodeSegSum codeOK sum) :: rest) =
      segmentsLoop { g with sum := some sum } rest := by
  rw [segmentsLoop, if_pos rfl, newSliceReader, undoes_parseSegSum.round_trip trivial]

/-! ## 9. The calls -/

/-- Frames arrive: on whatever connection they are the frames of their stream, the other side
takes them off the wire. -/
def Arrive (msgs : List Msg) : Prop :=
  ∀ (sid : UInt32) (wire : List Frame), Within wire → inStream sid wire = msgs →
    inStream sid (readLoop (wire.flatMap Frame.bytes)) = msgs

/-- A request is served: the handler ends, no frame is over the limit, and with the frames that
it writes the call returns `r`; with only the first of them it still waits. -/
def Served {ρ : Type} (request : Msg) (handler : Nat → List Byte → Option (List Msg))
    (client : List Msg → Option ρ) (r : ρ) : Prop :=
  ∃ frames, (∃ n, ∀ fuel, n ≤ fuel → handler fuel request.2 = some frames) ∧
    (∀ m ∈ request :: frames, m.2.length ≤ chunkLen) ∧ Arrive [request] ∧ Arrive frames ∧
    client frames = some r ∧ ∀ early, early <+: frames → early ≠ frames → client early = none

theorem arrive (msgs : List Msg) : Arrive msgs := by
  intro sid wire hwire hmsgs
  rw [readLoop_bytes hwire]
  exact hmsgs

/-- What comes before the last frame. -/
theorem prefix_of_ne {γ : Type} {early l : List γ} {x : γ} (h : early <+: l ++ [x])
    (hne : early ≠ l ++ [x]) : early <+: l := (List.prefix_concat_iff.mp h).resolve_left hne

theorem eq_map_of_prefix {γ δ : Type} {f : γ → δ} {early : List δ} {l : List γ}
    (h : early <+: l.map f) : early = (l.take early.length).map f := by
  rw [List.map_take]
  exact List.prefix_iff_eq_take.mp h

/-- `ListKeys` of the client, and the server. -/
theorem list_keys_served (hstored : ∀ key md, d.mapping.find? key = some md → KeyOk key)
    (hpre : KeyOk pre) : ∃ keys, Matching d pre keys ∧
      Served (opKeysReq, encodeKeyReq pre) (fun fuel => handleListKeys fuel d) (listKeysLoop [])
        (.ok keys) := by
  obtain ⟨keys, hlist, hkeys⟩ := listKeys_spec d pre
  have hok : ∀ key ∈ keys, KeyOk key := by
    intro key hkey
    obtain ⟨⟨md, hmd⟩, -⟩ := (hkeys.mem_iff key).mp hkey
    exact hstored key md hmd
  obtain ⟨pieces, hpieces⟩ := pack_ends (packCount 4) (P := KeyOk)
    (fun k ks hk => packCount_pos ks hk) keys.length keys hok (Nat.le_refl _)
  have hfit := forall_mem_pack (P := fun piece => (encodeKeysData piece).length ≤ chunkLen ∧
    piece.length < 2 ^ 32) keys_piece hpieces
  have hflat := flatten_of_pack hpieces
  have hread : ∀ piece ∈ pieces, piece.length < 2 ^ 32 ∧ ∀ key ∈ piece, KeyOk key := by
    intro piece hp
    refine ⟨(hfit piece hp).2, fun key hkey => hok key ?_⟩
    rw [← hflat]
    exact List.mem_flatten.mpr ⟨piece, hp, hkey⟩
  have hreq : (parseKeyReq.on (newSliceReader (encodeKeyReq pre))).1 = .ok pre := by
    rw [newSliceReader, encodeKeyReq_eq, undoes_parseKeyReq.round_trip hpre]
  refine ⟨keys, hkeys, pieces.map (fun piece => (opKeysData, encodeKeysData piece)) ++
    [(opResp, encCode .ok)], ⟨keys.length, fun fuel hfuel => ?_⟩, ?_, arrive _, arrive _, ?_, ?_⟩
  · simp only [handleListKeys, hreq, hlist]
    rw [pack_mono hpieces hfuel, Option.map_some]
  · intro m hm
    have hchunk : chunkLen = 4194304 := by decide
    rcases List.mem_cons.mp hm with rfl | hm
    · have : pre.length ≤ 65536 := hpre
      simp only
      rw [encodeKeyReq_eq, putKey_length]
      omega
    · rcases List.mem_append.mp hm with hm | hm
      · obtain ⟨piece, hp, rfl⟩ := List.mem_map.mp hm
        exact (hfit piece hp).1
      · rw [List.mem_singleton.mp hm]
        simp only
        rw [encCode_eq, u32_length]
        omega
  · rw [listKeysLoop_data pieces [] _ hread, List.nil_append, hflat, listKeysLoop_code]
    rfl
  · intro early hearly hne
    rw [ eq_map_of_prefix (prefix_of_ne hearly hne)]
    have := listKeysLoop_data (pieces.take early.length) [] []
      (fun piece hp => hread piece (List.mem_of_mem_take hp))
    rw [List.append_nil] at this
    rw [this]
    rfl

/-- `Segments` of the client, and the server. -/
theorem segments_served (sum : SegmentSummary) (entries : List SegmentDetail) :
    Served (opSegReq, []) (fun fuel _ => handleSegments fuel sum entries) (segmentsLoop ⟨none, []⟩)
      (.ok (sum, entries.map SegmentDetail.wire)) := by
  have hmax : maxPerFrame = 167772 := by decide
  have hchunk : chunkLen = 4194304 := by decide
  obtain ⟨pieces, hpieces⟩ := pack_ends (fun wire => min wire.length maxPerFrame)
    (P := fun _ => True) (fun e es _ => by rw [List.length_cons, hmax]; omega)
    (entries.map SegmentDetail.wire).length (entries.map SegmentDetail.wire) (fun _ _ => trivial)
    (Nat.le_refl _)
  have hfit := forall_mem_pack (P := fun piece => (encodeSegData piece).length ≤ chunkLen ∧
    piece.length < 2 ^ 32) segs_piece hpieces
  have hflat := flatten_of_pack hpieces
  refine ⟨(opSegSum, encodeSegSum codeOK sum) ::
    (pieces.map (fun piece => (opSegData, encodeSegData piece)) ++ [(opSegEnd, [])]),
    ⟨(entries.map SegmentDetail.wire).length, fun fuel hfuel => ?_⟩, ?_, arrive _, arrive _, ?_, ?_⟩
  · simp only [handleSegments]
    rw [pack_mono hpieces hfuel, Option.map_some]
  · intro m hm
    rcases List.mem_cons.mp hm with rfl | hm
    · exact Nat.zero_le _
    rcases List.mem_cons.mp hm with rfl | hm
    · simp only
      rw [encodeSegSum_length]
      omega
    rcases List.mem_append.mp hm with hm | hm
    · obtain ⟨piece, hp, rfl⟩ := List.mem_map.mp hm
      exact (hfit piece hp).1
    · rw [List.mem_singleton.mp hm]
      exact Nat.zero_le _
  · rw [segmentsLoop_sum, segmentsLoop_data pieces _ _ fun piece hp => (hfit piece hp).2,
      List.nil_append, hflat]
    rfl
  · intro early hearly hne
    cases early with
    | nil => rfl
    | cons m early =>
      obtain ⟨rfl, hrest⟩ := List.cons_prefix_cons.mp hearly
      have hne' : early ≠ pieces.map (fun piece => (opSegData, encodeSegData piece)) ++
          [(opSegEnd, [])] := fun he => hne (by rw [he])
      rw [segmentsLoop_sum, eq_map_of_prefix (prefix_of_ne hrest hne')]
      have := segmentsLoop_data (pieces.take early.length) ⟨some sum, []⟩ []
        (fun piece hp => (hfit piece (List.mem_of_mem_take hp)).2)
      rw [List.append_nil] at this
      rw [this]
      rfl

/-- **Enumeration over a connection.**  With stored keys and a prefix of at most `MaxKeyLen`
bytes `ListKeys` returns the matching keys in byte order; `Segments` returns the summary and the
entries of all the records, in the order of their ids. -/
theorem enumerations_delivered (d : Disk) (records : List SegmentDetail) (cursor : Int64 × Int64)
    (segSize : Int64) (pre : Key) (hstored : ∀ key md, d.mapping.find? key = some md → KeyOk key)
    (hpre : KeyOk pre) :
    (∃ keys, Matching d pre keys ∧ Served (opKeysReq, encodeKeyReq pre)
      (fun fuel => handleListKeys fuel d) (listKeysLoop []) (.ok keys)) ∧
    ∃ sum entries, segments records cursor segSize d = (sum, entries) ∧ entries.Perm records ∧
      entries.Pairwise (fun a b => a.segmentID ≤ b.segmentID) ∧
      Served (opSegReq, []) (fun fuel _ => handleSegments fuel sum entries)
        (segmentsLoop ⟨none, []⟩) (.ok (sum, entries.map SegmentDetail.wire)) := by
  refine ⟨list_keys_served hstored hpre, _, _, rfl, List.mergeSort_perm _ _, ?_,
    segments_served _ _⟩
  have htrans : ∀ a b c : SegmentDetail, decide (a.segmentID ≤ b.segmentID) = true →
      decide (b.segmentID ≤ c.segmentID) = true → decide (a.segmentID ≤ c.segmentID) = true :=
    fun a b c hab hbc =>
      decide_eq_true (Int64.le_trans (of_decide_eq_true hab) (of_decide_eq_true hbc))
  have hsort := List.pairwise_mergeSort htrans
    (fun a b => by simpa using Int64.le_total a.segmentID b.segmentID) records
  exact hsort.imp fun h => of_decide_eq_true h

/-- Three stored keys. -/
def threeKeys : Disk where
  mapping := ((SortedMap.empty.insert [1] ⟨0, 0, 1⟩).insert [2] ⟨0, 4096, 1⟩).insert [1, 7] ⟨1, 0, 5⟩
  segment := .empty
  cursor := none

/-- Two of them match. -/
theorem enumerations_delivered_threeKeys : ∃ keys, Matching threeKeys [1] keys ∧
    Served (opKeysReq, encodeKeyReq [1]) (fun fuel => handleListKeys fuel threeKeys)
      (listKeysLoop []) (.ok keys) := by
  refine (enumerations_delivered threeKeys [⟨1, .active, 1, 0⟩, ⟨0, .full, 2, 0⟩] (1, 4096) 8192 [1]
    ?_ (show 1 ≤ maxKeyLen by decide)).1
  intro key md h
  simp only [threeKeys, SortedMap.find?_insert, SortedMap.find?_empty] at h
  have hlen : key.length ≤ 2 := by
    split at h
    · simp [*]
    · split at h
      · simp [*]
      · split at h
        · simp [*]
        · cases h
  exact Nat.le_trans hlen (by decide)

/-! ## 10. Prefixes that are too long -/

/-- **A prefix that no stored key can have is refused**, though the answer would be empty. -/
theorem long_prefix_is_refused (fuel : Nat) (d : Disk) (hlong : maxKeyLen < pre.length)
    (hlt : pre.length < 2 ^ 32) :
    handleListKeys fuel d (encodeKeyReq pre) = some [(opResp, encCode .invalidArgument)] := by
  have hlen : (UInt32.ofNat pre.length).toNat = pre.length := UInt32.toNat_ofNat_of_lt' hlt
  have hread : readU32.on (newSliceReader (putKey pre)) =
      (.ok (UInt32.ofNat pre.length), ⟨putKey pre, 4⟩) := by
    have := undoes_readU32.reads (UInt32.ofNat pre.length) trivial (newSliceReader (putKey pre)) pre
      (Nat.zero_le _) rfl
    rw [u32_length] at this
    exact this
  have hparse : (parseKeyReq.on (newSliceReader (encodeKeyReq pre))).1 = .error .keyTooLong := by
    rw [encodeKeyReq_eq, parseKeyReq, on_bind, hread]
    simp only
    rw [if_pos (by rw [hlen]; exact hlong)]
    rfl
  simp only [handleListKeys, hparse]

/-- So a call with such a prefix does not return the matching keys. -/
theorem listKeys_is_not_any_prefix : ¬ ∀ (d : Disk) (pre : Key),
    (∀ key md, d.mapping.find? key = some md → KeyOk key) → ∃ keys, Matching d pre keys ∧
      Served (opKeysReq, encodeKeyReq pre) (fun fuel => handleListKeys fuel d) (listKeysLoop [])
        (.ok keys) := by
  intro hall
  obtain ⟨keys, -, frames, ⟨n, hframes⟩, -, -, -, hclient, -⟩ :=
    hall Disk.empty (List.replicate 65537 0) (fun key md h => by cases h)
  have hlen : (List.replicate 65537 (0 : Byte)).length = 65537 := List.length_replicate
  have hrefused : handleListKeys n Disk.empty (encodeKeyReq (List.replicate 65537 0)) =
      some [(opResp, encCode .invalidArgument)] :=
    long_prefix_is_refused n Disk.empty (by rw [hlen]; decide) (by rw [hlen]; decide)
  have hsame := (hframes n (Nat.le_refl n)).symm.trans hrefused
  rw [Option.some.inj hsame, listKeysLoop_code] at hclient
  cases hclient

end Taihu.Enumeration
