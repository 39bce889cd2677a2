/-
# The key space of the metadata

`internal/metastore/model.go`: the three kinds of record, their codes, and the reads and writes of
each.  All of them live in one pebble, whose keys are byte strings in byte order.

The argument has two halves.  Every value is read as it was written, since the fields have fixed
places (`decode_encode`), and every key is read as it was written, since what stands before it is a
constant (`mem_range_segment`, `mem_range_mapping`).  So each kind is a table of the store, and the
keys of one table are never in the range of another: whether a user key looks like an internal one
does not matter, it is behind `m`, 0.

`Space` says what the tables hold after a run of writes, and `key_space` what the reads return.
-/
import Taihu.BatchLookup
import Taihu.Enumeration
import Taihu.FreePool
import Taihu.Lib.Tables

namespace Taihu.KeySpace

open Protocol (blank copyAt writeAll writeAll_fresh)

/-! ## 1. The values -/

/-- `binary.LittleEndian.PutUint64`. -/
def putUint64 (x : UInt64) : List Byte := Disk.leBytes 8 x.toNat

/-- The number that little-endian bytes spell. -/
def ofLE (b : List Byte) : Nat := b.foldr (fun d x => d.val + 256 * x) 0

/-- `binary.LittleEndian.Uint64`: the first eight bytes. -/
def uint64 (b : List Byte) : UInt64 := UInt64.ofNat (ofLE (b.take 8))

/-- `b[i:j]`. -/
def slice (b : List Byte) (i j : Nat) : List Byte := (b.drop i).take (j - i)

def metaVersion : Byte := 0
def objectMetaLen : Nat := 1 + 8 * 3
def writeCursorLen : Nat := 1 + 8 * 2
def segmentMetaLen : Nat := 1 + 1 + 8 * 2

/-- `ObjectMeta`, at the width of the code. -/
structure ObjectMeta where
  segmentID : Int64
  offset : Int64
  size : Int64
  deriving DecidableEq, Repr

/-- `writeCursor`. -/
structure WriteCursor where
  segmentID : Int64
  offset : Int64
  deriving DecidableEq, Repr

/-- `SegmentMeta`; `SegmentState` is a `uint8`. -/
structure SegmentMeta where
  state : Byte
  aliveCount : Int64
  reclaimSeq : Int64
  deriving DecidableEq, Repr

/-- What is wrong with a record: `bad <what> length <n>`, or `bad segment key <key>`. -/
inductive Bad where
  | length (what : String) (n : Nat)
  | segmentKey (key : Key)
  deriving DecidableEq, Repr

def ObjectMeta.encode (m : ObjectMeta) : List Byte :=
  let b := blank objectMetaLen
  let b := copyAt b 0 [metaVersion]
  let b := copyAt b 1 (putUint64 m.segmentID.toUInt64)
  let b := copyAt b 9 (putUint64 m.offset.toUInt64)
  copyAt b 17 (putUint64 m.size.toUInt64)

def decodeObjectMeta (b : List Byte) : Except Bad ObjectMeta :=
  if b.length ≠ objectMetaLen then .error (.length "ObjectMeta" b.length)
  else .ok {
    segmentID := (uint64 (slice b 1 9)).toInt64
    offset := (uint64 (slice b 9 17)).toInt64
    size := (uint64 (slice b 17 25)).toInt64 }

def WriteCursor.encode (c : WriteCursor) : List Byte :=
  let b := blank writeCursorLen
  let b := copyAt b 0 [metaVersion]
  let b := copyAt b 1 (putUint64 c.segmentID.toUInt64)
  copyAt b 9 (putUint64 c.offset.toUInt64)

def decodeWriteCursor (b : List Byte) : Except Bad WriteCursor :=
  if b.length ≠ writeCursorLen then .error (.length "WriteCursor" b.length)
  else .ok {
    segmentID := (uint64 (slice b 1 9)).toInt64
    offset := (uint64 (slice b 9 17)).toInt64 }

def SegmentMeta.encode (m : SegmentMeta) : List Byte :=
  let b := blank segmentMetaLen
  let b := copyAt b 0 [metaVersion]
  let b := copyAt b 1 [m.state]
  let b := copyAt b 2 (putUint64 m.aliveCount.toUInt64)
  copyAt b 10 (putUint64 m.reclaimSeq.toUInt64)

def decodeSegmentMeta (b : List Byte) : Except Bad SegmentMeta :=
  if b.length ≠ segmentMetaLen then .error (.length "SegmentMeta" b.length)
  else .ok {
    state := b.getD 1 0
    aliveCount := (uint64 (slice b 2 10)).toInt64
    reclaimSeq := (uint64 (slice b 10 18)).toInt64 }

/-! ## 2. Every value is read as it was written -/

theorem leBytes_length (n x : Nat) : (Disk.leBytes n x).length = n := by
  induction n generalizing x with
  | zero => rfl
  | succ n ih => rw [Disk.leBytes, List.length_cons, ih]

@[simp] theorem putUint64_length (x : UInt64) : (putUint64 x).length = 8 := leBytes_length 8 _

theorem ofLE_leBytes (n x : Nat) : ofLE (Disk.leBytes n x) = x % 256 ^ n := by
  induction n generalizing x with
  | zero => rw [Nat.pow_zero, Nat.mod_one]; rfl
  | succ n ih =>
    have hcons : ofLE (Disk.leBytes (n + 1) x) = x % 256 + 256 * ofLE (Disk.leBytes n (x / 256)) := rfl
    rw [hcons, ih, Nat.pow_succ, Nat.mul_comm (256 ^ n), Nat.mod_mul]

theorem uint64_putUint64 (x : UInt64) (rest : List Byte) : uint64 (putUint64 x ++ rest) = x := by
  have htake : (putUint64 x ++ rest).take 8 = putUint64 x := List.take_left' (putUint64_length x)
  have hlt : x.toNat < 256 ^ 8 := x.toNat_lt
  rw [uint64, htake, putUint64, ofLE_leBytes, Nat.mod_eq_of_lt hlt, UInt64.ofNat_toNat]

/-- A field between other bytes. -/
theorem uint64_slice {i : Nat} {before : List Byte} (hb : before.length = i) (x : Int64)
    (after : List Byte) :
    (uint64 (slice (before ++ (putUint64 x.toUInt64 ++ after)) i (i + 8))).toInt64 = x := by
  have hslice : slice (before ++ (putUint64 x.toUInt64 ++ after)) i (i + 8) =
      putUint64 x.toUInt64 ++ [] := by
    rw [slice, List.drop_left' hb, Nat.add_sub_cancel_left, List.append_nil,
      List.take_left' (putUint64_length _)]
  rw [hslice, uint64_putUint64]
  rfl

theorem ObjectMeta.encode_eq (m : ObjectMeta) :
    m.encode = [metaVersion] ++ (putUint64 m.segmentID.toUInt64 ++
      (putUint64 m.offset.toUInt64 ++ putUint64 m.size.toUInt64)) := by
  have h := writeAll_fresh (n := objectMetaLen) [[metaVersion], putUint64 m.segmentID.toUInt64,
    putUint64 m.offset.toUInt64, putUint64 m.size.toUInt64] (by simp [objectMetaLen])
  simpa [writeAll, encode] using h

theorem WriteCursor.encode_eq (c : WriteCursor) :
    c.encode = [metaVersion] ++ (putUint64 c.segmentID.toUInt64 ++ putUint64 c.offset.toUInt64) := by
  have h := writeAll_fresh (n := writeCursorLen) [[metaVersion], putUint64 c.segmentID.toUInt64,
    putUint64 c.offset.toUInt64] (by simp [writeCursorLen])
  simpa [writeAll, encode] using h

theorem SegmentMeta.encode_eq (m : SegmentMeta) :
    m.encode = [metaVersion, m.state] ++ (putUint64 m.aliveCount.toUInt64 ++
      putUint64 m.reclaimSeq.toUInt64) := by
  have h := writeAll_fresh (n := segmentMetaLen) [[metaVersion], [m.state],
    putUint64 m.aliveCount.toUInt64, putUint64 m.reclaimSeq.toUInt64] (by simp [segmentMetaLen])
  simpa [writeAll, encode] using h

/-- **An object record is read as it was written.** -/
theorem ObjectMeta.decode_encode (m : ObjectMeta) : decodeObjectMeta m.encode = .ok m := by
  have hlen : m.encode.length = objectMetaLen := by simp [encode_eq, objectMetaLen]
  have hsegment : (uint64 (slice m.encode 1 9)).toInt64 = m.segmentID := by
    rw [encode_eq]
    exact uint64_slice (i := 1) rfl _ _
  have hoffset : (uint64 (slice m.encode 9 17)).toInt64 = m.offset := by
    rw [encode_eq, ← List.append_assoc]
    exact uint64_slice (i := 9) (by simp) _ _
  have hsize : (uint64 (slice m.encode 17 25)).toInt64 = m.size := by
    rw [encode_eq, ← List.append_assoc, ← List.append_assoc,
      ← List.append_nil (putUint64 m.size.toUInt64)]
    exact uint64_slice (i := 17) (by simp) _ _
  rw [decodeObjectMeta, if_neg (not_not.mpr hlen), hsegment, hoffset, hsize]

theorem WriteCursor.decode_encode (c : WriteCursor) : decodeWriteCursor c.encode = .ok c := by
  have hlen : c.encode.length = writeCursorLen := by simp [encode_eq, writeCursorLen]
  have hsegment : (uint64 (slice c.encode 1 9)).toInt64 = c.segmentID := by
    rw [encode_eq]
    exact uint64_slice (i := 1) rfl _ _
  have hoffset : (uint64 (slice c.encode 9 17)).toInt64 = c.offset := by
    rw [encode_eq, ← List.append_assoc, ← List.append_nil (putUint64 c.offset.toUInt64)]
    exact uint64_slice (i := 9) (by simp) _ _
  rw [decodeWriteCursor, if_neg (not_not.mpr hlen), hsegment, hoffset]

theorem SegmentMeta.decode_encode (m : SegmentMeta) : decodeSegmentMeta m.encode = .ok m := by
  have hlen : m.encode.length = segmentMetaLen := by simp [encode_eq, segmentMetaLen]
  have hstate : m.encode.getD 1 0 = m.state := by
    rw [encode_eq]
    rfl
  have halive : (uint64 (slice m.encode 2 10)).toInt64 = m.aliveCount := by
    rw [encode_eq]
    exact uint64_slice (i := 2) rfl _ _
  have hseq : (uint64 (slice m.encode 10 18)).toInt64 = m.reclaimSeq := by
    rw [encode_eq, ← List.append_assoc, ← List.append_nil (putUint64 m.reclaimSeq.toUInt64)]
    exact uint64_slice (i := 10) (by simp) _ _
  rw [decodeSegmentMeta, if_neg (not_not.mpr hlen), hstate, halive, hseq]

/-! ## 3. The keys -/

/-- `segmentKey`. -/
def segmentKey (segmentID : Int64) : Key := kvSegmentPrefix ++ putUint64 segmentID.toUInt64

/-- What stands before the id in the key of a segment. -/
def segmentPrefix : Key := keyState kvSegmentPrefix

/-- The id in the key of a segment; a key of another length is refused. -/
def segmentID (raw : Key) : Except Bad Int64 :=
  if raw.length ≠ segmentPrefix.length + 8 then .error (.segmentKey raw)
  else .ok (uint64 (raw.drop segmentPrefix.length)).toInt64

/-- The user key behind the prefix. -/
def userKey (raw : Key) : Except Bad Key := .ok (raw.drop kvPrefixMapping.length)

theorem userKey_keyMapping (key : Key) : userKey (keyMapping key) = .ok key := rfl

theorem keyState_segmentKey (id : Int64) :
    keyState (segmentKey id) = segmentPrefix ++ putUint64 id.toUInt64 := rfl

theorem segmentID_segmentKey (id : Int64) : segmentID (keyState (segmentKey id)) = .ok id := by
  have hlen : (keyState (segmentKey id)).length = segmentPrefix.length + 8 := by
    rw [keyState_segmentKey, List.length_append, putUint64_length]
  have hid : uint64 ((keyState (segmentKey id)).drop segmentPrefix.length) = id.toUInt64 := by
    rw [keyState_segmentKey, List.drop_left, ← List.append_nil (putUint64 _), uint64_putUint64]
  rw [segmentID, if_neg (not_not.mpr hlen), hid]
  rfl

/-- The interval of the segments: the successor of `/` is `0`. -/
theorem mem_range_segment {raw : Key} :
    (segmentPrefix ≤ raw ∧ raw < appendUpper segmentPrefix) ↔ segmentPrefix <+: raw :=
  PrefixRange.range_succ_iff (p := [(115 : Byte), 0, 115, 101, 103]) (a := 47) (b := 48)
    ⟨by decide, fun c h h' => by
      have h1 : (47 : Nat) < c.val := h
      have h2 : c.val < 48 := h'
      omega⟩

/-! ## 4. The store -/

/-- Pebble: byte strings under byte strings, in byte order. -/
abbrev Store := SortedMap Key (List Byte)

/-- `db.Get` of a record: nothing where there is none, else what its value decodes to. -/
def get {ν : Type} (decode : List Byte → Except Bad ν) (s : Store) (raw : Key) :
    Except Bad (Option ν) :=
  match s.find? raw with
  | none => .ok none
  | some v => (decode v).map some

/-- The loop of an `iter`: the first thing that is wrong ends it, as an error of `fn` does. -/
def visit {κ ν : Type} {m : Type → Type} [Monad m] [MonadExceptOf Bad m]
    (name : Key → Except Bad κ) (decode : List Byte → Except Bad ν) (fn : κ → ν → m Unit) :
    List (Key × List Byte) → m Unit
  | [] => pure ()
  | e :: it =>
    match name e.1 with
    | .error err => throw err
    | .ok k =>
      match decode e.2 with
      | .error err => throw err
      | .ok v => do
        fn k v
        visit name decode fn it

def mappingGet (s : Store) (key : Key) : Except Bad (Option ObjectMeta) :=
  get decodeObjectMeta s (keyMapping key)

def mappingSet (s : Store) (key : Key) (md : ObjectMeta) : Store :=
  s.insert (keyMapping key) md.encode

def mappingDel (s : Store) (key : Key) : Store := s.erase (keyMapping key)

def mappingIter {m : Type → Type} [Monad m] [MonadExceptOf Bad m] (s : Store)
    (fn : Key → ObjectMeta → m Unit) : m Unit :=
  visit userKey decodeObjectMeta fn (Table.scan s kvPrefixMapping (appendUpper kvPrefixMapping))

def segmentGet (s : Store) (id : Int64) : Except Bad (Option SegmentMeta) :=
  get decodeSegmentMeta s (keyState (segmentKey id))

def segmentSet (s : Store) (id : Int64) (md : SegmentMeta) : Store :=
  s.insert (keyState (segmentKey id)) md.encode

def segmentIter {m : Type → Type} [Monad m] [MonadExceptOf Bad m] (s : Store)
    (fn : Int64 → SegmentMeta → m Unit) : m Unit :=
  visit segmentID decodeSegmentMeta fn (Table.scan s segmentPrefix (appendUpper segmentPrefix))

def cursorGet (s : Store) : Except Bad (Option WriteCursor) :=
  get decodeWriteCursor s (keyState kvCursorKey)

def cursorSet (s : Store) (c : WriteCursor) : Store := s.insert (keyState kvCursorKey) c.encode

/-! ## 5. Histories -/

/-- A write of one of the three kinds. -/
inductive Write where
  | setMapping (key : Key) (md : ObjectMeta)
  | delMapping (key : Key)
  | setSegment (id : Int64) (md : SegmentMeta)
  | setCursor (c : WriteCursor)
  deriving DecidableEq, Repr

def Write.apply (s : Store) : Write → Store
  | .setMapping key md => mappingSet s key md
  | .delMapping key => mappingDel s key
  | .setSegment id md => segmentSet s id md
  | .setCursor c => cursorSet s c

/-- The store after a sequence of writes to a new one. -/
def run (ws : List Write) : Store := ws.foldl Write.apply .empty

/-- What the last write that tells something tells. -/
def lastOf {α : Type} (tells : Write → Option α) (ws : List Write) : Option α :=
  ws.reverse.findSome? tells

/-- What a write says of a user key: its record, or that it has none. -/
def Write.ofKey (key : Key) : Write → Option (Option ObjectMeta)
  | .setMapping key' md => if key = key' then some (some md) else none
  | .delMapping key' => if key = key' then some none else none
  | _ => none

def Write.ofSegment (id : Int64) : Write → Option SegmentMeta
  | .setSegment id' md => if id = id' then some md else none
  | _ => none

def Write.ofCursor : Write → Option WriteCursor
  | .setCursor c => some c
  | _ => none

/-- The record that a live user key has. -/
def stored (ws : List Write) (key : Key) : Option ObjectMeta := (lastOf (Write.ofKey key) ws).join

def storedSegment (ws : List Write) (id : Int64) : Option SegmentMeta :=
  lastOf (Write.ofSegment id) ws

def storedCursor (ws : List Write) : Option WriteCursor := lastOf Write.ofCursor ws

variable {ws : List Write} {s : Store} {w : Write}

theorem lastOf_concat {α : Type} (tells : Write → Option α) (ws : List Write) (w : Write) :
    lastOf tells (ws ++ [w]) = (tells w).or (lastOf tells ws) := by
  rw [lastOf, List.reverse_concat, List.findSome?_cons, lastOf]
  cases tells w <;> rfl

theorem run_concat (ws : List Write) (w : Write) : run (ws ++ [w]) = w.apply (run ws) := by
  rw [run, List.foldl_append]
  rfl

/-! ## 6. The tables -/

/-- What is decoded as it was encoded was not the code of another value. -/
theorem injective_of_decode {ν : Type} {encode : ν → List Byte}
    {decode : List Byte → Except Bad ν} (h : ∀ v, decode (encode v) = .ok v) :
    Function.Injective encode := by
  intro v v' he
  have hv : (.ok v : Except Bad ν) = .ok v' := by rw [← h v, ← h v', he]
  exact Except.ok.inj hv

theorem segment_key_injective : Function.Injective (fun id => keyState (segmentKey id)) := by
  intro id id' h
  have hid : (.ok id : Except Bad Int64) = .ok id' := by
    rw [← segmentID_segmentKey id, ← segmentID_segmentKey id']
    exact congrArg segmentID h
  exact Except.ok.inj hid

def mappingTable : Table Key (List Byte) Key ObjectMeta where
  key := keyMapping
  encode := ObjectMeta.encode
  key_injective := keyMapping_injective
  encode_injective := injective_of_decode ObjectMeta.decode_encode

def segmentTable : Table Key (List Byte) Int64 SegmentMeta where
  key id := keyState (segmentKey id)
  encode := SegmentMeta.encode
  key_injective := segment_key_injective
  encode_injective := injective_of_decode SegmentMeta.decode_encode

/-- The cursor is a table of one record. -/
def cursorTable : Table Key (List Byte) Unit WriteCursor where
  key _ := keyState kvCursorKey
  encode := WriteCursor.encode
  key_injective _ _ _ := rfl
  encode_injective := injective_of_decode WriteCursor.decode_encode

section Reads

variable {κ ν : Type} {t : Table Key (List Byte) κ ν} {f : κ → Option ν}
  {name : Key → Except Bad κ} {decode : List Byte → Except Bad ν}

/-- A read finds what the table has. -/
theorem get_holds (hdecode : ∀ v, decode (t.encode v) = .ok v) (h : t.Holds s f) (k : κ) :
    get decode s (t.key k) = .ok (f k) := by
  rw [get, h k]
  cases hf : f k with
  | none => rfl
  | some v =>
    show (decode (t.encode v)).map some = _
    rw [hdecode v]
    rfl

/-- A visit of records of the table is one of its entries. -/
theorem visit_code (hname : ∀ k, name (t.key k) = .ok k)
    (hdecode : ∀ v, decode (t.encode v) = .ok v) {m : Type → Type} [Monad m]
    [MonadExceptOf Bad m] (fn : κ → ν → m Unit) : ∀ entries : List (κ × ν),
    visit name decode fn (entries.map t.code) = entries.forM (fun e => fn e.1 e.2)
  | [] => rfl
  | e :: entries => by
    rw [List.map_cons, visit]
    simp only [Table.code, hname, hdecode]
    rw [visit_code hname hdecode fn entries]
    rfl

end Reads

/-! ## 7. What a write leaves alone -/

/-- The kinds of record. -/
inductive Kind where
  | mapping
  | segment
  | cursor
  deriving DecidableEq, Repr

def Write.kind : Write → Kind
  | .setMapping _ _ => .mapping
  | .delMapping _ => .mapping
  | .setSegment _ _ => .segment
  | .setCursor _ => .cursor

/-- The key that a write is for. -/
def Write.raw : Write → Key
  | .setMapping key _ => keyMapping key
  | .delMapping key => keyMapping key
  | .setSegment id _ => keyState (segmentKey id)
  | .setCursor _ => keyState kvCursorKey

theorem find?_apply_other {raw : Key} (h : raw ≠ w.raw) : (w.apply s).find? raw = s.find? raw := by
  cases w with
  | setMapping key md => exact (SortedMap.find?_insert s _ _ _).trans (if_neg h)
  | delMapping key => exact (SortedMap.find?_erase s _ _).trans (if_neg h)
  | setSegment id md => exact (SortedMap.find?_insert s _ _ _).trans (if_neg h)
  | setCursor c => exact (SortedMap.find?_insert s _ _ _).trans (if_neg h)

/-- The first byte tells the mappings from the rest. -/
theorem keyState_not_mapping (inner : Key) : ¬ kvPrefixMapping <+: keyState inner := by
  rintro ⟨rest, h⟩
  have hbyte : (109 : Byte) = 115 := (List.cons.inj h).1
  exact absurd hbyte (by decide)

theorem keyMapping_not_segment (key : Key) : ¬ segmentPrefix <+: keyMapping key := by
  rintro ⟨rest, h⟩
  have hbyte : (115 : Byte) = 109 := (List.cons.inj h).1
  exact absurd hbyte (by decide)

/-- The third byte tells the cursor from the segments. -/
theorem cursor_not_segment : ¬ segmentPrefix <+: keyState kvCursorKey := by decide

theorem raw_not_mapping (h : w.kind ≠ .mapping) : ¬ kvPrefixMapping <+: w.raw := by
  cases w with
  | setMapping key md => exact absurd rfl h
  | delMapping key => exact absurd rfl h
  | setSegment id md => exact keyState_not_mapping _
  | setCursor c => exact keyState_not_mapping _

theorem raw_not_segment (h : w.kind ≠ .segment) : ¬ segmentPrefix <+: w.raw := by
  cases w with
  | setMapping key md => exact keyMapping_not_segment key
  | delMapping key => exact keyMapping_not_segment key
  | setSegment id md => exact absurd rfl h
  | setCursor c => exact cursor_not_segment

theorem raw_not_cursor (h : w.kind ≠ .cursor) : w.raw ≠ keyState kvCursorKey := by
  intro he
  cases w with
  | setMapping key md => exact keyState_not_mapping kvCursorKey ⟨key, he⟩
  | delMapping key => exact keyState_not_mapping kvCursorKey ⟨key, he⟩
  | setSegment id md => exact cursor_not_segment ⟨putUint64 id.toUInt64, he⟩
  | setCursor c => exact h rfl

/-- A write of another kind is not in the range of the mappings. -/
theorem mapping_range_apply (h : w.kind ≠ .mapping) {raw : Key} (hl : kvPrefixMapping ≤ raw)
    (hu : raw < appendUpper kvPrefixMapping) : (w.apply s).find? raw = s.find? raw := by
  apply find?_apply_other
  rintro rfl
  exact raw_not_mapping h (mem_range_mapping.mp ⟨hl, hu⟩)

theorem segment_range_apply (h : w.kind ≠ .segment) {raw : Key} (hl : segmentPrefix ≤ raw)
    (hu : raw < appendUpper segmentPrefix) : (w.apply s).find? raw = s.find? raw := by
  apply find?_apply_other
  rintro rfl
  exact raw_not_segment h (mem_range_segment.mp ⟨hl, hu⟩)

theorem mapping_range_key (key : Key) :
    kvPrefixMapping ≤ keyMapping key ∧ keyMapping key < appendUpper kvPrefixMapping :=
  mem_range_mapping.mpr (List.prefix_append _ key)

theorem segment_range_key (id : Int64) : segmentPrefix ≤ keyState (segmentKey id) ∧
    keyState (segmentKey id) < appendUpper segmentPrefix :=
  mem_range_segment.mpr (List.prefix_append _ _)

/-- The reads of each kind are the same after a write of another kind. -/
structure Isolated (s : Store) (w : Write) : Prop where
  mapping_get : w.kind ≠ .mapping → ∀ key, mappingGet (w.apply s) key = mappingGet s key
  mapping_iter : w.kind ≠ .mapping → ∀ (m : Type → Type) [Monad m] [MonadExceptOf Bad m]
    (fn : Key → ObjectMeta → m Unit), mappingIter (w.apply s) fn = mappingIter s fn
  segment_get : w.kind ≠ .segment → ∀ id, segmentGet (w.apply s) id = segmentGet s id
  segment_iter : w.kind ≠ .segment → ∀ (m : Type → Type) [Monad m] [MonadExceptOf Bad m]
    (fn : Int64 → SegmentMeta → m Unit), segmentIter (w.apply s) fn = segmentIter s fn
  cursor_get : w.kind ≠ .cursor → cursorGet (w.apply s) = cursorGet s

/-- **A write is isolated**, in any store, also one with values that do not decode. -/
theorem isolated (s : Store) (w : Write) : Isolated s w where
  mapping_get h key := by
    obtain ⟨hl, hu⟩ := mapping_range_key key
    rw [mappingGet, mappingGet, get, get, mapping_range_apply h hl hu]
  mapping_iter h m _ _ fn := by
    rw [mappingIter, mappingIter, Table.scan_congr fun raw hl hu => mapping_range_apply h hl hu]
  segment_get h id := by
    obtain ⟨hl, hu⟩ := segment_range_key id
    rw [segmentGet, segmentGet, get, get, segment_range_apply h hl hu]
  segment_iter h m _ _ fn := by
    rw [segmentIter, segmentIter, Table.scan_congr fun raw hl hu => segment_range_apply h hl hu]
  cursor_get h := by
    rw [cursorGet, cursorGet, get, get, find?_apply_other (raw_not_cursor h).symm]

/-! ## 8. What the tables hold after a run -/

/-- Each table holds what the history says, in a range of its own. -/
structure Space (ws : List Write) (s : Store) : Prop where
  mappings : mappingTable.Holds s (stored ws)
  segments : segmentTable.Holds s (storedSegment ws)
  cursor : cursorTable.Holds s (fun _ => storedCursor ws)
  segment_range : segmentTable.Owns s segmentPrefix (appendUpper segmentPrefix)

theorem space_empty : Space [] .empty where
  mappings := Table.holds_empty _
  segments := Table.holds_empty _
  cursor := Table.holds_empty _
  segment_range := Table.owns_empty segment_range_key

theorem stored_concat (ws : List Write) (w : Write) (key : Key) :
    stored (ws ++ [w]) key = (Write.ofKey key w).getD (stored ws key) := by
  rw [stored, lastOf_concat]
  cases Write.ofKey key w <;> rfl

theorem stored_other (hw : w.kind ≠ .mapping) : stored (ws ++ [w]) = stored ws := by
  funext key
  rw [stored_concat]
  cases w with
  | setMapping key md => exact absurd rfl hw
  | delMapping key => exact absurd rfl hw
  | setSegment id md => rfl
  | setCursor c => rfl

theorem storedSegment_other (hw : w.kind ≠ .segment) :
    storedSegment (ws ++ [w]) = storedSegment ws := by
  funext id
  rw [storedSegment, lastOf_concat]
  cases w with
  | setMapping key md => rfl
  | delMapping key => rfl
  | setSegment id md => exact absurd rfl hw
  | setCursor c => rfl

theorem storedCursor_other (hw : w.kind ≠ .cursor) : storedCursor (ws ++ [w]) = storedCursor ws := by
  rw [storedCursor, lastOf_concat]
  cases w with
  | setMapping key md => rfl
  | delMapping key => rfl
  | setSegment id md => rfl
  | setCursor c => exact absurd rfl hw

/-- A write of another kind leaves the mappings. -/
theorem mappings_other (h : mappingTable.Holds s (stored ws)) (hw : w.kind ≠ .mapping) :
    mappingTable.Holds (w.apply s) (stored (ws ++ [w])) := by
  rw [stored_other hw]
  apply h.congr
  intro key
  obtain ⟨hl, hu⟩ := mapping_range_key key
  exact mapping_range_apply hw hl hu

theorem segments_other (h : segmentTable.Holds s (storedSegment ws)) (hw : w.kind ≠ .segment) :
    segmentTable.Holds (w.apply s) (storedSegment (ws ++ [w])) := by
  rw [storedSegment_other hw]
  apply h.congr
  intro id
  obtain ⟨hl, hu⟩ := segment_range_key id
  exact segment_range_apply hw hl hu

theorem cursor_other (h : cursorTable.Holds s (fun _ => storedCursor ws)) (hw : w.kind ≠ .cursor) :
    cursorTable.Holds (w.apply s) (fun _ => storedCursor (ws ++ [w])) := by
  rw [storedCursor_other hw]
  exact h.congr fun _ => find?_apply_other (raw_not_cursor hw).symm

theorem mappings_apply (h : mappingTable.Holds s (stored ws)) (w : Write) :
    mappingTable.Holds (w.apply s) (stored (ws ++ [w])) := by
  cases w with
  | setMapping key md =>
    have hstored : stored (ws ++ [.setMapping key md]) =
        fun key' => if key' = key then some md else stored ws key' := by
      funext key'
      rw [stored_concat, Write.ofKey]
      split <;> rfl
    rw [hstored]
    exact h.set key md
  | delMapping key =>
    have hstored : stored (ws ++ [.delMapping key]) =
        fun key' => if key' = key then none else stored ws key' := by
      funext key'
      rw [stored_concat, Write.ofKey]
      split <;> rfl
    rw [hstored]
    exact h.erase key
  | setSegment id md => exact mappings_other h (by simp [Write.kind])
  | setCursor c => exact mappings_other h (by simp [Write.kind])

theorem segments_apply (h : segmentTable.Holds s (storedSegment ws)) (w : Write) :
    segmentTable.Holds (w.apply s) (storedSegment (ws ++ [w])) := by
  cases w with
  | setMapping key md => exact segments_other h (by simp [Write.kind])
  | delMapping key => exact segments_other h (by simp [Write.kind])
  | setSegment id md =>
    have hstored : storedSegment (ws ++ [.setSegment id md]) =
        fun id' => if id' = id then some md else storedSegment ws id' := by
      funext id'
      rw [storedSegment, lastOf_concat, Write.ofSegment]
      split <;> rfl
    rw [hstored]
    exact h.set id md
  | setCursor c => exact segments_other h (by simp [Write.kind])

theorem cursor_apply (h : cursorTable.Holds s (fun _ => storedCursor ws)) (w : Write) :
    cursorTable.Holds (w.apply s) (fun _ => storedCursor (ws ++ [w])) := by
  cases w with
  | setMapping key md => exact cursor_other h (by simp [Write.kind])
  | delMapping key => exact cursor_other h (by simp [Write.kind])
  | setSegment id md => exact cursor_other h (by simp [Write.kind])
  | setCursor c =>
    have hstored : storedCursor (ws ++ [.setCursor c]) = some c := by
      rw [storedCursor, lastOf_concat]
      rfl
    intro k
    rw [hstored]
    exact (h.set () c) k

/-- Every key with the prefix of the mappings is the key of one. -/
theorem mapping_range_spec (s : Store) :
    mappingTable.Owns s kvPrefixMapping (appendUpper kvPrefixMapping) where
  keys := mapping_range_key
  only raw x _ hl hu := by
    obtain ⟨key, rfl⟩ := mem_range_mapping.mp ⟨hl, hu⟩
    exact ⟨key, rfl⟩

/-- With the prefix of the segments there is only what `segmentSet` writes. -/
theorem segment_range_step (h : segmentTable.Owns s segmentPrefix (appendUpper segmentPrefix))
    (w : Write) : segmentTable.Owns (w.apply s) segmentPrefix (appendUpper segmentPrefix) := by
  by_cases hw : w.kind = .segment
  · cases w with
    | setSegment id md => exact h.set id
    | setMapping key md => cases hw
    | delMapping key => cases hw
    | setCursor c => cases hw
  · exact h.congr fun raw hl hu => segment_range_apply hw hl hu

/-- One write more. -/
theorem space_apply (h : Space ws s) (w : Write) : Space (ws ++ [w]) (w.apply s) where
  mappings := mappings_apply h.mappings w
  segments := segments_apply h.segments w
  cursor := cursor_apply h.cursor w
  segment_range := segment_range_step h.segment_range w

/-- **After any run** the tables hold what was written last. -/
theorem space_run (ws : List Write) : Space ws (run ws) := by
  induction ws using List.reverseRecOn with
  | nil => exact space_empty
  | append_singleton ws w ih =>
    rw [run_concat]
    exact space_apply ih w

/-! ## 9. What the reads return -/

/-- What is read after a history: of each kind what was stored last, each record once, in the byte
order of its key. -/
structure Reads (ws : List Write) (s : Store) : Prop where
  mapping_get : ∀ key, mappingGet s key = .ok (stored ws key)
  mapping_iter : ∃ entries : List (Key × ObjectMeta),
    entries.Pairwise (fun a b => a.1 < b.1) ∧
    (∀ key md, (key, md) ∈ entries ↔ stored ws key = some md) ∧
    ∀ (m : Type → Type) [Monad m] [MonadExceptOf Bad m] (fn : Key → ObjectMeta → m Unit),
      mappingIter s fn = entries.forM (fun e => fn e.1 e.2)
  segment_get : ∀ id, segmentGet s id = .ok (storedSegment ws id)
  segment_iter : ∃ entries : List (Int64 × SegmentMeta),
    entries.Pairwise (fun a b => segmentKey a.1 < segmentKey b.1) ∧
    (∀ id md, (id, md) ∈ entries ↔ storedSegment ws id = some md) ∧
    ∀ (m : Type → Type) [Monad m] [MonadExceptOf Bad m] (fn : Int64 → SegmentMeta → m Unit),
      segmentIter s fn = entries.forM (fun e => fn e.1 e.2)
  cursor_get : cursorGet s = .ok (storedCursor ws)

theorem prepend_lt_iff {p a b : Key} : p ++ a < p ++ b ↔ a < b := by
  induction p with
  | nil => rfl
  | cons x p ih =>
    rw [List.cons_append, List.cons_append, List.cons_lt_cons_iff]
    constructor
    · rintro (h | ⟨-, h⟩)
      · exact absurd h (lt_irrefl x)
      · exact ih.mp h
    · intro h
      exact Or.inr ⟨rfl, ih.mpr h⟩

theorem reads_of_space (h : Space ws s) : Reads ws s where
  mapping_get := get_holds (t := mappingTable) ObjectMeta.decode_encode h.mappings
  mapping_iter := by
    obtain ⟨entries, hscan, hsorted, hmem⟩ := Table.scan_spec h.mappings (mapping_range_spec s)
    refine ⟨entries, hsorted.imp fun hlt => prepend_lt_iff.mp hlt, hmem, fun m _ _ fn => ?_⟩
    rw [mappingIter, hscan]
    exact visit_code (t := mappingTable) userKey_keyMapping ObjectMeta.decode_encode fn entries
  segment_get := get_holds (t := segmentTable) SegmentMeta.decode_encode h.segments
  segment_iter := by
    obtain ⟨entries, hscan, hsorted, hmem⟩ := Table.scan_spec h.segments h.segment_range
    refine ⟨entries, hsorted.imp fun hlt => prepend_lt_iff.mp hlt, hmem, fun m _ _ fn => ?_⟩
    rw [segmentIter, hscan]
    exact visit_code (t := segmentTable) segmentID_segmentKey SegmentMeta.decode_encode fn entries
  cursor_get := get_holds (t := cursorTable) WriteCursor.decode_encode h.cursor ()

/-- **The three kinds share one key space** as if each had its own: after any writes, whatever the
user keys and ids are, the reads of each kind return what was stored last of it, and in any store
the reads of one kind do not see the writes of another. -/
theorem key_space (ws : List Write) : Reads ws (run ws) ∧ ∀ s w, Isolated s w :=
  ⟨reads_of_space (space_run ws), isolated⟩

/-- A user key that is spelled as the key of the cursor. -/
example : mappingGet (run [.setMapping (keyState kvCursorKey) ⟨-1, 0, 5⟩, .setCursor ⟨3, 4⟩])
    (keyState kvCursorKey) = .ok (some ⟨-1, 0, 5⟩) := by decide +kernel

/-! ## 10. The tables of the other modules -/

def ofMapping (md : Taihu.ObjectMeta) : ObjectMeta :=
  ⟨Int64.ofInt md.segmentID, Int64.ofInt md.offset, Int64.ofInt md.size⟩

def ofSegment (md : Taihu.SegmentMeta) : SegmentMeta :=
  ⟨Enumeration.stateByte md.state, Int64.ofInt md.aliveCount, Int64.ofInt md.reclaimSeq⟩

def ofCursor (c : Taihu.WriteCursor) : WriteCursor := ⟨Int64.ofInt c.segmentID, Int64.ofInt c.offset⟩

/-- What is written to a `Disk`: an operation of a batch, or the cursor. -/
inductive DiskWrite where
  | op (o : BatchOp)
  | cursor (c : Taihu.WriteCursor)

def DiskWrite.apply (d : Disk) : DiskWrite → Disk
  | .op o => d.applyOp o
  | .cursor c => d.setCursor c

/-- The same write to pebble. -/
def DiskWrite.write : DiskWrite → Write
  | .op (.setMapping key md) => .setMapping key (ofMapping md)
  | .op (.delMapping key) => .delMapping key
  | .op (.setSegment id md) => .setSegment (Int64.ofInt id) (ofSegment md)
  | .cursor c => .setCursor (ofCursor c)

/-- An id that is an `int64`. -/
def IsInt64 (id : Int) : Prop := -2 ^ 63 ≤ id ∧ id < 2 ^ 63

/-- The ids of a write are `int64`s. -/
def DiskWrite.Fits : DiskWrite → Prop
  | .op (.setSegment id _) => IsInt64 id
  | _ => True

theorem toInt_ofInt {id : Int} (h : IsInt64 id) : (Int64.ofInt id).toInt = id :=
  Int64.toInt_ofInt_of_le h.1 h.2

theorem toInt_eq_iff {id : Int} (h : IsInt64 id) {x : Int64} : x.toInt = id ↔ x = Int64.ofInt id := by
  rw [← Int64.toInt_inj, toInt_ofInt h]

/-- The tables of the disk are what the history says. -/
structure Tabled (d : Disk) (ws : List Write) : Prop where
  mapping : ∀ key, stored ws key = (d.mapping.find? key).map ofMapping
  segment : ∀ id : Int64, storedSegment ws id = (d.segment.find? id.toInt).map ofSegment
  cursor : storedCursor ws = d.cursor.map ofCursor
  fits : ∀ id md, d.segment.find? id = some md → IsInt64 id

variable {d : Disk}

theorem tabled_empty : Tabled .empty [] where
  mapping _ := rfl
  segment _ := rfl
  cursor := rfl
  fits _ _ h := by cases h

/-- One write more, to both. -/
theorem tabled_apply (h : Tabled d ws) {o : DiskWrite} (ho : o.Fits) :
    Tabled (o.apply d) (ws ++ [o.write]) := by
  cases o with
  | cursor c =>
    refine ⟨?_, ?_, ?_, h.fits⟩
    · rw [stored_other (by simp [DiskWrite.write, Write.kind])]
      exact h.mapping
    · rw [storedSegment_other (by simp [DiskWrite.write, Write.kind])]
      exact h.segment
    · rw [storedCursor, lastOf_concat]
      rfl
  | op o =>
    cases o with
    | setMapping key md =>
      refine ⟨fun key' => ?_, ?_, ?_, h.fits⟩
      · rw [stored_concat, h.mapping key']
        simp only [DiskWrite.write, Write.ofKey, DiskWrite.apply, Disk.applyOp,
          SortedMap.find?_insert]
        split <;> rfl
      · rw [storedSegment_other (by simp [DiskWrite.write, Write.kind])]
        exact h.segment
      · rw [storedCursor_other (by simp [DiskWrite.write, Write.kind])]
        exact h.cursor
    | delMapping key =>
      refine ⟨fun key' => ?_, ?_, ?_, h.fits⟩
      · rw [stored_concat, h.mapping key']
        simp only [DiskWrite.write, Write.ofKey, DiskWrite.apply, Disk.applyOp,
          SortedMap.find?_erase]
        split <;> rfl
      · rw [storedSegment_other (by simp [DiskWrite.write, Write.kind])]
        exact h.segment
      · rw [storedCursor_other (by simp [DiskWrite.write, Write.kind])]
        exact h.cursor
    | setSegment id md =>
      refine ⟨?_, fun id' => ?_, ?_, fun id' md' hid => ?_⟩
      · rw [stored_other (by simp [DiskWrite.write, Write.kind])]
        exact h.mapping
      · rw [storedSegment, lastOf_concat, ← storedSegment, h.segment id']
        simp only [DiskWrite.write, Write.ofSegment, DiskWrite.apply, Disk.applyOp,
          SortedMap.find?_insert, toInt_eq_iff ho]
        split <;> rfl
      · rw [storedCursor_other (by simp [DiskWrite.write, Write.kind])]
        exact h.cursor
      · simp only [DiskWrite.apply, Disk.applyOp, SortedMap.find?_insert] at hid
        split at hid
        · rename_i he
          rw [he]
          exact ho
        · exact h.fits id' md' hid

/-- The same history, of a disk and of pebble. -/
theorem tabled_run (os : List DiskWrite) (hos : ∀ o ∈ os, o.Fits) :
    Tabled (os.foldl DiskWrite.apply .empty) (os.map DiskWrite.write) := by
  induction os using List.reverseRecOn with
  | nil => exact tabled_empty
  | append_singleton os o ih =>
    rw [List.foldl_append, List.map_append]
    exact tabled_apply (ih fun o' ho' => hos o' (List.mem_append_left _ ho'))
      (hos o (List.mem_append_right _ List.mem_cons_self))

/-- The two models of a segment's key have the same bytes. -/
theorem segmentKey_ofInt (id : Int) :
    segmentKey (Int64.ofInt id) = kvSegmentPrefix ++ Disk.segmentKey id := by
  have hbits : (Int64.ofInt id).toUInt64.toNat = (id % 2 ^ 64).toNat :=
    BitVec.toNat_ofInt id
  rw [segmentKey, putUint64, hbits, Disk.segmentKey]

/-- The records of the segments in the order of `iterSegment`, strictly. -/
theorem sorted_iterSegment (h : Tabled d ws) : d.iterSegment.Pairwise
    (fun a b => segmentKey (Int64.ofInt a.1) < segmentKey (Int64.ofInt b.1)) := by
  have hsorted : d.iterSegment.Pairwise
      (fun a b => Disk.segmentKey a.1 ≤ Disk.segmentKey b.1) :=
    List.pairwise_insertionSort
      (fun a b : Int × Taihu.SegmentMeta => Disk.segmentKey a.1 ≤ Disk.segmentKey b.1) _
  have hne : d.iterSegment.Pairwise (fun a b : Int × Taihu.SegmentMeta => a.1 ≠ b.1) :=
    List.pairwise_map.mp (SegmentManager.nodup_iterSegment d)
  have hboth := hsorted.and hne
  refine hboth.imp_of_mem fun {a b} ha hb hab => ?_
  have hfits : ∀ e ∈ d.iterSegment, IsInt64 e.1 := fun e he =>
    h.fits e.1 e.2 (SortedMap.mem_entries.mp (d.iterSegment_perm.mem_iff.mp he))
  rw [segmentKey_ofInt, segmentKey_ofInt, prepend_lt_iff]
  refine lt_of_le_of_ne hab.1 fun he => hab.2 ?_
  have hkeys : segmentKey (Int64.ofInt a.1) = segmentKey (Int64.ofInt b.1) := by
    rw [segmentKey_ofInt, segmentKey_ofInt, he]
  have hid : Int64.ofInt a.1 = Int64.ofInt b.1 :=
    segment_key_injective (congrArg keyState hkeys)
  rw [← toInt_ofInt (hfits a ha), ← toInt_ofInt (hfits b hb), hid]

/-- **The tables of a disk are the tables of pebble**: read by key or iterated, in the same
order. -/
structure Refined (d : Disk) (s : Store) : Prop where
  mapping_get : ∀ key, mappingGet s key = .ok ((d.mapping.find? key).map ofMapping)
  mapping_iter : ∀ (m : Type → Type) [Monad m] [MonadExceptOf Bad m]
    (fn : Key → ObjectMeta → m Unit), mappingIter s fn =
      (d.mapping.entries.map (fun e => (e.1, ofMapping e.2))).forM (fun e => fn e.1 e.2)
  segment_get : ∀ id : Int64,
    segmentGet s id = .ok ((d.segment.find? id.toInt).map ofSegment)
  segment_iter : ∀ (m : Type → Type) [Monad m] [MonadExceptOf Bad m]
    (fn : Int64 → SegmentMeta → m Unit), segmentIter s fn =
      (d.iterSegment.map (fun e => (Int64.ofInt e.1, ofSegment e.2))).forM (fun e => fn e.1 e.2)
  cursor_get : cursorGet s = .ok (d.cursor.map ofCursor)

theorem disk_refined (h : Tabled d ws) (hr : Reads ws s) : Refined d s where
  mapping_get key := by rw [hr.mapping_get, h.mapping]
  mapping_iter m _ _ fn := by
    obtain ⟨entries, hsorted, hmem, hiter⟩ := hr.mapping_iter
    rw [hiter m fn]
    congr 1
    refine SortedMap.eq_of_sorted hsorted ?_ fun e => ?_
    · rw [List.pairwise_map]
      exact d.mapping.sorted
    · rw [hmem e.1 e.2, h.mapping, List.mem_map, Option.map_eq_some_iff]
      constructor
      · rintro ⟨md, hmd, he⟩
        exact ⟨(e.1, md), SortedMap.mem_entries.mpr hmd, Prod.ext rfl he⟩
      · rintro ⟨e', he', rfl⟩
        exact ⟨e'.2, SortedMap.mem_entries.mp he', rfl⟩
  segment_get id := by rw [hr.segment_get, h.segment]
  segment_iter m _ _ fn := by
    obtain ⟨entries, hsorted, hmem, hiter⟩ := hr.segment_iter
    rw [hiter m fn]
    congr 1
    refine SortedMap.eq_of_sorted hsorted ?_ fun e => ?_
    · rw [List.pairwise_map]
      exact sorted_iterSegment h
    · rw [hmem e.1 e.2, h.segment, List.mem_map, Option.map_eq_some_iff]
      constructor
      · rintro ⟨md, hmd, he⟩
        refine ⟨(e.1.toInt, md), d.iterSegment_perm.mem_iff.mpr (SortedMap.mem_entries.mpr hmd), ?_⟩
        exact Prod.ext (Int64.ofInt_toInt e.1) he
      · rintro ⟨e', he', rfl⟩
        have hfind := SortedMap.mem_entries.mp (d.iterSegment_perm.mem_iff.mp he')
        refine ⟨e'.2, ?_, rfl⟩
        rw [toInt_ofInt (h.fits e'.1 e'.2 hfind)]
        exact hfind
  cursor_get := by rw [hr.cursor_get, h.cursor]

/-- After the same writes, a disk and pebble are read alike. -/
theorem disk_keyspace_refined (os : List DiskWrite) (hos : ∀ o ∈ os, o.Fits) :
    Refined (os.foldl DiskWrite.apply .empty) (run (os.map DiskWrite.write)) :=
  disk_refined (tabled_run os hos) (reads_of_space (space_run _))

end Taihu.KeySpace
