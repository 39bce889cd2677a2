/-
# What the read paths deliver

The reads of `DeviceRead.lean`, over every request that `int64` can express.

`ReadAtMeta` reads whole blocks and moves the window to the head of its buffer.  When the device
has read less than the blocks, the window is clipped to the length of what was read, and not to
what was read of the window: behind an offset inside a block the last bytes that are returned
are what the buffer held before (`readAtMeta_window_iff`).
-/
import Taihu.DeviceRead

namespace Taihu.DeviceRead

open BufPool
open CompletionPump (retriableErrno complRetryMax)

/-! ## 1. One IO -/

namespace Drive

variable (d : Drive) (x : Extent)

/-- The result of `submitOpN`. -/
def settle : Nat → Nat → Int
  | 0, k => d.res x k
  | n + 1, k => if retriableErrno (d.res x k) then settle n (k + 1) else d.res x k

/-- What the device has delivered when `submitRead` returns, or an errno. -/
def delivered : Int := d.settle x complRetryMax 0

/-- The same for an IO that is awaited elsewhere. -/
def deliveredLate : Int :=
  if retriableErrno (d.res x 0) then d.settle x complRetryMax 1 else d.res x 0

@[simp] theorem bytes_length (n : Nat) : (d.bytes x n).length = n := by simp [bytes]

theorem bytes_take {m n : Nat} (h : m ≤ n) : (d.bytes x n).take m = d.bytes x m := by
  simp [bytes, ← List.map_take, List.take_range, Nat.min_eq_left h]

theorem settle_le (h : 0 ≤ x.size) (n k : Nat) : d.settle x n k ≤ x.size := by
  induction n generalizing k with
  | zero => exact d.res_le x k h
  | succ n ih =>
    unfold settle
    split
    · exact ih (k + 1)
    · exact d.res_le x k h

theorem fill_length {res : Int} {buf : Bytes} (h : res ≤ buf.length) :
    (d.fill x res buf).length = buf.length := by
  rw [fill, List.length_append, bytes_length, List.length_drop]
  omega

/-- What lies at the head of a buffer that has been filled. -/
theorem fill_take {res : Int} {m : Nat} (h : (m : Int) ≤ res) (buf : Bytes) :
    (d.fill x res buf).take m = d.bytes x m := by
  rw [fill, List.take_append_of_le_length (by rw [bytes_length]; omega), bytes_take]
  omega

/-- What lies further on, as far as it has been delivered. -/
theorem fill_window {res : Int} {s c : Nat} (h : (s + c : Nat) ≤ res) (buf : Bytes)
    {y : Extent} (hseg : y.seg = x.seg) (hoff : y.off = x.off + s) :
    ((d.fill x res buf).drop s).take c = d.bytes y c := by
  have hlen : s ≤ (d.bytes x res.toNat).length := by
    rw [bytes_length]
    omega
  rw [fill, List.drop_append_of_le_length hlen,
    List.take_append_of_le_length (by rw [List.length_drop, bytes_length]; omega)]
  apply List.ext_getElem
  · rw [List.length_take, List.length_drop, bytes_length, bytes_length]
    omega
  · intro i h1 h2
    simp [bytes, hseg, hoff, Int.add_assoc]

/-- A submission ends with one last transfer into the buffer. -/
theorem submitOpN_eq (n k : Nat) (buf : Bytes) (hlen : x.size ≤ buf.length) (h0 : 0 ≤ x.size) :
    ∃ buf', buf'.length = buf.length ∧
      d.submitOpN x n k buf = (d.fill x (d.settle x n k) buf', d.settle x n k) := by
  induction n generalizing k buf with
  | zero => exact ⟨buf, rfl, rfl⟩
  | succ n ih =>
    have hfill : (d.fill x (d.res x k) buf).length = buf.length :=
      d.fill_length x ((d.res_le x k h0).trans hlen)
    unfold submitOpN settle
    split
    · obtain ⟨buf', hbuf', heq⟩ := ih (k + 1) (d.fill x (d.res x k) buf) (by rw [hfill]; exact hlen)
      exact ⟨buf', hbuf'.trans hfill, heq⟩
    · exact ⟨buf, rfl, rfl⟩

theorem submitRead_eq (buf : Bytes) (hlen : x.size ≤ buf.length) (h0 : 0 ≤ x.size) :
    ∃ buf', buf'.length = buf.length ∧
      d.submitRead x buf = (d.fill x (d.delivered x) buf', d.delivered x) :=
  d.submitOpN_eq x complRetryMax 0 buf hlen h0

theorem await_eq (buf : Bytes) (hlen : x.size ≤ buf.length) (h0 : 0 ≤ x.size) :
    ∃ buf', buf'.length = buf.length ∧
      d.await x buf = (d.fill x (d.deliveredLate x) buf', d.deliveredLate x) := by
  have hfill : (d.fill x (d.res x 0) buf).length = buf.length :=
    d.fill_length x ((d.res_le x 0 h0).trans hlen)
  unfold await deliveredLate
  split
  · obtain ⟨buf', hbuf', heq⟩ := d.submitOpN_eq x complRetryMax 1 (d.fill x (d.res x 0) buf)
      (by rw [hfill]; exact hlen) h0
    exact ⟨buf', hbuf'.trans hfill, heq⟩
  · exact ⟨buf, rfl, rfl⟩

end Drive

/-! ## 2. Requests -/

/-- A read of an object: the numbers are those of `int64`, the extent begins at a block, and at
least one byte is asked for. -/
structure Request where
  md : ObjectMeta
  off : Int
  size : Int
  offset_aligned : md.offset % blockSize = 0
  offset_range : -2 ^ 63 ≤ md.offset ∧ md.offset < 2 ^ 63
  length_range : -2 ^ 63 ≤ md.size ∧ md.size < 2 ^ 63
  off_range : -2 ^ 63 ≤ off ∧ off < 2 ^ 63
  size_pos : 0 < size
  size_lt : size < 2 ^ 63

namespace Request

variable (q : Request)

/-- The length of the window `[off, min (off + size) md.size)`. -/
def want : Int := if q.size > q.md.size - q.off then q.md.size - q.off else q.size

/-- Where the window begins in its block. -/
def skip : Int := q.off % blockSize

/-- The blocks of the window. -/
def io : Extent :=
  ⟨q.md.segmentID, q.md.offset + q.off - q.skip, align4k (q.skip + q.want)⟩

theorem extent_eq : (⟨q.md.segmentID, q.io.off, q.io.size⟩ : Extent) = q.io := rfl

/-- The window lies in the object and is not empty. -/
def Nonempty : Prop := 0 ≤ q.off ∧ q.off < q.md.size

/-- The blocks of the window have offsets and a length that `int64` can express. -/
def InRange : Prop :=
  0 ≤ q.io.off ∧ q.md.offset + q.off + q.want < 2 ^ 63 ∧ q.io.size < 2 ^ 63

instance : Decidable q.Nonempty := inferInstanceAs (Decidable (_ ∧ _))

instance : Decidable q.InRange := inferInstanceAs (Decidable (_ ∧ _))

theorem skip_range : 0 ≤ q.skip ∧ q.skip < blockSize := by
  unfold skip blockSize
  omega

theorem want_pos (h : q.Nonempty) : 0 < q.want := by
  have := q.size_pos
  have := h.2
  unfold want
  split <;> omega

theorem want_le : q.want ≤ q.size ∧ q.want ≤ q.md.size - q.off := by
  unfold want
  split <;> omega

/-- What `readWindow` computes. -/
structure Window (w : Taihu.Window) : Prop where
  want_eq : w.want = q.want
  skip_eq : w.skip = q.skip
  start_eq : int64 (int64 (q.md.offset + q.off) - w.skip) = w.relStart - w.skip
  start_mod : (w.relStart - w.skip) % blockSize = 0
  dlen_mod : w.dlen % blockSize = 0
  dlen_ne : w.dlen ≠ 0
  io_eq : q.InRange → w.relStart - w.skip = q.io.off ∧ w.dlen = q.io.size
  refused : ¬ q.InRange → w.relStart - w.skip < 0 ∨ w.dlen < 0

/-- The end of the window, rounded up, less the beginning of its block. -/
theorem dlen_spec (r want s : Int) (hr : -2 ^ 63 ≤ r ∧ r < 2 ^ 63) (hwant : 0 < want)
    (hwant' : want < 2 ^ 63) (hs : s % blockSize = 0) (hsr : s ≤ r ∧ r < s + blockSize) (_ : -2 ^ 63 ≤ s)
    (hfit : s ≤ 0 → r + want < 2 ^ 63) :
    int64 (align4k64 (int64 (r + want)) - s) % blockSize = 0 ∧
    int64 (align4k64 (int64 (r + want)) - s) ≠ 0 ∧
    (0 ≤ s → r + want < 2 ^ 63 → align4k (r - s + want) < 2 ^ 63 →
      int64 (align4k64 (int64 (r + want)) - s) = align4k (r - s + want)) ∧
    (0 ≤ s → ¬ (r + want < 2 ^ 63 ∧ align4k (r - s + want) < 2 ^ 63) →
      int64 (align4k64 (int64 (r + want)) - s) < 0) := by
  unfold blockSize at hs hsr
  rcases lt_or_ge (r + want) (2 ^ 63) with hlt | hge
  · have hsum : int64 (r + want) = r + want := int64_of_range (by omega) hlt
    rw [hsum]
    rcases le_or_gt (r + want) 0 with hle | hgt
    · rw [align4k64, if_pos hle]
      unfold int64 align4k blockSize
      refine ⟨by omega, by omega, by omega, by omega⟩
    · rw [align4k64, if_neg (by omega)]
      rcases lt_or_ge (r + want + 4095) (2 ^ 63) with hup | hup
      · have hup' : int64 (r + want + blockSize - 1) = r + want + 4095 := by
          unfold blockSize
          rw [int64_of_range (by omega) (by omega)]
          omega
        simp only [hup']
        unfold int64 align4k blockSize
        refine ⟨by omega, by omega, by omega, by omega⟩
      · have hup' : int64 (r + want + blockSize - 1) = r + want + 4095 - 2 ^ 64 := by
          unfold int64 blockSize
          omega
        simp only [hup']
        unfold int64 align4k blockSize
        refine ⟨by omega, by omega, by omega, by omega⟩
  · have hsum : int64 (r + want) = r + want - 2 ^ 64 := by
      unfold int64
      omega
    rw [hsum, align4k64, if_pos (by omega)]
    unfold int64 blockSize
    refine ⟨by omega, by omega, by omega, by omega⟩

theorem readWindow64_ok (h : q.Nonempty) (aligned : Bool)
    (ha : aligned = true → q.off % blockSize = 0) :
    ∃ w, readWindow64 q.md q.off q.size aligned = .ok w ∧ q.Window w := by
  obtain ⟨h0, hlt⟩ := h
  have hmd := q.offset_range
  have hlen := q.length_range
  have hoff := q.off_range
  have hsz := q.size_lt
  have hpos := q.size_pos
  have hal := q.offset_aligned
  have hcheck : ¬ (q.off < 0 ∨ q.off > q.md.size ∨ (aligned ∧ q.off % blockSize ≠ 0)) := by
    rintro (h | h | ⟨h, h'⟩)
    · omega
    · omega
    · exact h' (ha h)
  have hrem : int64 (q.md.size - q.off) = q.md.size - q.off :=
    int64_of_range (by omega) (by omega)
  have hwant : 0 < q.want := q.want_pos ⟨h0, hlt⟩
  have hskip := q.skip_range
  obtain ⟨r, hr⟩ : ∃ r, r = int64 (q.md.offset + q.off) := ⟨_, rfl⟩
  have hrange : -2 ^ 63 ≤ r ∧ r < 2 ^ 63 := by
    rw [hr]
    exact int64_range _
  -- wrapping keeps the position in the block
  have hmod : r % blockSize = q.skip := by
    rw [hr]
    unfold int64 skip blockSize at *
    omega
  have hstart : (if aligned then r else r - r % blockSize) = r - q.skip := by
    split
    · rename_i hal'
      have : q.skip = 0 := ha hal'
      omega
    · rw [hmod]
  have hwant' := q.want_le
  obtain ⟨hd1, hd2, hd3, hd4⟩ := dlen_spec r q.want (r - q.skip) hrange hwant
    (by omega) (by unfold blockSize at *; omega) (by omega) (by unfold blockSize at *; omega)
    (by
      intro hle
      rw [hr] at hle ⊢
      unfold int64 blockSize at *
      omega)
  have hsize : r - (r - q.skip) + q.want = q.skip + q.want := by omega
  rw [hsize] at hd3 hd4
  unfold readWindow64
  rw [if_neg hcheck]
  simp only [hrem, ← hr]
  have hwantEq : (if q.size > q.md.size - q.off then q.md.size - q.off else q.size) = q.want := rfl
  rw [hwantEq, hstart, if_neg (by omega)]
  have hsk : int64 (r - (r - q.skip)) = q.skip := by
    rw [int64_of_range (by unfold blockSize at *; omega) (by unfold blockSize at *; omega)]
    omega
  have hlow : -2 ^ 63 ≤ r - q.skip := by
    unfold blockSize at *
    omega
  have hmod0 : (r - q.skip) % blockSize = 0 := by
    unfold blockSize at *
    omega
  refine ⟨_, rfl, rfl, hsk, ?_, ?_, hd1, hd2, ?_, ?_⟩
  · simp only [hsk, ← hr]
    exact int64_of_range hlow (by omega)
  · simp only [hsk]
    exact hmod0
  · rintro ⟨h1, h2, h3⟩
    simp only [io] at h1 h3
    have hrR : r = q.md.offset + q.off := hr.trans (int64_of_range (by omega) (by omega))
    simp only [hsk, io, ← hrR]
    exact ⟨trivial, hd3 (by omega) (by omega) h3⟩
  · intro hout
    simp only [hsk]
    by_contra hcon
    rw [not_or, not_lt, not_lt] at hcon
    have hrR : r = q.md.offset + q.off := by
      have hle : 0 ≤ r := by omega
      rw [hr] at hle ⊢
      unfold int64 at *
      omega
    have hin : r + q.want < 2 ^ 63 ∧ align4k (q.skip + q.want) < 2 ^ 63 := by
      by_contra hbig
      have := hd4 hcon.1 hbig
      omega
    rw [hrR] at hcon hin
    exact hout ⟨hcon.1, hin.1, hin.2⟩

theorem readWindow64_invalid (h : q.off < 0 ∨ q.off > q.md.size) (aligned : Bool) :
    readWindow64 q.md q.off q.size aligned = .error .invalidRange := by
  rw [readWindow64, if_pos]
  exact h.imp_right .inl

theorem readWindow64_empty (h0 : 0 ≤ q.off) (h : q.off = q.md.size) {aligned : Bool}
    (ha : aligned = true → q.off % blockSize = 0) :
    readWindow64 q.md q.off q.size aligned = .error .eof := by
  have hcheck : ¬ (q.off < 0 ∨ q.off > q.md.size ∨ (aligned ∧ q.off % blockSize ≠ 0)) := by
    rintro (h' | h' | ⟨h', hmod⟩)
    · omega
    · omega
    · exact hmod (ha h')
  have hrem : int64 (q.md.size - q.off) = 0 := by
    rw [h, sub_self]
    rfl
  have := q.size_pos
  unfold readWindow64
  rw [if_neg hcheck]
  simp only [hrem]
  rw [if_pos (by rw [if_pos (by omega)])]

end Request

/-! ## 3. `ReadAtMeta` -/

namespace Drive

variable {d : Drive} {x : Extent}

/-- An IO that the device does not refuse. -/
structure Proper (x : Extent) : Prop where
  off_nonneg : 0 ≤ x.off
  off_mod : x.off % blockSize = 0
  size_pos : 0 < x.size
  size_mod : x.size % blockSize = 0

/-- The errors that `Device.ReadAt` makes up itself. -/
def Refusal : ReadErr → Prop
  | .offset _ => True
  | .size _ => True
  | _ => False

theorem readAt_refused (p : Pool) (h : x.off < 0 ∨ x.size < 0) :
    ∃ e, d.readAt p x = .error e ∧ Refusal e := by
  unfold readAt
  by_cases hoff : x.off < 0 ∨ x.off % blockSize ≠ 0
  · rw [if_pos hoff]
    exact ⟨_, rfl, trivial⟩
  · have hsize : x.size < 0 := h.resolve_left (fun h => hoff (.inl h))
    rw [if_neg hoff, if_pos (.inl hsize)]
    exact ⟨_, rfl, trivial⟩

theorem readAt_proper (p : Pool) (h : Proper x) :
    (d.delivered x < 0 → d.readAt p x = .error (.errno (-d.delivered x))) ∧
    (d.delivered x = 0 → d.readAt p x = .error .eof) ∧
    (0 < d.delivered x → ∃ buf, x.size ≤ buf.length ∧
      d.readAt p x = .ok (d.fill x (d.delivered x) buf, d.delivered x)) := by
  have hpool : x.size ≤ ((p.get x.size.toNat).1.bytes.length : Int) := by
    have := p.le_length_get x.size.toNat
    omega
  obtain ⟨buf, hbuf, hread⟩ := d.submitRead_eq x _ hpool h.size_pos.le
  have hsize : ¬ (x.size < 0 ∨ x.size % blockSize ≠ 0) := by
    rintro (h' | h')
    · have := h.size_pos
      omega
    · exact h' h.size_mod
  unfold readAt
  rw [if_neg (by rintro (h' | h'); exact absurd h' (Int.not_lt.mpr h.off_nonneg); exact h' h.off_mod),
    if_neg hsize, if_neg (Int.ne_of_gt h.size_pos)]
  simp only [hread]
  refine ⟨fun hneg => if_pos hneg, fun hz => ?_, fun hpos => ⟨buf, by omega, ?_⟩⟩
  · rw [if_neg (by omega), if_pos hz]
  · rw [if_neg (by omega), if_neg (by omega)]

end Drive

namespace Request

variable (q : Request) (d : Drive)

/-- **What a read of a window promises**, when the device has delivered the first `n` bytes of its
blocks: the bytes are those of the object from `off` on, none of them lies behind what was
delivered, a delivery in full gives the whole window, and `io.EOF` says that they are fewer than
asked for. -/
structure WindowRead (n : Int) (data : Bytes) (err : Option ReadErr) : Prop where
  own : data = d.bytes ⟨q.md.segmentID, q.md.offset + q.off, q.size⟩ data.length
  inside : data ≠ [] → q.off + data.length ≤ q.md.size
  le_size : (data.length : Int) ≤ q.size
  delivered : data ≠ [] → q.md.offset + q.off + data.length ≤ q.io.off + n
  whole : q.io.size ≤ n → (data.length : Int) = q.want
  eof_iff : err = some .eof ↔ (data.length : Int) < q.size

/-- The promise, errors included: the device fails, or refuses an IO that is out of range. -/
def Correct (o : Outcome) : Prop :=
  ∃ data err, o = .returned data err ∧
    (err = some .invalidRange ↔ q.off < 0 ∨ q.off > q.md.size) ∧
    (err = none ∨ err = some .eof → q.WindowRead d (d.delivered q.io) data err) ∧
    (err = none ∨ err = some .eof ∨ err = some .invalidRange ∨ d.delivered q.io < 0 ∨ ¬ q.InRange)

/-- What is read of the blocks reaches the end of the window, or there is nothing in front of it. -/
def Reaches : Prop :=
  q.Nonempty → q.InRange → 0 < d.delivered q.io →
    q.skip = 0 ∨ q.skip + q.want ≤ d.delivered q.io

instance : Decidable (q.Reaches d) := inferInstanceAs (Decidable (_ → _ → _ → _ ∨ _))

/-- The blocks of a window are an IO for the device. -/
theorem io_proper (h : q.Nonempty) (hr : q.InRange) : Drive.Proper q.io := by
  have hal := q.offset_aligned
  have hwant := q.want_pos h
  have hskip := q.skip_range
  refine ⟨hr.1, ?_, ?_, align4k_mod _⟩
  · show (q.md.offset + q.off - q.skip) % blockSize = 0
    unfold skip blockSize at *
    omega
  · have hle : q.skip + q.want ≤ q.io.size := le_align4k _
    omega

/-- A window that the device has read something of. -/
theorem readAtMeta_done (p : Pool) (h : q.Nonempty) (hr : q.InRange) (hpos : 0 < d.delivered q.io) :
    ∃ buf : Bytes, q.io.size ≤ buf.length ∧ d.readAtMeta p q.md q.off q.size =
      .returned (((d.fill q.io (d.delivered q.io) buf).drop q.skip.toNat).take
        (clip (d.delivered q.io) q.want).toNat)
        (eofBelow (clip (d.delivered q.io) q.want) q.size) := by
  obtain ⟨w, hw, hspec⟩ := q.readWindow64_ok h false (by simp)
  obtain ⟨hoff, hdlen⟩ := hspec.io_eq hr
  have hio : (⟨q.md.segmentID, w.relStart - w.skip, w.dlen⟩ : Extent) = q.io := by
    rw [hoff, hdlen]
    rfl
  obtain ⟨buf, hbuf, hread⟩ := (Drive.readAt_proper (d := d) p (q.io_proper h hr)).2.2 hpos
  have hn := d.settle_le q.io (q.io_proper h hr).size_pos.le complRetryMax 0
  change d.delivered q.io ≤ q.io.size at hn
  generalize hdel : d.delivered q.io = n at *
  have hlen : (d.fill q.io n buf).length = buf.length := d.fill_length q.io (hn.trans hbuf)
  have hskip := q.skip_range
  have hwant := q.want_pos h
  have hcover : q.skip + q.want ≤ q.io.size := le_align4k _
  have hclip : 0 < clip n q.want ∧ clip n q.want ≤ n ∧ clip n q.want ≤ q.want := by
    unfold clip
    split <;> omega
  refine ⟨buf, hbuf, ?_⟩
  unfold Drive.readAtMeta
  rw [hw]
  simp only
  rw [hspec.start_eq, hio, hread, hspec.skip_eq, hspec.want_eq]
  simp only
  split
  · rw [if_pos ⟨hclip.1.le, by rw [hlen]; omega⟩]
    have htake : List.take n.toNat (List.take (clip n q.want).toNat
        (List.drop q.skip.toNat (d.fill q.io n buf))) =
        List.take (clip n q.want).toNat (List.drop q.skip.toNat (d.fill q.io n buf)) := by
      rw [List.take_take, Nat.min_eq_right (by omega)]
    have hcount : ((List.take (clip n q.want).toNat
        (List.drop q.skip.toNat (d.fill q.io n buf))).length : Int) = clip n q.want := by
      rw [List.length_take, List.length_drop, hlen]
      omega
    rw [htake, hcount]
  · rename_i hno
    rw [not_or, not_lt, not_lt] at hno
    have hzero : q.skip = 0 := by omega
    have hall : clip n q.want = n := by omega
    have hcount : ((List.take n.toNat (d.fill q.io n buf)).length : Int) = n := by
      rw [List.length_take, hlen]
      omega
    rw [hall, hzero, hcount]
    rfl

/-- A window whose read the device refuses or fails. -/
theorem readAtMeta_error (p : Pool) (h : q.Nonempty)
    (hbad : ¬ q.InRange ∨ d.delivered q.io < 0) : ∃ e, e ≠ .eof ∧ e ≠ .invalidRange ∧
      d.readAtMeta p q.md q.off q.size = .returned [] (some e) := by
  obtain ⟨w, hw, hspec⟩ := q.readWindow64_ok h false (by simp)
  unfold Drive.readAtMeta
  rw [hw]
  simp only
  rw [hspec.start_eq]
  by_cases hr : q.InRange
  · obtain ⟨hoff, hdlen⟩ := hspec.io_eq hr
    have hio : (⟨q.md.segmentID, w.relStart - w.skip, w.dlen⟩ : Extent) = q.io := by
      rw [hoff, hdlen]
      rfl
    have hneg := hbad.resolve_left (fun hn => hn hr)
    rw [hio, (Drive.readAt_proper (d := d) p (q.io_proper h hr)).1 hneg]
    exact ⟨_, ReadErr.noConfusion, ReadErr.noConfusion, rfl⟩
  · obtain ⟨e, he, href⟩ := Drive.readAt_refused (d := d)
      (x := ⟨q.md.segmentID, w.relStart - w.skip, w.dlen⟩) p (hspec.refused hr)
    rw [he]
    refine ⟨e, ?_, ?_, rfl⟩
    · rintro rfl
      exact href
    · rintro rfl
      exact href

/-- A window of whose blocks nothing could be read. -/
theorem readAtMeta_nothing (p : Pool) (h : q.Nonempty) (hr : q.InRange)
    (hz : d.delivered q.io = 0) :
    d.readAtMeta p q.md q.off q.size = .returned [] (some .eof) := by
  obtain ⟨w, hw, hspec⟩ := q.readWindow64_ok h false (by simp)
  obtain ⟨hoff, hdlen⟩ := hspec.io_eq hr
  have hio : (⟨q.md.segmentID, w.relStart - w.skip, w.dlen⟩ : Extent) = q.io := by
    rw [hoff, hdlen]
    rfl
  unfold Drive.readAtMeta
  rw [hw]
  simp only
  rw [hspec.start_eq, hio, (Drive.readAt_proper (d := d) p (q.io_proper h hr)).2.1 hz]

/-- Nothing is promised of no bytes but that the device had nothing to give. -/
theorem windowRead_nil {n : Int} (h : q.io.size ≤ n → q.want = 0) :
    q.WindowRead d n [] (some .eof) := by
  refine ⟨rfl, fun hne => absurd rfl hne, q.size_pos.le, fun hne => absurd rfl hne,
    fun hall => (h hall).symm, iff_of_true rfl q.size_pos⟩

/-- A window that has been read keeps the promise if what was delivered reaches its end. -/
theorem windowRead_iff {n : Int} {buf : Bytes} (h : q.Nonempty) (hn : 0 < n)
    (hle : n ≤ q.io.size) (hbuf : q.io.size ≤ buf.length) :
    q.WindowRead d n (((d.fill q.io n buf).drop q.skip.toNat).take (clip n q.want).toNat)
      (eofBelow (clip n q.want) q.size) ↔ q.skip = 0 ∨ q.skip + q.want ≤ n := by
  have hlen : (d.fill q.io n buf).length = buf.length := d.fill_length q.io (hle.trans hbuf)
  have hskip := q.skip_range
  have hwant := q.want_pos h
  have hwle := q.want_le
  have hcover : q.skip + q.want ≤ q.io.size := le_align4k _
  have hclip : 0 < clip n q.want ∧ clip n q.want ≤ n ∧ clip n q.want ≤ q.want ∧
      (clip n q.want = n ∨ clip n q.want = q.want) := by
    unfold clip
    split <;> omega
  obtain ⟨data, hdata⟩ : ∃ data, data = ((d.fill q.io n buf).drop q.skip.toNat).take
    (clip n q.want).toNat := ⟨_, rfl⟩
  have hcount : (data.length : Int) = clip n q.want := by
    rw [hdata, List.length_take, List.length_drop, hlen]
    omega
  have hne : data ≠ [] := by
    rintro rfl
    rw [List.length_nil] at hcount
    omega
  have hstart : q.io.off = q.md.offset + q.off - q.skip := rfl
  rw [← hdata]
  constructor
  · intro hread
    have hdel := hread.delivered hne
    omega
  · intro hreach
    refine ⟨?_, fun _ => by omega, by omega, fun _ => by omega, fun hall => ?_, ?_⟩
    · have hwin : (q.skip.toNat + (clip n q.want).toNat : Nat) ≤ n := by omega
      have hoff : q.md.offset + q.off = q.io.off + (q.skip.toNat : Int) := by omega
      have hnat : data.length = (clip n q.want).toNat := by omega
      rw [hnat, hdata]
      exact d.fill_window q.io hwin buf rfl hoff
    · have : clip n q.want = q.want := by
        unfold clip
        rw [if_neg (by omega)]
      omega
    · rw [← hcount]
      unfold eofBelow
      split <;> simp_all

theorem eofBelow_cases (n size : Int) : eofBelow n size = none ∨ eofBelow n size = some .eof := by
  unfold eofBelow
  split
  · exact .inr rfl
  · exact .inl rfl

/-- A window of whose blocks something has been read keeps the promise only if that reaches the
end of the window. -/
theorem correct_done_iff (p : Pool) (h : q.Nonempty) (hr : q.InRange)
    (hpos : 0 < d.delivered q.io) : q.Correct d (d.readAtMeta p q.md q.off q.size) ↔
      q.skip = 0 ∨ q.skip + q.want ≤ d.delivered q.io := by
  obtain ⟨buf, hbuf, hread⟩ := q.readAtMeta_done d p h hr hpos
  have hle : d.delivered q.io ≤ q.io.size :=
    d.settle_le q.io (q.io_proper h hr).size_pos.le complRetryMax 0
  have hiff := q.windowRead_iff d h hpos hle hbuf
  have hvalid : ¬ (q.off < 0 ∨ q.off > q.md.size) := by
    have := h.1
    have := h.2
    omega
  have herr := eofBelow_cases (clip (d.delivered q.io) q.want) q.size
  rw [hread]
  constructor
  · rintro ⟨data, err, ho, -, hwin, -⟩
    cases ho
    exact hiff.mp (hwin herr)
  · intro hreach
    refine ⟨_, _, rfl, iff_of_false ?_ hvalid, fun _ => hiff.mpr hreach, herr.imp_right .inl⟩
    rcases herr with he | he <;> rw [he] <;> simp

/-- **`ReadAtMeta` keeps the promise of a read exactly where it reads to the end of the window or
from the beginning of a block.**  Behind an offset inside a block, a device that has read less
than the window and what is in front of it leaves bytes in the window that it has not
delivered. -/
theorem readAtMeta_window_iff (p : Pool) :
    q.Correct d (d.readAtMeta p q.md q.off q.size) ↔ q.Reaches d := by
  rcases lt_or_ge q.off 0 with hoff | hoff
  · have hread : d.readAtMeta p q.md q.off q.size = .returned [] (some .invalidRange) := by
      rw [Drive.readAtMeta, q.readWindow64_invalid (.inl hoff)]
    rw [hread]
    exact iff_of_true ⟨_, _, rfl, iff_of_true rfl (.inl hoff), by simp, by simp⟩
      (fun h => absurd h.1 (Int.not_le.mpr hoff))
  rcases lt_trichotomy q.off q.md.size with hlt | heq | hgt
  · have h : q.Nonempty := ⟨hoff, hlt⟩
    have hvalid : ¬ (q.off < 0 ∨ q.off > q.md.size) := by omega
    by_cases hbad : ¬ q.InRange ∨ d.delivered q.io < 0
    · obtain ⟨e, heof, hinv, hread⟩ := q.readAtMeta_error d p h hbad
      rw [hread]
      refine iff_of_true ⟨_, _, rfl, iff_of_false (by simpa using hinv) hvalid, ?_, ?_⟩ ?_
      · rintro (he | he)
        · cases he
        · cases he
          exact absurd rfl heof
      · exact .inr (.inr (.inr hbad.symm))
      · intro _ hr hpos
        exact absurd hbad (by rw [not_or, not_not]; exact ⟨hr, by omega⟩)
    · rw [not_or, not_not, not_lt] at hbad
      obtain ⟨hr, hn⟩ := hbad
      rcases eq_or_lt_of_le hn with hz | hpos
      · have hio := (q.io_proper h hr).size_pos
        rw [q.readAtMeta_nothing d p h hr hz.symm]
        refine iff_of_true ⟨_, _, rfl, iff_of_false (by simp) hvalid, fun _ => ?_, by simp⟩ ?_
        · exact q.windowRead_nil d (fun hall => by omega)
        · intro _ _ hpos
          omega
      · rw [q.correct_done_iff d p h hr hpos]
        exact ⟨fun hreach _ _ _ => hreach, fun hreach => hreach h hr hpos⟩
  · have hread : d.readAtMeta p q.md q.off q.size = .returned [] (some .eof) := by
      rw [Drive.readAtMeta, q.readWindow64_empty hoff heq (by simp)]
    have hz : q.want = 0 := by
      have := q.size_pos
      unfold want
      split <;> omega
    rw [hread]
    refine iff_of_true ⟨_, _, rfl, iff_of_false (by simp) (by omega), fun _ => ?_, by simp⟩
      (fun h => absurd h.2 (by omega))
    exact q.windowRead_nil d (fun _ => hz)
  · have hread : d.readAtMeta p q.md q.off q.size = .returned [] (some .invalidRange) := by
      rw [Drive.readAtMeta, q.readWindow64_invalid (.inr hgt)]
    rw [hread]
    exact iff_of_true ⟨_, _, rfl, iff_of_true rfl (.inr hgt), by simp, by simp⟩
      (fun h => absurd h.2 (by omega))

end Request

/-- A device of sevens that delivers at most 150 bytes. -/
def shortDrive : Drive where
  byte _ _ := 7
  res x _ := if x.size < 150 then x.size else 150
  res_le x _ _ := by
    split <;> omega

/-- 200 bytes from offset 100 of an object of two blocks. -/
def insideBlock : Request where
  md := ⟨0, 0, 8192⟩
  off := 100
  size := 200
  offset_aligned := by decide
  offset_range := by decide
  length_range := by decide
  off_range := by decide
  size_pos := by decide
  size_lt := by decide

/-- **A short read returns bytes that were not delivered.**  150 bytes of the block arrive, 50 of
them in the window; 150 are returned. -/
theorem short_read_returns_stale_bytes :
    ¬ ∀ (d : Drive) (p : Pool) (q : Request), q.Correct d (d.readAtMeta p q.md q.off q.size) := by
  intro hall
  have hc := hall shortDrive newAlignedPool insideBlock
  rw [Request.correct_done_iff insideBlock shortDrive newAlignedPool (by decide) (by decide)
    (by decide +kernel)] at hc
  exact absurd hc (by decide +kernel)

end Taihu.DeviceRead
