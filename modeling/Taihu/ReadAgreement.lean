/-
# Four ways to read a window

`ReadAtMeta`, `ReadAtIntoMeta`, `SubmitReadAtIntoMeta` with `Await`, and a `BatchRead` of one
block, for a request at a block and a destination that is aligned and long enough.

They submit the same IO and differ in what they make of its results.  The batch counts a read
that is too short as a whole one (`view_batchRead_short`), and an IO that is awaited elsewhere is
tried once more often than one that is not (`late_cases`); there the paths part, and nowhere else
(`read_paths_agree_iff`).
-/
import Taihu.ReadPaths

namespace Taihu.DeviceRead

open BufPool
open CompletionPump (retriableErrno complRetryMax)

/-! ## 1. What a caller sees -/

/-- The kinds of error a caller tells apart. -/
inductive ErrClass where
  | none
  | eof
  | other
  deriving DecidableEq, Repr

def classOf : Option ReadErr → ErrClass
  | .none => .none
  | .some .eof => .eof
  | .some _ => .other

theorem classOf_some {e : ReadErr} (h : e ≠ .eof) : classOf (some e) = .other := by
  cases e with
  | eof => exact absurd rfl h
  | _ => rfl

/-- What two reads have to have in common; nothing is like a panic. -/
def Outcome.view : Outcome → Option (Bytes × ErrClass)
  | .panicked => none
  | .returned data err => some (data, classOf err)

/-- All of them report the same bytes and the same kind of error. -/
def Agree (os : List Outcome) : Prop :=
  ∃ v, ∀ o ∈ os, o.view = some v

namespace Request

variable (q : Request) (d : Drive)

/-- The outcomes of the four paths; the ring accepts `accepted` jobs of the batch. -/
def paths (p : Pool) (dst : Dst) (accepted : Nat) : List Outcome :=
  [d.readAtMeta p q.md q.off q.size, d.readAtIntoMeta q.md q.off q.size dst,
    d.submitReadAtIntoMeta q.md q.off q.size dst,
    d.batchRead accepted [⟨q.md, q.off, q.size, dst⟩] 0]

/-- The IO is tried nine times in vain, and a tenth time would not be. -/
def Late : Prop :=
  (∀ k < complRetryMax + 1, retriableErrno (d.res q.io k) = true) ∧
    0 ≤ d.res q.io (complRetryMax + 1)

/-- The destination slice has no negative length. -/
def Sliced : Prop :=
  ∀ w, readWindow64 q.md q.off q.size true = .ok w → 0 ≤ w.dlen

/-- The results for which the paths agree. -/
def Settles (accepted : Nat) : Prop :=
  q.Nonempty → q.Sliced ∧ (q.InRange → ¬ q.Late d ∧
    (0 < accepted → ¬ (0 < d.delivered q.io ∧ d.delivered q.io < q.want)))

end Request

namespace Drive

variable (d : Drive) (x : Extent)

/-- One more repetition makes a difference only when all before it were needed. -/
theorem settle_succ (n k : Nat) :
    ((∀ j < n + 1, retriableErrno (d.res x (k + j)) = true) ∧ d.settle x n k = d.res x (k + n) ∧
      d.settle x (n + 1) k = d.res x (k + n + 1)) ∨
    ((¬ ∀ j < n + 1, retriableErrno (d.res x (k + j)) = true) ∧
      d.settle x (n + 1) k = d.settle x n k) := by
  induction n generalizing k with
  | zero =>
    by_cases h0 : retriableErrno (d.res x k) = true
    · refine .inl ⟨fun j hj => ?_, rfl, ?_⟩
      · obtain rfl : j = 0 := by omega
        exact h0
      · rw [settle, if_pos h0]
        rfl
    · exact .inr ⟨fun hall => h0 (hall 0 (by omega)), if_neg h0⟩
  | succ n ih =>
    by_cases h0 : retriableErrno (d.res x k) = true
    · rw [settle, if_pos h0, settle, if_pos h0]
      have hcons : (∀ j < n + 1 + 1, retriableErrno (d.res x (k + j)) = true) ↔
          ∀ j < n + 1, retriableErrno (d.res x (k + 1 + j)) = true := by
        constructor
        · intro hall j hj
          have := hall (j + 1) (by omega)
          rwa [show k + (j + 1) = k + 1 + j by omega] at this
        · intro hall j hj
          cases j with
          | zero => exact h0
          | succ j =>
            have := hall j (by omega)
            rwa [show k + 1 + j = k + (j + 1) by omega] at this
      rw [hcons, show k + (n + 1) = k + 1 + n by omega]
      exact ih (k + 1)
    · refine .inr ⟨fun hall => h0 (hall 0 (by omega)), ?_⟩
      rw [settle, if_neg h0, settle, if_neg h0]

theorem neg_of_retriable {r : Int} (h : retriableErrno r = true) : r < 0 := by
  unfold retriableErrno at h
  rcases of_decide_eq_true h with rfl | rfl <;> decide


end Drive

namespace Request

variable (q : Request) (d : Drive)

/-- An IO that is awaited elsewhere ends like one that is not, but when it is tried in vain all
nine times. -/
theorem late_cases : (q.Late d ∧ d.delivered q.io < 0 ∧ 0 ≤ d.deliveredLate q.io) ∨
    (¬ q.Late d ∧ (d.deliveredLate q.io = d.delivered q.io ∨
      d.deliveredLate q.io < 0 ∧ d.delivered q.io < 0)) := by
  have hlate : d.deliveredLate q.io = d.settle q.io (complRetryMax + 1) 0 := rfl
  rcases d.settle_succ q.io complRetryMax 0 with ⟨hall, hdel, hnext⟩ | ⟨hnot, heq⟩
  · simp only [Nat.zero_add] at hall hdel hnext
    have hneg : d.delivered q.io < 0 := by
      have hr := hall complRetryMax (by omega)
      rw [← hdel] at hr
      exact Drive.neg_of_retriable hr
    rw [hlate, hnext]
    rcases lt_or_ge (d.res q.io (complRetryMax + 1)) 0 with hlt | hge
    · exact .inr ⟨fun h => absurd h.2 (Int.not_le.mpr hlt), .inr ⟨hlt, hneg⟩⟩
    · exact .inl ⟨⟨hall, hge⟩, hneg, hge⟩
  · simp only [Nat.zero_add] at hnot
    exact .inr ⟨fun h => hnot h.1, .inl (hlate.trans heq)⟩

/-- What is seen of a read that has ended with `n`. -/
def seen (n : Int) : Bytes × ErrClass :=
  if n < 0 then ([], .other)
  else (d.bytes q.io (clip n q.want).toNat, classOf (eofBelow (clip n q.want) q.size))

/-- Two ends of a read are the same to a caller when they deliver as much of the window. -/
theorem seen_eq_iff (h : q.Nonempty) {m n : Int} : q.seen d m = q.seen d n ↔
    (m < 0 ↔ n < 0) ∧ (0 ≤ m → 0 ≤ n → clip m q.want = clip n q.want) := by
  have hclass : ∀ k, classOf (eofBelow k q.size) ≠ .other := by
    intro k
    rcases eofBelow_cases k q.size with he | he <;> rw [he] <;> decide
  have hwant := q.want_pos h
  unfold seen
  by_cases hm : m < 0 <;> by_cases hn : n < 0
  · rw [if_pos hm, if_pos hn]
    exact iff_of_true rfl ⟨iff_of_true hm hn, fun h0 => absurd hm (Int.not_lt.mpr h0)⟩
  · rw [if_pos hm, if_neg hn]
    refine iff_of_false (fun heq => ?_) (fun hboth => hn (hboth.1.mp hm))
    exact hclass _ (congrArg Prod.snd heq).symm
  · rw [if_neg hm, if_pos hn]
    refine iff_of_false (fun heq => ?_) (fun hboth => hm (hboth.1.mpr hn))
    exact hclass _ (congrArg Prod.snd heq)
  · rw [if_neg hm, if_neg hn]
    constructor
    · intro heq
      have hlen := congrArg (fun v => v.1.length) heq
      simp only [Drive.bytes_length] at hlen
      have hc : 0 ≤ clip m q.want ∧ 0 ≤ clip n q.want := by
        unfold clip
        constructor <;> split <;> omega
      exact ⟨iff_of_false hm hn, fun _ _ => by omega⟩
    · rintro ⟨-, heq⟩
      rw [heq (by omega) (by omega)]

theorem clip_le (n want : Int) : clip n want ≤ n ∧ clip n want ≤ want ∧
    (clip n want = n ∨ clip n want = want) := by
  unfold clip
  split <;> omega

/-- What a caller makes of the event of an IO. -/
theorem view_headOf (h : q.Nonempty) (n : Int) (buf : Bytes) :
    (headOf (if n < 0 then (.error (.errno (-n)), d.fill q.io n buf)
      else if n = 0 then (.error .eof, d.fill q.io n buf)
      else (.ok n, d.fill q.io n buf)) q.want q.size).view = some (q.seen d n) := by
  have hwant := q.want_pos h
  unfold seen
  rcases lt_trichotomy n 0 with hneg | rfl | hpos
  · rw [if_pos hneg, if_pos hneg]
    rfl
  · have hclip : clip 0 q.want = 0 := by
      unfold clip
      rw [if_pos hwant]
    rw [if_neg (by omega), if_pos rfl, if_neg (by omega), hclip, eofBelow, if_pos q.size_pos]
    rfl
  · have hclip : 0 ≤ clip n q.want ∧ clip n q.want ≤ n := by
      unfold clip
      split <;> omega
    rw [if_neg (by omega), if_neg (by omega), if_neg (by omega), headOf, Outcome.view,
      d.fill_take q.io (by omega)]

/-- The destination of the read, and the slice of it that the read fills. -/
theorem slice_eq {dst : Dst} {n : Int} (h0 : 0 ≤ n) (h : n ≤ dst.buf.length) :
    dst.slice n = some ⟨dst.buf.take n.toNat, dst.aligned⟩ := if_pos ⟨h0, h⟩

/-- The batch of one job: a single read when the job is not submitted with the batch. -/
theorem readAtIntoBatch_one (j : ReadJob) (accepted : Nat) :
    d.readAtIntoBatch accepted [j] =
      match (if accepted = 0 ∨ ¬ j.Direct then d.readOne j ⟨0, j.dst.buf⟩
        else d.completion j ⟨0, j.dst.buf⟩) with
      | .error e => (some e, fun i => ⟨0, (([j][i]?).map (·.dst.buf)).getD []⟩)
      | .ok s => (none, Function.update (fun i => ⟨0, (([j][i]?).map (·.dst.buf)).getD []⟩) 0 s) := by
  by_cases hj : j.Direct
  · have hspecs : [(j, 0)].filter (fun x => decide x.1.Direct) = [(j, 0)] := by simp [hj]
    have hrest : [(j, 0)].filter (fun x => decide (¬ x.1.Direct)) = [] := by simp [hj]
    cases accepted with
    | zero =>
      simp only [Drive.readAtIntoBatch, List.zipIdx_singleton, List.take_zero, if_true, pass]
      cases hread : d.readOne j ⟨0, j.dst.buf⟩ with
      | error e => simp [hread]
      | ok s => simp [hread]
    | succ n =>
      simp only [Drive.readAtIntoBatch, List.zipIdx_singleton, hspecs, hrest, List.take_succ_cons,
        List.take_nil, List.drop_succ_cons, List.drop_nil, List.append_nil, pass]
      cases hread : d.completion j ⟨0, j.dst.buf⟩ with
      | error e => simp [hread, hj]
      | ok s => simp [hread, hj]
  · have hspecs : [(j, 0)].filter (fun x => decide x.1.Direct) = [] := by simp [hj]
    simp only [Drive.readAtIntoBatch, List.zipIdx_singleton, hspecs, List.take_nil, if_true, pass]
    cases hread : d.readOne j ⟨0, j.dst.buf⟩ with
    | error e => simp [hread, hj]
    | ok s => simp [hread, hj]

/-- The batch of one block that is read. -/
theorem batchRead_one {b : BatchReadBlock} {j : ReadJob} {want : Int} (hplan : b.plan = .job j want)
    (accepted : Nat) : d.batchRead accepted [b] 0 =
      match (if accepted = 0 ∨ ¬ j.Direct then d.readOne j ⟨0, j.dst.buf⟩
        else d.completion j ⟨0, j.dst.buf⟩) with
      | .error e => .returned [] (some e)
      | .ok s => .returned (s.buf.take (clip s.n want).toNat) (eofBelow (clip s.n want) b.size) := by
  unfold Drive.batchRead
  simp only [planAll, hplan, Except.map, List.map_cons, List.map_nil, Plan.devJob,
    readAtIntoBatch_one d]
  split
  · rename_i e st heq
    split at heq
    · rename_i e' hread
      cases heq
      rfl
    · cases heq
  · rename_i st heq
    split at heq
    · cases heq
    · rename_i s hread
      cases heq
      rfl

section InRange

variable {q d} {dst : Dst} (h : q.Nonempty) (hr : q.InRange) (hoff : q.off % blockSize = 0)
  (hdst : dst.aligned = true)

include h hr hoff

theorem readWindow64_io : readWindow64 q.md q.off q.size true =
    .ok ⟨q.io.off, q.io.size, q.want, q.skip⟩ := by
  obtain ⟨⟨relStart, dlen, want, skip⟩, hw, hspec⟩ :=
    q.readWindow64_ok h true (fun _ => hoff)
  obtain ⟨hstart, hdlen⟩ := hspec.io_eq hr
  have hskip := hspec.skip_eq
  have hwant := hspec.want_eq
  have hzero : q.skip = 0 := hoff
  simp only at hstart hdlen hskip hwant
  rw [hskip, hzero, sub_zero] at hstart
  rw [hw, hstart, hdlen, hwant, hskip]

theorem view_readAtMeta (p : Pool) :
    (d.readAtMeta p q.md q.off q.size).view = some (q.seen d (d.delivered q.io)) := by
  have hwant := q.want_pos h
  have hskip : q.skip = 0 := hoff
  unfold seen
  rcases lt_trichotomy (d.delivered q.io) 0 with hneg | hz | hpos
  · obtain ⟨e, he, -, hread⟩ := q.readAtMeta_error d p h (.inr hneg)
    rw [hread, if_pos hneg, Outcome.view, classOf_some he]
  · have hclip : clip 0 q.want = 0 := by
      unfold clip
      rw [if_pos hwant]
    rw [q.readAtMeta_nothing d p h hr hz, hz, if_neg (by omega), hclip, eofBelow,
      if_pos q.size_pos]
    rfl
  · obtain ⟨buf, -, hread⟩ := q.readAtMeta_done d p h hr hpos
    have hclip : 0 ≤ clip (d.delivered q.io) q.want ∧
        clip (d.delivered q.io) q.want ≤ d.delivered q.io := by
      unfold clip
      split <;> omega
    rw [hread, if_neg (by omega), hskip, Int.toNat_zero, List.drop_zero, Outcome.view,
      d.fill_take q.io (by omega)]

omit hoff

/-- The checks of the device let the IO pass. -/
theorem checks_pass (t : Dst) (ht : t.aligned = true) (hlen : q.io.size = t.buf.length) :
    ¬ (q.io.off < 0 ∨ q.io.off % blockSize ≠ 0) ∧
    ¬ (q.io.size ≤ 0 ∨ q.io.size % blockSize ≠ 0) ∧
    ¬ (t.buf.length : Int) < q.io.size ∧ t.bufAligned = true := by
  have hio := q.io_proper h hr
  have hpos := hio.size_pos
  have hoff' := hio.off_nonneg
  refine ⟨?_, ?_, by omega, ?_⟩
  · rintro (hneg | hmod)
    · omega
    · exact hmod hio.off_mod
  · rintro (hneg | hmod)
    · omega
    · exact hmod hio.size_mod
  · rw [Dst.bufAligned, ht, Bool.and_true, decide_eq_true_eq]
    omega

/-- `ReadAtInto`, into a destination of the right length. -/
theorem readAtInto_eq (t : Dst) (ht : t.aligned = true) (hlen : q.io.size = t.buf.length) :
    ∃ buf, d.readAtInto q.io t =
      if d.delivered q.io < 0 then
        (.error (.errno (-d.delivered q.io)), d.fill q.io (d.delivered q.io) buf)
      else if d.delivered q.io = 0 then (.error .eof, d.fill q.io (d.delivered q.io) buf)
      else (.ok (d.delivered q.io), d.fill q.io (d.delivered q.io) buf) := by
  obtain ⟨hc1, hc2, hc3, hc4⟩ := checks_pass h hr t ht hlen
  have hpos := (q.io_proper h hr).size_pos
  obtain ⟨buf, -, hread⟩ := d.submitRead_eq q.io t.buf (by omega) hpos.le
  rw [not_or] at hc2
  refine ⟨buf, ?_⟩
  unfold Drive.readAtInto
  rw [if_neg hc1, if_neg (by rintro (hneg | hmod); omega; exact hc2.2 hmod), if_neg (by omega),
    if_neg hc3, if_neg (by rw [hc4]; exact fun hn => hn rfl)]
  simp only [hread]

/-- An IO that is awaited elsewhere. -/
theorem awaitRead_eq (t : Dst) (hlen : q.io.size = t.buf.length) : ∃ buf,
    d.awaitRead q.io t =
      if d.deliveredLate q.io < 0 then
        (.error (.errno (-d.deliveredLate q.io)), d.fill q.io (d.deliveredLate q.io) buf)
      else if d.deliveredLate q.io = 0 then (.error .eof, d.fill q.io (d.deliveredLate q.io) buf)
      else (.ok (d.deliveredLate q.io), d.fill q.io (d.deliveredLate q.io) buf) := by
  have hpos := (q.io_proper h hr).size_pos
  obtain ⟨buf, -, hread⟩ := d.await_eq q.io t.buf (by omega) hpos.le
  refine ⟨buf, ?_⟩
  unfold Drive.awaitRead
  simp only [hread]

variable (hfit : q.io.size ≤ dst.buf.length)

include hoff hdst hfit

theorem view_readAtIntoMeta :
    (d.readAtIntoMeta q.md q.off q.size dst).view = some (q.seen d (d.delivered q.io)) := by
  have hpos := (q.io_proper h hr).size_pos
  have hlen : q.io.size = ((dst.buf.take q.io.size.toNat).length : Int) := by
    rw [List.length_take]
    omega
  obtain ⟨buf, hread⟩ := readAtInto_eq (d := d) h hr
    ⟨dst.buf.take q.io.size.toNat, dst.aligned⟩ hdst hlen
  unfold Drive.readAtIntoMeta
  rw [readWindow64_io h hr hoff]
  simp only
  rw [if_neg (by omega), slice_eq hpos.le hfit]
  simp only
  rw [q.extent_eq, hread, q.view_headOf d h]

theorem view_submitReadAtIntoMeta :
    (d.submitReadAtIntoMeta q.md q.off q.size dst).view =
      some (q.seen d (d.deliveredLate q.io)) := by
  have hpos := (q.io_proper h hr).size_pos
  have hlen : q.io.size = ((dst.buf.take q.io.size.toNat).length : Int) := by
    rw [List.length_take]
    omega
  obtain ⟨hc1, hc2, hc3, hc4⟩ :=
    checks_pass h hr ⟨dst.buf.take q.io.size.toNat, dst.aligned⟩ hdst hlen
  obtain ⟨buf, hread⟩ := awaitRead_eq (d := d) h hr
    ⟨dst.buf.take q.io.size.toNat, dst.aligned⟩ hlen
  unfold Drive.submitReadAtIntoMeta
  rw [readWindow64_io h hr hoff]
  simp only
  rw [if_neg (by omega), slice_eq hpos.le hfit]
  simp only
  rw [Drive.checkReadAsync, if_neg hc1, if_neg hc2, if_neg hc3,
    if_neg (by rw [hc4]; exact fun hn => hn rfl)]
  simp only
  rw [q.extent_eq, hread, q.view_headOf d h]

omit hoff in
theorem direct_job : ReadJob.Direct ⟨q.io, ⟨dst.buf.take q.io.size.toNat, dst.aligned⟩⟩ := by
  have hlen : q.io.size = ((dst.buf.take q.io.size.toNat).length : Int) := by
    rw [List.length_take]
    have := (q.io_proper h hr).size_pos
    omega
  obtain ⟨hc1, hc2, hc3, hc4⟩ :=
    checks_pass h hr ⟨dst.buf.take q.io.size.toNat, dst.aligned⟩ hdst hlen
  rintro (h' | h' | h' | h' | h' | h')
  · exact hc1 (.inl h')
  · exact hc1 (.inr h')
  · exact hc2 (.inl h')
  · exact hc2 (.inr h')
  · exact hc3 h'
  · exact h' hc4

omit hdst in
/-- The plan of the one block of the batch. -/
theorem plan_io : BatchReadBlock.plan ⟨q.md, q.off, q.size, dst⟩ =
    .job ⟨q.io, ⟨dst.buf.take q.io.size.toNat, dst.aligned⟩⟩ q.want := by
  have hpos := (q.io_proper h hr).size_pos
  unfold BatchReadBlock.plan
  rw [readWindow64_io h hr hoff]
  simp only
  rw [if_neg (by omega), slice_eq hpos.le hfit]
  rfl

omit hoff hdst in
/-- The event that the batch waits for. -/
theorem completion_io : ∃ buf : Bytes, d.await q.io (dst.buf.take q.io.size.toNat) =
      (d.fill q.io (d.deliveredLate q.io) buf, d.deliveredLate q.io) ∧
    q.io.size = buf.length ∧ 0 < q.want ∧ q.want ≤ q.io.size := by
  have hpos := (q.io_proper h hr).size_pos
  obtain ⟨buf, hbuf, hread⟩ := d.await_eq q.io (dst.buf.take q.io.size.toNat)
    (by rw [List.length_take]; omega) hpos.le
  rw [List.length_take] at hbuf
  have hcover : q.skip + q.want ≤ q.io.size := le_align4k _
  have hskip := q.skip_range
  exact ⟨buf, hread, by omega, q.want_pos h, by omega⟩

/-- A batch that the ring has not accepted reads like `ReadAtInto`. -/
theorem view_batchRead_refused :
    (d.batchRead 0 [⟨q.md, q.off, q.size, dst⟩] 0).view = some (q.seen d (d.delivered q.io)) := by
  have hpos := (q.io_proper h hr).size_pos
  have hlen : q.io.size = ((dst.buf.take q.io.size.toNat).length : Int) := by
    rw [List.length_take]
    omega
  obtain ⟨buf, hread⟩ := readAtInto_eq (d := d) h hr
    ⟨dst.buf.take q.io.size.toNat, dst.aligned⟩ hdst hlen
  have hzero : clip 0 q.want = 0 := by
    unfold clip
    rw [if_pos (q.want_pos h)]
  rw [batchRead_one d (plan_io h hr hoff hfit), if_pos (.inl rfl), Drive.readOne,
    if_neg (by simp only; omega)]
  simp only [hread]
  unfold seen
  rcases lt_trichotomy (d.delivered q.io) 0 with hneg | hz | hpos
  · rw [if_pos hneg, if_pos hneg]
    rfl
  · rw [hz, if_neg (by omega), if_pos rfl, if_neg (by omega)]
    simp only
    rw [hzero]
    rfl
  · have hclip := clip_le (d.delivered q.io) q.want
    rw [if_neg (by omega), if_neg (by omega), if_neg (by omega)]
    simp only
    rw [Outcome.view, d.fill_take q.io (by omega)]

/-- A batch that it has accepted reads like an IO that is awaited elsewhere, when that does not
end inside the window. -/
theorem view_batchRead (accepted : Nat)
    (hout : ¬ (0 < d.deliveredLate q.io ∧ d.deliveredLate q.io < q.want)) :
    (d.batchRead (accepted + 1) [⟨q.md, q.off, q.size, dst⟩] 0).view =
      some (q.seen d (d.deliveredLate q.io)) := by
  obtain ⟨buf, hread, hbuf, hwant, hcover⟩ := completion_io (d := d) h hr hfit
  have hzero : clip 0 q.want = 0 := by
    unfold clip
    rw [if_pos hwant]
  have hsub : ¬ (accepted + 1 = 0 ∨ ¬ ReadJob.Direct
      ⟨q.io, ⟨dst.buf.take q.io.size.toNat, dst.aligned⟩⟩) := by
    rintro (h0 | hnot)
    · omega
    · exact hnot (direct_job h hr hdst hfit)
  rw [batchRead_one d (plan_io h hr hoff hfit), if_neg hsub, Drive.completion]
  simp only [hread]
  unfold seen
  rcases lt_trichotomy (d.deliveredLate q.io) 0 with hneg | hz | hpos
  · rw [if_pos hneg, if_pos hneg]
    rfl
  · rw [hz, if_neg (by omega), if_pos rfl, if_neg (by omega)]
    simp only
    rw [hzero]
    rfl
  · have hfull : ∀ n, q.want ≤ n → clip n q.want = q.want := by
      intro n hn
      unfold clip
      rw [if_neg (by omega)]
    have hlate : q.want ≤ d.deliveredLate q.io := by omega
    have hcount : q.want ≤ (if d.deliveredLate q.io < q.io.size then q.io.size
        else d.deliveredLate q.io) := by
      split <;> omega
    have hneg : ¬ d.deliveredLate q.io < 0 := by omega
    rw [if_neg hneg, if_neg (by omega)]
    simp only
    rw [hfull _ hcount, if_neg hneg, hfull _ hlate, Outcome.view, d.fill_take q.io (by omega)]

/-- When it does, the batch reports the whole window. -/
theorem view_batchRead_short (accepted : Nat)
    (hin : 0 < d.deliveredLate q.io ∧ d.deliveredLate q.io < q.want) :
    ∃ data c, (d.batchRead (accepted + 1) [⟨q.md, q.off, q.size, dst⟩] 0).view = some (data, c) ∧
      (data.length : Int) = q.want := by
  obtain ⟨buf, hread, hbuf, hwant, hcover⟩ := completion_io (d := d) h hr hfit
  have hclip : clip q.io.size q.want = q.want := by
    unfold clip
    rw [if_neg (by omega)]
  have hsub : ¬ (accepted + 1 = 0 ∨ ¬ ReadJob.Direct
      ⟨q.io, ⟨dst.buf.take q.io.size.toNat, dst.aligned⟩⟩) := by
    rintro (h0 | hnot)
    · omega
    · exact hnot (direct_job h hr hdst hfit)
  rw [batchRead_one d (plan_io h hr hoff hfit), if_neg hsub, Drive.completion]
  simp only [hread]
  rw [if_neg (by omega), if_neg (by omega), if_pos (by omega)]
  simp only
  rw [hclip]
  refine ⟨_, _, rfl, ?_⟩
  rw [List.length_take, Drive.fill, List.length_append, Drive.bytes_length, List.length_drop]
  omega

end InRange

section Refused

variable {q d} {dst : Dst} (h : q.Nonempty) (hoff : q.off % blockSize = 0) {w : Taihu.Window}
  (hw : readWindow64 q.md q.off q.size true = .ok w) (hpos : 0 < w.dlen) (hneg : w.relStart < 0)

include hw hpos hneg

theorem view_readAtIntoMeta_refused :
    (d.readAtIntoMeta q.md q.off q.size dst).view = some ([], .other) := by
  unfold Drive.readAtIntoMeta
  rw [hw]
  simp only
  split
  · rfl
  · rename_i hlen
    rw [slice_eq hpos.le (by omega)]
    simp only
    rw [Drive.readAtInto, if_pos (.inl hneg)]
    rfl

theorem view_submitReadAtIntoMeta_refused :
    (d.submitReadAtIntoMeta q.md q.off q.size dst).view = some ([], .other) := by
  unfold Drive.submitReadAtIntoMeta
  rw [hw]
  simp only
  split
  · rfl
  · rename_i hlen
    rw [slice_eq hpos.le (by omega)]
    simp only
    rw [Drive.checkReadAsync, if_pos (.inl hneg)]
    rfl

theorem view_batchRead_out (accepted : Nat) :
    (d.batchRead accepted [⟨q.md, q.off, q.size, dst⟩] 0).view = some ([], .other) := by
  by_cases hlen : (dst.buf.length : Int) < w.dlen
  · have hplan : BatchReadBlock.plan ⟨q.md, q.off, q.size, dst⟩ =
        .failed (.dst dst.buf.length w.dlen) := by
      unfold BatchReadBlock.plan
      rw [hw]
      simp only
      rw [if_pos hlen]
    simp only [Drive.batchRead, planAll, hplan]
    rfl
  · have hplan : BatchReadBlock.plan ⟨q.md, q.off, q.size, dst⟩ =
        .job ⟨⟨q.md.segmentID, w.relStart, w.dlen⟩, ⟨dst.buf.take w.dlen.toNat, dst.aligned⟩⟩
          w.want := by
      unfold BatchReadBlock.plan
      rw [hw]
      simp only
      rw [if_neg hlen, slice_eq hpos.le (by omega)]
    have hnot : ¬ ReadJob.Direct ⟨⟨q.md.segmentID, w.relStart, w.dlen⟩,
        ⟨dst.buf.take w.dlen.toNat, dst.aligned⟩⟩ := fun hd => hd (.inl hneg)
    rw [batchRead_one d hplan, if_pos (.inr hnot), Drive.readOne, if_neg (by simp only; omega),
      Drive.readAtInto, if_pos (.inl hneg)]
    rfl

end Refused

theorem agree_iff {a b c e : Outcome} : Agree [a, b, c, e] ↔
    ∃ v, a.view = some v ∧ b.view = some v ∧ c.view = some v ∧ e.view = some v := by
  simp [Agree]

/-- A request without a window: all paths report the same. -/
theorem paths_empty (p : Pool) (h : ¬ q.Nonempty) (hoff : q.off % blockSize = 0) (dst : Dst)
    (accepted : Nat) : Agree (q.paths d p dst accepted) := by
  rw [paths, agree_iff]
  by_cases hv : q.off < 0 ∨ q.off > q.md.size
  · refine ⟨([], .other), ?_, ?_, ?_, ?_⟩
    · rw [Drive.readAtMeta, q.readWindow64_invalid hv]
      rfl
    · rw [Drive.readAtIntoMeta, q.readWindow64_invalid hv]
      rfl
    · rw [Drive.submitReadAtIntoMeta, q.readWindow64_invalid hv]
      rfl
    · have hplan : BatchReadBlock.plan ⟨q.md, q.off, q.size, dst⟩ = .failed .invalidRange := by
        rw [BatchReadBlock.plan, q.readWindow64_invalid hv]
      simp only [Drive.batchRead, planAll, hplan]
      rfl
  · have hend : 0 ≤ q.off ∧ q.off = q.md.size := by
      unfold Nonempty at h
      omega
    have hw : ∀ aligned, readWindow64 q.md q.off q.size aligned = .error .eof :=
      fun _ => q.readWindow64_empty hend.1 hend.2 (fun _ => hoff)
    refine ⟨([], .eof), ?_, ?_, ?_, ?_⟩
    · rw [Drive.readAtMeta, hw]
      rfl
    · rw [Drive.readAtIntoMeta, hw]
      rfl
    · rw [Drive.submitReadAtIntoMeta, hw]
      rfl
    · have hplan : BatchReadBlock.plan ⟨q.md, q.off, q.size, dst⟩ = .empty := by
        rw [BatchReadBlock.plan, hw]
      simp only [Drive.batchRead, planAll, hplan, Except.map, List.map_cons, List.map_nil,
        Plan.devJob, readAtIntoBatch_one d]
      have hnot : ¬ ReadJob.Direct ⟨⟨0, 0, 0⟩, ⟨[], false⟩⟩ := by decide
      rw [if_pos (.inr hnot)]
      rfl

/-- A window whose blocks the device refuses: the paths report an error, but a slice of negative
length panics. -/
theorem paths_refused (p : Pool) (h : q.Nonempty) (hr : ¬ q.InRange)
    (hoff : q.off % blockSize = 0) (dst : Dst) (accepted : Nat) :
    Agree (q.paths d p dst accepted) ↔ q.Sliced := by
  obtain ⟨w, hw, hspec⟩ := q.readWindow64_ok h true (fun _ => hoff)
  have hsliced : q.Sliced ↔ 0 ≤ w.dlen := by
    unfold Sliced
    rw [hw]
    simp
  have hskip : w.skip = 0 := hspec.skip_eq.trans hoff
  have hout := hspec.refused hr
  rw [hskip, sub_zero] at hout
  rw [paths, agree_iff, hsliced]
  obtain ⟨e, he, -, hread⟩ := q.readAtMeta_error d p h (.inl hr)
  have hmeta : (d.readAtMeta p q.md q.off q.size).view = some ([], .other) := by
    rw [hread, Outcome.view, classOf_some he]
  constructor
  · rintro ⟨v, -, hinto, -, -⟩
    by_contra hlt
    have hpanic : d.readAtIntoMeta q.md q.off q.size dst = .panicked := by
      unfold Drive.readAtIntoMeta
      rw [hw]
      simp only
      rw [if_neg (by omega), Dst.slice, if_neg (by omega)]
    rw [hpanic] at hinto
    cases hinto
  · intro hle
    have hpos : 0 < w.dlen := lt_of_le_of_ne hle (Ne.symm hspec.dlen_ne)
    have hneg : w.relStart < 0 := hout.resolve_right (by omega)
    exact ⟨_, hmeta, view_readAtIntoMeta_refused hw hpos hneg,
      view_submitReadAtIntoMeta_refused hw hpos hneg, view_batchRead_out hw hpos hneg accepted⟩

/-- The paths of a window that the device takes. -/
theorem paths_inRange (p : Pool) (h : q.Nonempty) (hr : q.InRange)
    (hoff : q.off % blockSize = 0) {dst : Dst} (hdst : dst.aligned = true)
    (hfit : q.io.size ≤ dst.buf.length) (accepted : Nat) :
    Agree (q.paths d p dst accepted) ↔ ¬ q.Late d ∧
      (0 < accepted → ¬ (0 < d.delivered q.io ∧ d.delivered q.io < q.want)) := by
  have hsame : q.seen d (d.deliveredLate q.io) = q.seen d (d.delivered q.io) ↔ ¬ q.Late d := by
    rw [q.seen_eq_iff d h]
    rcases q.late_cases d with ⟨hlate, hneg, hnn⟩ | ⟨hnot, heq | ⟨hneg, hneg'⟩⟩
    · exact iff_of_false (fun hall => absurd (hall.1.mpr hneg) (by omega)) (fun hn => hn hlate)
    · rw [heq]
      exact iff_of_true ⟨Iff.rfl, fun _ _ => rfl⟩ hnot
    · exact iff_of_true ⟨iff_of_true hneg hneg', fun hle => by omega⟩ hnot
  rw [paths, agree_iff, view_readAtMeta h hr hoff p, view_readAtIntoMeta h hr hoff hdst hfit,
    view_submitReadAtIntoMeta h hr hoff hdst hfit]
  cases accepted with
  | zero =>
    rw [view_batchRead_refused h hr hoff hdst hfit]
    constructor
    · rintro ⟨v, hv, -, hv', -⟩
      exact ⟨hsame.mp (Option.some.inj (hv'.trans hv.symm)), fun h0 => absurd h0 (by omega)⟩
    · rintro ⟨hnot, -⟩
      exact ⟨_, rfl, rfl, congrArg some (hsame.mpr hnot), rfl⟩
  | succ n =>
    by_cases hin : 0 < d.deliveredLate q.io ∧ d.deliveredLate q.io < q.want
    · obtain ⟨data, c, hbatch, hlen⟩ := view_batchRead_short h hr hoff hdst hfit n hin
      have hmid : ¬ (¬ q.Late d ∧ (0 < n + 1 →
          ¬ (0 < d.delivered q.io ∧ d.delivered q.io < q.want))) := by
        rintro ⟨hnot, hshort⟩
        have heq : d.deliveredLate q.io = d.delivered q.io := by
          rcases q.late_cases d with ⟨hlate, -⟩ | ⟨-, heq | ⟨hneg, -⟩⟩
          · exact absurd hlate hnot
          · exact heq
          · omega
        rw [heq] at hin
        exact hshort (Nat.succ_pos n) hin
      refine iff_of_false ?_ hmid
      rintro ⟨v, -, -, hasync, hv⟩
      rw [hbatch] at hv
      have hseen := congrArg (fun v => ((v.map (·.1.length)).getD 0 : Nat)) (hasync.trans hv.symm)
      have hclip : clip (d.deliveredLate q.io) q.want = d.deliveredLate q.io := if_pos hin.2
      simp only [seen, if_neg (by omega : ¬ d.deliveredLate q.io < 0), Option.map_some,
        Option.getD_some, Drive.bytes_length, hclip] at hseen
      omega
    · rw [view_batchRead h hr hoff hdst hfit n hin]
      constructor
      · rintro ⟨v, hv, -, hv', -⟩
        have hnot := hsame.mp (Option.some.inj (hv'.trans hv.symm))
        refine ⟨hnot, fun _ => ?_⟩
        rcases q.late_cases d with ⟨hlate, -⟩ | ⟨-, heq | ⟨-, hneg⟩⟩
        · exact absurd hlate hnot
        · rw [← heq]
          exact hin
        · omega
      · rintro ⟨hnot, -⟩
        exact ⟨_, rfl, rfl, congrArg some (hsame.mpr hnot), congrArg some (hsame.mpr hnot)⟩

/-- **The four ways to read a window agree exactly when no retry more is needed than the plain
reads make, and a batch does not end inside the window.** -/
theorem read_paths_agree_iff (p : Pool) (hoff : q.off % blockSize = 0) {dst : Dst}
    (hdst : dst.aligned = true) (hfit : q.io.size ≤ dst.buf.length) (accepted : Nat) :
    Agree (q.paths d p dst accepted) ↔ q.Settles d accepted := by
  by_cases h : q.Nonempty
  · by_cases hr : q.InRange
    · have hsliced : q.Sliced := by
        intro w hw
        rw [readWindow64_io h hr hoff] at hw
        cases hw
        exact (q.io_proper h hr).size_pos.le
      rw [q.paths_inRange d p h hr hoff hdst hfit]
      exact ⟨fun hall _ => ⟨hsliced, fun _ => hall⟩, fun hall => (hall h).2 hr⟩
    · rw [q.paths_refused d p h hr hoff]
      exact ⟨fun hs _ => ⟨hs, fun hr' => absurd hr' hr⟩, fun hall => (hall h).1⟩
  · exact iff_of_true (q.paths_empty d p h hoff dst accepted) (fun h' => absurd h' h)

end Request

/-- A device that delivers what it is asked for. -/
def wholeDrive : Drive where
  byte _ _ := 7
  res x _ := x.size
  res_le _ _ _ := Int.le_refl _

/-- The first block of an object of two. -/
def firstBlock : Request where
  md := ⟨0, 0, 8192⟩
  off := 0
  size := 4096
  offset_aligned := insideBlock.offset_aligned
  offset_range := insideBlock.offset_range
  length_range := insideBlock.length_range
  off_range := by decide
  size_pos := by decide
  size_lt := by decide

def blockDst : Dst := ⟨List.replicate 4096 0, true⟩

theorem blockDst_fits : firstBlock.io.size ≤ blockDst.buf.length := by
  rw [blockDst, List.length_replicate]
  decide

theorem read_paths_agree_block :
    Agree (firstBlock.paths wholeDrive newAlignedPool blockDst 1) := by
  refine (firstBlock.read_paths_agree_iff wholeDrive newAlignedPool (by decide) rfl blockDst_fits
    1).mpr (fun _ => ⟨?_, fun _ => ⟨?_, fun _ => ?_⟩⟩)
  · intro w hw
    rw [Request.readWindow64_io (by decide) (by decide) (by decide)] at hw
    cases hw
    decide
  · intro hlate
    exact absurd (hlate.1 0 (by decide)) (by decide)
  · decide

/-- **A batch counts a short read as a whole one.**  Of the block 150 bytes arrive, and the batch
reports 4096. -/
theorem batch_counts_short_read : ¬ ∀ (d : Drive) (p : Pool) (q : Request) (dst : Dst)
    (accepted : Nat), q.off % blockSize = 0 → dst.aligned = true →
      q.io.size ≤ dst.buf.length → Agree (q.paths d p dst accepted) := by
  intro hall
  have hagree := hall shortDrive newAlignedPool firstBlock blockDst 1 (by decide) rfl blockDst_fits
  rw [Request.paths_inRange firstBlock shortDrive newAlignedPool (by decide) (by decide)
    (by decide) rfl blockDst_fits] at hagree
  exact hagree.2 Nat.one_pos (by decide)

end Taihu.DeviceRead
