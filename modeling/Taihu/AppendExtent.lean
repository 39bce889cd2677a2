/-
# `Append` writes its extent

The model is `DeviceWrite.lean`.  Both paths of `Append` come to the same writes, those of
`WriteJob.specs` at the addresses of the device, one after the other (`append_eq`): what a buffer
of the pool held before is gone.  A write that has ended with its full length covers what its
repetitions have left on the medium (`submitOpN_bytes`), so the writes of a successful `Append`
are made whole (`writeEach_bytes`), and side by side they are the data and the zeros behind it
(`applyAll_specs`).  An extent that does not fit is refused, except where the sum of the check
leaves `int64`; that one lies outside the device (`specs_outside`).
-/
import Taihu.DeviceWrite

namespace Taihu.DeviceWrite

open BufPool
open CompletionPump (retriableErrno complRetryMax)
open DeviceRead (align4k64 align4k64_of_lt)

/-! ## 1. One IO -/

section Transfer

variable {r : Ring} {w : WriteSpec} {t : Transfer} {d d' : Device} {p : Int}

theorem WriteSpec.landed_of_none (h : w.write p = none) : w.landed t p = none := by
  unfold WriteSpec.landed
  rw [h, ite_self]

theorem WriteSpec.landed_of_full (h : t.res = w.buf.length) : w.landed t = w.write := by
  funext p
  unfold WriteSpec.landed
  rw [if_pos (Or.inl h)]

/-- What the submissions of an IO leave alone. -/
structure Kept (w : WriteSpec) (d d' : Device) : Prop where
  inSubmit : d'.inSubmit = d.inSubmit
  attempts : d'.attempts = d.attempts
  bytes : ∀ p, w.write p = none → d'.bytes p = d.bytes p

theorem Kept.trans {d'' : Device} (h : Kept w d d') (h' : Kept w d' d'') : Kept w d d'' :=
  ⟨h'.inSubmit.trans h.inSubmit, h'.attempts.trans h.attempts,
    fun p hp => (h'.bytes p hp).trans (h.bytes p hp)⟩

theorem submitOne_kept (r : Ring) (w : WriteSpec) (d : Device) :
    Kept w d (submitOne r w d).2 := by
  have hback : d.inSubmit + 1 - 1 = d.inSubmit := by omega
  unfold submitOne
  simp only
  cases r.write d.writes with
  | closed => exact ⟨hback, rfl, fun _ _ => rfl⟩
  | failed e => exact ⟨hback, rfl, fun _ _ => rfl⟩
  | taken t =>
    refine ⟨hback, rfl, fun p hp => ?_⟩
    show (w.landed t p).getD (d.bytes p) = _
    rw [WriteSpec.landed_of_none hp]
    rfl

/-- A submission that the ring takes. -/
theorem submitOne_ok {res : Int} (h : submitOne r w d = (.ok res, d')) :
    ∃ t : Transfer, t.res = res ∧ d'.bytes = Overwrite.apply d.bytes (w.landed t) ∧
      d'.log = d.log ++ [(w, res)] := by
  unfold submitOne at h
  simp only at h
  cases ha : r.write d.writes with
  | closed => rw [ha] at h; cases h
  | failed e => rw [ha] at h; cases h
  | taken t =>
    rw [ha] at h
    cases h
    exact ⟨t, rfl, rfl, rfl⟩

theorem submitOpN_kept (r : Ring) (w : WriteSpec) (n : Nat) (d : Device) :
    Kept w d (submitOpN r w n d).2 := by
  induction n generalizing d with
  | zero =>
    have hone := submitOne_kept r w d
    rw [submitOpN]
    rcases hs : submitOne r w d with ⟨_ | res, d'⟩ <;> rw [hs] at hone
    · exact hone
    · simp only [ite_self]
      exact hone
  | succ n ih =>
    have hone := submitOne_kept r w d
    rw [submitOpN]
    rcases hs : submitOne r w d with ⟨_ | res, d'⟩ <;> rw [hs] at hone
    · exact hone
    · simp only
      split
      · exact hone.trans (ih d')
      · exact hone

/-- **What `submitOpN` returns is the result of the last submission**, and the submissions before
it have all ended with an error that passes.  When the last one has its full length the IO is on
the medium, whatever the others have left there. -/
theorem submitOpN_ok {n : Nat} {res : Int} (h : submitOpN r w n d = (.ok res, d')) :
    (∃ rs : List Int, (∀ x ∈ rs, retriableErrno x = true) ∧
      d'.log = d.log ++ rs.map (fun x => (w, x)) ++ [(w, res)]) ∧
    (res = w.buf.length → d'.bytes = Overwrite.apply d.bytes w.write) := by
  -- the last submission
  have hlast : ∀ {d : Device}, submitOne r w d = (.ok res, d') →
      (∃ rs : List Int, (∀ x ∈ rs, retriableErrno x = true) ∧
        d'.log = d.log ++ rs.map (fun x => (w, x)) ++ [(w, res)]) ∧
      (res = w.buf.length → d'.bytes = Overwrite.apply d.bytes w.write) := by
    intro d hone
    obtain ⟨t, rfl, hbytes, hlog⟩ := submitOne_ok hone
    refine ⟨⟨[], fun x hx => absurd hx List.not_mem_nil, ?_⟩, fun hres => ?_⟩
    · rw [List.map_nil, List.append_nil]
      exact hlog
    · rw [← WriteSpec.landed_of_full hres]
      exact hbytes
  induction n generalizing d with
  | zero =>
    rw [submitOpN] at h
    rcases hone : submitOne r w d with ⟨_ | res', d''⟩
    · rw [hone] at h
      cases h
    · rw [hone] at h
      simp only [ite_self] at h
      cases h
      exact hlast hone
  | succ n ih =>
    rw [submitOpN] at h
    rcases hone : submitOne r w d with ⟨_ | res', d''⟩
    · rw [hone] at h
      cases h
    · rw [hone] at h
      simp only at h
      by_cases htr : retriableErrno res' = true
      · rw [if_pos htr] at h
        obtain ⟨t, -, hbytes, hlog⟩ := submitOne_ok hone
        obtain ⟨⟨rs, hrs, hlog'⟩, hbytes'⟩ := ih h
        refine ⟨⟨res' :: rs, ?_, ?_⟩, fun hres => ?_⟩
        · intro x hx
          rcases List.mem_cons.mp hx with rfl | hx
          · exact htr
          · exact hrs x hx
        · rw [hlog', hlog]
          simp
        · rw [hbytes' hres, hbytes]
          exact Overwrite.apply_apply_of_le _ (fun p hp => WriteSpec.landed_of_none hp)
      · rw [if_neg htr] at h
        cases h
        exact hlast hone

end Transfer

/-! ## 2. Writes one after the other -/

section WriteEach

variable (r : Ring)

/-- Writes one after the other, until one fails. -/
def writeEach : List WriteSpec → Device → Option WriteErr × Device
  | [], d => (none, d)
  | w :: ws, d =>
    match writeOut r w w.buf.length d with
    | (some e, d) => (some e, d)
    | (none, d) => writeEach ws d

variable {r}

/-- A write that passes the check is on the medium. -/
theorem writeOut_ok {w : WriteSpec} {d d' : Device}
    (h : writeOut r w w.buf.length d = (none, d')) :
    d'.bytes = Overwrite.apply d.bytes w.write := by
  unfold writeOut submitWrite at h
  rcases hs : submitOpN r w complRetryMax d with ⟨_ | res, d''⟩ <;> rw [hs] at h
  · cases h
  · simp only [Prod.mk.injEq] at h
    obtain ⟨hcheck, rfl⟩ := h
    apply (submitOpN_ok hs).2
    unfold checkWrite at hcheck
    split at hcheck
    · cases hcheck
    · split at hcheck
      · cases hcheck
      · rename_i hne
        exact not_not.mp hne

theorem writeOut_kept (r : Ring) (w : WriteSpec) (want : Int) (d : Device) :
    Kept w d (writeOut r w want d).2 := by
  have h := submitOpN_kept r w complRetryMax d
  unfold writeOut submitWrite
  rcases hs : submitOpN r w complRetryMax d with ⟨_ | res, d'⟩ <;> rw [hs] at h <;> exact h

/-- Writes that all succeed are made whole, one over the other. -/
theorem writeEach_ok {ws : List WriteSpec} {d d' : Device} (h : writeEach r ws d = (none, d')) :
    d'.bytes = Overwrite.applyAll d.bytes (ws.map WriteSpec.write) := by
  induction ws generalizing d with
  | nil =>
    cases h
    rfl
  | cons w ws ih =>
    rw [writeEach] at h
    rcases hw : writeOut r w w.buf.length d with ⟨_ | e, d''⟩ <;> rw [hw] at h
    · rw [ih h, writeOut_ok hw]
      rfl
    · cases h

/-- Writes change nothing that none of them reaches. -/
theorem writeEach_kept (r : Ring) (ws : List WriteSpec) (d : Device) :
    (writeEach r ws d).2.inSubmit = d.inSubmit ∧ (writeEach r ws d).2.attempts = d.attempts ∧
      ∀ p, (∀ w ∈ ws, w.write p = none) → (writeEach r ws d).2.bytes p = d.bytes p := by
  induction ws generalizing d with
  | nil => exact ⟨rfl, rfl, fun _ _ => rfl⟩
  | cons w ws ih =>
    have h := writeOut_kept r w w.buf.length d
    rw [writeEach]
    rcases hw : writeOut r w w.buf.length d with ⟨_ | e, d'⟩ <;> rw [hw] at h
    · obtain ⟨hin, hat, hbytes⟩ := ih d'
      refine ⟨hin.trans h.inSubmit, hat.trans h.attempts, fun p hp => ?_⟩
      exact (hbytes p (fun v hv => hp v (List.mem_cons_of_mem w hv))).trans
        (h.bytes p (hp w List.mem_cons_self))
    · exact ⟨h.inSubmit, h.attempts, fun p hp => h.bytes p (hp w List.mem_cons_self)⟩

/-! The submissions do not look at the pool. -/

theorem submitOne_pool (w : WriteSpec) (d : Device) (p : Pool) :
    submitOne r w { d with pool := p } =
      ((submitOne r w d).1, { (submitOne r w d).2 with pool := p }) := by
  unfold submitOne
  simp only
  cases r.write d.writes <;> rfl

theorem submitOpN_pool (w : WriteSpec) (n : Nat) (d : Device) (p : Pool) :
    submitOpN r w n { d with pool := p } =
      ((submitOpN r w n d).1, { (submitOpN r w n d).2 with pool := p }) := by
  induction n generalizing d with
  | zero =>
    rw [submitOpN, submitOpN, submitOne_pool]
    rcases submitOne r w d with ⟨_ | res, d'⟩
    · rfl
    · simp only [ite_self]
  | succ n ih =>
    rw [submitOpN, submitOpN, submitOne_pool]
    rcases submitOne r w d with ⟨_ | res, d'⟩
    · rfl
    · simp only
      split
      · exact ih d'
      · rfl

theorem writeOut_pool (w : WriteSpec) (want : Int) (d : Device) (p : Pool) :
    writeOut r w want { d with pool := p } =
      ((writeOut r w want d).1, { (writeOut r w want d).2 with pool := p }) := by
  unfold writeOut submitWrite
  rw [submitOpN_pool]
  rcases submitOpN r w complRetryMax d with ⟨_ | res, d'⟩ <;> rfl

end WriteEach

/-! ## 3. The writes of a job -/

/-- A transfer at the address it has on the device. -/
def Geometry.place (g : Geometry) (s : WriteIO) : WriteSpec :=
  ⟨s.data, int64 (g.segmentBase s.seg + s.off)⟩

/-- The writes of a job. -/
def Job.specs (g : Geometry) (j : Job) : List WriteSpec := j.toWriteJob.specs.map g.place

theorem int64_add_int64 (a b : Int) : int64 (int64 a + b) = int64 (a + b) := by
  unfold int64
  omega

/-- A sum that is not negative either fits or ends up below zero. -/
theorem int64_wraps {x : Int} (h : 0 ≤ x) (h' : x < 2 ^ 64) :
    x < 2 ^ 63 ∧ int64 x = x ∨ 2 ^ 63 ≤ x ∧ int64 x = x - 2 ^ 64 := by
  unfold int64
  omega

namespace Job

variable {g : Geometry} {j : Job}

/-- The rest of the data, behind the whole blocks. -/
def rest (j : Job) : Bytes := (j.data.bytes.take j.size.toNat).drop j.bulkEnd.toNat

theorem size_lt (h : j.size ≤ j.data.bytes.length) : j.size < 2 ^ 62 := by
  have := j.data.length_lt
  omega

/-- The whole blocks and the rest, where there is anything to write. -/
theorem parts (h : j.size ≤ j.data.bytes.length) (h0 : align4k64 j.size ≠ 0) :
    0 < j.size ∧ 0 ≤ j.bulkEnd ∧ j.bulkEnd ≤ j.size ∧
      j.tailLen = j.size - j.bulkEnd ∧ 0 ≤ j.tailLen ∧ j.tailLen < blockSize ∧
      (j.rest.length : Int) = j.tailLen ∧
      align4k64 j.size = if 0 < j.tailLen then j.bulkEnd + blockSize else j.bulkEnd := by
  have hpos : 0 < j.size := by
    by_contra hneg
    exact h0 (by unfold align4k64; rw [if_pos (by omega)])
  have hbulk : j.bulkEnd = j.size - j.size % blockSize := rfl
  have htail : j.tailLen = j.size - j.bulkEnd := rfl
  have hrest : (j.rest.length : Int) = j.tailLen := by
    unfold rest
    rw [List.length_drop, List.length_take]
    unfold blockSize at hbulk
    omega
  rw [align4k64_of_lt (size_lt h)]
  unfold align4k blockSize at *
  refine ⟨hpos, ?_, ?_, htail, ?_, ?_, hrest, ?_⟩
  · omega
  · omega
  · omega
  · omega
  · rw [if_neg (by omega)]
    split <;> omega

/-- An empty job writes nothing. -/
theorem specs_nil (h : j.size ≤ j.data.bytes.length) (h0 : align4k64 j.size = 0) :
    j.specs g = [] := by
  rw [align4k64_of_lt (size_lt h)] at h0
  unfold specs WriteJob.specs
  rw [if_pos (show align4k j.toWriteJob.size = 0 from h0)]
  rfl

/-- The writes of a job, in the words of `Append`. -/
theorem specs_eq (h : j.size ≤ j.data.bytes.length) (h0 : align4k64 j.size ≠ 0) :
    j.specs g = (if 0 < j.bulkEnd then [j.bulk g] else []) ++
      (if 0 < j.tailLen then [j.tail g (padBlock j.rest)] else []) := by
  have hplace : int64 (g.segmentBase j.seg + (j.off + j.bulkEnd)) =
      int64 (j.pos g + j.bulkEnd) := by
    rw [Job.pos, int64_add_int64]
    congr 1
    omega
  have h0' : ¬ align4k j.toWriteJob.size = 0 := by
    show ¬ align4k j.size = 0
    rwa [← align4k64_of_lt (size_lt h)]
  unfold specs WriteJob.specs
  rw [if_neg h0', List.map_append]
  congr 1
  · show List.map g.place (if 0 < j.bulkEnd then _ else _) = _
    split <;> rfl
  · show List.map g.place (if 0 < j.tailLen then [⟨j.seg, j.off + j.bulkEnd, padBlock j.rest⟩]
      else []) = _
    split
    · unfold Geometry.place tail
      rw [List.map_singleton]
      simp only
      rw [hplace]
    · rfl

/-- The buffer for the rest holds it, filled up with zeros. -/
theorem tailBuf_bytes (h : j.size ≤ j.data.bytes.length) (h0 : align4k64 j.size ≠ 0) (p : Pool) :
    (j.tailBuf (p.get blockSize.toNat).1).bytes = padBlock j.rest := by
  obtain ⟨-, -, -, -, -, htail, hrest, -⟩ := parts h h0
  have hblock : (p.get blockSize.toNat).1.bytes.length = 4096 := p.length_get_block
  have hle : j.rest.length ≤ 4096 := by
    unfold blockSize at htail
    omega
  have hall := (p.get blockSize.toNat).1.take_clear_copy j.rest (n := 4096) hle
    (Nat.le_of_eq hblock.symm)
  have hlen : (j.tailBuf (p.get blockSize.toNat).1).bytes.length = 4096 := by
    unfold tailBuf
    rw [Buffer.length_clear, Buffer.length_copy, hblock]
  rw [← List.take_of_length_le (Nat.le_of_eq hlen)]
  unfold tailBuf
  rw [hblock]
  exact hall

/-- The buffer for all of it holds the data, filled up with zeros. -/
theorem bounceBuf_take (h : j.size ≤ j.data.bytes.length) (p : Pool) :
    (j.bounceBuf (p.get (align4k64 j.size).toNat).1).bytes.take (align4k64 j.size).toNat =
      j.data.bytes.take j.size.toNat ++
        List.replicate ((align4k64 j.size).toNat - j.size.toNat) 0 := by
  have hlen : (j.data.bytes.take j.size.toNat).length = j.size.toNat := by
    rw [List.length_take]
    omega
  have hle : j.size.toNat ≤ (align4k64 j.size).toNat := by
    have := le_align4k j.size
    rw [align4k64_of_lt (size_lt h)]
    omega
  have hall := (p.get (align4k64 j.size).toNat).1.take_clear_copy
    (j.data.bytes.take j.size.toNat) (by rwa [hlen]) (p.le_length_get _)
  rw [hlen] at hall
  exact hall

theorem bounceBulk_eq (h : j.size ≤ j.data.bytes.length) (h0 : align4k64 j.size ≠ 0) (p : Pool) :
    j.bounceBulk g (j.bounceBuf (p.get (align4k64 j.size).toNat).1) = j.bulk g := by
  obtain ⟨hpos, hbulk0, hbulk, -⟩ := parts h h0
  have hle : j.bulkEnd.toNat ≤ (align4k64 j.size).toNat := by
    have := le_align4k j.size
    rw [align4k64_of_lt (size_lt h)]
    omega
  have hbytes : (j.bounceBuf (p.get (align4k64 j.size).toNat).1).bytes.take j.bulkEnd.toNat =
      j.data.bytes.take j.bulkEnd.toNat := by
    rw [← Nat.min_eq_left hle, ← List.take_take, bounceBuf_take h, Nat.min_eq_left hle,
      List.take_append_of_le_length, List.take_take, Nat.min_eq_left]
    · omega
    · rw [List.length_take]
      omega
  unfold bounceBulk bulk
  rw [hbytes]

theorem bounceTail_eq (h : j.size ≤ j.data.bytes.length) (h0 : align4k64 j.size ≠ 0)
    (htail : 0 < j.tailLen) (p : Pool) :
    j.bounceTail g (j.bounceBuf (p.get (align4k64 j.size).toNat).1) =
      j.tail g (padBlock j.rest) := by
  obtain ⟨hpos, hbulk0, hbulk, htl, -, -, hrest, hal⟩ := parts h h0
  rw [if_pos htail] at hal
  have hzeros : (align4k64 j.size).toNat - j.size.toNat = blockSize.toNat - j.rest.length := by
    unfold blockSize at *
    omega
  have hlen : j.bulkEnd.toNat ≤ (j.data.bytes.take j.size.toNat).length := by
    rw [List.length_take]
    omega
  unfold bounceTail
  rw [bounceBuf_take h, List.drop_append_of_le_length hlen, hzeros]
  rfl

theorem length_bulk (h : j.size ≤ j.data.bytes.length) (h0 : align4k64 j.size ≠ 0) :
    ((j.bulk g).buf.length : Int) = j.bulkEnd := by
  obtain ⟨-, hbulk0, hbulk, -⟩ := parts h h0
  show ((j.data.bytes.take j.bulkEnd.toNat).length : Int) = _
  rw [List.length_take]
  omega

theorem length_tail (h : j.size ≤ j.data.bytes.length) (h0 : align4k64 j.size ≠ 0) :
    ((j.tail g (padBlock j.rest)).buf.length : Int) = blockSize := by
  obtain ⟨-, -, -, -, -, htail, hrest, -⟩ := parts h h0
  exact padBlock_length (by omega)

theorem size_le_of_check (h : j.appendCheck g = none) : j.size ≤ j.data.bytes.length := by
  unfold appendCheck at h
  split at h
  · cases h
  · split at h
    · cases h
    · split at h
      · cases h
      · omega

end Job

/-! ## 4. Both paths -/

section Append

variable {g : Geometry} {r : Ring} {j : Job} {d : Device}

/-- The device of a run on another pool. -/
theorem writeEach_pair (w v : List WriteSpec) (d : Device) :
    writeEach r (w ++ v) d = match writeEach r w d with
      | (some e, d) => (some e, d)
      | (none, d) => writeEach r v d := by
  induction w generalizing d with
  | nil => rfl
  | cons u w ih =>
    rw [List.cons_append, writeEach, writeEach]
    rcases writeOut r u u.buf.length d with ⟨_ | e, d'⟩
    · exact ih d'
    · rfl

theorem writeEach_opt (c : Prop) [Decidable c] (w : WriteSpec) (d : Device) :
    writeEach r (if c then [w] else []) d =
      if c then writeOut r w w.buf.length d else (none, d) := by
  split
  · rw [writeEach]
    rcases writeOut r w w.buf.length d with ⟨_ | e, d'⟩ <;> rfl
  · rfl

/-- **Both paths make the writes of the job**; what they do to the pool the writes do not see. -/
theorem append_eq (hcheck : j.appendCheck g = none) : ∃ p : Pool, append g r j d =
    ((writeEach r (j.specs g) d).1, { (writeEach r (j.specs g) d).2 with pool := p }) := by
  have h := Job.size_le_of_check hcheck
  unfold append
  rw [hcheck]
  simp only
  split
  · rename_i h0
    rw [Job.specs_nil h h0]
    exact ⟨d.pool, rfl⟩
  · rename_i h0
    rw [Job.specs_eq h h0, writeEach_pair, writeEach_opt, Job.length_bulk h h0]
    split
    · unfold appendDirect
      rcases (if 0 < j.bulkEnd then writeOut r (j.bulk g) j.bulkEnd d else (none, d)) with
        ⟨_ | e, d'⟩
      · simp only
        rw [writeEach_opt, Job.length_tail h h0]
        split
        · rw [Job.tailBuf_bytes h h0, writeOut_pool]
          exact ⟨_, rfl⟩
        · exact ⟨_, rfl⟩
      · exact ⟨_, rfl⟩
    · unfold appendBounce
      simp only
      rw [Job.bounceBulk_eq h h0]
      have hout : (if 0 < j.bulkEnd then writeOut r (j.bulk g) j.bulkEnd
            { d with pool := (d.pool.get (align4k64 j.size).toNat).2 }
          else (none, { d with pool := (d.pool.get (align4k64 j.size).toNat).2 })) =
          ((if 0 < j.bulkEnd then writeOut r (j.bulk g) j.bulkEnd d else (none, d)).1,
            { (if 0 < j.bulkEnd then writeOut r (j.bulk g) j.bulkEnd d else (none, d)).2 with
              pool := (d.pool.get (align4k64 j.size).toNat).2 }) := by
        split
        · exact writeOut_pool _ _ _ _
        · rfl
      rw [hout]
      rcases (if 0 < j.bulkEnd then writeOut r (j.bulk g) j.bulkEnd d else (none, d)) with
        ⟨_ | e, d'⟩
      · simp only
        rw [writeEach_opt, Job.length_tail h h0]
        split
        · rename_i htail
          have hwant : align4k64 j.size - j.bulkEnd = blockSize := by
            rw [(Job.parts h h0).2.2.2.2.2.2.2, if_pos htail]
            omega
          rw [Job.bounceTail_eq h h0 htail, hwant, writeOut_pool]
          exact ⟨_, rfl⟩
        · exact ⟨_, rfl⟩
      · exact ⟨_, rfl⟩

end Append

/-! ## 5. The extent -/

/-- Two writes side by side are one. -/
theorem apply_write_append (f : Int → Byte) (a b : Bytes) (o : Int) :
    Overwrite.apply (Overwrite.apply f (WriteSpec.write ⟨a, o⟩))
      (WriteSpec.write ⟨b, o + a.length⟩) = Overwrite.apply f (WriteSpec.write ⟨a ++ b, o⟩) := by
  funext p
  unfold Overwrite.apply WriteSpec.write
  simp only [List.length_append, Int.natCast_add]
  by_cases hb : o + a.length ≤ p ∧ p < o + a.length + b.length
  · have hidx : (p - o).toNat - a.length = (p - (o + a.length)).toNat := by omega
    have hab : o ≤ p ∧ p < o + (a.length + b.length) := by omega
    rw [if_pos hb, if_pos hab]
    simp only [Option.getD_some]
    rw [List.getD_eq_getElem?_getD, List.getD_eq_getElem?_getD,
      List.getElem?_append_right (by omega), hidx]
  · rw [if_neg hb]
    by_cases ha : o ≤ p ∧ p < o + a.length
    · have hab : o ≤ p ∧ p < o + (a.length + b.length) := by omega
      rw [if_pos ha, if_pos hab]
      simp only [Option.getD_some, Option.getD_none]
      rw [List.getD_eq_getElem?_getD, List.getD_eq_getElem?_getD,
        List.getElem?_append_left (by omega)]
    · rw [if_neg ha, if_neg (by omega)]
      rfl

theorem apply_write_nil (f : Int → Byte) (o : Int) :
    Overwrite.apply f (WriteSpec.write ⟨[], o⟩) = f := by
  funext p
  unfold Overwrite.apply WriteSpec.write
  rw [if_neg (by simp only [List.length_nil]; omega)]
  rfl

/-- Where the segments lie. -/
theorem Geometry.base_bounds {g : Geometry} {seg : Int} (h : g.Segment seg) :
    0 ≤ seg * g.segmentSizeBytes ∧
      seg * g.segmentSizeBytes + g.segmentSizeBytes ≤ g.segmentSizeBytes * g.segmentCount ∧
      g.segmentBase seg = seg * g.segmentSizeBytes := by
  have hpos := g.seg_pos
  have hcap := g.cap_le
  have hlow : 0 ≤ seg * g.segmentSizeBytes := Int.mul_nonneg h.1 (Int.le_of_lt hpos)
  have hhigh : (seg + 1) * g.segmentSizeBytes ≤ g.segmentCount * g.segmentSizeBytes :=
    Int.mul_le_mul_of_nonneg_right h.2 (Int.le_of_lt hpos)
  rw [Int.add_mul, Int.one_mul, Int.mul_comm g.segmentCount] at hhigh
  exact ⟨hlow, hhigh, int64_of_range (by omega) (by omega)⟩

namespace Job

variable {g : Geometry} {j : Job}

/-- What the extent of the job holds in the end. -/
def content (j : Job) : Bytes :=
  j.data.bytes.take j.size.toNat ++ List.replicate (align4k j.size - j.size).toNat 0

/-- The content is the whole blocks and what is written of the rest. -/
theorem content_eq (h : j.size ≤ j.data.bytes.length) (h0 : align4k64 j.size ≠ 0) :
    j.content = j.data.bytes.take j.bulkEnd.toNat ++
      if 0 < j.tailLen then padBlock j.rest else [] := by
  obtain ⟨hpos, hbulk0, hbulk, htl, -, -, hrest, hal⟩ := parts h h0
  have hsplit : j.data.bytes.take j.bulkEnd.toNat ++ j.rest = j.data.bytes.take j.size.toNat := by
    have hbytes : j.data.bytes.take j.bulkEnd.toNat =
        (j.data.bytes.take j.size.toNat).take j.bulkEnd.toNat := by
      rw [List.take_take, Nat.min_eq_left]
      omega
    rw [hbytes]
    exact List.take_append_drop _ _
  unfold content
  rw [← align4k64_of_lt (size_lt h), hal]
  split
  · have hzeros : (j.bulkEnd + blockSize - j.size).toNat = blockSize.toNat - j.rest.length := by
      unfold blockSize at *
      omega
    rw [padBlock, ← List.append_assoc, hsplit, hzeros]
  · have heq : j.bulkEnd = j.size := by omega
    rw [heq, Int.sub_self]
    rfl

/-- The checks of an extent that fits come to the length of the data. -/
theorem appendCheck_of_fits (hoff : 0 ≤ j.off) (hmod : j.off % blockSize = 0)
    (h : j.size ≤ j.data.bytes.length)
    (hfits : j.off + align4k j.size ≤ g.segmentSizeBytes) (hseg : g.Segment j.seg) :
    j.appendCheck g = none := by
  obtain ⟨hlow, hhigh, -⟩ := Geometry.base_bounds hseg
  have hcap := g.cap_le
  have hal := align4k_nonneg j.size
  unfold appendCheck
  rw [if_neg (by omega), align4k64_of_lt (size_lt h), int64_of_range (by omega) (by omega),
    if_neg (by omega), if_neg (by omega)]

/-- Where the writes of a job that fits begin. -/
theorem offs_of_fits (hoff : 0 ≤ j.off) (h : j.size ≤ j.data.bytes.length)
    (h0 : align4k64 j.size ≠ 0) (hfits : j.off + align4k j.size ≤ g.segmentSizeBytes)
    (hseg : g.Segment j.seg) : j.pos g = j.seg * g.segmentSizeBytes + j.off ∧
      int64 (j.pos g + j.bulkEnd) = j.seg * g.segmentSizeBytes + j.off + j.bulkEnd := by
  obtain ⟨hlow, hhigh, hbase⟩ := Geometry.base_bounds hseg
  obtain ⟨-, hbulk0, hbulk, -⟩ := parts h h0
  have hcap := g.cap_le
  have hle := le_align4k j.size
  have hposn : j.pos g = j.seg * g.segmentSizeBytes + j.off := by
    rw [pos, hbase, int64_of_range (by omega) (by omega)]
  rw [hposn, int64_of_range (by omega) (by omega)]
  exact ⟨rfl, rfl⟩

/-- **The writes of a job that fits are one write of its extent.** -/
theorem applyAll_specs (hoff : 0 ≤ j.off) (hsize : 0 ≤ j.size)
    (h : j.size ≤ j.data.bytes.length)
    (hfits : j.off + align4k j.size ≤ g.segmentSizeBytes) (hseg : g.Segment j.seg)
    (f : Int → Byte) :
    Overwrite.applyAll f ((j.specs g).map WriteSpec.write) =
      Overwrite.apply f
        (WriteSpec.write ⟨j.content, j.seg * g.segmentSizeBytes + j.off⟩) := by
  obtain ⟨hlow, hhigh, hbase⟩ := Geometry.base_bounds hseg
  have hcap := g.cap_le
  have hal := align4k_nonneg j.size
  have hle := le_align4k j.size
  by_cases h0 : align4k64 j.size = 0
  · have hnil : j.specs g = [] := specs_nil h h0
    rw [align4k64_of_lt (size_lt h)] at h0
    have hcontent : j.content = [] := by
      have hzero : j.size = 0 := by omega
      unfold content
      rw [h0, hzero]
      rfl
    rw [hnil, hcontent, apply_write_nil]
    rfl
  · obtain ⟨hposn, htailn⟩ := offs_of_fits hoff h h0 hfits hseg
    obtain ⟨-, hbulk0, hbulk, -⟩ := parts h h0
    have hlen : ((j.data.bytes.take j.bulkEnd.toNat).length : Int) =
        j.bulkEnd := length_bulk (g := g) h h0
    have hbulkw : Overwrite.applyAll f
        (List.map WriteSpec.write (if 0 < j.bulkEnd then [j.bulk g] else [])) =
          Overwrite.apply f (j.bulk g).write := by
      split
      · rfl
      · have hnil : j.bulk g = ⟨[], j.pos g⟩ := by
          have hzero : j.bulkEnd = 0 := by omega
          unfold bulk
          rw [hzero]
          rfl
        rw [hnil, apply_write_nil]
        rfl
    have htailw : ∀ f : Int → Byte, Overwrite.applyAll f
        (List.map WriteSpec.write (if 0 < j.tailLen then [j.tail g (padBlock j.rest)] else [])) =
          Overwrite.apply f
            (j.tail g (if 0 < j.tailLen then padBlock j.rest else [])).write := by
      intro f
      split
      · rfl
      · exact (apply_write_nil f _).symm
    rw [specs_eq h h0, content_eq h h0, List.map_append, Overwrite.applyAll_append, hbulkw,
      htailw, ← apply_write_append, hlen, ← htailn, ← hposn]
    rfl

/-- A job whose sum leaves `int64` passes the check, and its writes lie outside the device. -/
theorem specs_outside (hoff : 0 ≤ j.off) (hlt : j.off < 2 ^ 63) (hseg : g.Segment j.seg)
    (hcheck : j.appendCheck g = none) (hfits : g.segmentSizeBytes < j.off + align4k j.size)
    {w : WriteSpec} (hw : w ∈ j.specs g) {p : Int} (hp : g.Address p) : w.write p = none := by
  obtain ⟨hlow, hhigh, hbase⟩ := Geometry.base_bounds hseg
  have hcap := g.cap_le
  have hsegpos := g.seg_pos
  have hsize := size_le_of_check hcheck
  have hlen := j.data.length_lt
  have hal : align4k64 j.size = align4k j.size := align4k64_of_lt (size_lt hsize)
  have hal0 := align4k_nonneg j.size
  have halle : align4k j.size ≤ 2 ^ 62 :=
    align4k_le_of_mod (by decide) (by decide) (Int.le_of_lt (size_lt hsize))
  -- the sum is past the range
  have hpast : 2 ^ 63 ≤ j.off + align4k j.size := by
    by_contra hin
    unfold appendCheck at hcheck
    rw [hal, int64_of_range (by omega) (by omega)] at hcheck
    split at hcheck
    · cases hcheck
    · cases hcheck
  by_cases h0 : align4k64 j.size = 0
  · omega
  obtain ⟨hpos, hbulk0, hbulk, htl, htl0, htl1, hrest, halsum⟩ := parts hsize h0
  obtain ⟨hp0, hpc⟩ := hp
  have hbulkle : j.bulkEnd ≤ align4k j.size := by
    rw [← hal, halsum]
    unfold blockSize
    split <;> omega
  have hnone : ¬ (w.off ≤ p ∧ p < w.off + w.buf.length) := by
    rw [specs_eq hsize h0] at hw
    rcases List.mem_append.mp hw with hw | hw
    · split at hw
      · rw [List.mem_singleton.mp hw, length_bulk hsize h0]
        have hpos64 : j.pos g = int64 (j.seg * g.segmentSizeBytes + j.off) := by
          rw [pos, hbase]
        show ¬ (j.pos g ≤ p ∧ p < j.pos g + _)
        rcases int64_wraps (x := j.seg * g.segmentSizeBytes + j.off) (by omega) (by omega) with
          ⟨-, h64⟩ | ⟨-, h64⟩ <;> rw [hpos64, h64] <;> omega
      · exact absurd hw List.not_mem_nil
    · split at hw
      · rename_i htail
        rw [if_pos htail, hal] at halsum
        rw [List.mem_singleton.mp hw, length_tail hsize h0]
        have hoff64 : (j.tail g (padBlock j.rest)).off =
            int64 (j.seg * g.segmentSizeBytes + j.off + j.bulkEnd) := by
          show int64 (j.pos g + j.bulkEnd) = _
          rw [pos, hbase, int64_add_int64]
        unfold blockSize at *
        rcases int64_wraps (x := j.seg * g.segmentSizeBytes + j.off + j.bulkEnd) (by omega)
          (by omega) with ⟨-, h64⟩ | ⟨-, h64⟩ <;> rw [hoff64, h64] <;> omega
      · exact absurd hw List.not_mem_nil
  unfold WriteSpec.write
  rw [if_neg hnone]

end Job

/-- What `content` holds at an offset of the extent. -/
theorem Job.content_getD {j : Job} (hsize : 0 ≤ j.size) (h : j.size ≤ j.data.bytes.length)
    (i : Nat) : j.content.getD i 0 = if (i : Int) < j.size then j.data.bytes.getD i 0 else 0 := by
  have hlen : (j.data.bytes.take j.size.toNat).length = j.size.toNat := by
    rw [List.length_take]
    omega
  unfold Job.content
  rw [List.getD_eq_getElem?_getD, List.getD_eq_getElem?_getD]
  split
  · rw [List.getElem?_append_left (by omega), List.getElem?_take_of_lt (by omega)]
  · rw [List.getElem?_append_right (by omega), List.getElem?_replicate]
    split <;> rfl

/-- **`Append` writes exactly its extent.**  For a job of a segment of the device, on both paths
and whatever the pool holds: after a successful call the extent holds the data and zeros, and all
other bytes are what they were; and when the extent does not fit in the segment no byte of the
device changes. -/
theorem append_extent (g : Geometry) (r : Ring) (j : Job) (d : Device) (hseg : g.Segment j.seg)
    (hoff : 0 ≤ j.off) (hlt : j.off < 2 ^ 63) (hmod : j.off % blockSize = 0)
    (hsize : 0 ≤ j.size) :
    (j.size ≤ j.data.bytes.length → j.off + align4k j.size ≤ g.segmentSizeBytes →
      (append g r j d).1 = none → ∀ p,
        let base := j.seg * g.segmentSizeBytes + j.off
        (append g r j d).2.bytes p =
          if base ≤ p ∧ p < base + j.size then j.data.bytes.getD (p - base).toNat 0
          else if base + j.size ≤ p ∧ p < base + align4k j.size then 0
          else d.bytes p) ∧
    (g.segmentSizeBytes < j.off + align4k j.size →
      ∀ p, g.Address p → (append g r j d).2.bytes p = d.bytes p) := by
  constructor
  · intro h hfits hok p base
    have hcheck := Job.appendCheck_of_fits (g := g) hoff hmod h hfits hseg
    obtain ⟨pool, hrun⟩ := append_eq (r := r) (d := d) hcheck
    rw [hrun] at hok ⊢
    have hbytes : (writeEach r (j.specs g) d).2.bytes =
        Overwrite.applyAll d.bytes ((j.specs g).map WriteSpec.write) :=
      writeEach_ok (Prod.ext hok rfl)
    show (writeEach r (j.specs g) d).2.bytes p = _
    have hcontent : (j.content.length : Int) = align4k j.size := by
      have hle := le_align4k j.size
      unfold Job.content
      rw [List.length_append, List.length_take, List.length_replicate]
      omega
    rw [hbytes, Job.applyAll_specs hoff hsize h hfits hseg]
    show (if base ≤ p ∧ p < base + j.content.length then
      some (j.content.getD (p - base).toNat 0) else none).getD (d.bytes p) = _
    rw [hcontent, Job.content_getD hsize h]
    have hle := le_align4k j.size
    by_cases hin : base ≤ p ∧ p < base + align4k j.size
    · rw [if_pos hin]
      by_cases hdata : p < base + j.size
      · have hidx : ((p - base).toNat : Int) < j.size := by omega
        rw [if_pos hidx, if_pos ⟨hin.1, hdata⟩]
        rfl
      · have hidx : ¬ ((p - base).toNat : Int) < j.size := by omega
        rw [if_neg hidx, if_neg (fun h => hdata h.2), if_pos ⟨Int.not_lt.mp hdata, hin.2⟩]
        rfl
    · rw [if_neg hin, if_neg (by omega), if_neg (by omega)]
      rfl
  · intro hfits p hp
    by_cases hcheck : j.appendCheck g = none
    · obtain ⟨pool, hrun⟩ := append_eq (r := r) (d := d) hcheck
      rw [hrun]
      exact (writeEach_kept r (j.specs g) d).2.2 p
        (fun w hw => Job.specs_outside hoff hlt hseg hcheck hfits hw hp)
    · unfold append
      rcases hc : j.appendCheck g with _ | e
      · exact absurd hc hcheck
      · rfl

/-- A device of two segments of two blocks. -/
def twoSegments : Geometry where
  segmentSizeBytes := 8192
  segmentCount := 2
  seg_pos := by decide
  count_nonneg := by decide
  cap_le := by decide

/-- One byte, not at a block. -/
def oneByte : Job where
  seg := 1
  off := 4096
  size := 1
  data := ⟨[7], false, by decide⟩

/-- A ring that writes a block each time, after an error that has left half of it behind. -/
def blockRing : Ring where
  write k := .taken (if k = 0 then ⟨-11, fun i => decide (i < 2048)⟩ else ⟨4096, fun _ => true⟩)
  writeBatch _ := .full

/-- A device that is full of nines. -/
def ninesDevice : Device := ⟨fun _ => 9, 0, [], 0, 0, newAlignedPool⟩

theorem append_extent_one_byte :
    (append twoSegments blockRing oneByte ninesDevice).1 = none ∧
      (append twoSegments blockRing oneByte ninesDevice).2.bytes 12288 = 7 ∧
      (append twoSegments blockRing oneByte ninesDevice).2.bytes 12289 = 0 ∧
      (append twoSegments blockRing oneByte ninesDevice).2.bytes 12287 = 9 := by
  have hok : (append twoSegments blockRing oneByte ninesDevice).1 = none := by decide +kernel
  have h := (append_extent twoSegments blockRing oneByte ninesDevice (by constructor <;> decide)
    (by decide) (by decide) (by decide) (by decide)).1 (by decide) (by decide) hok
  exact ⟨hok, h 12288, h 12289, h 12287⟩

end Taihu.DeviceWrite
