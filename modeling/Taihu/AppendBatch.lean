/-
# `AppendBatch` and its ring

The model is `DeviceWrite.lean`, the writes of a job are those of `AppendExtent.lean`.

An attempt hands over the writes that are left, and the ring takes the first of them: what it has
taken is on the medium once its events are settled (`settle_bytes`), in whatever order it ended,
and the rest goes to the next attempt.  So a call that returns nil has had each of its writes
taken once, repetitions after an error that passes apart (`submitLoop_log`), and leaves what the
calls of `Append` leave (`append_batch_refines`).

An attempt of which nothing is taken is repeated, before its error is looked at.  A ring that
fails for good takes nothing, so the loop that meets it does not end (`submitLoop_stuck`): the
call reports such an error only if it never gets to see it (`append_batch_reports_iff`).
-/
import Taihu.AppendExtent

namespace Taihu.DeviceWrite

open BufPool
open CompletionPump (retriableErrno complRetryMax)
open DeviceRead (align4k64 align4k64_of_lt)

/-! ## 1. What is prepared -/

section Prepare

variable {g : Geometry} {j : Job} {jobs : List Job}

/-- `AppendBatch` refuses a job when `Append` does. -/
theorem Job.batchCheck_eq_none_iff : j.batchCheck g = none ↔ j.appendCheck g = none := by
  unfold Job.batchCheck Job.appendCheck
  by_cases h1 : j.off < 0 ∨ j.off % blockSize ≠ 0
  · rw [if_pos h1, if_pos h1]
  · rw [if_neg h1, if_neg h1]
    by_cases h2 : (j.data.bytes.length : Int) < j.size <;>
      by_cases h3 : int64 (j.off + align4k64 j.size) > g.segmentSizeBytes <;> simp [h2, h3]

/-- What a job adds to the batch. -/
theorem Job.prepare_specs (hcheck : j.appendCheck g = none) (p : Pool) :
    (j.prepare g p).1 = j.specs g := by
  have h := Job.size_le_of_check hcheck
  unfold Job.prepare
  split
  · rename_i h0
    rw [Job.specs_nil h h0]
  · rename_i h0
    rw [Job.specs_eq h h0]
    split
    · simp only
      split
      · rw [Job.tailBuf_bytes h h0]
      · rw [List.append_nil]
    · simp only
      rw [Job.bounceBulk_eq h h0]
      congr 1
      split
      · rename_i htail
        rw [Job.bounceTail_eq h h0 htail]
      · rfl

theorem prepareAll_ok (h : ∀ j ∈ jobs, j.appendCheck g = none) (p : Pool) :
    (prepareAll g jobs p).1 = none ∧
      (prepareAll g jobs p).2.1 = jobs.flatMap (Job.specs g) := by
  induction jobs generalizing p with
  | nil => exact ⟨rfl, rfl⟩
  | cons j js ih =>
    have hj := h j List.mem_cons_self
    obtain ⟨hnone, hspecs⟩ := ih (fun i hi => h i (List.mem_cons_of_mem j hi)) (j.prepare g p).2.2
    unfold prepareAll
    rw [Job.batchCheck_eq_none_iff.mpr hj]
    refine ⟨hnone, ?_⟩
    show (j.prepare g p).1 ++ _ = _
    rw [hspecs, Job.prepare_specs hj, List.flatMap_cons]

theorem prepareAll_fails (h : ∃ j ∈ jobs, j.appendCheck g ≠ none) (p : Pool) :
    ∃ e, (prepareAll g jobs p).1 = some e := by
  induction jobs generalizing p with
  | nil =>
    obtain ⟨j, hj, -⟩ := h
    exact absurd hj List.not_mem_nil
  | cons j js ih =>
    unfold prepareAll
    rcases hc : j.batchCheck g with _ | e
    · obtain ⟨i, hi, hbad⟩ := h
      rcases List.mem_cons.mp hi with rfl | hi
      · exact absurd (Job.batchCheck_eq_none_iff.mp hc) hbad
      · exact ih ⟨i, hi, hbad⟩ (j.prepare g p).2.2
    · exact ⟨e, rfl⟩

end Prepare

/-! ## 2. What an attempt leaves -/

section Settle

variable {r : Ring} {w : WriteSpec} {t : Transfer} {got : List (WriteSpec × Transfer)}
  {d d' : Device} {p : Int}

/-- What has landed, in the order of the batch. -/
def landings (got : List (WriteSpec × Transfer)) : List (Int → Option Byte) :=
  got.map (fun x => x.1.landed x.2)

/-- The order in which the IOs end is some order. -/
theorem land_bytes (d : Device) (got : List (WriteSpec × Transfer)) (prio : Nat → Nat) :
    ∃ ws, ws.Perm (landings got) ∧ (d.land got prio).bytes = Overwrite.applyAll d.bytes ws := by
  refine ⟨_, ?_, rfl⟩
  have hsort := (List.mergeSort_perm got.zipIdx (fun x y => prio x.2 ≤ prio y.2)).map
    (fun x => x.1.1.landed x.1.2)
  have hfst : got.zipIdx.map (fun x => x.1.1.landed x.1.2) = landings got := by
    unfold landings
    calc got.zipIdx.map (fun x => x.1.1.landed x.1.2)
        = (got.zipIdx.map Prod.fst).map (fun x => x.1.landed x.2) := by rw [List.map_map]; rfl
      _ = got.map (fun x => x.1.landed x.2) := by rw [List.zipIdx_map_fst]
  rw [← hfst]
  exact hsort

/-- The addresses that none of the IOs reaches. -/
def Untouched (got : List (WriteSpec × Transfer)) (p : Int) : Prop :=
  ∀ x ∈ got, x.1.write p = none

theorem land_untouched (h : Untouched got p) (prio : Nat → Nat) :
    (d.land got prio).bytes p = d.bytes p := by
  obtain ⟨ws, hperm, hbytes⟩ := land_bytes d got prio
  rw [hbytes]
  apply Overwrite.applyAll_of_none
  intro v hv
  obtain ⟨x, hx, rfl⟩ := List.mem_map.mp (hperm.mem_iff.mp hv)
  exact WriteSpec.landed_of_none (h x hx)

/-- No two of the IOs reach the address. -/
def Apart (got : List (WriteSpec × Transfer)) (p : Int) : Prop :=
  Overwrite.Alone (got.map (fun x => x.1.write)) p

theorem apart_cons (h : Apart ((w, t) :: got) p) :
    (w.write p ≠ none → Untouched got p) ∧ Apart got p := by
  obtain ⟨hhead, hrest⟩ := List.pairwise_cons.mp h
  refine ⟨fun hw x hx => ?_, hrest⟩
  rcases hhead x.1.write (List.mem_map.mpr ⟨x, hx, rfl⟩) with h | h
  · exact absurd h hw
  · exact h

/-- An IO that has ended with its full length is on the medium. -/
theorem land_full {x : Byte} (h : Apart got p) (hmem : (w, t) ∈ got) (hx : w.write p = some x)
    (hfull : t.res = w.buf.length) (prio : Nat → Nat) : (d.land got prio).bytes p = x := by
  obtain ⟨ws, hperm, hbytes⟩ := land_bytes d got prio
  have halone : Overwrite.Alone (landings got) p := by
    unfold landings Overwrite.Alone
    rw [List.pairwise_map]
    refine (List.pairwise_map.mp h).imp ?_
    rintro a b (ha | hb)
    · exact Or.inl (WriteSpec.landed_of_none ha)
    · exact Or.inr (WriteSpec.landed_of_none hb)
  have hin : w.landed t ∈ ws := hperm.mem_iff.mpr (List.mem_map.mpr ⟨(w, t), hmem, rfl⟩)
  rw [hbytes]
  refine (halone.perm hperm.symm).applyAll_of_mem hin ?_ _
  rw [WriteSpec.landed_of_full hfull]
  exact hx

theorem settle_error (e : WriteErr) (d : Device) : settle r got (some e) d = (some e, d) := by
  induction got with
  | nil => rfl
  | cons x got ih => exact ih

/-- The settled device, whatever comes of the events. -/
theorem settle_kept (r : Ring) (got : List (WriteSpec × Transfer)) (e : Option WriteErr)
    (d : Device) : (settle r got e d).2.inSubmit = d.inSubmit ∧
      (settle r got e d).2.attempts = d.attempts ∧
      ∀ p, Untouched got p → (settle r got e d).2.bytes p = d.bytes p := by
  induction got generalizing e d with
  | nil => exact ⟨rfl, rfl, fun _ _ => rfl⟩
  | cons x got ih =>
    obtain ⟨w, t⟩ := x
    have hrest : ∀ e' (d' : Device), Kept w d d' →
        (settle r got e' d').2.inSubmit = d.inSubmit ∧
          (settle r got e' d').2.attempts = d.attempts ∧
          ∀ p, Untouched ((w, t) :: got) p → (settle r got e' d').2.bytes p = d.bytes p := by
      intro e' d' hkept
      obtain ⟨hin, hat, hbytes⟩ := ih e' d'
      refine ⟨hin.trans hkept.inSubmit, hat.trans hkept.attempts, fun p hp => ?_⟩
      exact (hbytes p (fun y hy => hp y (List.mem_cons_of_mem _ hy))).trans
        (hkept.bytes p (hp (w, t) List.mem_cons_self))
    have hsame : Kept w d d := ⟨rfl, rfl, fun _ _ => rfl⟩
    cases e with
    | some e => exact hrest (some e) d hsame
    | none =>
      rw [settle]
      split
      · have hkept := submitOpN_kept r w complRetryMax d
        rcases hs : submitOpN r w complRetryMax d with ⟨e | res, d'⟩ <;> rw [hs] at hkept
        · exact hrest (some e) d' hkept
        · exact hrest _ d' hkept
      · exact hrest _ d hsame

theorem checkWrite_none {res want : Int} (h : checkWrite res want = none) : res = want := by
  unfold checkWrite at h
  split at h
  · cases h
  · split at h
    · cases h
    · rename_i hne
      exact not_not.mp hne

/-- The first event of an attempt that settles without an error: its IO has ended with its full
length, or does so when it is submitted again. -/
theorem settle_cons (h : settle r ((w, t) :: got) none d = (none, d')) :
    (retriableErrno t.res = false ∧ t.res = w.buf.length ∧ settle r got none d = (none, d')) ∨
      (retriableErrno t.res = true ∧ ∃ d1,
        submitOpN r w complRetryMax d = (.ok (w.buf.length : Int), d1) ∧
          settle r got none d1 = (none, d')) := by
  rw [settle] at h
  by_cases htr : retriableErrno t.res = true
  · rw [if_pos htr] at h
    rcases hs : submitOpN r w complRetryMax d with ⟨e | res, d1⟩ <;> rw [hs] at h <;>
      simp only at h
    · rw [settle_error] at h
      cases h
    · rcases hc : checkWrite res w.buf.length with _ | e <;> rw [hc] at h
      · rw [checkWrite_none hc]
        exact Or.inr ⟨htr, d1, rfl, h⟩
      · rw [settle_error] at h
        cases h
  · rw [if_neg htr] at h
    rcases hc : checkWrite t.res w.buf.length with _ | e <;> rw [hc] at h
    · exact Or.inl ⟨Bool.eq_false_iff.mpr htr, checkWrite_none hc, h⟩
    · rw [settle_error] at h
      cases h

/-- **What has been taken is on the medium** once its events are settled. -/
theorem settle_bytes {x : Byte} (h : settle r got none d = (none, d')) (hapart : Apart got p)
    (hmem : (w, t) ∈ got) (hx : w.write p = some x)
    (hland : t.res = w.buf.length → d.bytes p = x) : d'.bytes p = x := by
  induction got generalizing d with
  | nil => exact absurd hmem List.not_mem_nil
  | cons y got ih =>
    obtain ⟨v, u⟩ := y
    obtain ⟨hhead, hrest⟩ := apart_cons hapart
    rcases List.mem_cons.mp hmem with heq | hmem
    · cases heq
      have hrestUn := hhead (by rw [hx]; exact Option.some_ne_none x)
      rcases settle_cons h with ⟨-, hfull, h⟩ | ⟨-, d1, hs, h⟩
      · have hkept := (settle_kept r got none d).2.2 p hrestUn
        rw [h] at hkept
        exact hkept.trans (hland hfull)
      · have hkept := (settle_kept r got none d1).2.2 p hrestUn
        rw [h] at hkept
        refine hkept.trans ?_
        rw [(submitOpN_ok hs).2 rfl, Overwrite.apply, hx]
        rfl
    · have hv : v.write p = none := by
        by_contra hne
        have := hhead hne (w, t) hmem
        rw [hx] at this
        cases this
      rcases settle_cons h with ⟨-, -, h⟩ | ⟨-, d1, hs, h⟩
      · exact ih h hrest hmem hland
      · refine ih h hrest hmem (fun hfull => ?_)
        have hkept := (submitOpN_kept r v complRetryMax d).bytes p hv
        rw [hs] at hkept
        exact hkept.trans (hland hfull)

end Settle

/-! ## 3. The writes that are taken -/

/-- The entries of the log whose error did not pass. -/
def lasting (log : List (WriteSpec × Int)) : List WriteSpec :=
  (log.filter (fun e => ¬ retriableErrno e.2)).map Prod.fst

theorem lasting_append (l l' : List (WriteSpec × Int)) :
    lasting (l ++ l') = lasting l ++ lasting l' := by
  unfold lasting
  rw [List.filter_append, List.map_append]

/-- The repetitions of a write, and the submission that ends them. -/
theorem lasting_repeated {rs : List Int} (h : ∀ x ∈ rs, retriableErrno x = true)
    (w : WriteSpec) : lasting (rs.map (fun x => (w, x)) ++ [(w, (w.buf.length : Int))]) = [w] := by
  have hfull : retriableErrno (w.buf.length : Int) = false := by
    unfold retriableErrno
    rw [decide_eq_false_iff_not]
    omega
  have hnil : (rs.map (fun x => (w, x))).filter (fun e => ¬ retriableErrno e.2) = [] := by
    rw [List.filter_eq_nil_iff]
    intro e he
    obtain ⟨x, hx, rfl⟩ := List.mem_map.mp he
    simp [h x hx]
  rw [lasting_append]
  unfold lasting
  rw [hnil, List.filter_cons, hfull]
  rfl

section Loop

variable {r : Ring} {got : List (WriteSpec × Transfer)} {d d' : Device}

/-- What settling adds to the log: the IOs that are submitted again, until they are through. -/
theorem settle_log (h : settle r got none d = (none, d')) : ∃ added,
    d'.log = d.log ++ added ∧ (∀ e ∈ added, e.1 ∈ got.map Prod.fst) ∧
      lasting added = (got.filter (fun x => retriableErrno x.2.res)).map Prod.fst := by
  induction got generalizing d with
  | nil =>
    cases h
    exact ⟨[], (List.append_nil _).symm, fun e he => absurd he List.not_mem_nil, rfl⟩
  | cons x got ih =>
    obtain ⟨w, t⟩ := x
    rcases settle_cons h with ⟨htr, -, h⟩ | ⟨htr, d1, hs, h⟩
    · obtain ⟨added, hlog, hmem, hlast⟩ := ih h
      refine ⟨added, hlog, fun e he => List.mem_cons_of_mem w (hmem e he), ?_⟩
      rw [hlast, List.filter_cons, if_neg (by rw [htr]; exact Bool.false_ne_true)]
    · obtain ⟨⟨rs, hrs, hlog1⟩, -⟩ := submitOpN_ok hs
      obtain ⟨added, hlog, hmem, hlast⟩ := ih h
      refine ⟨rs.map (fun x => (w, x)) ++ [(w, (w.buf.length : Int))] ++ added, ?_, ?_, ?_⟩
      · rw [hlog, hlog1]
        simp only [List.append_assoc]
      · intro e he
        rcases List.mem_append.mp he with he | he
        · have hw : e.1 = w := by
            rcases List.mem_append.mp he with he | he
            · obtain ⟨x, -, rfl⟩ := List.mem_map.mp he
              rfl
            · rw [List.mem_singleton.mp he]
          rw [hw]
          exact List.mem_cons_self
        · exact List.mem_cons_of_mem w (hmem e he)
      · rw [lasting_append, lasting_repeated hrs, hlast, List.filter_cons, if_pos htr]
        rfl

variable {chunk : List WriteSpec} {fuel : Nat}

theorem submitLoop_error {e : WriteErr} {out : Option WriteErr × Device}
    (h : submitLoop r fuel chunk (some e) d = some out) : out.1 ≠ none := by
  induction fuel generalizing chunk d with
  | zero =>
    cases chunk with
    | nil =>
      cases h
      exact Option.some_ne_none e
    | cons w ws => cases h
  | succ fuel ih =>
    cases chunk with
    | nil =>
      cases h
      exact Option.some_ne_none e
    | cons w ws =>
      rw [submitLoop] at h
      simp only at h
      split at h
      · cases h
        exact Option.some_ne_none _
      · exact ih h
      · split at h
        · exact ih h
        · split at h
          · cases h
            exact Option.some_ne_none _
          · split at h
            · rw [settle_error] at h
              exact ih h
            · cases h
              exact Option.some_ne_none _

theorem land_leave (d : Device) (prio : Nat → Nat) (n : Nat) :
    ((d.enter n).land got prio).leave n = ((d.enter n).leave n).land got prio := rfl

/-- An attempt of a loop that returns nil: nothing is taken and it is repeated, or the first of
the writes are taken and settled. -/
theorem submitLoop_cons {w : WriteSpec} {ws : List WriteSpec}
    (h : submitLoop r (fuel + 1) (w :: ws) none d = some (none, d')) :
    (∃ d1 : Device, d1.bytes = d.bytes ∧ d1.log = d.log ∧ d1.inSubmit = d.inSubmit ∧
        submitLoop r fuel (w :: ws) none d1 = some (none, d')) ∨
      ∃ (accepted : List Transfer) (prio : Nat → Nat) (d0 d1 : Device), d0.bytes = d.bytes ∧
        d0.log = d.log ∧ d0.inSubmit = d.inSubmit ∧
        settle r ((w :: ws).zip accepted) none (d0.land ((w :: ws).zip accepted) prio) =
          (none, d1) ∧
        submitLoop r fuel ((w :: ws).drop ((w :: ws).zip accepted).length) none d1 =
          some (none, d') := by
  -- the device after the attempt is counted in and out
  let d0 : Device :=
    ({ d with attempts := d.attempts + 1 }.enter (w :: ws).length).leave (w :: ws).length
  have hback : d0.inSubmit = d.inSubmit := by
    show d.inSubmit + _ - _ = _
    omega
  rw [submitLoop] at h
  simp only at h
  split at h
  · cases h
  · exact Or.inl ⟨d0, rfl, rfl, hback, h⟩
  · rename_i accepted prio err pumped _
    split at h
    · exact Or.inl ⟨d0, rfl, rfl, hback, h⟩
    · split at h
      · cases h
      · split at h
        · rw [land_leave] at h
          rcases hs : settle r ((w :: ws).zip accepted) none
            (d0.land ((w :: ws).zip accepted) prio) with ⟨_ | e, d1⟩ <;> rw [hs] at h
          · exact Or.inr ⟨accepted, prio, d0, d1, rfl, rfl, hback, hs, h⟩
          · exact absurd rfl (submitLoop_error h)
        · cases h

/-- What an attempt takes, and what it leaves. -/
theorem take_append_rest (chunk : List WriteSpec) (accepted : List Transfer) :
    chunk = (chunk.zip accepted).map Prod.fst ++ chunk.drop (chunk.zip accepted).length := by
  have hfst : (chunk.zip accepted).map Prod.fst = chunk.take (chunk.zip accepted).length := by
    rw [List.length_zip]
    induction chunk generalizing accepted with
    | nil => rfl
    | cons w ws ih =>
      cases accepted with
      | nil => rfl
      | cons t ts =>
        rw [List.zip_cons_cons, List.map_cons, List.length_cons, List.length_cons,
          Nat.succ_min_succ, List.take_succ_cons, ih]
  rw [hfst, List.take_append_drop]

/-- **Every write is taken once**, apart from repetitions after an error that passes, and
`inSubmit` is what it was. -/
theorem submitLoop_log (h : submitLoop r fuel chunk none d = some (none, d')) :
    d'.inSubmit = d.inSubmit ∧ ∃ added, d'.log = d.log ++ added ∧ (∀ e ∈ added, e.1 ∈ chunk) ∧
      (lasting added).Perm chunk := by
  induction fuel generalizing chunk d with
  | zero =>
    cases chunk with
    | nil =>
      cases h
      exact ⟨rfl, [], (List.append_nil _).symm, fun e he => absurd he List.not_mem_nil,
        List.Perm.refl _⟩
    | cons w ws => cases h
  | succ fuel ih =>
    cases chunk with
    | nil =>
      cases h
      exact ⟨rfl, [], (List.append_nil _).symm, fun e he => absurd he List.not_mem_nil,
        List.Perm.refl _⟩
    | cons w ws =>
      rcases submitLoop_cons h with ⟨d1, -, hlog1, hin1, hloop⟩ |
        ⟨accepted, prio, d0, d1, -, hlog0, hin0, hsettle, hloop⟩
      · obtain ⟨hin, added, hlog, hmem, hperm⟩ := ih hloop
        exact ⟨hin.trans hin1, added, by rw [hlog, hlog1], hmem, hperm⟩
      · have hsplit := take_append_rest (w :: ws) accepted
        generalize hgot : (w :: ws).zip accepted = got at hsettle hloop hsplit
        obtain ⟨hin, added, hlog, hmem, hperm⟩ := ih hloop
        obtain ⟨again, hlog1, hmem1, hlast1⟩ := settle_log hsettle
        have hin1 := (settle_kept r got none (d0.land got prio)).1
        rw [hsettle] at hin1
        refine ⟨hin.trans (hin1.trans hin0),
          got.map (fun x => (x.1, x.2.res)) ++ again ++ added, ?_, ?_, ?_⟩
        · rw [hlog, hlog1]
          show d0.log ++ _ ++ _ ++ _ = _
          rw [hlog0]
          simp only [List.append_assoc]
        · intro e he
          rw [hsplit]
          rcases List.mem_append.mp he with he | he
          · rcases List.mem_append.mp he with he | he
            · obtain ⟨x, hx, rfl⟩ := List.mem_map.mp he
              exact List.mem_append_left _ (List.mem_map.mpr ⟨x, hx, rfl⟩)
            · exact List.mem_append_left _ (hmem1 e he)
          · exact List.mem_append_right _ (hmem e he)
        · have hfirst : lasting (got.map (fun x => (x.1, x.2.res))) =
              (got.filter (fun x => ¬ retriableErrno x.2.res)).map Prod.fst := by
            unfold lasting
            rw [List.filter_map, List.map_map]
            rfl
          have hsum : (lasting (got.map (fun x => (x.1, x.2.res))) ++ lasting again).Perm
              (got.map Prod.fst) := by
            rw [hfirst, hlast1, ← List.map_append]
            refine List.Perm.map _ ?_
            have := (List.filter_append_perm
              (fun x : WriteSpec × Transfer => retriableErrno x.2.res) got)
            refine List.perm_append_comm.trans (List.Perm.trans ?_ this)
            simp
          rw [lasting_append, lasting_append, hsplit]
          exact hsum.append hperm

/-- **Every write is on the medium**, at each address that one write reaches at most. -/
theorem submitLoop_bytes {p : Int} (h : submitLoop r fuel chunk none d = some (none, d'))
    (halone : Overwrite.Alone (chunk.map WriteSpec.write) p) :
    d'.bytes p = Overwrite.applyAll d.bytes (chunk.map WriteSpec.write) p := by
  induction fuel generalizing chunk d with
  | zero =>
    cases chunk with
    | nil =>
      cases h
      rfl
    | cons w ws => cases h
  | succ fuel ih =>
    cases chunk with
    | nil =>
      cases h
      rfl
    | cons w ws =>
      rcases submitLoop_cons h with ⟨d1, hbytes, -, -, hloop⟩ |
        ⟨accepted, prio, d0, d1, hbytes, -, -, hsettle, hloop⟩
      · rw [ih hloop halone, hbytes]
      · have hsplit := take_append_rest (w :: ws) accepted
        generalize hgot : (w :: ws).zip accepted = got at hsettle hloop hsplit
        generalize hrest : (w :: ws).drop got.length = rest at hloop hsplit
        rw [hsplit, List.map_append] at halone ⊢
        obtain ⟨hapart, haloneRest, hcross⟩ := List.pairwise_append.mp halone
        rw [ih hloop haloneRest]
        rw [List.map_map] at hapart hcross
        rw [List.map_map, Overwrite.applyAll_append]
        apply Overwrite.applyAll_congr
        by_cases hun : Untouched got p
        · have hkept := (settle_kept r got none (d0.land got prio)).2.2 p hun
          rw [hsettle] at hkept
          rw [hkept, land_untouched hun, hbytes, Overwrite.applyAll_of_none]
          intro v hv
          obtain ⟨x, hx, rfl⟩ := List.mem_map.mp hv
          exact hun x hx
        · unfold Untouched at hun
          push Not at hun
          obtain ⟨⟨v, t⟩, hmem, hne⟩ := hun
          obtain ⟨x, hx⟩ := Option.ne_none_iff_exists'.mp hne
          rw [settle_bytes hsettle hapart hmem hx
            (fun hfull => land_full hapart hmem hx hfull prio)]
          exact (Overwrite.Alone.applyAll_of_mem hapart
            (List.mem_map.mpr ⟨(v, t), hmem, rfl⟩) hx d.bytes).symm

end Loop

/-! ## 4. `Append` on the jobs one by one -/

theorem writeEach_pool {r : Ring} (ws : List WriteSpec) (d : Device) (p : Pool) :
    writeEach r ws { d with pool := p } =
      ((writeEach r ws d).1, { (writeEach r ws d).2 with pool := p }) := by
  induction ws generalizing d with
  | nil => rfl
  | cons w ws ih =>
    rw [writeEach, writeEach, writeOut_pool]
    rcases writeOut r w w.buf.length d with ⟨_ | e, d'⟩
    · exact ih d'
    · rfl

/-- The calls make the writes of all jobs, one after the other. -/
theorem appendEach_eq {g : Geometry} {r : Ring} {jobs : List Job}
    (h : ∀ j ∈ jobs, j.appendCheck g = none) (d : Device) : ∃ p : Pool, appendEach g r jobs d =
      ((writeEach r (jobs.flatMap (Job.specs g)) d).1,
        { (writeEach r (jobs.flatMap (Job.specs g)) d).2 with pool := p }) := by
  induction jobs generalizing d with
  | nil => exact ⟨d.pool, rfl⟩
  | cons j js ih =>
    obtain ⟨p, hj⟩ := append_eq (r := r) (d := d) (h j List.mem_cons_self)
    rw [appendEach, hj, List.flatMap_cons, writeEach_pair]
    rcases writeEach r (j.specs g) d with ⟨_ | e, d'⟩
    · simp only
      obtain ⟨p', hjs⟩ := ih (fun i hi => h i (List.mem_cons_of_mem j hi)) { d' with pool := p }
      rw [writeEach_pool] at hjs
      exact ⟨p', hjs⟩
    · exact ⟨p, rfl⟩

/-- A ring that makes each of these writes whole. -/
def obliging (ws : List WriteSpec) (from_ : Nat) : Ring where
  write k := .taken ⟨((ws.map (fun w => w.buf.length)).getD (k - from_) 0 : Nat), fun _ => true⟩
  writeBatch _ := .full

theorem writeEach_obliging {r : Ring} {ws : List WriteSpec} {d : Device}
    (h : ∀ (i : Nat) (w : WriteSpec), ws[i]? = some w →
      r.write (d.writes + i) = .taken ⟨(w.buf.length : Int), fun _ => true⟩) :
    (writeEach r ws d).1 = none := by
  induction ws generalizing d with
  | nil => rfl
  | cons w ws ih =>
    have hw := h 0 w rfl
    rw [Nat.add_zero] at hw
    have hlen : retriableErrno (w.buf.length : Int) = false := by
      unfold retriableErrno
      rw [decide_eq_false_iff_not]
      omega
    have hcheck : checkWrite (w.buf.length : Int) w.buf.length = none := by
      unfold checkWrite
      rw [if_neg (by omega), if_neg (fun hne => hne rfl)]
    rw [writeEach, writeOut, submitWrite, complRetryMax, submitOpN, submitOne]
    simp only [hw, hlen, hcheck, Bool.false_eq_true, if_false]
    apply ih
    intro i v hi
    show r.write (d.writes + 1 + i) = _
    rw [Nat.add_assoc, Nat.add_comm 1 i]
    exact h (i + 1) v hi

/-! ## 5. Disjoint extents -/

/-- The extent of a job. -/
def Job.extent (j : Job) : Span := ⟨j.seg, j.off, align4k j.size⟩

/-- What the callers of `AppendBatch` see to: a job lies in a segment of the device, at an offset
that fits in `int64`, and its size is not negative. -/
structure Job.Proper (g : Geometry) (j : Job) : Prop where
  seg : g.Segment j.seg
  off : j.off < 2 ^ 63
  size : 0 ≤ j.size

section Extents

variable {g : Geometry} {j : Job} {jobs : List Job} {p : Int}

theorem Job.off_of_check (h : j.appendCheck g = none) : 0 ≤ j.off ∧ j.off % blockSize = 0 := by
  unfold Job.appendCheck at h
  split at h
  · cases h
  · rename_i hoff
    omega

theorem WriteSpec.write_ne_none {w : WriteSpec} (h : w.write p ≠ none) :
    w.off ≤ p ∧ p < w.off + w.buf.length := by
  unfold WriteSpec.write at h
  split at h
  · assumption
  · exact absurd rfl h

/-- The writes of a job reach no address of the device twice, and none outside its extent. -/
theorem Job.specs_alone (hj : j.Proper g) (hcheck : j.appendCheck g = none) (hp : g.Address p) :
    Overwrite.Alone ((j.specs g).map WriteSpec.write) p ∧
      ∀ w ∈ j.specs g, w.write p ≠ none →
        j.off + align4k j.size ≤ g.segmentSizeBytes ∧
          j.extent.Covers (j.seg, p - j.seg * g.segmentSizeBytes) := by
  obtain ⟨hoff, -⟩ := Job.off_of_check hcheck
  have h := Job.size_le_of_check hcheck
  by_cases hfits : j.off + align4k j.size ≤ g.segmentSizeBytes
  · by_cases h0 : align4k64 j.size = 0
    · rw [Job.specs_nil h h0]
      exact ⟨List.Pairwise.nil, fun w hw => absurd hw List.not_mem_nil⟩
    · obtain ⟨hpos, htail⟩ := Job.offs_of_fits hoff h h0 hfits hj.seg
      obtain ⟨-, hbulk0, hbulk, -, -, -, -, hal⟩ := Job.parts h h0
      have hle := le_align4k j.size
      rw [align4k64_of_lt (Job.size_lt h)] at hal
      have hbulkIn : (j.bulk g).write p ≠ none →
          j.seg * g.segmentSizeBytes + j.off ≤ p ∧
            p < j.seg * g.segmentSizeBytes + j.off + j.bulkEnd := by
        intro hne
        have hin := WriteSpec.write_ne_none hne
        rw [Job.length_bulk h h0] at hin
        rw [← hpos]
        exact hin
      have htailIn : (j.tail g (padBlock j.rest)).write p ≠ none →
          j.seg * g.segmentSizeBytes + j.off + j.bulkEnd ≤ p ∧
            p < j.seg * g.segmentSizeBytes + j.off + j.bulkEnd + blockSize := by
        intro hne
        have hin := WriteSpec.write_ne_none hne
        rw [Job.length_tail h h0] at hin
        rw [← htail]
        exact hin
      have hcover : ∀ n, j.seg * g.segmentSizeBytes + j.off ≤ p →
          p < j.seg * g.segmentSizeBytes + j.off + n → n ≤ align4k j.size →
          j.extent.Covers (j.seg, p - j.seg * g.segmentSizeBytes) := by
        intro n hlow hhigh hn
        refine ⟨rfl, ?_, ?_⟩
        · show j.off ≤ p - _
          omega
        · show p - _ < j.off + align4k j.size
          omega
      rw [Job.specs_eq h h0]
      constructor
      · rw [List.map_append]
        refine List.pairwise_append.mpr ⟨?_, ?_, ?_⟩
        · split
          · exact List.pairwise_singleton _ _
          · exact List.Pairwise.nil
        · split
          · exact List.pairwise_singleton _ _
          · exact List.Pairwise.nil
        · intro v hv w hw
          obtain ⟨v, hv, rfl⟩ := List.mem_map.mp hv
          obtain ⟨w, hw, rfl⟩ := List.mem_map.mp hw
          split at hv
          · split at hw
            · rw [List.mem_singleton.mp hv, List.mem_singleton.mp hw]
              by_contra hboth
              obtain ⟨hv', hw'⟩ := not_or.mp hboth
              have h1 := hbulkIn hv'
              have h2 := htailIn hw'
              omega
            · exact absurd hw List.not_mem_nil
          · exact absurd hv List.not_mem_nil
      · intro w hw hne
        refine ⟨hfits, ?_⟩
        rcases List.mem_append.mp hw with hw | hw
        · split at hw
          · rw [List.mem_singleton.mp hw] at hne
            obtain ⟨h1, h2⟩ := hbulkIn hne
            exact hcover j.bulkEnd h1 h2 (by omega)
          · exact absurd hw List.not_mem_nil
        · split at hw
          · rename_i ht
            rw [List.mem_singleton.mp hw] at hne
            obtain ⟨h1, h2⟩ := htailIn hne
            rw [if_pos ht] at hal
            exact hcover (j.bulkEnd + blockSize) (by omega) (by omega) (Int.le_of_eq hal.symm)
          · exact absurd hw List.not_mem_nil
  · have hnone : ∀ w ∈ j.specs g, w.write p = none := fun w hw =>
      Job.specs_outside hoff hj.off hj.seg hcheck (Int.not_le.mp hfits) hw hp
    refine ⟨?_, fun w hw hne => absurd (hnone w hw) hne⟩
    unfold Overwrite.Alone
    rw [List.pairwise_map]
    exact List.pairwise_of_forall_mem_list (fun v hv w _ => Or.inl (hnone v hv))

/-- **Disjoint extents**: no address of the device is reached by two writes of the batch. -/
theorem specs_alone_all (hj : ∀ j ∈ jobs, j.Proper g)
    (hcheck : ∀ j ∈ jobs, j.appendCheck g = none)
    (hdisj : jobs.Pairwise (fun i j => i.extent.Disjoint j.extent)) (hp : g.Address p) :
    Overwrite.Alone ((jobs.flatMap (Job.specs g)).map WriteSpec.write) p := by
  induction jobs with
  | nil => exact List.Pairwise.nil
  | cons j js ih =>
    obtain ⟨hhead, hrest⟩ := List.pairwise_cons.mp hdisj
    obtain ⟨halone, hin⟩ := Job.specs_alone (hj j List.mem_cons_self)
      (hcheck j List.mem_cons_self) hp
    rw [List.flatMap_cons, List.map_append]
    refine List.pairwise_append.mpr ⟨halone, ih (fun i hi => hj i (List.mem_cons_of_mem j hi))
      (fun i hi => hcheck i (List.mem_cons_of_mem j hi)) hrest, ?_⟩
    intro v hv w hw
    obtain ⟨a, ha, rfl⟩ := List.mem_map.mp hv
    obtain ⟨b, hb, rfl⟩ := List.mem_map.mp hw
    obtain ⟨i, hi, hb⟩ := List.mem_flatMap.mp hb
    by_contra hboth
    obtain ⟨ha', hb'⟩ := not_or.mp hboth
    obtain ⟨hfit, hcov⟩ := hin a ha ha'
    obtain ⟨hfit', hcov'⟩ := (Job.specs_alone (hj i (List.mem_cons_of_mem j hi))
      (hcheck i (List.mem_cons_of_mem j hi)) hp).2 b hb hb'
    have hoff := (Job.off_of_check (hcheck j List.mem_cons_self)).1
    have hoff' := (Job.off_of_check (hcheck i (List.mem_cons_of_mem j hi))).1
    have hfits : j.extent.Fits g.segmentSizeBytes := ⟨hoff, hfit⟩
    have hne := (hhead i hi).address_ne hfits ⟨hoff', hfit'⟩ hcov hcov'
    apply hne
    unfold Span.address
    simp only
    omega

end Extents

/-- **`AppendBatch` is `Append` on the jobs one by one.**  When it returns nil, on any ring, the
device holds what it holds after the calls of `Append`, on any ring and any pool on which these
succeed (and there is one); every prepared write has been taken exactly once, apart from
repetitions after an error that passes; and `inSubmit` is back.  When `Append` refuses one of the
jobs nothing is submitted. -/
theorem append_batch_refines (g : Geometry) (r : Ring) (fuel : Nat) (jobs : List Job) (d : Device)
    (hj : ∀ j ∈ jobs, j.Proper g)
    (hdisj : jobs.Pairwise (fun i j => i.extent.Disjoint j.extent)) :
    (∀ d', appendBatch r g fuel jobs d = some (none, d') →
      (∀ (r' : Ring) (d0 d1 : Device), d0.bytes = d.bytes →
        appendEach g r' jobs d0 = (none, d1) → ∀ p, g.Address p → d'.bytes p = d1.bytes p) ∧
      (∃ r' : Ring, (appendEach g r' jobs d).1 = none) ∧
      (∃ added, d'.log = d.log ++ added ∧
        (∀ e ∈ added, e.1 ∈ (prepareAll g jobs d.pool).2.1) ∧
        (lasting added).Perm (prepareAll g jobs d.pool).2.1) ∧
      d'.inSubmit = d.inSubmit) ∧
    ((∃ j ∈ jobs, j.appendCheck g ≠ none) →
      ∃ e p, appendBatch r g fuel jobs d = some (some e, { d with pool := p })) := by
  constructor
  · intro d' h
    have hcheck : ∀ j ∈ jobs, j.appendCheck g = none := by
      by_contra hbad
      push Not at hbad
      obtain ⟨e, he⟩ := prepareAll_fails hbad d.pool
      unfold appendBatch at h
      rcases hp : prepareAll g jobs d.pool with ⟨err, specs, tmps, pool⟩
      rw [hp] at h he
      simp only at he
      subst he
      cases h
    obtain ⟨hnone, hspecs⟩ := prepareAll_ok hcheck d.pool
    unfold appendBatch at h
    rcases hp : prepareAll g jobs d.pool with ⟨err, specs, tmps, pool⟩
    rw [hp] at h hnone hspecs
    simp only at hnone hspecs
    subst hnone
    simp only [Option.map_eq_some_iff] at h
    obtain ⟨⟨err, d2⟩, hloop, hd'⟩ := h
    simp only [Prod.mk.injEq] at hd'
    obtain ⟨rfl, rfl⟩ := hd'
    obtain ⟨hin, hlog⟩ := submitLoop_log hloop
    refine ⟨?_, ?_, hlog, hin⟩
    · intro r' d0 d1 hbytes heach p hp
      have halone := specs_alone_all hj hcheck hdisj hp
      obtain ⟨pool', heq⟩ := appendEach_eq (r := r') hcheck d0
      rw [heach] at heq
      obtain ⟨hok, rfl⟩ := Prod.mk.inj heq
      rw [← hspecs] at halone hok ⊢
      show d2.bytes p = (writeEach r' specs d0).2.bytes p
      rw [writeEach_ok (Prod.ext hok.symm rfl), hbytes]
      exact submitLoop_bytes (d := { d with pool := pool }) hloop halone
    · refine ⟨obliging (jobs.flatMap (Job.specs g)) d.writes, ?_⟩
      obtain ⟨pool', heq⟩ := appendEach_eq
        (r := obliging (jobs.flatMap (Job.specs g)) d.writes) hcheck d
      rw [heq]
      apply writeEach_obliging
      intro i w hi
      show Single.taken ⟨((List.map _ _).getD (d.writes + i - d.writes) 0 : Nat), _⟩ = _
      rw [Nat.add_sub_cancel_left, List.getD_eq_getElem?_getD, List.getElem?_map, hi]
      rfl
  · intro hbad
    obtain ⟨e, he⟩ := prepareAll_fails hbad d.pool
    unfold appendBatch
    rcases hp : prepareAll g jobs d.pool with ⟨err, specs, tmps, pool⟩
    rw [hp] at he
    simp only at he
    subst he
    exact ⟨e, _, rfl⟩

/-- Two blocks of two segments, and a byte behind the first. -/
def twoJobs : List Job :=
  [⟨0, 0, 1, ⟨[7], true, oneByte.data.length_lt⟩⟩, ⟨1, 4096, 2, ⟨[8, 9], false, by decide⟩⟩]

/-- A ring that is full, takes one write of which it makes nothing, and then the other. -/
def haltingRing : Ring where
  write _ := .taken ⟨4096, fun _ => true⟩
  writeBatch k :=
    if k = 0 then .full
    else .answered [⟨if k = 1 then -11 else 4096, fun _ => false⟩] (fun i => i) none true

theorem append_batch_two_jobs : ∃ d',
    appendBatch haltingRing twoSegments 3 twoJobs ninesDevice = some (none, d') ∧
      d'.inSubmit = 0 ∧ d'.log.length = 3 ∧
      ∃ r' d1, appendEach twoSegments r' twoJobs ninesDevice = (none, d1) ∧
        ∀ p, twoSegments.Address p → d'.bytes p = d1.bytes p := by
  obtain ⟨⟨err, d'⟩, hrun, hview⟩ := Option.map_eq_some_iff.mp
    (show (appendBatch haltingRing twoSegments 3 twoJobs ninesDevice).map
      (fun out => (out.1, out.2.log.length)) = some (none, 3) by decide +kernel)
  obtain ⟨rfl, hlen⟩ := Prod.mk.inj hview
  have hproper : ∀ j ∈ twoJobs, j.Proper twoSegments := by
    intro j hj
    rcases List.mem_cons.mp hj with rfl | hj
    · exact ⟨by constructor <;> decide, by decide, by decide⟩
    · rw [List.mem_singleton.mp hj]
      exact ⟨by constructor <;> decide, by decide, by decide⟩
  obtain ⟨hbytes, ⟨r', hr'⟩, -, hin⟩ := (append_batch_refines twoSegments haltingRing 3 twoJobs
    ninesDevice hproper (by decide)).1 d' hrun
  exact ⟨d', hrun, hin, hlen, r', _, Prod.ext hr' rfl,
    hbytes r' ninesDevice _ rfl (Prod.ext hr' rfl)⟩

/-! ## 6. An error for good -/

/-- From attempt `N` on the ring takes nothing and returns an error that is not `ErrFull`. -/
def Ring.FailsFrom (r : Ring) (N : Nat) (e : Nat → Int) : Prop :=
  ∀ k, N ≤ k → ∃ prio pumped, r.writeBatch k = .answered [] prio (some (e k)) pumped

/-- The call ends after finitely many attempts, with `inSubmit` as it was; and if it has met the
error that is for good, it returns it. -/
def Reports (r : Ring) (g : Geometry) (N : Nat) (e : Nat → Int) (jobs : List Job) (d : Device) :
    Prop :=
  ∃ fuel err d', appendBatch r g fuel jobs d = some (err, d') ∧ d'.inSubmit = d.inSubmit ∧
    (max N d.attempts < d'.attempts → err = some (.submit (e (d'.attempts - 1))))

/-- In the next `n` attempts, of which `k` is the first, the ring takes all of so many writes, or
an attempt ends the loop: it takes some of them and fails, or finds the device closed. -/
def stops (answer : Nat → Attempt) : Nat → Nat → Nat → Bool
  | _, _, 0 => true
  | 0, _, _ + 1 => false
  | n + 1, k, count + 1 =>
    match answer k with
    | .closed => true
    | .full => stops answer n (k + 1) (count + 1)
    | .answered accepted _ err pumped =>
      if accepted = [] then stops answer n (k + 1) (count + 1)
      else if err = none ∧ pumped then stops answer n (k + 1) (count + 1 - accepted.length)
      else true

section Permanent

variable {r : Ring} {g : Geometry} {N : Nat} {e : Nat → Int} {jobs : List Job} {d : Device}

theorem zip_eq_nil {w : WriteSpec} {ws : List WriteSpec} {accepted : List Transfer} :
    (w :: ws).zip accepted = [] ↔ accepted = [] := by
  cases accepted <;> simp

/-- How many writes are left after an attempt. -/
theorem length_rest (chunk : List WriteSpec) (accepted : List Transfer) :
    (chunk.drop (chunk.zip accepted).length).length = chunk.length - accepted.length := by
  rw [List.length_drop, List.length_zip]
  omega

/-- **The loop that meets the error does not end.** -/
theorem submitLoop_stuck (hfail : r.FailsFrom N e) (chunk : List WriteSpec)
    (firstErr : Option WriteErr) {n : Nat} (hn : N ≤ d.attempts + n)
    (h : stops r.writeBatch n d.attempts chunk.length = false) (fuel : Nat) :
    submitLoop r fuel chunk firstErr d = none := by
  induction fuel generalizing chunk firstErr d n with
  | zero =>
    cases chunk with
    | nil =>
      rw [List.length_nil, stops] at h
      cases h
    | cons w ws => rfl
  | succ fuel ih =>
    cases chunk with
    | nil =>
      rw [List.length_nil, stops] at h
      cases h
    | cons w ws =>
      rw [submitLoop]
      simp only
      cases n with
      | zero =>
        -- the error: nothing is taken, and the attempt is repeated
        obtain ⟨prio, pumped, hk⟩ := hfail d.attempts (by omega)
        rw [hk]
        simp only
        rw [if_pos (zip_eq_nil.mpr rfl)]
        refine ih _ _ (n := 0) ?_ rfl
        show N ≤ d.attempts + 1 + 0
        omega
      | succ n =>
        have hn' : N ≤ d.attempts + 1 + n := by omega
        rw [List.length_cons, stops] at h
        rcases hk : r.writeBatch d.attempts with _ | _ | ⟨accepted, prio, err, pumped⟩ <;>
          rw [hk] at h <;> simp only at h ⊢
        · cases h
        · exact ih _ _ (n := n) hn' h
        · by_cases hnil : accepted = []
          · rw [if_pos hnil] at h
            rw [if_pos (zip_eq_nil.mpr hnil)]
            exact ih _ _ (n := n) hn' h
          · rw [if_neg hnil] at h
            rw [if_neg (fun hz => hnil (zip_eq_nil.mp hz))]
            split at h
            · rename_i hgo
              obtain ⟨rfl, hpumped⟩ := hgo
              simp only
              rw [if_pos hpumped]
              have hat := (settle_kept r ((w :: ws).zip accepted) firstErr
                ((({ d with attempts := d.attempts + 1 }.enter (w :: ws).length).land
                  ((w :: ws).zip accepted) prio).leave (w :: ws).length)).2.1
              refine ih _ _ (n := n) ?_ ?_
              · rw [hat]
                exact hn'
              · rw [hat, length_rest]
                exact h
            · cases h

/-- A loop that is done before the error ends, and has not met it. -/
theorem submitLoop_stops {chunk : List WriteSpec} (firstErr : Option WriteErr) {n : Nat}
    (h : stops r.writeBatch n d.attempts chunk.length = true) :
    ∃ err d', submitLoop r n chunk firstErr d = some (err, d') ∧ d'.inSubmit = d.inSubmit ∧
      d'.attempts ≤ d.attempts + n := by
  induction n generalizing chunk firstErr d with
  | zero =>
    cases chunk with
    | nil => exact ⟨firstErr, d, rfl, rfl, Nat.le_refl _⟩
    | cons w ws =>
      rw [List.length_cons, stops] at h
      cases h
  | succ n ih =>
    cases chunk with
    | nil => exact ⟨firstErr, d, rfl, rfl, Nat.le_add_right _ _⟩
    | cons w ws =>
      -- the device after the attempt is counted in and out
      let d0 : Device :=
        ({ d with attempts := d.attempts + 1 }.enter (w :: ws).length).leave (w :: ws).length
      have hback : d0.inSubmit = d.inSubmit := by
        show d.inSubmit + _ - _ = _
        omega
      have hgo : ∀ {chunk' : List WriteSpec} {firstErr' : Option WriteErr} {d1 : Device},
          d1.inSubmit = d.inSubmit → d1.attempts = d.attempts + 1 →
          stops r.writeBatch n (d.attempts + 1) chunk'.length = true →
          ∃ err d', submitLoop r n chunk' firstErr' d1 = some (err, d') ∧
            d'.inSubmit = d.inSubmit ∧ d'.attempts ≤ d.attempts + (n + 1) := by
        intro chunk' firstErr' d1 hin hat hstops
        rw [← hat] at hstops
        obtain ⟨err, d', hrun, hin', hat'⟩ := ih firstErr' hstops
        exact ⟨err, d', hrun, hin'.trans hin, by omega⟩
      rw [submitLoop]
      rw [List.length_cons, stops] at h
      simp only
      rcases hk : r.writeBatch d.attempts with _ | _ | ⟨accepted, prio, err, pumped⟩ <;>
        rw [hk] at h <;> simp only at h ⊢
      · exact ⟨_, _, rfl, rfl, by show d.attempts + 1 ≤ _; omega⟩
      · exact hgo hback rfl h
      · by_cases hnil : accepted = []
        · rw [if_pos hnil] at h
          rw [if_pos (zip_eq_nil.mpr hnil)]
          exact hgo hback rfl h
        · rw [if_neg hnil] at h
          rw [if_neg (fun hz => hnil (zip_eq_nil.mp hz)), land_leave]
          cases err with
          | some e =>
            exact ⟨_, _, rfl, hback, by show d.attempts + 1 ≤ _; omega⟩
          | none =>
            simp only
            by_cases hpumped : pumped = true
            · rw [if_pos ⟨rfl, hpumped⟩] at h
              rw [if_pos hpumped]
              obtain ⟨hin, hat, -⟩ := settle_kept r ((w :: ws).zip accepted) firstErr
                (d0.land ((w :: ws).zip accepted) prio)
              refine hgo (hin.trans hback) hat ?_
              rw [length_rest]
              exact h
            · rw [if_neg hpumped]
              exact ⟨_, _, rfl, hback, by show d.attempts + 1 ≤ _; omega⟩

/-- **`AppendBatch` reports a permanent error only if it does not meet it.**  For valid jobs and
a ring that fails for good from attempt `N` on, the call ends as it should exactly when the
attempts before `N` take all of the prepared writes or end the loop. -/
theorem append_batch_reports_iff (hvalid : ∀ j ∈ jobs, j.appendCheck g = none)
    (hfail : r.FailsFrom N e) : Reports r g N e jobs d ↔
      stops r.writeBatch (N - d.attempts) d.attempts (jobs.flatMap (Job.specs g)).length =
        true := by
  obtain ⟨hnone, hspecs⟩ := prepareAll_ok hvalid d.pool
  rcases hp : prepareAll g jobs d.pool with ⟨err, specs, tmps, pool⟩
  rw [hp] at hnone hspecs
  simp only at hnone hspecs
  subst hnone
  rw [← hspecs]
  constructor
  · rintro ⟨fuel, err, d', hrun, -, -⟩
    by_contra hstuck
    have hloop := submitLoop_stuck (d := { d with pool := pool }) hfail specs none
      (show N ≤ d.attempts + (N - d.attempts) by omega) (Bool.eq_false_iff.mpr hstuck) fuel
    unfold appendBatch at hrun
    rw [hp] at hrun
    simp only at hrun
    rw [hloop] at hrun
    cases hrun
  · intro hstops
    obtain ⟨err, d', hrun, hin, hat⟩ :=
      submitLoop_stops (d := { d with pool := pool }) none hstops
    refine ⟨N - d.attempts, err, { d' with pool := tmps.foldl Pool.put d'.pool }, ?_, hin, ?_⟩
    · unfold appendBatch
      rw [hp]
      simp only
      rw [hrun]
      rfl
    · intro hmet
      have hat' : d'.attempts ≤ d.attempts + (N - d.attempts) := hat
      have hmet' : max N d.attempts < d'.attempts := hmet
      omega

end Permanent

/-- A ring that answers every attempt with `EINVAL`. -/
def invalidRing : Ring := ⟨fun _ => .failed 22, fun _ => .answered [] (fun i => i) (some 22) true⟩

/-- The ring takes the first of two writes and then fails for good. -/
def failingRing : Ring where
  write _ := .failed 5
  writeBatch k := if k = 0 then .answered [⟨4096, fun _ => true⟩] (fun i => i) none true
    else .answered [] (fun i => i) (some 5) true

/-- Of two jobs the second meets the error, and the call does not end; one job does not. -/
theorem append_batch_met_or_not :
    ¬ Reports failingRing twoSegments 1 (fun _ => 5) twoJobs ninesDevice ∧
      Reports failingRing twoSegments 1 (fun _ => 5) [oneByte] ninesDevice := by
  have hfail : failingRing.FailsFrom 1 (fun _ => 5) := by
    intro k hk
    exact ⟨fun i => i, true, if_neg (by omega)⟩
  constructor
  · rw [append_batch_reports_iff (by decide) hfail]
    decide +kernel
  · rw [append_batch_reports_iff (by decide) hfail]
    decide +kernel

/-- One byte, and a ring that fails from the first attempt on: the call never returns. -/
theorem permanent_error_is_not_reported :
    (∀ j ∈ [oneByte], j.appendCheck twoSegments = none) ∧
      invalidRing.FailsFrom 0 (fun _ => 22) ∧
      ¬ Reports invalidRing twoSegments 0 (fun _ => 22) [oneByte] ninesDevice := by
  have hfail : invalidRing.FailsFrom 0 (fun _ => 22) := fun k _ => ⟨_, _, rfl⟩
  refine ⟨by decide, hfail, ?_⟩
  rintro ⟨fuel, err, d', hrun, -⟩
  rcases hp : prepareAll twoSegments [oneByte] ninesDevice.pool with ⟨err', specs, tmps, pool⟩
  have hone : (prepareAll twoSegments [oneByte] ninesDevice.pool).1 = none ∧
      (prepareAll twoSegments [oneByte] ninesDevice.pool).2.1.length = 1 := by decide +kernel
  rw [hp] at hone
  obtain ⟨rfl, hlen⟩ := hone
  have hloop := submitLoop_stuck (d := { ninesDevice with pool := pool }) (n := 0) hfail specs none
    (Nat.zero_le _) (by rw [hlen]; rfl) fuel
  unfold appendBatch at hrun
  rw [hp] at hrun
  simp only at hrun
  rw [hloop] at hrun
  cases hrun

end Taihu.DeviceWrite
