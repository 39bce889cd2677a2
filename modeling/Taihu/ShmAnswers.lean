/-
# The answers of a shared memory stream

What the handlers of `ShmStream.lean` write for one request, apart from the queue: when the frames
of a synchronous Get are a terminated response, and the answer to each request.  A request that
fits (`ShmAsk.Fits`) has a response as its answer, and may be taken with what is in flight.
-/
import Taihu.ShmStream
import Taihu.GetChunks

namespace Taihu

open Framing

/-! ## 1. The synchronous answer -/

section Chunk

variable {s : Snapshot} {stop pos : Int}

/-- The direct read is the read of the asynchronous Get. -/
theorem Snapshot.readAtIntoMeta_eq (s : Snapshot) (off size dst : Int) :
    s.readAtIntoMeta off size dst = match s.submitReadAtIntoMeta off size dst with
      | .error e => ([], some e)
      | .ok ar => ar.await := by
  unfold Snapshot.readAtIntoMeta Snapshot.submitReadAtIntoMeta
  cases readWindow s.md off size true with
  | error e => rfl
  | ok w =>
    by_cases hdst : dst < w.dlen
    · simp only [if_pos hdst]
    · simp only [if_neg hdst]
      cases s.deviceRead w.relStart w.dlen with
      | refused e => rfl
      | failed e => rfl
      | done buf n => rfl

theorem readAtIntoMeta_aligned {want : Int} (hpos : pos % blockSize = 0) (hwant : 0 < want)
    (hsize : want % blockSize = 0) : s.readAtIntoMeta pos want want = s.readAtMeta pos want :=
  (s.readAtIntoMeta_eq ..).trans (Snapshot.await_submit hpos hwant hsize)

/-- The frame for the chunk at `pos`, when `Reserve` may have no room for a direct read. -/
def loopFrame (s : Snapshot) (room : Int → Bool) (stop pos : Int) : GetFrame :=
  if pos % blockSize = 0 ∧ chunkWant stop pos % blockSize = 0 ∧ room pos = false then .err .internal
  else chunkFrame s stop pos

theorem last_loopFrame_of_le {room : Int → Bool} (hpos : pos < stop)
    (hle : stop ≤ pos + chunkSize) : (loopFrame s room stop pos).Last := by
  unfold loopFrame
  split
  · trivial
  · exact last_chunkFrame_of_le hpos hle

/-- One turn of the loop writes one frame, and goes on with the next chunk unless that frame
ends the response. -/
theorem shmGetFrom_succ {room : Int → Bool} (fuel : Nat) (hpos : pos < stop) :
    (shmGetFrom s room stop (fuel + 1) pos).flatMap Emit.frames =
      if (loopFrame s room stop pos).Last then [.get (loopFrame s room stop pos)]
      else .get (loopFrame s room stop pos) ::
        (shmGetFrom s room stop fuel (pos + chunkSize)).flatMap Emit.frames := by
  have hwant := chunkWant_pos hpos
  obtain ⟨data, rerr, hread, hturn, hlen, hlast⟩ := getSyncTurn_chunk s hpos
  -- the loop goes on behind what was read, which is the next chunk unless that was the last
  have hrest : ∀ p, p = pos + chunkWant stop pos →
      (if (chunkFrame s stop pos).Last then [.get (chunkFrame s stop pos)]
        else .get (chunkFrame s stop pos) ::
          (shmGetFrom s room stop fuel (pos + chunkSize)).flatMap Emit.frames) =
      .get (chunkFrame s stop pos) ::
        (if rerr = none then shmGetFrom s room stop fuel p else []).flatMap Emit.frames := by
    rintro p rfl
    cases rerr with
    | some e => rw [if_pos (hlast.mpr (fun hne => nomatch hne)), if_neg (by simp)]; rfl
    | none =>
      rw [if_pos rfl]
      by_cases hle : stop ≤ pos + chunkSize
      · have hend : shmGetFrom s room stop fuel (pos + chunkWant stop pos) = [] := by
          rw [chunkWant_of_le hle]
          cases fuel with
          | zero => rfl
          | succ n => exact if_neg (by omega)
        rw [if_pos (hlast.mpr (fun _ => hle)), hend]
        rfl
      · rw [if_neg (fun h => hle (hlast.mp h rfl)), chunkWant_of_lt (by omega)]
  rw [shmGetFrom, if_pos hpos]
  simp only
  by_cases hdirect : pos % blockSize = 0 ∧ chunkWant stop pos % blockSize = 0
  · rw [if_pos hdirect]
    cases hroom : room pos with
    | false =>
      have hframe : loopFrame s room stop pos = .err .internal := if_pos ⟨hdirect.1, hdirect.2, hroom⟩
      rw [hframe, if_pos (show (GetFrame.err .internal).Last from trivial)]
      rfl
    | true =>
      have hframe : loopFrame s room stop pos = chunkFrame s stop pos :=
        if_neg (fun h => by rw [hroom] at h; cases h.2.2)
      have hsame := readAtIntoMeta_aligned (s := s) hdirect.1 hwant hdirect.2
      rw [hframe, hrest _ rfl]
      simp only [shmWriteDataFrameDirect, if_true, hsame, hread, List.flatMap_cons, Emit.frames,
        List.singleton_append, decide_eq_true_eq]
      rw [chunkFrame, hread]
  · have hframe : loopFrame s room stop pos = chunkFrame s stop pos :=
      if_neg (fun h => hdirect ⟨h.1, h.2.1⟩)
    have hcopy : (shmCopyTurn pos stop data rerr).flatMap Emit.frames = [.get (chunkFrame s stop pos)] := by
      unfold shmCopyTurn
      by_cases heof : rerr = some .eof ∧ data = []
      · obtain ⟨rfl, rfl⟩ := heof
        have hfinal : [GetFrame.final []] = [chunkFrame s stop pos] := hturn
        rw [if_pos ⟨rfl, rfl⟩, ← (List.cons.inj hfinal).1]
        rfl
      · rw [if_neg heof, hturn]
        rfl
    rw [if_neg hdirect, hframe, hread, List.flatMap_append, hcopy]
    cases rerr with
    | some e => rw [hrest _ rfl]; rfl
    | none => rw [hrest (pos + data.length) (by rw [hlen rfl])]; rfl

theorem shmGetFrom_eq {room : Int → Bool} (fuel : Nat) (pos : Int) :
    (shmGetFrom s room stop fuel pos).flatMap Emit.frames =
      (upTo GetFrame.Last ((chunkStartsFrom stop fuel pos).map (loopFrame s room stop))).map .get := by
  induction fuel generalizing pos with
  | zero => rfl
  | succ n ih =>
    by_cases hpos : pos < stop
    · rw [shmGetFrom_succ n hpos, chunkStartsFrom_succ n hpos, List.map_cons, ih]
      by_cases hlast : (loopFrame s room stop pos).Last
      · rw [if_pos hlast, upTo_cons_of_last hlast]
        rfl
      · rw [if_neg hlast, upTo_cons_of_not hlast]
        rfl
    · rw [chunkStartsFrom_of_le _ (by omega)]
      exact congrArg _ (if_neg hpos)

/-- The loop writes a terminated response to a range that is not empty. -/
theorem terminated_loop {room : Int → Bool} (hpos : pos < stop) :
    Terminated GetFrame.Last
      (upTo GetFrame.Last ((chunkStarts pos stop).map (loopFrame s room stop))) := by
  refine terminated_upTo ?_
  refine chunk_induction (P := fun pos =>
    ∃ f ∈ (chunkStarts pos stop).map (loopFrame s room stop), f.Last) (fun p hp ih => ?_) pos hpos
  rw [chunkStarts_of_lt hp, List.map_cons]
  by_cases hlt : p + chunkSize < stop
  · obtain ⟨f, hf, hlast⟩ := ih hlt
    exact ⟨f, List.mem_cons_of_mem _ hf, hlast⟩
  · exact ⟨_, List.mem_cons_self, last_loopFrame_of_le hp (by omega)⟩

end Chunk

/-- The chain of a request is a beginning of its chunks. -/
theorem chainOf_prefix (served : Nat) (off stop : Int) :
    chainOf served off stop <+: chunkStarts off stop := by
  refine (List.take_prefix _ _).trans ?_
  split
  · exact List.takeWhile_prefix _
  · exact List.nil_prefix

theorem chainOf_whole {served : Nat} {off stop q : Int} (h : q ∈ chainOf served off stop) :
    q % blockSize = 0 ∧ q + chunkSize ≤ stop := by
  have hmem := List.mem_of_mem_take h
  by_cases hoff : off % blockSize = 0
  · rw [if_pos hoff] at hmem
    obtain ⟨k, hk, -⟩ := mem_chunkStarts ((List.takeWhile_prefix _).subset hmem)
    have hall := List.all_takeWhile (p := fun q => decide (chunkSize ≤ stop - q))
      (l := chunkStarts off stop)
    have hle := of_decide_eq_true (List.all_eq_true.mp hall q hmem)
    unfold blockSize chunkSize at *
    exact ⟨by omega, by omega⟩
  · rw [if_neg hoff] at hmem
    exact absurd hmem List.not_mem_nil

/-- The last slot of a chain, and where those before it lie. -/
theorem chainOf_concat {served : Nat} {off stop q : Int} {init : List Int}
    (h : chainOf served off stop = init ++ [q]) :
    q = off + init.length * chunkSize ∧ ∀ p ∈ init, p + chunkSize ≤ q := by
  obtain ⟨post, hpost⟩ := chainOf_prefix served off stop
  rw [h] at hpost
  have hget : ∀ {i : Nat} {p : Int}, (init ++ [q])[i]? = some p → p = off + i * chunkSize := by
    intro i p hi
    have hstart : (chunkStarts off stop)[i]? = some p := by
      rw [← hpost, List.getElem?_append_left (List.getElem?_eq_some_iff.mp hi).1, hi]
    exact (getElem?_chunkStarts hstart).1
  have hq : q = off + init.length * chunkSize := hget (by simp)
  refine ⟨hq, fun p hp => ?_⟩
  obtain ⟨i, hi⟩ := List.mem_iff_getElem?.mp hp
  have hlt := (List.getElem?_eq_some_iff.mp hi).1
  have hp := hget (by rw [List.getElem?_append_left hlt, hi])
  unfold chunkSize at *
  omega

/-- The frame in a slot of a chain. -/
def slotFrame (s : Snapshot) (stop p : Int) : GetFrame :=
  getFrame p stop (s.readAtIntoMeta p chunkSize chunkSize).1
    (s.readAtIntoMeta p chunkSize chunkSize).2

/-- A slot that is read in full, before the end of the range, holds a data frame. -/
theorem slotFrame_of_reads {s : Snapshot} {stop p : Int} (h : s.ReadsInFull p chunkSize)
    (hp : p % blockSize = 0) (hlt : p + chunkSize < stop) :
    (s.readAtIntoMeta p chunkSize chunkSize).2 = none ∧ ¬ (slotFrame s stop p).Last := by
  have hchunk : (0 : Int) < chunkSize := by decide
  obtain ⟨b, hb⟩ := h
  have hlen := hb.length hchunk
  rw [slotFrame, readAtIntoMeta_aligned hp hchunk chunkSize_aligned,
    Snapshot.readAtMeta_of_reads hb hchunk]
  refine ⟨rfl, ?_⟩
  simp only [getFrame, if_neg (show ¬ p + (b.length : Int) ≥ stop by omega)]
  exact id

/-- What follows a chain that ends with slot `q`, when the slots before it are read in full. -/
theorem shmGetChained_concat {s : Snapshot} {served : Nat} {room : Int → Bool} {off stop q : Int}
    {init : List Int} (hslots : chainOf served off stop = init ++ [q])
    (hinit : ∀ p ∈ init, (s.readAtIntoMeta p chunkSize chunkSize).2 = none) :
    (shmGetChained s served room off stop).flatMap Emit.frames =
      ((init ++ [q]).map (slotFrame s stop)).map .get ++
        if (slotFrame s stop q).Last then []
        else (shmGetFrom s room stop (stop - (q + chunkSize)).toNat (q + chunkSize)).flatMap
          Emit.frames := by
  have hpos : off + ((init ++ [q]).length : Nat) * chunkSize = q + chunkSize := by
    rw [List.length_append, List.length_singleton, Nat.cast_succ, Int.add_mul, Int.one_mul,
      (chainOf_concat hslots).1]
    omega
  have hnoErr : (init.map (fun p => (p, s.readAtIntoMeta p chunkSize chunkSize))).any
      (fun r => decide (r.2.2 ≠ none ∧ r.2.2 ≠ some .eof)) = false := by
    rw [List.any_eq_false]
    intro r hr herr
    obtain ⟨p, hp, rfl⟩ := List.mem_map.mp hr
    exact (of_decide_eq_true herr).1 (hinit p hp)
  obtain ⟨data, rerr, hread⟩ : ∃ data rerr, s.readAtIntoMeta q chunkSize chunkSize = (data, rerr) :=
    ⟨_, _, rfl⟩
  simp only [shmGetChained, hslots, hpos, List.map_append, List.map_cons, List.map_nil,
    List.getLast?_concat, List.any_append, hnoErr, Bool.false_or, hread, slotFrame, List.any_cons,
    List.any_nil, Bool.or_false, List.flatMap_cons, Emit.frames, decide_eq_true_eq, List.map_map]
  congr 1
  cases rerr with
  | none =>
    by_cases hend : q + (data.length : Int) ≥ stop
    · simp [getFrame, hend, GetFrame.Last]
    · simp [getFrame, hend, GetFrame.Last]
  | some e =>
    have hlast : (getFrame q stop data (some e)).Last := by cases e <;> trivial
    rw [if_pos hlast]
    by_cases heof : e = .eof
    · simp [heof]
    · simp [heof]

/-- **The chained answer to a range that is not empty is terminated** when every frame of the
chain before its last is read in full. -/
theorem terminated_shmGetChained {s : Snapshot} {served : Nat} {room : Int → Bool} {off stop : Int}
    (hoff : off < stop)
    (hwhole : ∀ q ∈ (chainOf served off stop).dropLast, s.ReadsInFull q chunkSize) :
    ∃ fs, (shmGetChained s served room off stop).flatMap Emit.frames = fs.map .get ∧
      Terminated GetFrame.Last fs := by
  have hloop : ∀ {p}, p < stop → ∃ fs,
      (shmGetFrom s room stop (stop - p).toNat p).flatMap Emit.frames = fs.map .get ∧
        Terminated GetFrame.Last fs := fun hp => ⟨_, shmGetFrom_eq _ _, terminated_loop hp⟩
  rcases List.eq_nil_or_concat (chainOf served off stop) with hnil | ⟨init, q, hslots⟩
  · simp only [shmGetChained, hnil, List.map_nil, List.getLast?_nil, List.length_nil]
    simpa using hloop hoff
  rw [List.concat_eq_append] at hslots
  rw [hslots, List.dropLast_concat] at hwhole
  obtain ⟨hqal, hqstop⟩ := chainOf_whole (hslots ▸ List.mem_append_right _ List.mem_cons_self)
  have hinit : ∀ p ∈ init, (s.readAtIntoMeta p chunkSize chunkSize).2 = none ∧
      ¬ (slotFrame s stop p).Last := fun p hp =>
    slotFrame_of_reads (hwhole p hp) (chainOf_whole (hslots ▸ List.mem_append_left _ hp)).1
      (by have := (chainOf_concat hslots).2 p hp; unfold chunkSize at *; omega)
  have hfirst : ∀ f ∈ init.map (slotFrame s stop), ¬ f.Last := by
    intro f hf
    obtain ⟨p, hp, rfl⟩ := List.mem_map.mp hf
    exact (hinit p hp).2
  rw [shmGetChained_concat hslots (fun p hp => (hinit p hp).1)]
  by_cases hlast : (slotFrame s stop q).Last
  · refine ⟨(init ++ [q]).map (slotFrame s stop), ?_, ?_⟩
    · rw [if_pos hlast, List.append_nil]
    · rw [List.map_append]
      exact terminated_append_last hfirst hlast
  · -- the last slot is a data frame, so the range goes on behind it
    have hmore : q + chunkSize < stop := by
      by_contra hge
      refine hlast ?_
      have hwant : chunkWant stop q = chunkSize := by
        unfold chunkWant
        split <;> omega
      have heq : slotFrame s stop q = chunkFrame s stop q := by
        rw [slotFrame, chunkFrame, hwant, readAtIntoMeta_aligned hqal (by decide) chunkSize_aligned]
      rw [heq]
      exact last_chunkFrame_of_le (by unfold chunkSize at *; omega) (by omega)
    obtain ⟨fs, hfs, hterm⟩ := hloop hmore
    refine ⟨(init ++ [q]).map (slotFrame s stop) ++ fs, ?_, ?_⟩
    · rw [if_neg hlast, hfs, ← List.map_append]
    · refine hterm.append_left (fun f hf => ?_)
      rw [List.map_append] at hf
      rcases List.mem_append.mp hf with hf | hf
      · exact hfirst f hf
      · rw [List.mem_singleton.mp hf]
        exact hlast

/-! ## 2. The requests that fit -/

/-- A Get is queued. -/
def ShmGet.Queued (cfg : ShmConfig) (g : ShmGet) : Prop :=
  0 < cfg.inflight ∧ cfg.batched = false ∧ g.trySubmitAsyncGet.isSome

instance (cfg : ShmConfig) (g : ShmGet) : Decidable (g.Queued cfg) :=
  inferInstanceAs (Decidable (_ ∧ _ ∧ _))

/-- The range of a synchronous Get is answered whole: it is refused, or it is read by the batch
reader, which has room, or it is not empty and every frame of its chain before the last is read
in full. -/
def ShmGet.Whole (cfg : ShmConfig) (g : ShmGet) : Prop :=
  match g.found with
  | .error _ => True
  | .ok s =>
    let off := int64 g.off
    let size := getSize s off (int64 g.size)
    let stop := int64 (off + size)
    size < 0 ∨
      if cfg.batched ∧ off % blockSize = 0 ∧ int64 (stop - off) = chunkSize then g.batchSlot = true
      else off < stop ∧ ∀ q ∈ (chainOf g.served off stop).dropLast, s.ReadsInFull q chunkSize

/-- A Put that is refused, or empty: it is not queued for the writer. -/
def PutAtOnce (cfg : ShmConfig) (size : Option Int) (begun : Res Unit) : Prop :=
  ∀ n, size = some n → n ≤ 0 ∨ n > cfg.maxObjectSize ∨ begun ≠ .ok ()

/-- A request may be taken while `pend` is in flight. -/
def ShmAsk.Fits (cfg : ShmConfig) (pend : List PendingOp) : ShmAsk → Prop
  | .put size begun _ _ => cfg.AsyncPut → PutAtOnce cfg size begun → pend = []
  | .get none => cfg.batched = true → pend = []
  | .get (some g) => (g.Queued cfg → ∀ p ∈ pend, p.IsGet) ∧
      (¬ g.Queued cfg → g.Whole cfg ∧ (cfg.batched = true → pend = []))
  | .del _ => True
  | .stat _ => True

/-- A response to a request. -/
def ShmAsk.Answered : ShmAsk → List ShmFrame → Prop
  | .put _ _ _ _, fs => ∃ c, fs = [.resp c]
  | .get _, fs => ∃ gs, fs = gs.map .get ∧ Terminated GetFrame.Last gs
  | .del _, fs => ∃ c, fs = [.resp c]
  | .stat _, fs => (∃ c, fs = [.resp c]) ∨ ∃ n, fs = [.statResp n]

/-! ## 3. The answers -/

/-- The code a Put is answered with. -/
def putCode (cfg : ShmConfig) (size : Option Int) (begun committed written : Res Unit) : ErrCode :=
  match size with
  | none => .invalidArgument
  | some size =>
    if size < 0 then .invalidArgument
    else if size > cfg.maxObjectSize then .tooLarge
    else
      match begun with
      | .error e => mapStorageErr e
      | .ok _ => if size = 0 then codeOf committed else codeOf written

/-- The answer to a request. -/
def ShmAsk.answer (cfg : ShmConfig) : ShmAsk → List ShmFrame
  | .put size begun committed written => [.resp (putCode cfg size begun committed written)]
  | .get none => [.get (.err .invalidArgument)]
  | .get (some g) =>
    match if 0 < cfg.inflight ∧ cfg.batched = false then g.trySubmitAsyncGet else none with
    | some (off, read) => [.get (fillPendingHeader off (off + chunkSize) read)]
    | none => (handleShmGet cfg g).flatMap Emit.frames
  | .del none => [.resp .invalidArgument]
  | .del (some r) => [.resp (codeOf r)]
  | .stat none => [.resp .invalidArgument]
  | .stat (some (.error e)) => [.resp (mapStorageErr e)]
  | .stat (some (.ok size)) => [.statResp size]

theorem last_getFrame_of_error (pos stop : Int) (data : Bytes) (e : Err) :
    (getFrame pos stop data (some e)).Last := by
  cases e <;> trivial

/-- The frame of a queued Get ends its response. -/
theorem last_queued {g : ShmGet} {off : Int} {read : Res AsyncReadAt}
    (h : g.trySubmitAsyncGet = some (off, read)) :
    (fillPendingHeader off (off + chunkSize) read).Last := by
  unfold ShmGet.trySubmitAsyncGet at h
  simp only at h
  split at h
  · cases h
  rename_i hpre
  cases hpeek : g.peek with
  | error e =>
    rw [hpeek] at h
    cases h
  | ok s =>
    rw [hpeek] at h
    simp only at h
    split at h
    · cases h
    obtain ⟨rfl, rfl⟩ := Prod.mk.inj (Option.some.inj h)
    have hchunk : (0 : Int) < chunkSize := by decide
    have hal : int64 g.off % blockSize = 0 := by
      rw [not_or, not_not, not_not] at hpre
      exact hpre.2
    have hread := Snapshot.await_submit (s := s) hal hchunk chunkSize_aligned
    cases hsub : s.submitReadAtIntoMeta (int64 g.off) chunkSize chunkSize with
    | error e => exact last_getFrame_of_error ..
    | ok ar =>
      rw [hsub] at hread
      have hwant : chunkWant (int64 g.off + chunkSize) (int64 g.off) = chunkSize := by
        rw [chunkWant_of_le le_rfl]
        omega
      have hframe : fillPendingHeader (int64 g.off) (int64 g.off + chunkSize) (.ok ar) =
          chunkFrame s (int64 g.off + chunkSize) (int64 g.off) := by
        rw [chunkFrame, hwant, ← hread]
        rfl
      rw [hframe]
      exact last_chunkFrame_of_le (by omega) le_rfl

/-- The one frame of the batch reader ends its response. -/
theorem last_batchFrame (g : ShmGet) {off : Int} (hoff : off % blockSize = 0) :
    ∃ f : GetFrame, f.Last ∧ (g.batchSlot = true →
      (shmWriteDataFrameBatch g off).flatMap Emit.frames = [.get f]) := by
  have hchunk : (0 : Int) < chunkSize := by decide
  cases hbatch : g.batch with
  | error e =>
    refine ⟨_, last_getFrame_of_error 0 chunkSize [] e, fun hslot => ?_⟩
    simp [shmWriteDataFrameBatch, hslot, hbatch, Emit.frames]
  | ok s =>
    refine ⟨getFrame 0 chunkSize (s.readAtIntoMeta off chunkSize chunkSize).1
      (s.readAtIntoMeta off chunkSize chunkSize).2, ?_, fun hslot => ?_⟩
    · rw [readAtIntoMeta_aligned hoff hchunk chunkSize_aligned]
      by_cases hread : s.ReadsInFull off chunkSize
      · obtain ⟨b, hb⟩ := hread
        have hlen := hb.length hchunk
        rw [Snapshot.readAtMeta_of_reads hb hchunk]
        simp only [getFrame, if_pos (show (0 : Int) + (b.length : Int) ≥ chunkSize by omega)]
        trivial
      · obtain ⟨data, e, hread, -, -⟩ := Snapshot.readAtMeta_of_not_reads hread hchunk
        rw [hread]
        exact last_getFrame_of_error ..
    · simp [shmWriteDataFrameBatch, hslot, hbatch, Emit.frames]

/-- **The synchronous answer to a range that is answered whole is terminated.** -/
theorem terminated_handleShmGet {cfg : ShmConfig} {g : ShmGet} (h : g.Whole cfg) :
    ∃ fs, (handleShmGet cfg g).flatMap Emit.frames = fs.map .get ∧ Terminated GetFrame.Last fs := by
  unfold ShmGet.Whole at h
  unfold handleShmGet
  cases hfound : g.found with
  | error e => exact ⟨[.err (mapStorageErr e)], rfl, terminated_singleton.mpr trivial⟩
  | ok s =>
    rw [hfound] at h
    simp only at h ⊢
    obtain ⟨size, hsize⟩ : ∃ size, size = getSize s (int64 g.off) (int64 g.size) := ⟨_, rfl⟩
    rw [← hsize] at h ⊢
    by_cases hneg : size < 0
    · rw [if_pos hneg]
      exact ⟨[.err .invalidRange], rfl, terminated_singleton.mpr trivial⟩
    rw [if_neg hneg]
    replace h := h.resolve_left hneg
    by_cases hbatch : cfg.batched = true ∧ int64 g.off % blockSize = 0 ∧
        int64 (int64 (int64 g.off + size) - int64 g.off) = chunkSize
    · rw [if_pos hbatch] at h ⊢
      obtain ⟨f, hf, hframes⟩ := last_batchFrame g hbatch.2.1
      exact ⟨[f], hframes h, terminated_singleton.mpr hf⟩
    · rw [if_neg hbatch] at h ⊢
      exact terminated_shmGetChained h.1 h.2

theorem answer_of_queued {cfg : ShmConfig} {g : ShmGet} (h : g.Queued cfg) {off : Int}
    {read : Res AsyncReadAt} (hsubmit : g.trySubmitAsyncGet = some (off, read)) :
    (ShmAsk.get (some g)).answer cfg = [.get (fillPendingHeader off (off + chunkSize) read)] := by
  simp only [ShmAsk.answer, if_pos (show _ ∧ _ from ⟨h.1, h.2.1⟩), hsubmit]

theorem answer_of_not_queued {cfg : ShmConfig} {g : ShmGet} (h : ¬ g.Queued cfg) :
    (ShmAsk.get (some g)).answer cfg = (handleShmGet cfg g).flatMap Emit.frames := by
  have hnone : (if 0 < cfg.inflight ∧ cfg.batched = false then g.trySubmitAsyncGet else none) =
      none := by
    split
    · rename_i hon
      exact Option.not_isSome_iff_eq_none.mp (fun hsome => h ⟨hon.1, hon.2, hsome⟩)
    · rfl
  simp only [ShmAsk.answer, hnone]

/-- **The answer to a request that fits is a response.** -/
theorem ShmAsk.Fits.answered {cfg : ShmConfig} {pend : List PendingOp} {a : ShmAsk}
    (h : a.Fits cfg pend) : a.Answered (a.answer cfg) := by
  cases a with
  | put size begun committed written => exact ⟨_, rfl⟩
  | del r =>
    cases r with
    | none => exact ⟨_, rfl⟩
    | some r => exact ⟨_, rfl⟩
  | stat r =>
    rcases r with - | (e | n)
    · exact .inl ⟨_, rfl⟩
    · exact .inl ⟨_, rfl⟩
    · exact .inr ⟨_, rfl⟩
  | get g =>
    cases g with
    | none => exact ⟨[.err .invalidArgument], rfl, terminated_singleton.mpr trivial⟩
    | some g =>
      by_cases hqueued : g.Queued cfg
      · obtain ⟨⟨off, read⟩, hsubmit⟩ := Option.isSome_iff_exists.mp hqueued.2.2
        exact ⟨[_], answer_of_queued hqueued hsubmit, terminated_singleton.mpr (last_queued hsubmit)⟩
      · obtain ⟨fs, hfs, hterm⟩ := terminated_handleShmGet (h.2 hqueued).1
        exact ⟨fs, (answer_of_not_queued hqueued).trans hfs, hterm⟩

end Taihu
