/-
# What a Get reads, chunk by chunk

The reads behind one request of `GetStream.lean`.  A window is either filled by the device, and
then holds as many bytes as were asked for, or its read comes with an error and too few bytes
(`readAtMeta_of_reads`, `readAtMeta_of_not_reads`).  Each chunk of a request is therefore
exactly one frame, a data frame or one that ends the response (`getSyncFrom_succ`), and the
asynchronous reads give the same frames as the synchronous ones (`await_submitChunk`): the two
paths differ only in that the synchronous one stops at the first frame that ends the response
(`getSync_eq`).
-/
import Taihu.GetStream

namespace Taihu

open Framing

/-! ## 1. What one read delivers -/

/-- The arithmetic of a window that is not empty. -/
structure Window.Fits (w : Window) (md : ObjectMeta) (off size : Int) : Prop where
  off_nonneg : 0 ≤ off
  want_pos : 0 < w.want
  want_le : w.want ≤ size
  inside : off + w.want ≤ md.size
  cut : w.want = size ∨ off + w.want = md.size
  relStart : w.relStart = md.offset + off
  skip_nonneg : 0 ≤ w.skip
  skip_lt : w.skip < blockSize
  skip_le : w.skip ≤ w.relStart
  start_aligned : (w.relStart - w.skip) % blockSize = 0
  dlen_aligned : w.dlen % blockSize = 0
  dlen_eq : w.dlen = align4k (w.relStart + w.want) - (w.relStart - w.skip)
  covers : w.skip + w.want ≤ w.dlen

theorem readWindow_fits {md : ObjectMeta} {off size : Int} {w : Window}
    (h : readWindow md off size false = .ok w) (h0 : 0 ≤ md.offset) (hs : 0 < size) :
    w.Fits md off size := by
  unfold readWindow at h
  by_cases hoff : off < 0 ∨ off > md.size ∨ ((false : Bool) ∧ off % blockSize ≠ 0)
  · rw [if_pos hoff] at h
    cases h
  rw [if_neg hoff] at h
  obtain ⟨want, hwant⟩ : ∃ want, want = if size > md.size - off then md.size - off else size :=
    ⟨_, rfl⟩
  simp only [← hwant, Bool.false_eq_true, ↓reduceIte] at h
  by_cases hz : want = 0
  · rw [if_pos hz] at h
    cases h
  rw [if_neg hz] at h
  cases h
  have hle := le_align4k (md.offset + off + want)
  have hmod := align4k_mod (md.offset + off + want)
  simp only [Bool.false_eq_true, false_and, or_false, not_or, not_lt] at hoff
  have hcut : want ≤ size ∧ off + want ≤ md.size ∧ (want = size ∨ off + want = md.size) := by
    split at hwant <;> omega
  unfold blockSize at *
  exact ⟨hoff.1, by simp only; omega, hcut.1, hcut.2.1, hcut.2.2, rfl, by simp only; omega,
    by simp only [blockSize]; omega, by simp only; omega, by simp only [blockSize]; omega,
    by simp only [blockSize]; omega, by simp only; omega, by simp only; omega⟩

/-- For an aligned offset in an aligned extent the two kinds of window are one. -/
theorem readWindow_aligned {md : ObjectMeta} {off : Int} (hmd : md.offset % blockSize = 0)
    (hoff : off % blockSize = 0) (size : Int) :
    readWindow md off size true = readWindow md off size false := by
  have hrel : (md.offset + off) % blockSize = 0 := by
    unfold blockSize at *
    omega
  simp [readWindow, hoff, hrel]

/-- There, the window begins at the offset itself, and is no longer than an aligned size. -/
theorem readWindow_aligned_skip {md : ObjectMeta} {off size : Int} {w : Window}
    (h : readWindow md off size false = .ok w) (h0 : 0 ≤ md.offset)
    (hmd : md.offset % blockSize = 0) (hoff : off % blockSize = 0) (hs : 0 < size)
    (hsize : size % blockSize = 0) : w.skip = 0 ∧ w.dlen ≤ size := by
  have hfit := readWindow_fits h h0 hs
  have hskip : w.skip = 0 := by
    have h1 := hfit.start_aligned
    have h2 := hfit.skip_lt
    have h3 := hfit.skip_nonneg
    rw [hfit.relStart] at h1
    unfold blockSize at *
    omega
  have hrel : (md.offset + off + size) % blockSize = 0 := by
    unfold blockSize at *
    omega
  have hle := align4k_le_of_mod (n := md.offset + off + w.want)
    (by have := hfit.off_nonneg; omega) hrel (by have := hfit.want_le; omega)
  have hdlen := hfit.dlen_eq
  rw [hfit.relStart, hskip] at hdlen
  exact ⟨hskip, by omega⟩

namespace Snapshot

variable {s : Snapshot}

/-- The device fills the window of `want` bytes at `pos` of the object, and `bytes` is what the
window then holds. -/
def Reads (s : Snapshot) (pos want : Int) (bytes : Bytes) : Prop :=
  ∃ w buf n, readWindow s.md pos want false = .ok w ∧ w.want = want ∧
    s.dev (s.md.offset + pos - w.skip) w.dlen = .done buf n ∧ want ≤ n ∧
    bytes = (buf.drop w.skip.toNat).take want.toNat

/-- The window is filled. -/
def ReadsInFull (s : Snapshot) (pos want : Int) : Prop := ∃ bytes, s.Reads pos want bytes

/-- The window is filled with the bytes of the object. -/
def Delivers (s : Snapshot) (pos want : Int) : Prop := s.Reads pos want (s.slice pos want)

theorem Reads.unique {pos want : Int} {b b' : Bytes} (h : s.Reads pos want b)
    (h' : s.Reads pos want b') : b = b' := by
  obtain ⟨w, buf, n, hw, -, hd, -, rfl⟩ := h
  obtain ⟨w', buf', n', hw', -, hd', -, rfl⟩ := h'
  obtain rfl : w = w' := by simpa [hw] using hw'
  rw [hd] at hd'
  cases hd'
  rfl

/-- The checks of the device let every window pass. -/
theorem deviceRead_window {pos want : Int} {w : Window}
    (h : readWindow s.md pos want false = .ok w) (hwant : 0 < want) :
    s.deviceRead (s.md.offset + pos - w.skip) w.dlen = s.dev (s.md.offset + pos - w.skip) w.dlen := by
  have hfit := readWindow_fits h s.offset_nonneg hwant
  have h1 := hfit.relStart
  have h2 := hfit.skip_le
  have h3 := hfit.covers
  have h4 := hfit.want_pos
  have h5 := hfit.skip_nonneg
  have hstart : ¬ (s.md.offset + pos - w.skip < 0 ∨ (s.md.offset + pos - w.skip) % blockSize ≠ 0) := by
    have := hfit.start_aligned
    rw [h1] at this h2
    omega
  have hlen : ¬ (w.dlen ≤ 0 ∨ w.dlen % blockSize ≠ 0) := by
    have := hfit.dlen_aligned
    omega
  rw [deviceRead, if_neg hstart, if_neg hlen]

theorem Reads.length {pos want : Int} {b : Bytes} (h : s.Reads pos want b) (hwant : 0 < want) :
    (b.length : Int) = want := by
  obtain ⟨w, buf, n, hw, heq, hd, -, rfl⟩ := h
  have hfit := readWindow_fits hw s.offset_nonneg hwant
  have h1 := hfit.skip_nonneg
  have h2 := hfit.covers
  have h3 := (s.dev_done hd).1
  rw [List.length_take, List.length_drop]
  omega

/-- A window that the device fills comes without an error. -/
theorem readAtMeta_of_reads {pos want : Int} {b : Bytes} (h : s.Reads pos want b)
    (hwant : 0 < want) : s.readAtMeta pos want = (b, none) := by
  have hlen := h.length hwant
  obtain ⟨w, buf, n, hw, heq, hd, hn, rfl⟩ := h
  have hfit := readWindow_fits hw s.offset_nonneg hwant
  have hskip := hfit.skip_nonneg
  have hn0 : n ≠ 0 := by omega
  have hcut : ¬ (n : Int) < w.want := by omega
  unfold readAtMeta
  rw [hw]
  simp only [deviceRead_window hw hwant, hd, if_neg hn0, if_neg hcut]
  rw [heq]
  have hdata : (if w.skip > 0 ∨ want < n then (buf.drop w.skip.toNat).take want.toNat
      else buf.take n) = (buf.drop w.skip.toNat).take want.toNat := by
    by_cases hs : w.skip > 0 ∨ want < n
    · rw [if_pos hs]
    · have h0 : w.skip = 0 := by omega
      have h1 : want.toNat = n := by omega
      rw [if_neg hs, h0, h1]
      rfl
  rw [hdata, if_neg (by omega)]

/-- Any other read comes with an error, and with fewer bytes than were asked for; with none
unless the error is `io.EOF`. -/
theorem readAtMeta_of_not_reads {pos want : Int} (h : ¬ s.ReadsInFull pos want)
    (hwant : 0 < want) : ∃ data e, s.readAtMeta pos want = (data, some e) ∧
      (data.length : Int) < want ∧ (e ≠ .eof → data = []) := by
  unfold readAtMeta
  cases hw : readWindow s.md pos want false with
  | error e => exact ⟨[], e, rfl, hwant, fun _ => rfl⟩
  | ok w =>
    have hfit := readWindow_fits hw s.offset_nonneg hwant
    have hle := hfit.want_le
    simp only [deviceRead_window hw hwant]
    cases hd : s.dev (s.md.offset + pos - w.skip) w.dlen with
    | refused e => exact ⟨[], e, rfl, hwant, fun _ => rfl⟩
    | failed e => exact ⟨[], e, rfl, hwant, fun _ => rfl⟩
    | done buf n =>
      by_cases hn : n = 0
      · exact ⟨[], .eof, by simp only [if_pos hn], hwant, fun _ => rfl⟩
      have hfull : ¬ (w.want = want ∧ want ≤ n) := fun ⟨h1, h2⟩ =>
        h ⟨_, w, buf, n, hw, h1, hd, h2, rfl⟩
      obtain ⟨got, hgot⟩ : ∃ got, got = if (n : Int) < w.want then (n : Int) else w.want :=
        ⟨_, rfl⟩
      have hlt : got < want ∧ (¬ got < n → (n : Int) < want) := by
        split at hgot <;> omega
      have hlen : ((if w.skip > 0 ∨ got < n then (buf.drop w.skip.toNat).take got.toNat
          else buf.take n : Bytes).length : Int) < want := by
        by_cases hcut : w.skip > 0 ∨ got < n
        · rw [if_pos hcut, List.length_take]
          omega
        · rw [if_neg hcut, List.length_take]
          omega
      refine ⟨_, .eof, ?_, hlen, fun hne => absurd rfl hne⟩
      simp only [if_neg hn, ← hgot, if_pos hlen]

end Snapshot

theorem chunkSize_aligned : chunkSize % blockSize = 0 := by decide

/-- **A direct read of an aligned window gives what the copying one gives.** -/
theorem Snapshot.await_submit {s : Snapshot} {pos want : Int} (hpos : pos % blockSize = 0)
    (hwant : 0 < want) (hsize : want % blockSize = 0) :
    (match s.submitReadAtIntoMeta pos want want with
      | .error e => ([], some e)
      | .ok ar => ar.await) = s.readAtMeta pos want := by
  unfold Snapshot.submitReadAtIntoMeta Snapshot.readAtMeta
  rw [readWindow_aligned s.offset_aligned hpos]
  cases hw : readWindow s.md pos want false with
  | error e => rfl
  | ok w =>
    have hfit := readWindow_fits hw s.offset_nonneg hwant
    obtain ⟨hskip, hdlen⟩ := readWindow_aligned_skip hw s.offset_nonneg s.offset_aligned hpos
      hwant hsize
    have hstart : s.md.offset + pos - w.skip = w.relStart := by
      rw [hskip, hfit.relStart]
      omega
    have hread := Snapshot.deviceRead_window hw hwant
    rw [hstart] at hread
    simp only [if_neg (show ¬ want < w.dlen by omega), hstart, hread]
    cases hd : s.dev w.relStart w.dlen with
    | refused e => rfl
    | failed e => rfl
    | done buf n =>
      show AsyncReadAt.await ⟨.done buf n, w.want, want⟩ = _
      unfold AsyncReadAt.await
      by_cases hn : n = 0
      · simp only [if_pos hn]
      obtain ⟨got, hgot⟩ : ∃ got, got = if (n : Int) < w.want then (n : Int) else w.want :=
        ⟨_, rfl⟩
      obtain ⟨hbuf, hle⟩ := s.dev_done hd
      have hwpos := hfit.want_pos
      have hgotn : 0 ≤ got ∧ got ≤ n := by
        split at hgot <;> omega
      have hdata : (if w.skip > 0 ∨ got < n then (buf.drop w.skip.toNat).take got.toNat
          else buf.take n) = buf.take got.toNat := by
        by_cases hcut : w.skip > 0 ∨ got < n
        · rw [if_pos hcut, hskip]
          rfl
        · rw [if_neg hcut, show got.toNat = n by omega]
      have hlen : ((buf.take got.toNat).length : Int) = got := by
        rw [List.length_take]
        omega
      simp only [if_neg hn, ← hgot, hdata, hlen]

/-- The asynchronous read of an aligned chunk. -/
theorem await_submitChunk {s : Snapshot} {pos : Int} (hpos : pos % blockSize = 0) (req : Nat)
    (stop : Int) : ∃ p, (GetStream.submitChunk req s stop pos).await = p ∧ p.req = req ∧
      p.pos = pos ∧ p.stop = stop ∧ (p.data, p.rerr) = s.readAtMeta pos chunkSize := by
  refine ⟨_, rfl, ?_⟩
  have hread := Snapshot.await_submit (s := s) hpos (by decide) chunkSize_aligned
  unfold GetStream.submitChunk
  cases hs : s.submitReadAtIntoMeta pos chunkSize chunkSize with
  | error e =>
    rw [hs] at hread
    exact ⟨rfl, rfl, rfl, hread⟩
  | ok ar =>
    rw [hs] at hread
    exact ⟨rfl, rfl, rfl, hread⟩

/-! ## 2. One chunk is one frame -/

/-- The frame for the chunk at `pos`. -/
def chunkFrame (s : Snapshot) (stop pos : Int) : GetFrame :=
  getFrame pos stop (s.readAtMeta pos (chunkWant stop pos)).1
    (s.readAtMeta pos (chunkWant stop pos)).2

/-- The frames for all chunks. -/
def chunkFrames (s : Snapshot) (off stop : Int) : List GetFrame :=
  (chunkStarts off stop).map (chunkFrame s stop)

section Chunk

variable {s : Snapshot} {stop pos : Int}

theorem chunkWant_pos (h : pos < stop) : 0 < chunkWant stop pos := by
  unfold chunkWant chunkSize
  split <;> omega

theorem chunkWant_of_lt (h : pos + chunkSize < stop) : chunkWant stop pos = chunkSize :=
  if_pos (by omega)

theorem chunkWant_of_le (h : stop ≤ pos + chunkSize) : chunkWant stop pos = stop - pos :=
  if_neg (by omega)

/-- A chunk before the last that is read in full is a data frame. -/
theorem chunkFrame_of_reads_of_lt {b : Bytes} (h : s.Reads pos chunkSize b)
    (hlt : pos + chunkSize < stop) : chunkFrame s stop pos = .data b := by
  have hlen := h.length (by decide)
  rw [chunkFrame, chunkWant_of_lt hlt, Snapshot.readAtMeta_of_reads h (by decide)]
  exact if_neg (show ¬ pos + (b.length : Int) ≥ stop by omega)

/-- The last chunk, read in full, is a final frame. -/
theorem chunkFrame_of_reads_of_le {b : Bytes} (h : s.Reads pos (stop - pos) b) (hpos : pos < stop)
    (hle : stop ≤ pos + chunkSize) : chunkFrame s stop pos = .final b := by
  have hlen := h.length (by omega)
  rw [chunkFrame, chunkWant_of_le hle, Snapshot.readAtMeta_of_reads h (by omega)]
  exact if_pos (show pos + (b.length : Int) ≥ stop by omega)

/-- A chunk that is not read in full is a frame that ends the response, and carries too few
bytes. -/
theorem chunkFrame_of_not_reads (h : ¬ s.ReadsInFull pos (chunkWant stop pos))
    (hpos : pos < stop) : (chunkFrame s stop pos).Last ∧
      ((chunkFrame s stop pos).bytes.length : Int) < chunkWant stop pos := by
  obtain ⟨data, e, hread, hlt, hdata⟩ := Snapshot.readAtMeta_of_not_reads h (chunkWant_pos hpos)
  rw [chunkFrame, hread]
  cases e with
  | eof => exact ⟨trivial, hlt⟩
  | _ => exact ⟨trivial, chunkWant_pos hpos⟩

theorem last_chunkFrame_of_le (hpos : pos < stop) (hle : stop ≤ pos + chunkSize) :
    (chunkFrame s stop pos).Last := by
  by_cases h : s.ReadsInFull pos (chunkWant stop pos)
  · obtain ⟨b, hb⟩ := h
    rw [chunkWant_of_le hle] at hb
    rw [chunkFrame_of_reads_of_le hb hpos hle]
    trivial
  · exact (chunkFrame_of_not_reads h hpos).1

theorem last_chunkFrame_iff (hlt : pos + chunkSize < stop) :
    (chunkFrame s stop pos).Last ↔ ¬ s.ReadsInFull pos chunkSize := by
  have hpos : pos < stop := by
    have : (0 : Int) < chunkSize := by decide
    omega
  refine ⟨?_, fun h => (chunkFrame_of_not_reads (by rwa [chunkWant_of_lt hlt]) hpos).1⟩
  rintro hlast ⟨b, hb⟩
  rw [chunkFrame_of_reads_of_lt hb hlt] at hlast
  exact hlast

/-! ## 3. The synchronous loop -/

/-- **One turn of `getSync` sends one frame.**  It ends the response when the read has an error,
or when it reaches the end of the range. -/
theorem getSyncTurn_chunk (s : Snapshot) (hpos : pos < stop) : ∃ data rerr,
    s.readAtMeta pos (chunkWant stop pos) = (data, rerr) ∧
      getSyncTurn pos stop data rerr = [chunkFrame s stop pos] ∧
      (rerr = none → (data.length : Int) = chunkWant stop pos) ∧
      ((chunkFrame s stop pos).Last ↔ rerr = none → stop ≤ pos + chunkSize) := by
  have hwant := chunkWant_pos hpos
  by_cases h : s.ReadsInFull pos (chunkWant stop pos)
  · obtain ⟨b, hb⟩ := h
    have hlen := hb.length hwant
    have hne : b ≠ [] := by
      rintro rfl
      simp only [List.length_nil] at hlen
      omega
    refine ⟨b, none, Snapshot.readAtMeta_of_reads hb hwant, ?_, fun _ => hlen, ?_⟩
    all_goals by_cases hlt : pos + chunkSize < stop
    · rw [chunkWant_of_lt hlt] at hb hlen
      have hmore : ¬ pos + (b.length : Int) ≥ stop := by omega
      rw [chunkFrame_of_reads_of_lt hb hlt]
      simp [getSyncTurn, hne, hmore]
    · rw [chunkWant_of_le (by omega)] at hb hlen
      have hdone : pos + (b.length : Int) ≥ stop := by omega
      rw [chunkFrame_of_reads_of_le hb hpos (by omega)]
      simp [getSyncTurn, hne, hdone]
    · rw [chunkWant_of_lt hlt] at hb
      rw [last_chunkFrame_iff hlt]
      exact ⟨fun hnot => absurd ⟨b, hb⟩ hnot, fun hle => absurd (hle rfl) (by omega)⟩
    · exact ⟨fun _ _ => by omega, fun _ => last_chunkFrame_of_le hpos (by omega)⟩
  · obtain ⟨data, e, hread, hlt, hdata⟩ := Snapshot.readAtMeta_of_not_reads h hwant
    have hframe : chunkFrame s stop pos = getFrame pos stop data (some e) := by
      rw [chunkFrame, hread]
    refine ⟨data, some e, hread, ?_, fun hne => (nomatch hne), fun _ hne => (nomatch hne),
      fun _ => (chunkFrame_of_not_reads h hpos).1⟩
    rw [hframe]
    cases e with
    | eof =>
      by_cases hd : data = []
      · subst hd
        rfl
      · simp [getSyncTurn, getFrame, hd]
    | _ =>
      rw [hdata (by decide)]
      rfl

/-- The loop of `getSync` goes on with the next chunk unless the frame ends the response. -/
theorem getSyncFrom_succ (fuel : Nat) (hpos : pos < stop) :
    getSyncFrom s stop (fuel + 1) pos = if (chunkFrame s stop pos).Last then
      [chunkFrame s stop pos] else
        chunkFrame s stop pos :: getSyncFrom s stop fuel (pos + chunkSize) := by
  obtain ⟨data, rerr, hread, hturn, hlen, hlast⟩ := getSyncTurn_chunk s hpos
  rw [getSyncFrom, if_pos hpos, hread]
  simp only [hturn]
  cases rerr with
  | some e => rw [if_neg (by simp), if_pos (hlast.mpr (fun hne => nomatch hne)), List.append_nil]
  | none =>
    rw [if_pos rfl]
    by_cases hle : stop ≤ pos + chunkSize
    · have hend : getSyncFrom s stop fuel (pos + data.length) = [] := by
        have := hlen rfl
        rw [chunkWant_of_le hle] at this
        cases fuel with
        | zero => rfl
        | succ n => exact if_neg (by omega)
      rw [if_pos (hlast.mpr (fun _ => hle)), hend, List.append_nil]
    · rw [if_neg (fun h => hle (hlast.mp h rfl)), hlen rfl, chunkWant_of_lt (by omega)]
      rfl

theorem chunkStartsFrom_succ (fuel : Nat) (hpos : pos < stop) :
    chunkStartsFrom stop (fuel + 1) pos = pos :: chunkStartsFrom stop fuel (pos + chunkSize) :=
  if_pos hpos

theorem chunkStartsFrom_of_le (fuel : Nat) (hpos : stop ≤ pos) :
    chunkStartsFrom stop fuel pos = [] := by
  cases fuel with
  | zero => rfl
  | succ n => exact if_neg (by omega)

/-- The synchronous answer: the frames of the chunks, up to the first that ends it. -/
theorem getSyncFrom_eq (fuel : Nat) (pos : Int) : getSyncFrom s stop fuel pos =
    upTo GetFrame.Last ((chunkStartsFrom stop fuel pos).map (chunkFrame s stop)) := by
  induction fuel generalizing pos with
  | zero => rfl
  | succ n ih =>
    by_cases hpos : pos < stop
    · rw [getSyncFrom_succ n hpos, chunkStartsFrom_succ n hpos, List.map_cons, ih]
      rfl
    · rw [chunkStartsFrom_of_le _ (by omega)]
      exact if_neg hpos

/-! ## 4. All chunks of a request -/

theorem chunkStartsFrom_fuel (fuel fuel' : Nat) (h : (stop - pos).toNat ≤ fuel)
    (h' : (stop - pos).toNat ≤ fuel') :
    chunkStartsFrom stop fuel pos = chunkStartsFrom stop fuel' pos := by
  induction fuel generalizing pos fuel' with
  | zero =>
    rw [chunkStartsFrom_of_le 0 (by omega), chunkStartsFrom_of_le fuel' (by omega)]
  | succ n ih =>
    by_cases hpos : pos < stop
    · obtain ⟨n', rfl⟩ : ∃ n', fuel' = n' + 1 := ⟨fuel' - 1, by omega⟩
      have hstep : (stop - (pos + chunkSize)).toNat < (stop - pos).toNat := by
        unfold chunkSize
        omega
      rw [chunkStartsFrom_succ n hpos, chunkStartsFrom_succ n' hpos,
        ih n' (by omega) (by omega)]
    · rw [chunkStartsFrom_of_le _ (by omega), chunkStartsFrom_of_le fuel' (by omega)]

theorem chunkStarts_of_le (h : stop ≤ pos) : chunkStarts pos stop = [] :=
  chunkStartsFrom_of_le _ h

theorem chunkStarts_of_lt (h : pos < stop) :
    chunkStarts pos stop = pos :: chunkStarts (pos + chunkSize) stop := by
  have hstep : (stop - (pos + chunkSize)).toNat ≤ (stop - pos).toNat := by
    unfold chunkSize
    omega
  rw [chunkStarts, chunkStartsFrom_fuel _ ((stop - pos).toNat + 1) le_rfl (by omega),
    chunkStartsFrom_succ _ h, chunkStartsFrom_fuel _ (stop - (pos + chunkSize)).toNat hstep le_rfl]
  rfl

/-- What holds of a request when it holds of the rest after its first chunk holds of every
request. -/
theorem chunk_induction {P : Int → Prop}
    (step : ∀ pos, pos < stop → (pos + chunkSize < stop → P (pos + chunkSize)) → P pos)
    (pos : Int) (hpos : pos < stop) : P pos := by
  obtain ⟨n, hn⟩ : ∃ n, n = (stop - pos).toNat := ⟨_, rfl⟩
  induction n using Nat.strongRecOn generalizing pos with
  | ind n ih =>
    refine step pos hpos (fun hlt => ih (stop - (pos + chunkSize)).toNat ?_ _ hlt rfl)
    have : (0 : Int) < chunkSize := by decide
    omega

/-- The chunks are a chunk apart. -/
theorem drop_chunkStarts (n : Nat) (pos : Int) :
    (chunkStarts pos stop).drop n = chunkStarts (pos + n * chunkSize) stop := by
  induction n generalizing pos with
  | zero => simp
  | succ n ih =>
    have hchunk : (0 : Int) < chunkSize := by decide
    have hnext : pos + chunkSize + n * chunkSize = pos + ((n + 1 : Nat) : Int) * chunkSize := by
      rw [Nat.cast_succ, Int.add_mul, Int.one_mul]
      omega
    by_cases hpos : pos < stop
    · rw [chunkStarts_of_lt hpos, List.drop_succ_cons, ih, hnext]
    · have hmul : (0 : Int) ≤ n * chunkSize := Int.mul_nonneg (Int.natCast_nonneg n) hchunk.le
      rw [chunkStarts_of_le (by omega), List.drop_nil, chunkStarts_of_le (by omega)]

theorem getElem?_chunkStarts {n : Nat} {p : Int} (h : (chunkStarts pos stop)[n]? = some p) :
    p = pos + n * chunkSize ∧ p < stop := by
  rw [← List.head?_drop, drop_chunkStarts] at h
  by_cases hlt : pos + n * chunkSize < stop
  · rw [chunkStarts_of_lt hlt] at h
    cases h
    exact ⟨rfl, hlt⟩
  · rw [chunkStarts_of_le (by omega)] at h
    cases h

theorem mem_chunkStarts {p : Int} (h : p ∈ chunkStarts pos stop) :
    ∃ k : Nat, p = pos + k * chunkSize ∧ p < stop := by
  obtain ⟨k, hk⟩ := List.mem_iff_getElem?.mp h
  exact ⟨k, getElem?_chunkStarts hk⟩

theorem getSync_eq {off size : Int} : getSync s off size =
    upTo GetFrame.Last (chunkFrames s off (int64 (off + size))) := getSyncFrom_eq _ _

theorem chunkFrames_of_lt (h : pos < stop) :
    chunkFrames s pos stop = chunkFrame s stop pos :: chunkFrames s (pos + chunkSize) stop := by
  rw [chunkFrames, chunkStarts_of_lt h, List.map_cons, chunkFrames]

theorem chunkFrames_of_le (h : stop ≤ pos) : chunkFrames s pos stop = [] := by
  rw [chunkFrames, chunkStarts_of_le h, List.map_nil]

/-- The frame of the last chunk ends the response. -/
theorem exists_last_chunk (hpos : pos < stop) : ∃ f ∈ chunkFrames s pos stop, f.Last := by
  refine chunk_induction (P := fun pos => ∃ f ∈ chunkFrames s pos stop, f.Last)
    (fun p hp ih => ?_) pos hpos
  rw [chunkFrames_of_lt hp]
  by_cases hlt : p + chunkSize < stop
  · obtain ⟨f, hf, hlast⟩ := ih hlt
    exact ⟨f, List.mem_cons_of_mem _ hf, hlast⟩
  · exact ⟨_, List.mem_cons_self, last_chunkFrame_of_le hp (by omega)⟩

/-- **The synchronous answer to a range that is not empty is terminated.** -/
theorem terminated_getSync {off size : Int} (h : off < int64 (off + size)) :
    Terminated GetFrame.Last (getSync s off size) := by
  rw [getSync_eq]
  exact terminated_upTo (exists_last_chunk h)

/-- **The frames of all chunks are a response exactly when every chunk before the last is read
in full.** -/
theorem terminated_chunkFrames_iff (hpos : pos < stop) :
    Terminated GetFrame.Last (chunkFrames s pos stop) ↔
      ∀ p ∈ chunkStarts pos stop, p + chunkSize < stop → s.ReadsInFull p chunkSize := by
  refine chunk_induction (P := fun pos => Terminated GetFrame.Last (chunkFrames s pos stop) ↔
    ∀ p ∈ chunkStarts pos stop, p + chunkSize < stop → s.ReadsInFull p chunkSize)
    (fun p hp ih => ?_) pos hpos
  rw [chunkFrames_of_lt hp, chunkStarts_of_lt hp, List.forall_mem_cons, terminated_cons_iff]
  by_cases hlt : p + chunkSize < stop
  · have hne : chunkFrames s (p + chunkSize) stop ≠ [] := by
      rw [chunkFrames_of_lt hlt]
      exact List.cons_ne_nil _ _
    rw [last_chunkFrame_iff hlt, not_not, ih hlt]
    simp [hne, hlt]
  · have hlast := last_chunkFrame_of_le (s := s) hp (by omega)
    simp [chunkFrames_of_le (s := s) (by omega : stop ≤ p + chunkSize),
      chunkStarts_of_le (by omega : stop ≤ p + chunkSize), hlast, hlt]

end Chunk

/-! ## 5. The bytes of a response -/

section Payload

variable {s : Snapshot} {stop pos : Int}

theorem Snapshot.slice_length {size : Int} (h0 : 0 ≤ pos) (hs : 0 ≤ size)
    (h : pos + size ≤ s.md.size) : ((s.slice pos size).length : Int) = size := by
  have := s.content_length
  rw [Snapshot.slice, List.length_take, List.length_drop]
  omega

theorem Snapshot.slice_append {m n : Int} (h0 : 0 ≤ pos) (hm : 0 ≤ m) (hn : 0 ≤ n) :
    s.slice pos m ++ s.slice (pos + m) n = s.slice pos (m + n) := by
  rw [Snapshot.slice, Snapshot.slice, Snapshot.slice, Int.toNat_add h0 hm, Int.toNat_add hm hn,
    ← List.drop_drop, ← List.take_add]

/-- **The payload of a response to a range inside the object is the bytes of the range exactly
when every chunk of it is delivered.** -/
theorem payload_upTo_iff (hstop : stop ≤ s.md.size) (h0 : 0 ≤ pos) (hpos : pos < stop) :
    payload (upTo GetFrame.Last (chunkFrames s pos stop)) = s.slice pos (stop - pos) ↔
      ∀ p ∈ chunkStarts pos stop, s.Delivers p (chunkWant stop p) := by
  refine chunk_induction (P := fun pos => 0 ≤ pos →
    (payload (upTo GetFrame.Last (chunkFrames s pos stop)) = s.slice pos (stop - pos) ↔
      ∀ p ∈ chunkStarts pos stop, s.Delivers p (chunkWant stop p)))
    (fun p hp ih h0 => ?_) pos hpos h0
  rw [chunkFrames_of_lt hp, chunkStarts_of_lt hp, List.forall_mem_cons]
  have hslice := Snapshot.slice_length (s := s) h0 (by omega) (by omega : p + (stop - p) ≤ _)
  by_cases hread : s.ReadsInFull p (chunkWant stop p)
  · obtain ⟨b, hb⟩ := hread
    have hlen := hb.length (chunkWant_pos hp)
    have hiff : s.Delivers p (chunkWant stop p) ↔ b = s.slice p (chunkWant stop p) :=
      ⟨fun hd => hb.unique hd, fun hd => by rw [Snapshot.Delivers, ← hd]; exact hb⟩
    rw [hiff]
    by_cases hlt : p + chunkSize < stop
    · rw [chunkWant_of_lt hlt] at hb hlen
      have hchunk : (0 : Int) ≤ chunkSize := by decide
      have hsplit := Snapshot.slice_append (s := s) h0 hchunk
        (by omega : 0 ≤ stop - (p + chunkSize))
      rw [show chunkSize + (stop - (p + chunkSize)) = stop - p by omega] at hsplit
      have hfirst := Snapshot.slice_length (s := s) h0 hchunk (by omega)
      rw [chunkWant_of_lt hlt, chunkFrame_of_reads_of_lt hb hlt, upTo_cons_of_not id, payload_cons,
        ← hsplit, ← ih hlt (by omega)]
      refine ⟨fun h => List.append_inj h (by show b.length = _; omega), ?_⟩
      rintro ⟨hb', hrest⟩
      rw [hrest, ← hb']
      rfl
    · rw [chunkWant_of_le (by omega)] at hb hlen
      rw [chunkWant_of_le (by omega), chunkFrame_of_reads_of_le hb hp (by omega),
        upTo_cons_of_last trivial, chunkStarts_of_le (by omega)]
      simp [GetFrame.bytes]
  · obtain ⟨hlast, hlt⟩ := chunkFrame_of_not_reads hread hp
    rw [upTo_cons_of_last hlast]
    have hle : chunkWant stop p ≤ stop - p := by
      unfold chunkWant
      split <;> omega
    refine ⟨fun h => ?_, fun ⟨hd, _⟩ => absurd ⟨_, hd⟩ hread⟩
    rw [payload_cons, payload_nil, List.append_nil] at h
    rw [← h] at hslice
    omega

end Payload

end Taihu
