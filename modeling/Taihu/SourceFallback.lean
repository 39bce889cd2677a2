/-
# Reading an object from its source

`getFromSource`, `Get` and `GetFd` of `pkg/taihu-client/storage.go`, with a `Source` configured.

The object comes whole from `Source` and the range asked for is cut out of it.  The test that clips
the range adds `off` and `size`, two `int64`, and the sum may wrap; the slice then has a negative
bound and the call panics.  `get_from_source_iff`: it returns the range, clipped as over the
integers, exactly when the sum does not wrap or is not formed.
-/
import Taihu.ClusterClient
import Taihu.GetStream
import Taihu.Storage

namespace Taihu.SourceFallback

open ClusterClient (Data)

/-- The errors of the client. -/
abbrev SdkErr := ClusterClient.Err

variable {σ : Type}

/-! ## 1. The code -/

/-- A slice expression `data[lo:hi]`; `none` where it panics.  The bounds that occur here are at
most the length of `data` or negative, so that the capacity of `data` does not matter. -/
def sliceExpr (data : Data) (lo hi : Int) : Option Data :=
  if 0 ≤ lo ∧ lo ≤ hi ∧ hi ≤ data.length then some ((data.drop lo.toNat).take (hi - lo).toNat)
  else none

/-- What the client is configured with: the source, and what `Put` does to the rest of the
world; its error is not looked at. -/
structure Config (σ : Type) where
  source : Option (Key → Except SdkErr Data)
  put : Key → Int → Data → σ → σ

/-- `getFromSource`; the outer `none` is a panic. -/
def getFromSource (cfg : Config σ) (key : Key) (off size : Int) (s : σ) :
    Option (Except SdkErr Data) × σ :=
  match cfg.source with
  | none => (some (.error .sourceUnset), s)
  | some source =>
    match source key with
    | .error e => (some (.error e), s)
    | .ok data =>
      let n : Int := data.length
      if off < 0 ∨ off > n then (some (.error .invalidRange), s)
      else
        let size := if size < 0 ∨ int64 (off + size) > n then n - off else size
        ((sliceExpr data off (int64 (off + size))).map .ok, cfg.put key n data s)

/-- `Get`; `served` is the answer of the instance the key is looked up at, `none` where it is not
found. -/
def get (cfg : Config σ) (served : Option (Except SdkErr Data)) (key : Key) (off size : Int) (s : σ) :
    Option (Except SdkErr Data) × σ :=
  match served with
  | none => getFromSource cfg key off size s
  | some (.error .notFound) => getFromSource cfg key off size s
  | some r => (some r, s)

/-- What `GetFd` returns: a range of shared memory, or a copy. -/
inductive FdData where
  | shared (fd : Int) (foff : Nat) (data : Data)
  | copied (data : Data)

/-- `GetFd`. -/
def getFd (cfg : Config σ) (served : Option (Except SdkErr FdData)) (key : Key) (off size : Int)
    (s : σ) : Option (Except SdkErr FdData) × σ :=
  let fallback := getFromSource cfg key off size s
  let copied := (fallback.1.map (fun r => r.map FdData.copied), fallback.2)
  match served with
  | none => copied
  | some (.error .notFound) => copied
  | some r => (some r, s)

/-! ## 2. The range -/

/-- The range of `data` that is asked for, over the integers; a negative `size` means all that
is left. -/
def range (data : Data) (off size : Int) : Except SdkErr Data :=
  let n : Int := data.length
  if off < 0 ∨ off > n then .error .invalidRange
  else
    let stop := if size < 0 then n else min (off + size) n
    .ok ((data.drop off.toNat).take (stop - off).toNat)

/-- The range is as long as the window a server reads for an object of that size. -/
theorem length_range {data r : Data} {off size : Int} {md : ObjectMeta} {w : Window}
    (hmd : md.size = data.length) (hsize : 0 ≤ size)
    (hw : readWindow md off size false = .ok w) (hr : range data off size = .ok r) :
    (r.length : Int) = w.want := by
  unfold readWindow at hw
  unfold range at hr
  simp only [hmd, Bool.false_eq_true, false_and, or_false] at hw
  simp only at hr
  split at hw
  · cases hw
  · rename_i hin
    rw [if_neg hin] at hr
    cases hr
    push Not at hin
    by_cases hclip : size > (data.length : Int) - off
    · rw [if_pos hclip] at hw
      by_cases hz : (data.length : Int) - off = 0
      · rw [if_pos hz] at hw
        cases hw
      · rw [if_neg hz] at hw
        cases hw
        rw [if_neg (by omega), List.length_take, List.length_drop]
        dsimp only
        omega
    · rw [if_neg hclip] at hw
      by_cases hz : size = 0
      · rw [if_pos hz] at hw
        cases hw
      · rw [if_neg hz] at hw
        cases hw
        rw [if_neg (by omega), List.length_take, List.length_drop]
        dsimp only
        omega

variable {cfg : Config σ} {source : Key → Except SdkErr Data} {key : Key} {data : Data}
  {off size : Int} {s : σ}

/-- An `off` outside the object. -/
theorem getFromSource_outside (hsrc : cfg.source = some source) (hdata : source key = .ok data)
    (hoff : off < 0 ∨ off > data.length) :
    getFromSource cfg key off size s = (some (.error .invalidRange), s) := by
  unfold getFromSource
  simp only [hsrc, hdata]
  rw [if_pos hoff]

/-- An `off` inside it: one slice expression. -/
theorem getFromSource_inside (hsrc : cfg.source = some source) (hdata : source key = .ok data)
    (hoff : ¬ (off < 0 ∨ off > data.length)) :
    (getFromSource cfg key off size s).1 = (sliceExpr data off (int64 (off +
      if size < 0 ∨ int64 (off + size) > data.length then data.length - off else size))).map .ok := by
  unfold getFromSource
  simp only [hsrc, hdata]
  rw [if_neg hoff]

theorem sliceExpr_of_le {lo hi : Int} (h : 0 ≤ lo ∧ lo ≤ hi ∧ hi ≤ data.length) :
    sliceExpr data lo hi = some ((data.drop lo.toNat).take (hi - lo).toNat) := if_pos h

/-- **The fallback.**  It returns the range that is asked for, exactly when `off` is outside the
object, `size` is negative, or the sum of the two is an `int64`. -/
theorem get_from_source_iff (hsrc : cfg.source = some source) (hdata : source key = .ok data)
    (hlen : (data.length : Int) < 2 ^ 63) (hoff : -2 ^ 63 ≤ off ∧ off < 2 ^ 63)
    (hsize : -2 ^ 63 ≤ size ∧ size < 2 ^ 63) :
    (getFromSource cfg key off size s).1 = some (range data off size) ↔
      off < 0 ∨ off > data.length ∨ size < 0 ∨ off + size < 2 ^ 63 := by
  by_cases hout : off < 0 ∨ off > data.length
  · rw [getFromSource_outside hsrc hdata hout]
    unfold range
    simp only [if_pos hout, true_iff]
    rcases hout with h | h
    · exact Or.inl h
    · exact Or.inr (Or.inl h)
  · rw [getFromSource_inside hsrc hdata hout]
    have hlo : 0 ≤ off ∧ off ≤ data.length := by omega
    have hfull : int64 (off + (data.length - off)) = data.length :=
      (congrArg int64 (by omega)).trans (int64_of_range (by omega) hlen)
    unfold range
    simp only [if_neg hout]
    by_cases hneg : size < 0
    · rw [if_pos (Or.inl hneg), hfull, if_pos hneg, sliceExpr_of_le ⟨hlo.1, hlo.2, le_refl _⟩]
      simp [hneg]
    · by_cases hfits : off + size < 2 ^ 63
      · have hsum : int64 (off + size) = off + size := int64_of_range (by omega) hfits
        rw [hsum, if_neg hneg]
        by_cases hclip : off + size > data.length
        · rw [if_pos (Or.inr hclip), hfull, sliceExpr_of_le ⟨hlo.1, hlo.2, le_refl _⟩,
            min_eq_right (by omega)]
          exact iff_of_true rfl (Or.inr (Or.inr (Or.inr hfits)))
        · rw [if_neg (by omega), hsum, sliceExpr_of_le ⟨hlo.1, by omega, by omega⟩,
            min_eq_left (by omega)]
          exact iff_of_true rfl (Or.inr (Or.inr (Or.inr hfits)))
      · -- the sum wraps to a negative number
        have hwrap : int64 (off + size) < 0 := by
          unfold int64
          omega
        rw [if_neg (by omega)]
        have hpanic : sliceExpr data off (int64 (off + size)) = none := if_neg (by omega)
        rw [hpanic]
        simp only [Option.map_none, reduceCtorEq, false_iff]
        omega

/-- `Get` and `GetFd` of a key that no instance serves are the fallback. -/
theorem get_of_miss {served : Option (Except SdkErr Data)}
    (h : served = none ∨ served = some (.error .notFound)) :
    get cfg served key off size s = getFromSource cfg key off size s := by
  rcases h with rfl | rfl <;> rfl

theorem getFd_of_miss {served : Option (Except SdkErr FdData)}
    (h : served = none ∨ served = some (.error .notFound)) :
    (getFd cfg served key off size s).1 =
      (getFromSource cfg key off size s).1.map (fun r => r.map FdData.copied) := by
  rcases h with rfl | rfl <;> rfl

/-- A source that has the same ten bytes for every key. -/
def tenBytes : Key → Except SdkErr Data := fun _ => .ok [0, 1, 2, 3, 4, 5, 6, 7, 8, 9]

theorem get_from_source_tail :
    (getFromSource ⟨some tenBytes, fun _ _ _ s => s⟩ [1] 3 (-1) ()).1 =
      some (range [0, 1, 2, 3, 4, 5, 6, 7, 8, 9] 3 (-1)) := by
  have hiff := @get_from_source_iff Unit ⟨some tenBytes, fun _ _ _ s => s⟩ tenBytes [1]
    [0, 1, 2, 3, 4, 5, 6, 7, 8, 9] 3 (-1) () rfl rfl (by decide) (by decide) (by decide)
  exact hiff.mpr (by decide)

/-- **A sum that wraps.**  The largest `int64` of bytes from the first on: the call panics. -/
theorem largest_size_panics :
    getFromSource ⟨some tenBytes, fun _ _ _ s => s⟩ [1] 1 (2 ^ 63 - 1) () = (none, ()) ∧
      range [0, 1, 2, 3, 4, 5, 6, 7, 8, 9] 1 (2 ^ 63 - 1) = .ok [1, 2, 3, 4, 5, 6, 7, 8, 9] := by
  constructor
  · decide
  · decide

end Taihu.SourceFallback
