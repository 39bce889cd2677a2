/-
# Device layout and 4K alignment

`internal/layout`: the device is cut into `segmentCount` segments of `segmentSizeBytes` bytes,
and every extent is a multiple of `blockSize`.  Offsets and sizes are `Int`: a segment is
8 GiB, an object at most a segment, so the sums formed from them stay far inside `int64`.
-/
import Mathlib

namespace Taihu

/-- `BlockSize`: every device IO is aligned to 4 KiB. -/
def blockSize : Int := 4096

/-- `Layout`: segment size and number of segments. -/
structure Layout where
  segmentSizeBytes : Int
  segmentCount : Int
  deriving DecidableEq, Repr

/-- `Align4k`: `n` rounded up to a multiple of `blockSize`; 0 for `n ≤ 0`. -/
def align4k (n : Int) : Int :=
  if n ≤ 0 then 0 else (n + blockSize - 1) / blockSize * blockSize

theorem align4k_nonneg (n : Int) : 0 ≤ align4k n := by
  unfold align4k blockSize
  split <;> omega

theorem le_align4k (n : Int) : n ≤ align4k n := by
  unfold align4k blockSize
  split <;> omega

theorem align4k_mod (n : Int) : align4k n % blockSize = 0 := by
  unfold align4k blockSize
  split <;> omega

/-- Rounding up is monotone. -/
theorem align4k_mono {m n : Int} (h : m ≤ n) : align4k m ≤ align4k n := by
  unfold align4k blockSize
  split <;> split <;> omega

/-- A multiple of the block size is its own round-up. -/
theorem align4k_of_mod {n : Int} (h0 : 0 ≤ n) (h : n % blockSize = 0) : align4k n = n := by
  unfold align4k
  unfold blockSize at *
  split <;> omega

/-- A block-aligned bound on a size bounds its round-up as well. -/
theorem align4k_le_of_mod {n m : Int} (h0 : 0 ≤ m) (hm : m % blockSize = 0) (h : n ≤ m) :
    align4k n ≤ m := (align4k_mono h).trans_eq (align4k_of_mod h0 hm)

end Taihu
