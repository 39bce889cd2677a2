/-
# The pool of aligned buffers

`internal/bufpool/bufpool.go` (`bufBucket`, `keepFor`, `get`, `put`).

A buffer that is given back is kept with whatever it holds, in the bucket of its capacity, and a
later `Get` may return it.  The capacity of every buffer of a bucket is the bucket's
(`Pool.sized`), so what `Get` returns is long enough (`le_length_get`), and for one block it is
exactly a block (`length_get_block`).  A user that copies and clears finds nothing of the last
user's bytes (`Buffer.take_clear_copy`).  A slice of a buffer is given back as the whole buffer, so
a buffer here is all that its capacity holds.
-/
import Taihu.System

namespace Taihu.BufPool

def logBlockSize : Nat := 12

/-- `numBuckets`: buffers from 4 KiB to 8 GiB. -/
def numBuckets : Nat := 22

def retainBudget : Nat := 128 * 2 ^ 20

def maxKeepCount : Nat := 32

/-- `bufBucket`, for `n > 0`. -/
def bufBucket (n : Nat) : Nat :=
  let b := Nat.size (n - 1)
  (if b < logBlockSize then logBlockSize else b) - logBlockSize

/-- The capacity of the buffers of a bucket. -/
def bucketSize (b : Nat) : Nat := 2 ^ (b + logBlockSize)

/-- `keepFor`. -/
def keepFor (size : Nat) : Nat :=
  if size = 0 then 1
  else
    let k := retainBudget / size
    if k < 1 then 1 else if k > maxKeepCount then maxKeepCount else k

/-- A buffer from the pool: as large as its bucket says, or too large for the buckets. -/
structure Buffer where
  bytes : Bytes
  sized : bufBucket bytes.length < numBuckets →
    bytes.length = bucketSize (bufBucket bytes.length)

namespace Buffer

variable (b : Buffer)

/-- The buffer with other bytes in it. -/
def refill (bytes : Bytes) (h : bytes.length = b.bytes.length) : Buffer :=
  ⟨bytes, fun hlt => by rw [h] at hlt ⊢; exact b.sized hlt⟩

/-- `copy(buf, data)`. -/
def copy (data : Bytes) : Buffer :=
  b.refill (data.take b.bytes.length ++ b.bytes.drop data.length) (by
    rw [List.length_append, List.length_take, List.length_drop]; omega)

/-- `clear(buf[i:n])`. -/
def clear (i n : Nat) : Buffer :=
  b.refill (b.bytes.take i ++ List.replicate (min n b.bytes.length - i) 0 ++
      b.bytes.drop (max i n)) (by
    rw [List.length_append, List.length_append, List.length_take, List.length_replicate,
      List.length_drop]; omega)

@[simp] theorem length_copy (data : Bytes) : (b.copy data).bytes.length = b.bytes.length := by
  show (_ ++ _ : Bytes).length = _
  rw [List.length_append, List.length_take, List.length_drop]
  omega

@[simp] theorem length_clear (i n : Nat) : (b.clear i n).bytes.length = b.bytes.length := by
  show (_ ++ _ ++ _ : Bytes).length = _
  rw [List.length_append, List.length_append, List.length_take, List.length_replicate,
    List.length_drop]
  omega

/-- **Nothing is left of what was in the buffer**: after data has been copied into it and the rest
cleared up to `n`, the first `n` bytes are the data and zeros. -/
theorem take_clear_copy (data : Bytes) {n : Nat} (h : data.length ≤ n)
    (hn : n ≤ b.bytes.length) : ((b.copy data).clear data.length n).bytes.take n =
      data ++ List.replicate (n - data.length) 0 := by
  have hcopy : (b.copy data).bytes = data ++ b.bytes.drop data.length := by
    show data.take b.bytes.length ++ _ = _
    rw [List.take_of_length_le (h.trans hn)]
  have hclear : ((b.copy data).clear data.length n).bytes =
      data ++ List.replicate (n - data.length) 0 ++ (b.copy data).bytes.drop n := by
    show (b.copy data).bytes.take data.length ++
      List.replicate (min n (b.copy data).bytes.length - data.length) 0 ++
        (b.copy data).bytes.drop (max data.length n) = _
    rw [length_copy, Nat.min_eq_left hn, Nat.max_eq_right h, hcopy, List.take_left]
  rw [hclear, List.take_left']
  rw [List.length_append, List.length_replicate]
  omega

end Buffer

/-- `alignedBufPool`. -/
structure Pool where
  free : Nat → List Bytes
  sized : ∀ b, ∀ buf ∈ free b, buf.length = bucketSize b

/-- `newAlignedPool`. -/
def newAlignedPool : Pool := ⟨fun _ => [], fun _ _ h => absurd h List.not_mem_nil⟩

/-- `alignedBuffer`. -/
def alignedBuffer (n : Nat) : Bytes := List.replicate n 0

theorem le_bucketSize (n : Nat) : n ≤ bucketSize (bufBucket n) := by
  have hlt := Nat.lt_size_self (n - 1)
  have hmono : 2 ^ Nat.size (n - 1) ≤ bucketSize (bufBucket n) := by
    refine Nat.pow_le_pow_right (by decide) ?_
    unfold bufBucket
    simp only
    split <;> omega
  omega

/-- The bucket of a capacity is the bucket it is the capacity of. -/
theorem bufBucket_bucketSize (b : Nat) : bufBucket (bucketSize b) = b := by
  have hpos : 0 < 2 ^ (b + 11) := Nat.two_pow_pos _
  have hdouble : bucketSize b = 2 * 2 ^ (b + 11) := Nat.pow_succ'
  have hsize : Nat.size (bucketSize b - 1) = b + 12 := by
    apply Nat.le_antisymm
    · apply Nat.size_le.mpr
      show _ < bucketSize b
      omega
    · apply Nat.lt_size.mpr
      omega
  unfold bufBucket logBlockSize
  rw [hsize]
  simp

namespace Pool

variable (p : Pool)

/-- `Get`, for `n > 0`: the last buffer of the bucket, or a new one. -/
def get (n : Nat) : Buffer × Pool :=
  let b := bufBucket n
  if h : numBuckets ≤ b then
    (⟨alignedBuffer n, fun hlt => by
      rw [alignedBuffer, List.length_replicate] at hlt
      exact absurd hlt (Nat.not_lt.mpr h)⟩, p)
  else
    match hb : p.free b with
    | buf :: rest =>
      have hbuf : buf.length = bucketSize b :=
        p.sized b buf (hb ▸ List.mem_cons_self)
      (⟨buf, fun _ => by rw [hbuf, bufBucket_bucketSize]⟩,
        ⟨Function.update p.free b rest, fun i x hx => by
          by_cases hi : i = b
          · subst hi
            rw [Function.update_self] at hx
            exact p.sized _ x (hb ▸ List.mem_cons_of_mem buf hx)
          · rw [Function.update_of_ne hi] at hx
            exact p.sized i x hx⟩)
    | [] =>
      (⟨alignedBuffer (bucketSize b), fun _ => by
        rw [alignedBuffer, List.length_replicate, bufBucket_bucketSize]⟩, p)

/-- `Put`: the buffer is dropped when its bucket has enough. -/
def put (buf : Buffer) : Pool :=
  let b := bufBucket buf.bytes.length
  if hb : numBuckets ≤ b then p
  else if (p.free b).length < keepFor (bucketSize b) then
    ⟨Function.update p.free b (buf.bytes :: p.free b), fun i x hx => by
      by_cases hi : i = b
      · subst hi
        rw [Function.update_self] at hx
        rcases List.mem_cons.mp hx with rfl | hx
        · exact buf.sized (Nat.lt_of_not_le hb)
        · exact p.sized _ x hx
      · rw [Function.update_of_ne hi] at hx
        exact p.sized i x hx⟩
  else p

/-- How long the buffer is that `Get` returns. -/
theorem length_get (n : Nat) : (p.get n).1.bytes.length =
    if numBuckets ≤ bufBucket n then n else bucketSize (bufBucket n) := by
  unfold get
  simp only
  split
  · simp [alignedBuffer]
  · split
    · rename_i buf rest hb
      exact p.sized _ buf (hb ▸ List.mem_cons_self)
    · simp [alignedBuffer]

/-- **`Get` returns a buffer that is long enough**, whatever has been given back before. -/
theorem le_length_get (n : Nat) : n ≤ (p.get n).1.bytes.length := by
  rw [length_get]
  split
  · exact Nat.le_refl n
  · exact le_bucketSize n

/-- A buffer for one block is one block long. -/
theorem length_get_block : (p.get 4096).1.bytes.length = 4096 := by
  have hbucket : bufBucket 4096 = 0 := bufBucket_bucketSize 0
  rw [length_get, hbucket]
  rfl

end Pool

end Taihu.BufPool
