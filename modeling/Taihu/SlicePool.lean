/-
# The buffer pools and the slices they are given

`internal/bufpool/bufpool.go`, with slices as they are: a window of a byte array, with a length
and a capacity.  `Taihu.BufPool` follows the bytes of a buffer and takes for granted that what
comes back is the whole buffer; here a user gives back any slice `buf[lo:hi:max]` of a buffer it
holds, and the question is what the pools hand out after that.

`put` looks at the capacity of what it is given and at nothing else.  A slice that does not start
at a multiple of 4096 is kept like any other, and so is one whose capacity is not the capacity of
a bucket; the next user of the bucket gets it.  `State.Regular` says of one call that this does not
happen, and the pools serve their users after every prefix of a run exactly when every call is
regular (`safe_iff_regular`).  What holds without it: no two users share a byte, and no freelist is longer
than `keepFor` says (`Inv`).

Where the arrays lie is up to the runtime: `base i` is the address of the `i`-th array made.
-/
import Taihu.BufPool
import Taihu.Lib.Separated
import Taihu.Lib.Transition

namespace Taihu.SlicePool

open BufPool (bufBucket bucketSize keepFor numBuckets bufBucket_bucketSize le_bucketSize)

/-! ## 1. Slices -/

/-- A slice of a byte array, from `off` on. -/
structure Slice where
  array : Nat
  off : Nat
  len : Nat
  cap : Nat
  deriving DecidableEq, Repr

namespace Slice

variable {s t u : Slice}

/-- The address of the first byte. -/
def addr (base : Nat → Nat) (s : Slice) : Nat := base s.array + s.off

/-- `s[lo:hi:max]`. -/
def slice (s : Slice) (lo hi max : Nat) : Slice := ⟨s.array, s.off + lo, hi - lo, max - lo⟩

/-- `if len(s) < cap(s) { s = s[:cap(s)] }`. -/
def whole (s : Slice) : Slice := if s.len < s.cap then { s with len := s.cap } else s

/-- No byte belongs to both, up to their capacities. -/
def Apart (s t : Slice) : Prop :=
  s.array ≠ t.array ∨ s.off + s.cap ≤ t.off ∨ t.off + t.cap ≤ s.off

theorem Apart.symm (h : s.Apart t) : t.Apart s := by
  rcases h with h | h | h
  · exact Or.inl (Ne.symm h)
  · exact Or.inr (Or.inr h)
  · exact Or.inr (Or.inl h)

/-- `t` lies within `s`. -/
def Within (t s : Slice) : Prop :=
  t.array = s.array ∧ s.off ≤ t.off ∧ t.off + t.cap ≤ s.off + s.cap

theorem Within.apart (h : t.Within s) (ha : s.Apart u) : t.Apart u := by
  obtain ⟨harr, hlo, hhi⟩ := h
  rcases ha with hne | hle | hle
  · exact Or.inl fun he => hne (harr.symm.trans he)
  · exact Or.inr (Or.inl (hhi.trans hle))
  · exact Or.inr (Or.inr (hle.trans hlo))

theorem slice_within {lo hi max : Nat} (hlo : lo ≤ hi) (hhi : hi ≤ max) (hmax : max ≤ s.cap) :
    (s.slice lo hi max).Within s := by
  refine ⟨rfl, Nat.le_add_right _ _, ?_⟩
  show s.off + lo + (max - lo) ≤ s.off + s.cap
  omega

@[simp] theorem whole_array (s : Slice) : s.whole.array = s.array := by
  unfold whole
  split <;> rfl

@[simp] theorem whole_off (s : Slice) : s.whole.off = s.off := by
  unfold whole
  split <;> rfl

@[simp] theorem whole_cap (s : Slice) : s.whole.cap = s.cap := by
  unfold whole
  split <;> rfl

@[simp] theorem whole_addr (base : Nat → Nat) (s : Slice) : s.whole.addr base = s.addr base := by
  simp [addr]

/-- A slice is not longer than its capacity. -/
theorem whole_len (h : s.len ≤ s.cap) : s.whole.len = s.cap := by
  unfold whole
  split
  · rfl
  · omega

theorem whole_within (s : Slice) : s.whole.Within s := by
  constructor <;> simp

end Slice

/-! ## 2. The pools -/

/-- The freelists: of a bucket of the aligned pool, and of a size in a shard of the exact pool. -/
inductive Shelf
  | bucket (b : Nat)
  | exact (shard n : Nat)
  deriving DecidableEq, Repr

/-- The size of the buffers of a freelist. -/
def Shelf.size : Shelf → Nat
  | bucket b => bucketSize b
  | exact _ n => n

/-- `pool` and `exactPool`, with what was given back last in front, and the number of byte
arrays made. -/
structure Pools where
  free : Shelf → List Slice
  made : Nat

/-- `shardFor`: the multiplication is in `uint32`. -/
def shardFor (n : Nat) : Nat := n % 2 ^ 32 * 2654435761 % 2 ^ 32 % 16

namespace Pools

variable (base : Nat → Nat) (p : Pools)

/-- `alignedBuffer`: the window of `n` bytes of a new array that starts at its first multiple of
4096. -/
def alignedBuffer (n : Nat) : Slice × Pools :=
  let start := base p.made % 4096
  let start := if start ≠ 0 then 4096 - start else 0
  (⟨p.made, start, n, n⟩, { p with made := p.made + 1 })

/-- The last buffer of a freelist, or a new one. -/
def takeFrom (shelf : Shelf) : Slice × Pools :=
  match p.free shelf with
  | buf :: rest => (buf, { p with free := Function.update p.free shelf rest })
  | [] => p.alignedBuffer base shelf.size

/-- Keep a buffer, if its freelist has room. -/
def keepIn (shelf : Shelf) (buf : Slice) : Pools :=
  if (p.free shelf).length < keepFor shelf.size then
    { p with free := Function.update p.free shelf (buf :: p.free shelf) }
  else p

/-- `Get`. -/
def get (n : Int) : Option Slice × Pools :=
  if n ≤ 0 then (none, p)
  else
    let b := bufBucket n.toNat
    let r := if numBuckets ≤ b then p.alignedBuffer base n.toNat
      else p.takeFrom base (.bucket b)
    (some r.1, r.2)

/-- `Put`. -/
def put (buf : Slice) : Pools :=
  if buf.cap = 0 then p
  else
    let buf := buf.whole
    let b := bufBucket buf.len
    if numBuckets ≤ b then p else p.keepIn (.bucket b) buf

/-- `GetExact`. -/
def getExact (n : Int) : Option Slice × Pools :=
  if n ≤ 0 then (none, p)
  else
    let r := p.takeFrom base (.exact (shardFor n.toNat) n.toNat)
    (some r.1, r.2)

/-- `PutExact`. -/
def putExact (buf : Slice) : Pools :=
  if buf.cap = 0 then p
  else
    let buf := buf.whole
    let n := buf.len
    p.keepIn (.exact (shardFor n) n) buf

/-- `newAlignedPool`, `newExactSizePool`. -/
def new : Pools := ⟨fun _ => [], 0⟩

end Pools

/-! ## 3. The pools and their users -/

/-- The pool a buffer is from. -/
inductive Kind
  | aligned
  | exact
  deriving DecidableEq, Repr

/-- The pools, and the buffers that are outstanding. -/
structure State where
  pools : Pools
  held : List (Kind × Slice)

/-- A call.  What is given back is the slice `buf[lo:hi:max]` of the `i`-th buffer outstanding. -/
inductive Op
  | get (n : Int)
  | put (i lo hi max : Nat)
  | getExact (n : Int)
  | putExact (i lo hi max : Nat)
  deriving DecidableEq, Repr

namespace State

variable (base : Nat → Nat) (s : State)

def init : State := ⟨.new, []⟩

/-- What a call to give back is about, if the buffer is outstanding, of the matching pool, and
the bounds of the slice are good. -/
def back (k : Kind) (i lo hi max : Nat) : Option Slice :=
  (s.held[i]?).bind fun h =>
    if h.1 = k ∧ lo ≤ hi ∧ hi ≤ max ∧ max ≤ h.2.cap then some (h.2.slice lo hi max) else none

/-- The state when a `Get` has returned. -/
def hand (k : Kind) (r : Option Slice × Pools) : State :=
  ⟨r.2, (r.1.map (fun buf => (k, buf))).toList ++ s.held⟩

/-- One call. -/
def step : Op → Option State
  | .get n => some (s.hand .aligned (s.pools.get base n))
  | .put i lo hi max =>
    (s.back .aligned i lo hi max).map fun buf => ⟨s.pools.put buf, s.held.eraseIdx i⟩
  | .getExact n => some (s.hand .exact (s.pools.getExact base n))
  | .putExact i lo hi max =>
    (s.back .exact i lo hi max).map fun buf => ⟨s.pools.putExact buf, s.held.eraseIdx i⟩

/-- What a user of the pools relies on. -/
structure Safe : Prop where
  get : ∀ n : Int, 0 < n → ∃ buf p, s.pools.get base n = (some buf, p) ∧ 4096 ∣ buf.addr base ∧
    n ≤ buf.len ∧ ∀ h ∈ s.held, buf.Apart h.2
  getExact : ∀ n : Int, 0 < n → ∃ buf p, s.pools.getExact base n = (some buf, p) ∧
    4096 ∣ buf.addr base ∧ (buf.len : Int) = n ∧ (buf.cap : Int) = n ∧ ∀ h ∈ s.held, buf.Apart h.2
  kept : ∀ shelf, (s.pools.free shelf).length ≤ keepFor shelf.size

/-- `Put` drops the slice. -/
def Drops (p : Pools) (buf : Slice) : Prop :=
  buf.cap = 0 ∨ numBuckets ≤ bufBucket buf.cap ∨
    keepFor (bucketSize (bufBucket buf.cap)) ≤ (p.free (.bucket (bufBucket buf.cap))).length

/-- `PutExact` drops the slice. -/
def DropsExact (p : Pools) (buf : Slice) : Prop :=
  buf.cap = 0 ∨ keepFor buf.cap ≤ (p.free (.exact (shardFor buf.cap) buf.cap)).length

/-- A slice that is given back to the aligned pool starts at a multiple of 4096 and has the
capacity of a bucket, and one that is given back to the exact pool starts at a multiple of 4096;
or it is dropped. -/
def Regular : Op → Prop
  | .put i lo hi max => ∀ buf, s.back .aligned i lo hi max = some buf →
    Drops s.pools buf ∨ 4096 ∣ buf.addr base ∧ buf.cap = bucketSize (bufBucket buf.cap)
  | .putExact i lo hi max => ∀ buf, s.back .exact i lo hi max = some buf →
    DropsExact s.pools buf ∨ 4096 ∣ buf.addr base
  | _ => True

/-! ## 4. What every call keeps -/

/-- The outstanding buffers and the freelists. -/
def lists (s : State) : Option Shelf → List Slice
  | none => s.held.map Prod.snd
  | some shelf => s.pools.free shelf

/-- Holds of every state: what is outstanding or kept is apart, it lies in arrays that have been
made, and no freelist is too long. -/
structure Inv (s : State) : Prop where
  apart : Separated Slice.Apart s.lists
  made : ∀ i, ∀ x ∈ s.lists i, x.array < s.pools.made
  kept : ∀ shelf, (s.pools.free shelf).length ≤ keepFor shelf.size

/-- What is kept starts at a multiple of 4096 and has the size of its freelist. -/
def Fit (base : Nat → Nat) (p : Pools) : Prop :=
  ∀ shelf, ∀ x ∈ p.free shelf, 4096 ∣ x.addr base ∧ x.len = shelf.size ∧ x.cap = shelf.size

variable {base : Nat → Nat} {s : State} {p : Pools} {held : List (Kind × Slice)} {buf : Slice}
  {k : Kind} {shelf : Shelf} {n : Nat}

theorem lists_update (p : Pools) (held : List (Kind × Slice)) (shelf : Shelf) (l : List Slice) :
    lists ⟨{ p with free := Function.update p.free shelf l }, held⟩ =
      Function.update (lists ⟨p, held⟩) (some shelf) l := by
  funext i
  cases i with
  | none => exact (Function.update_of_ne (by simp) _ _).symm
  | some sh =>
    by_cases h : sh = shelf
    · subst h
      simp [lists]
    · rw [Function.update_of_ne (by simpa using h)]
      exact Function.update_of_ne h _ _

theorem lists_hold (p : Pools) (held held' : List (Kind × Slice)) :
    lists ⟨p, held'⟩ = Function.update (lists ⟨p, held⟩) none (held'.map Prod.snd) := by
  funext i
  cases i with
  | none =>
    rw [Function.update_self]
    rfl
  | some sh => exact (Function.update_of_ne (by simp) _ _).symm

theorem length_update_le {l : List Slice} (h : ∀ sh, (p.free sh).length ≤ keepFor sh.size)
    (hl : l.length ≤ keepFor shelf.size) (sh : Shelf) :
    (Function.update p.free shelf l sh).length ≤ keepFor sh.size := by
  by_cases hs : sh = shelf
  · rw [hs, Function.update_self]
    exact hl
  · rw [Function.update_of_ne hs]
    exact h sh

theorem inv_init : Inv init where
  apart := .of_nil fun i => by cases i <;> rfl
  made := fun i x hx => by cases i <;> exact absurd hx List.not_mem_nil
  kept := fun _ => Nat.zero_le _

theorem fit_new : Fit base Pools.new := fun _ _ hx => absurd hx List.not_mem_nil

/-- A new buffer. -/
theorem addr_alignedBuffer (p : Pools) (n : Nat) : 4096 ∣ (p.alignedBuffer base n).1.addr base := by
  unfold Pools.alignedBuffer Slice.addr
  simp only
  split <;> omega

/-- **Taking a buffer.**  It is apart from all that is outstanding, and the state keeps its
invariant when it is handed out. -/
theorem Inv.hand_new (h : Inv ⟨p, held⟩) (k : Kind) (n : Nat) :
    (∀ x ∈ held, (p.alignedBuffer base n).1.Apart x.2) ∧
      Inv ⟨(p.alignedBuffer base n).2, (k, (p.alignedBuffer base n).1) :: held⟩ := by
  have hapart : ∀ i, ∀ x ∈ lists ⟨p, held⟩ i, (p.alignedBuffer base n).1.Apart x :=
    fun i x hx => Or.inl (Nat.ne_of_gt (h.made i x hx))
  refine ⟨fun x hx => hapart none x.2 (List.mem_map_of_mem hx), ?_⟩
  constructor
  · have hgive := h.apart.give Slice.Apart.symm hapart none
    exact (lists_hold p held ((k, (p.alignedBuffer base n).1) :: held)).symm ▸ hgive
  · intro i x hx
    cases i with
    | none =>
      rcases List.mem_cons.mp hx with rfl | hx
      · exact Nat.lt_succ_self _
      · exact Nat.lt_succ_of_lt (h.made none x hx)
    | some sh => exact Nat.lt_succ_of_lt (h.made (some sh) x hx)
  · exact h.kept

theorem Inv.hand_takeFrom (h : Inv ⟨p, held⟩) (k : Kind) (shelf : Shelf) :
    (∀ x ∈ held, (p.takeFrom base shelf).1.Apart x.2) ∧
      Inv ⟨(p.takeFrom base shelf).2, (k, (p.takeFrom base shelf).1) :: held⟩ := by
  unfold Pools.takeFrom
  split
  · rename_i buf rest hfree
    obtain ⟨hrest, hapart⟩ := h.apart.take (i := some shelf) Slice.Apart.symm
      (List.Perm.of_eq hfree)
    rw [← lists_update] at hrest hapart
    have hsub : ∀ x ∈ buf :: rest, x ∈ lists ⟨p, held⟩ (some shelf) :=
      fun x hx => (congrArg (x ∈ ·) hfree).mpr hx
    have hmade : ∀ i, ∀ x ∈ Function.update (lists ⟨p, held⟩) (some shelf) rest i,
        x.array < p.made := by
      intro i x hx
      by_cases hi : i = some shelf
      · rw [hi, Function.update_self] at hx
        exact h.made (some shelf) x (hsub x (List.mem_cons_of_mem buf hx))
      · rw [Function.update_of_ne hi] at hx
        exact h.made i x hx
    rw [← lists_update] at hmade
    refine ⟨fun x hx => hapart none x.2 (List.mem_map_of_mem hx), ?_⟩
    constructor
    · have hgive := hrest.give Slice.Apart.symm hapart none
      exact (lists_hold _ held ((k, buf) :: held)).symm ▸ hgive
    · intro i x hx
      cases i with
      | none =>
        rcases List.mem_cons.mp hx with rfl | hx
        · exact h.made (some shelf) _ (hsub _ List.mem_cons_self)
        · exact h.made none x hx
      | some sh => exact hmade (some sh) x hx
    · refine length_update_le h.kept ?_
      have hle := h.kept shelf
      rw [hfree] at hle
      exact (Nat.le_succ _).trans hle
  · exact h.hand_new k shelf.size

/-- What is given back is a slice of an outstanding buffer. -/
theorem back_eq_some {i lo hi max : Nat} (hb : s.back k i lo hi max = some buf) :
    ∃ x, s.held[i]? = some (k, x) ∧ buf.Within x ∧ buf.len ≤ buf.cap := by
  obtain ⟨⟨k', x⟩, hx, hif⟩ := Option.bind_eq_some_iff.mp hb
  simp only at hif
  split at hif
  · rename_i hok
    obtain ⟨rfl, hlo, hhi, hmax⟩ := hok
    cases hif
    refine ⟨x, hx, Slice.slice_within hlo hhi hmax, ?_⟩
    show hi - lo ≤ max - lo
    omega
  · exact absurd hif (by simp)

/-- **Giving back.**  A slice of a buffer that is not outstanding any more is apart from all the
rest. -/
theorem Inv.give_back (h : Inv s) {i : Nat} {x : Slice} (hx : s.held[i]? = some (k, x)) :
    Inv ⟨s.pools, s.held.eraseIdx i⟩ ∧ (x.array < s.pools.made ∧
      ∀ j, ∀ y ∈ lists ⟨s.pools, s.held.eraseIdx i⟩ j, x.Apart y) := by
  obtain ⟨hlt, hget⟩ := List.getElem?_eq_some_iff.mp hx
  have hperm : (s.lists none).Perm (x :: (s.held.eraseIdx i).map Prod.snd) := by
    have hp := (List.getElem_cons_eraseIdx_perm hlt).symm.map Prod.snd
    rw [hget] at hp
    exact hp
  obtain ⟨hrest, hapart⟩ := h.apart.take Slice.Apart.symm hperm
  have hlists : Function.update s.lists none ((s.held.eraseIdx i).map Prod.snd) =
      lists ⟨s.pools, s.held.eraseIdx i⟩ := (lists_hold s.pools s.held _).symm
  rw [hlists] at hrest hapart
  refine ⟨⟨hrest, fun j y hy => ?_, h.kept⟩, ?_, hapart⟩
  · cases j with
    | none =>
      obtain ⟨z, hz, rfl⟩ := List.mem_map.mp hy
      exact h.made none z.2 (List.mem_map_of_mem (List.mem_of_mem_eraseIdx hz))
    | some sh => exact h.made (some sh) y hy
  · exact h.made none x (hperm.symm.subset List.mem_cons_self)

/-- **Keeping a buffer** that is apart from everything. -/
theorem Inv.keepIn (h : Inv ⟨p, held⟩) (hmade : buf.array < p.made)
    (hapart : ∀ j, ∀ y ∈ lists ⟨p, held⟩ j, buf.Apart y) (shelf : Shelf) :
    Inv ⟨p.keepIn shelf buf, held⟩ := by
  unfold Pools.keepIn
  split
  · rename_i hlt
    constructor
    · rw [lists_update]
      exact h.apart.give Slice.Apart.symm hapart (some shelf)
    · intro j x hx
      rw [lists_update] at hx
      by_cases hj : j = some shelf
      · rw [hj, Function.update_self] at hx
        rcases List.mem_cons.mp hx with rfl | hx
        · exact hmade
        · exact h.made (some shelf) x hx
      · rw [Function.update_of_ne hj] at hx
        exact h.made j x hx
    · exact length_update_le h.kept hlt
  · exact h

/-! ## 5. What users get -/

theorem Fit.set (h : Fit base p) {l : List Slice}
    (hl : ∀ x ∈ l, 4096 ∣ x.addr base ∧ x.len = shelf.size ∧ x.cap = shelf.size) :
    Fit base { p with free := Function.update p.free shelf l } := by
  intro sh x hx
  simp only at hx
  by_cases hs : sh = shelf
  · subst hs
    rw [Function.update_self] at hx
    exact hl x hx
  · rw [Function.update_of_ne hs] at hx
    exact h sh x hx

theorem Fit.takeFrom (h : Fit base p) (shelf : Shelf) :
    (4096 ∣ (p.takeFrom base shelf).1.addr base ∧ (p.takeFrom base shelf).1.len = shelf.size ∧
      (p.takeFrom base shelf).1.cap = shelf.size) ∧ Fit base (p.takeFrom base shelf).2 := by
  unfold Pools.takeFrom
  split
  · rename_i buf rest hfree
    refine ⟨h shelf buf (hfree ▸ List.mem_cons_self), h.set fun x hx => ?_⟩
    exact h shelf x (hfree ▸ List.mem_cons_of_mem buf hx)
  · exact ⟨⟨addr_alignedBuffer p shelf.size, rfl, rfl⟩, h⟩

theorem Fit.keepIn (h : Fit base p) (hbuf : (p.free shelf).length < keepFor shelf.size →
    4096 ∣ buf.addr base ∧ buf.len = shelf.size ∧ buf.cap = shelf.size) :
    Fit base (p.keepIn shelf buf) := by
  unfold Pools.keepIn
  split
  · rename_i hlt
    refine h.set fun x hx => ?_
    rcases List.mem_cons.mp hx with rfl | hx
    · exact hbuf hlt
    · exact h shelf x hx
  · exact h

theorem get_of_pos (base : Nat → Nat) (p : Pools) (hn : 0 < n) :
    p.get base n = if numBuckets ≤ bufBucket n then
        (some (p.alignedBuffer base n).1, (p.alignedBuffer base n).2)
      else (some (p.takeFrom base (.bucket (bufBucket n))).1,
        (p.takeFrom base (.bucket (bufBucket n))).2) := by
  unfold Pools.get
  rw [if_neg (by omega)]
  simp only [Int.toNat_natCast]
  split <;> rfl

theorem getExact_of_pos (base : Nat → Nat) (p : Pools) (hn : 0 < n) :
    p.getExact base n = (some (p.takeFrom base (.exact (shardFor n) n)).1,
      (p.takeFrom base (.exact (shardFor n) n)).2) := by
  unfold Pools.getExact
  rw [if_neg (by omega)]
  rfl

/-- **The pools serve their users** as long as what they keep fits. -/
theorem safe_of_fit (h : Inv s) (hf : Fit base s.pools) : s.Safe base := by
  constructor
  · intro n hn
    obtain ⟨m, rfl⟩ := Int.eq_ofNat_of_zero_le hn.le
    rw [get_of_pos base s.pools (by omega)]
    split
    · exact ⟨_, _, rfl, addr_alignedBuffer s.pools m, Int.le_refl _,
        (h.hand_new .aligned m).1⟩
    · obtain ⟨haddr, hlen, -⟩ := (hf.takeFrom (.bucket (bufBucket m))).1
      refine ⟨_, _, rfl, haddr, ?_, (h.hand_takeFrom .aligned _).1⟩
      rw [hlen]
      exact Int.ofNat_le.mpr (le_bucketSize m)
  · intro n hn
    obtain ⟨m, rfl⟩ := Int.eq_ofNat_of_zero_le hn.le
    rw [getExact_of_pos base s.pools (by omega)]
    obtain ⟨haddr, hlen, hcap⟩ := (hf.takeFrom (.exact (shardFor m) m)).1
    exact ⟨_, _, rfl, haddr, congrArg _ hlen, congrArg _ hcap, (h.hand_takeFrom .exact _).1⟩
  · exact h.kept

/-- A buffer that has just been kept is the next one handed out. -/
theorem takeFrom_keepIn (hlt : (p.free shelf).length < keepFor shelf.size) :
    ((p.keepIn shelf buf).takeFrom base shelf).1 = buf := by
  unfold Pools.keepIn Pools.takeFrom
  rw [if_pos hlt]
  simp only [Function.update_self]

/-! ## 6. Every run -/

theorem put_eq (h : buf.len ≤ buf.cap) : p.put buf =
    if buf.cap = 0 ∨ numBuckets ≤ bufBucket buf.cap then p
    else p.keepIn (.bucket (bufBucket buf.cap)) buf.whole := by
  unfold Pools.put
  simp only [Slice.whole_len h]
  by_cases hz : buf.cap = 0
  · rw [if_pos hz, if_pos (Or.inl hz)]
  · by_cases hb : numBuckets ≤ bufBucket buf.cap
    · rw [if_neg hz, if_pos hb, if_pos (Or.inr hb)]
    · rw [if_neg hz, if_neg hb, if_neg (not_or.mpr ⟨hz, hb⟩)]

theorem putExact_eq (h : buf.len ≤ buf.cap) : p.putExact buf =
    if buf.cap = 0 then p else p.keepIn (.exact (shardFor buf.cap) buf.cap) buf.whole := by
  unfold Pools.putExact
  simp only [Slice.whole_len h]

/-- A slice that is kept is apart from everything. -/
theorem Inv.keep_back (h : Inv s) {i lo hi max : Nat} (hb : s.back k i lo hi max = some buf)
    (shelf : Shelf) : Inv ⟨s.pools, s.held.eraseIdx i⟩ ∧
      Inv ⟨s.pools.keepIn shelf buf.whole, s.held.eraseIdx i⟩ := by
  obtain ⟨x, hx, hin, -⟩ := back_eq_some hb
  obtain ⟨hinv, hmade, hapart⟩ := h.give_back hx
  refine ⟨hinv, hinv.keepIn ?_ (fun j y hy => ?_) shelf⟩
  · rw [Slice.whole_array, hin.1]
    exact hmade
  · exact (Slice.whole_within buf).apart (hin.apart (hapart j y hy))

/-- **Without any condition**: every call keeps the buffers apart and the freelists short. -/
theorem Inv.step {s' : State} {op : Op} (h : Inv s) (hs : s.step base op = some s') : Inv s' := by
  cases op with
  | get n =>
    cases hs
    by_cases hn : 0 < n
    · obtain ⟨m, rfl⟩ := Int.eq_ofNat_of_zero_le hn.le
      rw [get_of_pos base s.pools (by omega)]
      split
      · exact (h.hand_new .aligned m).2
      · exact (h.hand_takeFrom .aligned _).2
    · unfold Pools.get
      rw [if_pos (not_lt.mp hn)]
      exact h
  | put i lo hi max =>
    obtain ⟨buf, hb, rfl⟩ := Option.map_eq_some_iff.mp hs
    rw [put_eq (back_eq_some hb).choose_spec.2.2]
    split
    · exact (h.keep_back hb (.bucket 0)).1
    · exact (h.keep_back hb _).2
  | getExact n =>
    cases hs
    by_cases hn : 0 < n
    · obtain ⟨m, rfl⟩ := Int.eq_ofNat_of_zero_le hn.le
      rw [getExact_of_pos base s.pools (by omega)]
      exact (h.hand_takeFrom .exact _).2
    · unfold Pools.getExact
      rw [if_pos (not_lt.mp hn)]
      exact h
  | putExact i lo hi max =>
    obtain ⟨buf, hb, rfl⟩ := Option.map_eq_some_iff.mp hs
    rw [putExact_eq (back_eq_some hb).choose_spec.2.2]
    split
    · exact (h.keep_back hb (.bucket 0)).1
    · exact (h.keep_back hb _).2

/-- A regular call leaves what is kept fit. -/
theorem Fit.step {s' : State} {op : Op} (h : Fit base s.pools) (hr : s.Regular base op)
    (hs : s.step base op = some s') : Fit base s'.pools := by
  cases op with
  | get n =>
    cases hs
    by_cases hn : 0 < n
    · obtain ⟨m, rfl⟩ := Int.eq_ofNat_of_zero_le hn.le
      rw [get_of_pos base s.pools (by omega)]
      split
      · exact h
      · exact (h.takeFrom _).2
    · unfold Pools.get
      rw [if_pos (not_lt.mp hn)]
      exact h
  | put i lo hi max =>
    obtain ⟨buf, hb, rfl⟩ := Option.map_eq_some_iff.mp hs
    obtain ⟨-, -, -, hlen⟩ := back_eq_some hb
    show Fit base (s.pools.put buf)
    rw [put_eq hlen]
    split
    · exact h
    · rename_i hkept
      refine h.keepIn fun hlt => ?_
      rcases hr buf hb with hdrop | ⟨haddr, hcap⟩
      · rcases hdrop with hz | hbig | hfull
        · exact absurd (Or.inl hz) hkept
        · exact absurd (Or.inr hbig) hkept
        · exact absurd hlt (Nat.not_lt.mpr hfull)
      · rw [Slice.whole_addr, Slice.whole_len hlen, Slice.whole_cap]
        exact ⟨haddr, hcap, hcap⟩
  | getExact n =>
    cases hs
    by_cases hn : 0 < n
    · obtain ⟨m, rfl⟩ := Int.eq_ofNat_of_zero_le hn.le
      rw [getExact_of_pos base s.pools (by omega)]
      exact (h.takeFrom _).2
    · unfold Pools.getExact
      rw [if_pos (not_lt.mp hn)]
      exact h
  | putExact i lo hi max =>
    obtain ⟨buf, hb, rfl⟩ := Option.map_eq_some_iff.mp hs
    obtain ⟨-, -, -, hlen⟩ := back_eq_some hb
    show Fit base (s.pools.putExact buf)
    rw [putExact_eq hlen]
    split
    · exact h
    · rename_i hkept
      refine h.keepIn fun hlt => ?_
      rcases hr buf hb with hdrop | haddr
      · rcases hdrop with hz | hfull
        · exact absurd hz hkept
        · exact absurd hlt (Nat.not_lt.mpr hfull)
      · rw [Slice.whole_addr, Slice.whole_len hlen, Slice.whole_cap]
        exact ⟨haddr, rfl, rfl⟩

/-- A call that is not possible is regular. -/
theorem regular_of_step {op : Op} (h : ∀ s₁, s.step base op = some s₁ → s.Regular base op) :
    s.Regular base op := by
  cases op with
  | get n => trivial
  | getExact n => trivial
  | put i lo hi max =>
    intro buf hb
    exact h _ (congrArg (Option.map _) hb) buf hb
  | putExact i lo hi max =>
    intro buf hb
    exact h _ (congrArg (Option.map _) hb) buf hb

/-- What a `Put` keeps is what the next `Get` of the bucket returns. -/
theorem get_put (hlen : buf.len ≤ buf.cap) (hd : ¬ Drops p buf) :
    ((p.put buf).get base (bucketSize (bufBucket buf.cap))).1 = some buf.whole := by
  obtain ⟨hz, hrest⟩ := not_or.mp hd
  obtain ⟨hbig, hfull⟩ := not_or.mp hrest
  have hroom : (p.free (.bucket (bufBucket buf.cap))).length <
      keepFor (Shelf.bucket (bufBucket buf.cap)).size := Nat.lt_of_not_le hfull
  have hpos : 0 < bucketSize (bufBucket buf.cap) := Nat.two_pow_pos _
  have hput : p.put buf = p.keepIn (.bucket (bufBucket buf.cap)) buf.whole := by
    rw [put_eq hlen, if_neg (not_or.mpr ⟨hz, hbig⟩)]
  rw [hput, get_of_pos _ _ hpos, bufBucket_bucketSize, if_neg hbig, takeFrom_keepIn hroom]

theorem getExact_putExact (hlen : buf.len ≤ buf.cap) (hd : ¬ DropsExact p buf) :
    ((p.putExact buf).getExact base buf.cap).1 = some buf.whole := by
  obtain ⟨hz, hfull⟩ := not_or.mp hd
  have hroom : (p.free (.exact (shardFor buf.cap) buf.cap)).length <
      keepFor (Shelf.exact (shardFor buf.cap) buf.cap).size := Nat.lt_of_not_le hfull
  rw [putExact_eq hlen, if_neg hz, getExact_of_pos _ _ (Nat.pos_of_ne_zero hz),
    takeFrom_keepIn hroom]

/-- **The next user gets what was kept.**  After a call that is not regular, some `Get` goes
wrong. -/
theorem not_safe_of_step {s' : State} {op : Op} (hr : ¬ s.Regular base op)
    (hs : s.step base op = some s') : ¬ s'.Safe base := by
  intro hsafe
  cases op with
  | get n => exact hr trivial
  | getExact n => exact hr trivial
  | put i lo hi max =>
    obtain ⟨buf, hb, rfl⟩ := Option.map_eq_some_iff.mp hs
    obtain ⟨-, -, -, hlen⟩ := back_eq_some hb
    refine hr fun buf' hb' => ?_
    obtain rfl := Option.some.inj (hb.symm.trans hb')
    by_cases hdrop : Drops s.pools buf
    · exact Or.inl hdrop
    · have hpos : 0 < bucketSize (bufBucket buf.cap) := Nat.two_pow_pos _
      obtain ⟨got, p, hgot, haddr, hlong, -⟩ := hsafe.get _ (Int.natCast_pos.mpr hpos)
      have hsame : got = buf.whole :=
        Option.some.inj ((congrArg Prod.fst hgot).symm.trans (get_put hlen hdrop))
      rw [hsame, Slice.whole_addr] at haddr
      rw [hsame, Slice.whole_len hlen] at hlong
      exact Or.inr ⟨haddr, Nat.le_antisymm (le_bucketSize _) (Int.ofNat_le.mp hlong)⟩
  | putExact i lo hi max =>
    obtain ⟨buf, hb, rfl⟩ := Option.map_eq_some_iff.mp hs
    obtain ⟨-, -, -, hlen⟩ := back_eq_some hb
    refine hr fun buf' hb' => ?_
    obtain rfl := Option.some.inj (hb.symm.trans hb')
    by_cases hdrop : DropsExact s.pools buf
    · exact Or.inl hdrop
    · have hpos : 0 < buf.cap := Nat.pos_of_ne_zero (not_or.mp hdrop).1
      obtain ⟨got, p, hgot, haddr, -⟩ := hsafe.getExact _ (Int.natCast_pos.mpr hpos)
      have hsame : got = buf.whole :=
        Option.some.inj ((congrArg Prod.fst hgot).symm.trans (getExact_putExact hlen hdrop))
      rw [hsame, Slice.whole_addr] at haddr
      exact Or.inr haddr

open Transition

/-- **Without any condition on what is given back**: after every run what is outstanding and what
is kept is apart, and no freelist is too long. -/
theorem inv_of_run {ops : List Op} (hrun : run (step base) init ops = some s) : Inv s := by
  have hall : Along (step base) (fun _ _ => True) init ops :=
    along_of_forall_mem (fun _ _ => trivial) init
  exact run_invariant (fun _ _ _ h _ hs => h.step hs) inv_init hall hrun

theorem safe_iff_along (ops : List Op) : ∀ {s : State}, Inv s → Fit base s.pools →
    ((∀ pre s', pre <+: ops → run (step base) s pre = some s' → s'.Safe base) ↔
      Along (step base) (Regular base) s ops) := by
  induction ops with
  | nil =>
    intro s h hf
    refine ⟨fun _ => trivial, fun _ pre s' hpre hrun => ?_⟩
    rw [List.prefix_nil.mp hpre] at hrun
    cases hrun
    exact safe_of_fit h hf
  | cons op ops ih =>
    intro s h hf
    constructor
    · intro hsafe
      have hreg : ∀ s₁, s.step base op = some s₁ → s.Regular base op := by
        intro s₁ hs₁
        by_contra hr
        refine not_safe_of_step hr hs₁ (hsafe [op] s₁ ⟨ops, rfl⟩ ?_)
        rw [run_cons_of hs₁, run_nil]
      refine ⟨regular_of_step hreg, fun s₁ hs₁ => ?_⟩
      refine (ih (h.step hs₁) (hf.step (hreg s₁ hs₁) hs₁)).mp fun pre s' hpre hrun => ?_
      refine hsafe (op :: pre) s' (List.cons_prefix_cons.mpr ⟨rfl, hpre⟩) ?_
      rw [run_cons_of hs₁, hrun]
    · rintro ⟨hreg, hrest⟩ pre s' hpre hrun
      rcases List.prefix_cons_iff.mp hpre with rfl | ⟨pre', rfl, hpre'⟩
      · cases hrun
        exact safe_of_fit h hf
      · obtain ⟨s₁, hs₁, hrun⟩ := Option.bind_eq_some_iff.mp hrun
        exact (ih (h.step hs₁) (hf.step hreg hs₁)).mpr (hrest s₁ hs₁) pre' s' hpre' hrun

/-- **When the pools serve their users.**  After every prefix of a run every `Get` returns an
aligned buffer that is long enough, and every `GetExact` one of the exact size, apart from all
that is outstanding, exactly when every slice that was given back started at a multiple of 4096,
with the capacity of a bucket for the aligned pool, or was dropped. -/
theorem safe_iff_regular (base : Nat → Nat) (ops : List Op) :
    (∀ pre s', pre <+: ops → run (step base) init pre = some s' → s'.Safe base) ↔
      Along (step base) (Regular base) init ops :=
  safe_iff_along ops inv_init fit_new

/-- A user takes 8192 bytes and gives back all but the first; the next user of 8192 bytes gets
8191, at an odd address. -/
theorem tail_is_handed_out : ¬ ∀ (base : Nat → Nat) (ops : List Op) (s : State),
    run (step base) init ops = some s → s.Safe base := by
  intro h
  have hview : (run (step fun _ => 0) init [.get 8192, .put 0 1 8192 8192]).map
      (fun s => (s.pools.get (fun _ => 0) 8192).1) = some (some ⟨0, 1, 8191, 8191⟩) := by
    decide +kernel
  obtain ⟨s, hrun, hget⟩ := Option.map_eq_some_iff.mp hview
  obtain ⟨buf, p, hgot, -, hlen, -⟩ := (h _ _ s hrun).get 8192 (by decide)
  have hbuf : buf = ⟨0, 1, 8191, 8191⟩ :=
    Option.some.inj ((congrArg Prod.fst hgot).symm.trans hget)
  rw [hbuf] at hlen
  exact absurd hlen (by decide)

end State

end Taihu.SlicePool
