/-
# Recency lists with a budget

A least-recently-used cache with a budget on the total weight is a list, most recent first.  A
write of `k` moves `k` to the front (`touch`) and then drops entries from the back until the list
is within its budget (`evict`).

Dropping from the back until the budget is met is the same as keeping the longest prefix that
meets it (`evict_eq_fit`).  And entries dropped early would not be kept later: a sequence of
writes may evict after each of them or once at the end (`fit_touch_fit`, `writeAll_fit`).  So what
the cache holds is determined by the order of the last uses alone.
-/
import Mathlib

namespace Recency

variable {κ ν : Type} (w : κ → Int)

/-! ## 1. Weights and prefixes -/

/-- The total weight. -/
def weight (xs : List (κ × ν)) : Int := (xs.map (fun x => w x.1)).sum

/-- The longest prefix of weight at most `b`. -/
def fit : Int → List (κ × ν) → List (κ × ν)
  | _, [] => []
  | b, x :: xs => if w x.1 ≤ b then x :: fit (b - w x.1) xs else []

/-- Drop entries from the back until the weight is at most `b`, in at most `n` rounds. -/
def evict (b : Int) : Nat → List (κ × ν) → List (κ × ν)
  | 0, xs => xs
  | n + 1, xs => if b < weight w xs then evict b n xs.dropLast else xs

@[simp] theorem weight_nil : weight w ([] : List (κ × ν)) = 0 := rfl

@[simp] theorem weight_cons (x : κ × ν) (xs : List (κ × ν)) :
    weight w (x :: xs) = w x.1 + weight w xs := rfl

variable {w}

theorem weight_nonneg (hw : ∀ k, 0 ≤ w k) (xs : List (κ × ν)) : 0 ≤ weight w xs := by
  induction xs with
  | nil => exact le_refl 0
  | cons x xs ih =>
    have hx := hw x.1
    rw [weight_cons]
    omega

theorem weight_filter_le (hw : ∀ k, 0 ≤ w k) (p : κ × ν → Bool) (xs : List (κ × ν)) :
    weight w (xs.filter p) ≤ weight w xs := by
  induction xs with
  | nil => exact le_refl _
  | cons x xs ih =>
    have hx := hw x.1
    rw [List.filter_cons, weight_cons]
    split
    · rw [weight_cons]
      omega
    · omega

theorem fit_of_neg (hw : ∀ k, 0 ≤ w k) {b : Int} (h : b < 0) (xs : List (κ × ν)) :
    fit w b xs = [] := by
  cases xs with
  | nil => rfl
  | cons x xs =>
    have hx := hw x.1
    rw [fit, if_neg (by omega)]

theorem fit_of_weight_le (hw : ∀ k, 0 ≤ w k) :
    ∀ {b : Int} {xs : List (κ × ν)}, weight w xs ≤ b → fit w b xs = xs
  | _, [], _ => rfl
  | b, x :: xs, h => by
    rw [weight_cons] at h
    have hnn := weight_nonneg hw xs
    rw [fit, if_pos (by omega), fit_of_weight_le hw (by omega)]

theorem weight_fit_le : ∀ {b : Int} (xs : List (κ × ν)), 0 ≤ b → weight w (fit w b xs) ≤ b
  | _, [], h => h
  | b, x :: xs, h => by
    rw [fit]
    split
    · have ih := weight_fit_le (b := b - w x.1) xs (by omega)
      rw [weight_cons]
      omega
    · exact h

/-- What fits is a prefix. -/
theorem fit_prefix : ∀ (b : Int) (xs : List (κ × ν)), fit w b xs <+: xs
  | _, [] => List.prefix_rfl
  | b, x :: xs => by
    rw [fit]
    split
    · exact List.cons_prefix_cons.mpr ⟨rfl, fit_prefix _ xs⟩
    · exact List.nil_prefix

/-- A list that is too heavy fits as well without its last entry. -/
theorem fit_dropLast : ∀ {b : Int} {xs : List (κ × ν)}, b < weight w xs →
    fit w b xs.dropLast = fit w b xs
  | _, [], _ => rfl
  | b, [x], h => by
    have hx : ¬ w x.1 ≤ b := by
      rw [weight_cons, weight_nil] at h
      omega
    rw [fit, if_neg hx]
    rfl
  | b, x :: y :: xs, h => by
    rw [weight_cons] at h
    rw [List.dropLast_cons_cons, fit, fit]
    split
    · rw [fit_dropLast (by omega)]
    · rfl

/-- **Eviction keeps the longest prefix within the budget.** -/
theorem evict_eq_fit (hw : ∀ k, 0 ≤ w k) {b : Int} :
    ∀ {n : Nat} {xs : List (κ × ν)}, xs.length ≤ n → evict w b n xs = fit w b xs
  | 0, xs, h => by
    rw [List.length_eq_zero_iff.mp (Nat.le_zero.mp h)]
    rfl
  | n + 1, xs, h => by
    rw [evict]
    split
    · rename_i hlt
      have hlen : xs.dropLast.length ≤ n := by
        rw [List.length_dropLast]
        omega
      rw [evict_eq_fit hw hlen, fit_dropLast hlt]
    · rename_i hle
      exact (fit_of_weight_le hw (by omega)).symm

/-! ## 2. Uses -/

variable [DecidableEq κ]

/-- The value of a key. -/
def find? (xs : List (κ × ν)) (k : κ) : Option ν := (xs.find? (fun x => x.1 = k)).map Prod.snd

/-- Move `k` to the front, with value `v`. -/
def touch (k : κ) (v : ν) (xs : List (κ × ν)) : List (κ × ν) :=
  (k, v) :: xs.filter (fun x => x.1 ≠ k)

/-- Move `k` to the front, if it is there. -/
def bump (k : κ) (xs : List (κ × ν)) : List (κ × ν) :=
  match find? xs k with
  | some v => touch k v xs
  | none => xs

theorem find?_cons (x : κ × ν) (xs : List (κ × ν)) (k : κ) :
    find? (x :: xs) k = if x.1 = k then some x.2 else find? xs k := by
  unfold find?
  rw [List.find?_cons]
  by_cases h : x.1 = k <;> simp [h]

theorem find?_eq_some_of_mem {xs : List (κ × ν)} (hn : (xs.map Prod.fst).Nodup) {k : κ} {v : ν}
    (h : (k, v) ∈ xs) : find? xs k = some v := by
  induction xs with
  | nil => exact absurd h List.not_mem_nil
  | cons x xs ih =>
    obtain ⟨hx, hn⟩ := List.nodup_cons.mp hn
    rw [find?_cons]
    rcases List.mem_cons.mp h with rfl | h
    · exact if_pos rfl
    · rw [if_neg, ih hn h]
      exact fun he => hx (he ▸ List.mem_map_of_mem h)

theorem mem_of_find? {xs : List (κ × ν)} {k : κ} {v : ν} (h : find? xs k = some v) :
    (k, v) ∈ xs := by
  obtain ⟨x, hx, rfl⟩ := Option.map_eq_some_iff.mp h
  have hk : x.1 = k := by simpa using List.find?_some hx
  exact hk ▸ List.mem_of_find?_eq_some hx

/-- Filtering by key. -/
theorem find?_filter (xs : List (κ × ν)) (p : κ → Prop) [DecidablePred p] (k : κ) :
    find? (xs.filter (fun x => p x.1)) k = if p k then find? xs k else none := by
  induction xs with
  | nil => exact (ite_self _).symm
  | cons x xs ih =>
    by_cases hx : p x.1
    · rw [List.filter_cons_of_pos (by simpa using hx), find?_cons, find?_cons, ih]
      by_cases hk : x.1 = k
      · rw [if_pos hk, if_pos hk, if_pos (hk ▸ hx)]
      · rw [if_neg hk, if_neg hk]
    · rw [List.filter_cons_of_neg (by simpa using hx), ih, find?_cons]
      by_cases hk : x.1 = k
      · rw [if_neg (hk ▸ hx), if_neg (hk ▸ hx)]
      · rw [if_neg hk]

/-- What a write leaves to be found. -/
theorem find?_touch (k : κ) (v : ν) (xs : List (κ × ν)) (k' : κ) :
    find? (touch k v xs) k' = if k' = k then some v else find? xs k' := by
  unfold touch
  rw [find?_cons]
  by_cases h : k' = k
  · rw [if_pos h.symm, if_pos h]
  · rw [if_neg (fun he => h he.symm), if_neg h, find?_filter xs (fun x => x ≠ k), if_pos h]

theorem nodup_touch (k : κ) (v : ν) {xs : List (κ × ν)} (hn : (xs.map Prod.fst).Nodup) :
    ((touch k v xs).map Prod.fst).Nodup := by
  refine List.nodup_cons.mpr ⟨?_, hn.sublist (List.filter_sublist.map _)⟩
  intro hin
  obtain ⟨x, hx, he⟩ := List.mem_map.mp hin
  simpa [he] using (List.mem_filter.mp hx).2

theorem weight_touch_le (hw : ∀ k, 0 ≤ w k) (k : κ) (v : ν) (xs : List (κ × ν)) :
    weight w (touch k v xs) ≤ w k + weight w xs :=
  Int.add_le_add_left (weight_filter_le hw _ xs) _

/-- A key that is there moves without adding weight. -/
theorem weight_bump_le (hw : ∀ k, 0 ≤ w k) (k : κ) (xs : List (κ × ν)) :
    weight w (bump k xs) ≤ weight w xs := by
  unfold bump
  split
  · rename_i v hv
    refine (?_ : w k + weight w (xs.filter (fun x => x.1 ≠ k)) ≤ weight w xs)
    have hin := mem_of_find? hv
    clear hv
    induction xs with
    | nil => exact absurd hin List.not_mem_nil
    | cons x xs ih =>
      rw [List.filter_cons, weight_cons]
      by_cases hx : x.1 = k
      · rw [if_neg (by simpa using hx), hx]
        exact Int.add_le_add_left (weight_filter_le hw _ xs) _
      · rw [if_pos (by simpa using hx), weight_cons]
        have ih := ih ((List.mem_cons.mp hin).resolve_left fun he => hx (congrArg Prod.fst he).symm)
        omega
  · exact le_refl _

/-- Filtering out `k` does not care about an earlier cut, if the cut left room for `k`. -/
theorem fit_filter_fit (hw : ∀ k, 0 ≤ w k) (k : κ) : ∀ {b b' : Int} {xs : List (κ × ν)},
    (xs.map Prod.fst).Nodup → b ≤ b' → (k ∈ xs.map Prod.fst → b + w k ≤ b') →
    fit w b ((fit w b' xs).filter (fun x => x.1 ≠ k)) = fit w b (xs.filter (fun x => x.1 ≠ k))
  | _, _, [], _, _, _ => rfl
  | b, b', x :: xs, hn, hb, hk => by
    obtain ⟨hx, hn⟩ := List.nodup_cons.mp hn
    by_cases hneg : b < 0
    · rw [fit_of_neg hw hneg, fit_of_neg hw hneg]
    by_cases hxk : x.1 = k
    · have hroom := hk (hxk ▸ List.mem_cons_self)
      rw [fit, if_pos (by rw [hxk]; omega), List.filter_cons_of_neg (by simpa using hxk),
        List.filter_cons_of_neg (by simpa using hxk)]
      exact fit_filter_fit hw k hn (by rw [hxk]; omega) fun hin => absurd (hxk ▸ hin) hx
    · rw [List.filter_cons_of_pos (by simpa using hxk), fit]
      split
      · rw [List.filter_cons_of_pos (by simpa using hxk), fit, fit]
        split
        · rw [fit_filter_fit hw k hn (by omega) fun hin => ?_]
          have hroom := hk (List.mem_cons_of_mem _ hin)
          omega
        · rfl
      · rw [List.filter_nil, fit, fit, if_neg (by omega)]

/-- **What was dropped stays dropped.** -/
theorem fit_touch_fit (hw : ∀ k, 0 ≤ w k) {b : Int} (k : κ) (v : ν) {xs : List (κ × ν)}
    (hn : (xs.map Prod.fst).Nodup) :
    fit w b (touch k v (fit w b xs)) = fit w b (touch k v xs) := by
  have hk := hw k
  unfold touch
  rw [fit, fit]
  dsimp only
  split
  · rw [fit_filter_fit hw k hn (by omega) fun _ => by omega]
  · rfl

/-! ## 3. Sequences of writes -/

/-- The writes `ys`, first to last, without a budget. -/
def touchAll (ys xs : List (κ × ν)) : List (κ × ν) := ys.foldl (fun xs y => touch y.1 y.2 xs) xs

/-- The keys `ks` are read, first to last. -/
def bumpAll (ks : List κ) (xs : List (κ × ν)) : List (κ × ν) := ks.foldl (fun xs k => bump k xs) xs

/-- **One eviction at the end is enough.** -/
theorem writeAll_fit (hw : ∀ k, 0 ≤ w k) {b : Int} (ys : List (κ × ν)) :
    ∀ {xs : List (κ × ν)}, (xs.map Prod.fst).Nodup →
      ys.foldl (fun xs y => fit w b (touch y.1 y.2 xs)) (fit w b xs) = fit w b (touchAll ys xs) := by
  induction ys with
  | nil => exact fun _ => rfl
  | cons y ys ih =>
    intro xs hn
    rw [List.foldl_cons, fit_touch_fit hw y.1 y.2 hn]
    exact ih (nodup_touch y.1 y.2 hn)

/-- The keys written come first; of the others the order stays. -/
theorem touchAll_eq (ys : List (κ × ν)) : ∀ xs : List (κ × ν),
    touchAll ys xs = touchAll ys [] ++ xs.filter (fun x => x.1 ∉ ys.map Prod.fst) := by
  induction ys with
  | nil =>
    intro xs
    simp [touchAll]
  | cons y ys ih =>
    intro xs
    have hsplit : touch y.1 y.2 xs = touch y.1 y.2 [] ++ xs.filter (fun x => x.1 ≠ y.1) := rfl
    have hkeys : (xs.filter (fun x => x.1 ≠ y.1)).filter (fun x => x.1 ∉ ys.map Prod.fst)
        = xs.filter (fun x => x.1 ∉ (y :: ys).map Prod.fst) := by
      rw [List.filter_filter]
      refine List.filter_congr fun x _ => ?_
      rw [List.map_cons]
      by_cases hx : x.1 = y.1
      · simp [hx]
      · simp [hx]
    calc touchAll (y :: ys) xs
        = touchAll ys [] ++ (touch y.1 y.2 xs).filter (fun x => x.1 ∉ ys.map Prod.fst) :=
          ih (touch y.1 y.2 xs)
      _ = touchAll ys [] ++ (touch y.1 y.2 []).filter (fun x => x.1 ∉ ys.map Prod.fst)
            ++ xs.filter (fun x => x.1 ∉ (y :: ys).map Prod.fst) := by
          rw [hsplit, List.filter_append, hkeys, List.append_assoc]
      _ = touchAll (y :: ys) [] ++ xs.filter (fun x => x.1 ∉ (y :: ys).map Prod.fst) := by
          rw [← ih (touch y.1 y.2 [])]
          rfl

theorem filter_touch {ks : List κ} {k : κ} (h : k ∈ ks) (v : ν) (xs : List (κ × ν)) :
    (touch k v xs).filter (fun x => x.1 ∉ ks) = xs.filter (fun x => x.1 ∉ ks) := by
  unfold touch
  rw [List.filter_cons_of_neg (by simpa using h), List.filter_filter]
  refine List.filter_congr fun x _ => ?_
  by_cases hx : x.1 = k
  · simp [hx, h]
  · simp [hx]

theorem filter_bumpAll {ks : List κ} (js : List κ) (h : ∀ j ∈ js, j ∈ ks) :
    ∀ xs : List (κ × ν), (bumpAll js xs).filter (fun x => x.1 ∉ ks)
      = xs.filter (fun x => x.1 ∉ ks) := by
  induction js with
  | nil => exact fun _ => rfl
  | cons j js ih =>
    intro xs
    refine (ih (fun i hi => h i (List.mem_cons_of_mem _ hi)) (bump j xs)).trans ?_
    unfold bump
    split
    · exact filter_touch (h j List.mem_cons_self) _ xs
    · rfl

/-- **Reads of the keys that are about to be written leave no trace.** -/
theorem touchAll_bumpAll (ys : List (κ × ν)) {js : List κ} (h : ∀ j ∈ js, j ∈ ys.map Prod.fst)
    (xs : List (κ × ν)) : touchAll ys (bumpAll js xs) = touchAll ys xs := by
  rw [touchAll_eq, filter_bumpAll js h, ← touchAll_eq]

theorem touch_bump (k : κ) (v : ν) (xs : List (κ × ν)) : touch k v (bump k xs) = touch k v xs :=
  touchAll_bumpAll [(k, v)] (show ∀ j ∈ [k], j ∈ [k] from fun _ hj => hj) xs

/-! ## 4. Histories -/

/-- What may be done to a cache. -/
inductive Op (κ ν : Type)
  | get (k : κ)
  | put (k : κ) (v : ν)
  | del (k : κ)
  deriving DecidableEq, Repr

namespace Op

/-- The key an operation is about. -/
def key : Op κ ν → κ
  | get k => k
  | put k _ => k
  | del k => k

/-- A read and a write of `k` use `k`. -/
def uses (k : κ) : Op κ ν → Bool
  | get j => j = k
  | put j _ => j = k
  | del _ => false

/-- What an operation makes of a recency list with budget `b`. -/
def apply (w : κ → Int) (b : Int) : Op κ ν → List (κ × ν) → List (κ × ν)
  | get k, xs => bump k xs
  | put k v, xs => fit w b (touch k v xs)
  | del k, xs => xs.filter (fun x => x.1 ≠ k)

end Op

/-- How many operations ago `k` was used last. -/
def sinceUse (ops : List (Op κ ν)) (k : κ) : Nat := ops.reverse.findIdx (Op.uses k)

/-- The entries stand in the order of their last uses, the latest first. -/
def ByUse (ops : List (Op κ ν)) (xs : List (κ × ν)) : Prop :=
  xs.Pairwise (fun x y => sinceUse ops x.1 < sinceUse ops y.1)

variable {ops : List (Op κ ν)} {op : Op κ ν} {xs ys : List (κ × ν)}

theorem sinceUse_concat (ops : List (Op κ ν)) (op : Op κ ν) (k : κ) :
    sinceUse (ops ++ [op]) k = if op.uses k then 0 else sinceUse ops k + 1 := by
  unfold sinceUse
  rw [List.reverse_append, List.reverse_singleton, List.singleton_append, List.findIdx_cons]
  cases op.uses k <;> rfl

theorem Op.key_of_uses {k : κ} (h : op.uses k = true) : op.key = k := by
  cases op with
  | get j => exact of_decide_eq_true h
  | put j v => exact of_decide_eq_true h
  | del j => exact absurd h Bool.false_ne_true

theorem ByUse.sublist (h : ByUse ops xs) (hs : ys.Sublist xs) : ByUse ops ys :=
  List.Pairwise.sublist hs h

/-- Operations on other keys leave the order of the last uses. -/
theorem ByUse.idle (h : ByUse ops xs) (hn : ∀ x ∈ xs, op.uses x.1 = false) :
    ByUse (ops ++ [op]) xs := by
  refine List.Pairwise.imp_of_mem ?_ h
  intro x y hx hy hlt
  rw [sinceUse_concat, sinceUse_concat, hn x hx, hn y hy]
  simpa using hlt

/-- **A use moves its key to where it belongs.** -/
theorem ByUse.touch {k : κ} (h : ByUse ops xs) (hu : op.uses k = true) (v : ν) :
    ByUse (ops ++ [op]) (touch k v xs) := by
  have hkey := Op.key_of_uses hu
  have hother : ∀ x ∈ xs.filter (fun x => x.1 ≠ k), op.uses x.1 = false := by
    intro x hx
    have hne : x.1 ≠ k := by simpa using (List.mem_filter.mp hx).2
    refine Bool.eq_false_iff.mpr fun hc => hne ?_
    rw [← Op.key_of_uses hc, hkey]
  refine List.pairwise_cons.mpr ⟨?_, (h.sublist List.filter_sublist).idle hother⟩
  intro x hx
  rw [sinceUse_concat, sinceUse_concat, hu, hother x hx]
  simp

theorem not_mem_keys_of_find? {k : κ} (h : find? xs k = none) {x : κ × ν} (hx : x ∈ xs) :
    x.1 ≠ k := by
  rw [find?, Option.map_eq_none_iff, List.find?_eq_none] at h
  simpa using h x hx

theorem ByUse.bump (h : ByUse ops xs) (k : κ) : ByUse (ops ++ [.get k]) (bump k xs) := by
  unfold Recency.bump
  split
  · rename_i v hv
    have hu : (Op.get k : Op κ ν).uses k = true := decide_eq_true rfl
    exact h.touch hu v
  · rename_i hf
    exact h.idle fun x hx => decide_eq_false (not_mem_keys_of_find? hf hx).symm

/-- **The order of the list is the order of the last uses.** -/
theorem ByUse.apply (h : ByUse ops xs) (b : Int) : ByUse (ops ++ [op]) (op.apply w b xs) := by
  cases op with
  | get k => exact h.bump k
  | put k v =>
    have hu : (Op.put k v).uses k = true := decide_eq_true rfl
    exact (h.touch hu v).sublist ( fit_prefix b _).sublist
  | del k => exact (h.sublist List.filter_sublist).idle fun _ _ => rfl

theorem mem_touch {k : κ} {v : ν} {x : κ × ν} (h : x ∈ touch k v xs) : x.1 = k ∨ x ∈ xs := by
  rcases List.mem_cons.mp h with rfl | h
  · exact Or.inl rfl
  · exact Or.inr (List.mem_of_mem_filter h)

theorem mem_bump {k : κ} {x : κ × ν} (h : x ∈ bump k xs) : x.1 = k ∨ x ∈ xs := by
  unfold bump at h
  split at h
  · exact mem_touch h
  · exact Or.inr h

/-- No entry comes in but the one written. -/
theorem Op.mem_apply {b : Int} {x : κ × ν} (h : x ∈ op.apply w b xs) : x.1 = op.key ∨ x ∈ xs := by
  cases op with
  | get k => exact mem_bump h
  | put k v => exact mem_touch (( fit_prefix b _).subset h)
  | del k => exact Or.inr (List.mem_of_mem_filter h)

/-- What is found in the front part of a list is what is not in the rest. -/
theorem find?_front (hn : ((xs ++ ys).map Prod.fst).Nodup) {k : κ} {v : ν} :
    find? xs k = some v ↔ find? (xs ++ ys) k = some v ∧ k ∉ ys.map Prod.fst := by
  have hsplit := List.nodup_append.mp (List.map_append ▸ hn)
  constructor
  · intro h
    have hmem := mem_of_find? h
    refine ⟨find?_eq_some_of_mem hn (List.mem_append_left _ hmem), fun hk => ?_⟩
    exact hsplit.2.2 k (List.mem_map_of_mem hmem) k hk rfl
  · rintro ⟨h, hk⟩
    rcases List.mem_append.mp (mem_of_find? h) with hmem | hmem
    · exact find?_eq_some_of_mem hsplit.1 hmem
    · exact absurd (List.mem_map_of_mem hmem) hk

end Recency
