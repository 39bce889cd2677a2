/-
# Answers that are kept

A request is answered from a table, under its key; where the table has nothing the answer is made,
and kept if it could be made.  A run of requests leaves under every key what the first request
that could be answered has made (`lookup_after`), and every request is answered by that
(`answer_eq`).
-/
import Mathlib

namespace Memo

variable {ι κ β : Type*} [DecidableEq κ] (key : ι → κ) (make : ι → Option β)

/-- One request: the table after it, and the answer. -/
def serve (t : List (κ × β)) (r : ι) : List (κ × β) × Option β :=
  match t.lookup (key r) with
  | some b => (t, some b)
  | none =>
    match make r with
    | some b => ((key r, b) :: t, some b)
    | none => (t, none)

/-- The table after a run of requests. -/
def after (rs : List ι) : List (κ × β) := rs.foldl (fun t r => (serve key make t r).1) []

/-- What the first of the requests for a key that could be answered makes. -/
def first (k : κ) (rs : List ι) : Option β :=
  rs.findSome? (fun r => if key r = k then make r else none)

variable {key make}

/-- One request adds an answer under its own key, where there was none. -/
theorem lookup_serve (t : List (κ × β)) (r : ι) (k : κ) :
    (serve key make t r).1.lookup k =
      (t.lookup k).or (if key r = k then make r else none) := by
  unfold serve
  cases ht : t.lookup (key r) with
  | some b =>
    by_cases hk : key r = k
    · rw [← hk, ht]
      rfl
    · rw [if_neg hk, Option.or_none]
  | none =>
    cases hm : make r with
    | some b =>
      show List.lookup k ((key r, b) :: t) = _
      rw [List.lookup_cons]
      by_cases hk : key r = k
      · rw [← hk, ht, if_pos rfl, beq_self_eq_true]
        rfl
      · rw [if_neg hk, Option.or_none, beq_false_of_ne (Ne.symm hk)]
    | none =>
      show t.lookup k = _
      rw [ite_self, Option.or_none]

/-- **After a run, every key has what the first request that could be answered has made.** -/
theorem lookup_after (rs : List ι) (k : κ) : (after key make rs).lookup k = first key make k rs := by
  have hgen : ∀ (rs : List ι) (t : List (κ × β)),
      (rs.foldl (fun t r => (serve key make t r).1) t).lookup k =
        (t.lookup k).or (first key make k rs) := by
    intro rs
    induction rs with
    | nil => exact fun t => (Option.or_none).symm
    | cons r rs ih =>
      intro t
      rw [List.foldl_cons, ih, lookup_serve, Option.or_assoc]
      congr 1
      unfold first
      rw [List.findSome?_cons]
      cases (if key r = k then make r else none) with
      | some b => rfl
      | none => rfl
  exact hgen rs []

/-- **A request is answered by the first request for its key that could be answered**, among the
earlier ones and itself. -/
theorem answer_eq (rs : List ι) (r : ι) :
    (serve key make (after key make rs) r).2 = first key make (key r) (rs ++ [r]) := by
  have hlookup : (after key make rs).lookup (key r) = first key make (key r) rs :=
    lookup_after rs (key r)
  unfold first at hlookup ⊢
  rw [List.findSome?_append, ← hlookup, List.findSome?_singleton, if_pos rfl]
  unfold serve
  cases (after key make rs).lookup (key r) with
  | some b => rfl
  | none => cases make r <;> rfl

theorem first_eq_some {k : κ} {rs : List ι} {b : β} (h : first key make k rs = some b) :
    ∃ r ∈ rs, key r = k ∧ make r = some b := by
  obtain ⟨r, hr, hmake⟩ := List.exists_of_findSome?_eq_some h
  split at hmake
  · rename_i hk
    exact ⟨r, hr, hk, hmake⟩
  · cases hmake

/-- What a longer run leaves under a key that already had an answer. -/
theorem first_append_of_eq_some {k : κ} {rs : List ι} {b : β} (h : first key make k rs = some b)
    (rs' : List ι) : first key make k (rs ++ rs') = some b := by
  unfold first at h ⊢
  rw [List.findSome?_append, h]
  rfl

/-- A request that can be answered leaves an answer under its key. -/
theorem first_isSome_of_mem {rs : List ι} {r : ι} (hr : r ∈ rs) (hmake : (make r).isSome) :
    ∃ b, first key make (key r) rs = some b := by
  rw [← Option.isSome_iff_exists]
  unfold first
  rw [List.findSome?_isSome_iff]
  refine ⟨r, hr, ?_⟩
  rwa [if_pos rfl]

end Memo
