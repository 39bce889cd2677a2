/-
# A queue of completions

What the callers of an asynchronous IO queue rely on.  A submission has some of its IOs accepted,
under consecutive numbers that have not been used before, or none; what has been accepted is in
flight until it is delivered, at any time and in any order.

A queue is described by what it shows: callers may see a list of `Label`s if `Queue.step` takes them
one after the other.  Then nothing is delivered twice, and in flight is what has been accepted and not
been delivered (`deliveredOnce_of_run`).
-/
import Taihu.Lib.Transition
import Mathlib

namespace Completion

open Transition

/-- What a queue shows its callers: it has accepted `n` IOs, or has delivered some. -/
inductive Label where
  | accept (first n : Nat)
  | deliver (ids : List Nat)
  deriving DecidableEq, Repr

/-- The numbers that have been used, and those of them that are in flight. -/
structure Queue where
  used : Finset Nat
  inflight : Finset Nat
  deriving DecidableEq

namespace Queue

def init : Queue := ⟨∅, ∅⟩

def step (q : Queue) : Label → Option Queue
  | .accept first n =>
    if Disjoint q.used (Finset.Ico first (first + n)) then
      some ⟨q.used ∪ Finset.Ico first (first + n), q.inflight ∪ Finset.Ico first (first + n)⟩
    else none
  | .deliver ids =>
    if ids.Nodup ∧ ids.toFinset ⊆ q.inflight then some { q with inflight := q.inflight \ ids.toFinset }
    else none

variable {q q' : Queue}

theorem step_accept {first n : Nat} : q.step (.accept first n) = some q' ↔
    Disjoint q.used (Finset.Ico first (first + n)) ∧
      q' = ⟨q.used ∪ Finset.Ico first (first + n), q.inflight ∪ Finset.Ico first (first + n)⟩ := by
  simp only [step, Option.ite_none_right_eq_some, Option.some.injEq]
  exact and_congr_right fun _ => eq_comm

theorem step_deliver {ids : List Nat} : q.step (.deliver ids) = some q' ↔
    (ids.Nodup ∧ ids.toFinset ⊆ q.inflight) ∧ q' = { q with inflight := q.inflight \ ids.toFinset } := by
  simp only [step, Option.ite_none_right_eq_some, Option.some.injEq]
  exact and_congr_right fun _ => eq_comm

end Queue

def Label.delivers : Label → List Nat
  | .accept _ _ => []
  | .deliver ids => ids

/-- What has been delivered. -/
def delivered (ls : List Label) : List Nat := ls.flatMap Label.delivers

theorem delivered_append (ls : List Label) (l : Label) : delivered (ls ++ [l]) = delivered ls ++ l.delivers := by
  simp [delivered]

/-- Nothing is delivered twice, or without having been accepted, and the rest is in flight. -/
structure DeliveredOnce (ls : List Label) (q : Queue) : Prop where
  nodup : (delivered ls).Nodup
  within : (delivered ls).toFinset ⊆ q.used
  inflight : q.inflight = q.used \ (delivered ls).toFinset

theorem DeliveredOnce.step {ls : List Label} {q q' : Queue} {l : Label} (h : DeliveredOnce ls q)
    (hs : q.step l = some q') : DeliveredOnce (ls ++ [l]) q' := by
  have happ := delivered_append ls l
  cases l with
  | accept first n =>
    obtain ⟨hfree, rfl⟩ := Queue.step_accept.mp hs
    rw [Label.delivers, List.append_nil] at happ
    refine ⟨happ ▸ h.nodup, happ ▸ h.within.trans Finset.subset_union_left, ?_⟩
    have hnew : Disjoint (Finset.Ico first (first + n)) (delivered ls).toFinset :=
      (hfree.mono_left h.within).symm
    rw [happ, h.inflight, Finset.union_sdiff_distrib, Finset.sdiff_eq_self_of_disjoint hnew]
  | deliver ids =>
    obtain ⟨⟨hids, hsub⟩, rfl⟩ := Queue.step_deliver.mp hs
    rw [Label.delivers] at happ
    rw [h.inflight] at hsub
    have happ' : (delivered (ls ++ [.deliver ids])).toFinset = (delivered ls).toFinset ∪ ids.toFinset := by
      rw [happ, List.toFinset_append]
    refine ⟨?_, ?_, ?_⟩
    · rw [happ, List.nodup_append']
      refine ⟨h.nodup, hids, fun x hx hx' => ?_⟩
      have hout := (Finset.mem_sdiff.mp (hsub (List.mem_toFinset.mpr hx'))).2
      exact hout (List.mem_toFinset.mpr hx)
    · rw [happ']
      exact Finset.union_subset h.within (hsub.trans Finset.sdiff_subset)
    · rw [happ', h.inflight, sdiff_sdiff_left, Finset.sup_eq_union]

/-- **What is accepted is delivered once.** -/
theorem deliveredOnce_of_run {ls : List Label} {q : Queue} (h : run Queue.step Queue.init ls = some q) :
    DeliveredOnce ls q := by
  have halong : Along Queue.step (fun _ _ => True) Queue.init ls :=
    along_of_forall_mem (fun _ _ => True.intro) _
  have hinit : DeliveredOnce [] Queue.init := ⟨List.nodup_nil, Finset.empty_subset _, rfl⟩
  exact run_history (I := DeliveredOnce) (fun _ _ _ _ h _ hs => h.step hs) hinit halong h

end Completion
