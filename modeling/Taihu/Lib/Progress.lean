/-
# Progress

A program is a tree without infinite branches, and every operation goes down one edge of it.  So
however the threads of a machine are interleaved, they cannot go on forever unless new ones are
started: `next_wf`.  What can go wrong is that they get STUCK, all of them waiting for something that
none of them will do.

`finishes` is the rule.  Where an invariant says that in a state with an unfinished thread some
thread is enabled, every run can be continued to the end by steps of the threads that are there.

Steps are ordered by `Relation.CutExpand` of Mathlib: a step takes a program out of the multiset of
programs and puts one back that is left of it.
-/
import Taihu.Lib.Machine

namespace Concur

open Program Relation

variable {S : Signature} {σ ℓ C α : Type}

/-! ## 1. Programs end -/

/-- What is left of a program after an operation. -/
inductive Program.After : Program S α → Program S α → Prop where
  | mk (o : S.Op) (next : S.Reply o → Program S α) (r : S.Reply o) : After (next r) (.request o next)

theorem Program.after_wf : WellFounded (After : Program S α → Program S α → Prop) := by
  refine ⟨fun p => ?_⟩
  induction p with
  | pure a => exact ⟨_, fun q h => by cases h⟩
  | request o next ih =>
    refine ⟨_, fun q h => ?_⟩
    cases h
    exact ih _

/-! ## 2. Machines without new threads -/

/-- The programs of the threads. -/
def Conf.programs (c : Conf S σ ℓ α) : Multiset (Program S α) := (c.threads.map Prod.snd : List _)

/-- Every thread has returned. -/
def Conf.Finished (c : Conf S σ ℓ α) : Prop := ∀ th ∈ c.threads, th.2.isDone = true

namespace Machine

variable (M : Machine S σ ℓ C α)

/-- The second configuration goes on to the first by a step of a thread. -/
def Next (c' c : Conf S σ ℓ α) : Prop := ∃ t, M.step c t = some c'

variable {M} {c c' : Conf S σ ℓ α}

/-- A thread whose operation is enabled goes on. -/
theorem next_of_enabled {t : Nat} {l : ℓ} {o : S.Op} {next : S.Reply o → Program S α}
    (hth : c.threads[t]? = some (l, .request o next)) {x : σ × ℓ × S.Reply o}
    (hx : M.exec c.shared l o = some x) : ∃ c', M.Next c' c := by
  refine ⟨⟨x.1, c.threads.set t (M.settle x.2.1 (next x.2.2))⟩, t, ?_⟩
  unfold step
  rw [hth]
  simp [hx]

theorem settle_program (l : ℓ) (p : Program S α) : (M.settle l p).2 = p := by
  cases p <;> rfl

theorem cutExpand_of_next (h : M.Next c' c) : CutExpand After c'.programs c.programs := by
  obtain ⟨t, hstep⟩ := h
  obtain ⟨l, o, next, s', l', r, hth, -, rfl⟩ := M.step_eq_some hstep
  obtain ⟨hlt, hget⟩ := List.getElem?_eq_some_iff.mp hth
  refine ⟨{next r}, .request o next, fun q hq => ?_, ?_⟩
  · rw [Multiset.mem_singleton.mp hq]
    exact .mk o next r
  · -- the programs of the others are on both sides
    have hset := List.set_perm_cons_eraseIdx hlt (M.settle l' (next r))
    have herase := List.getElem_cons_eraseIdx_perm hlt
    have h1 : (Multiset.ofList ((c.threads.set t (M.settle l' (next r))).map Prod.snd))
        = next r ::ₘ Multiset.ofList ((c.threads.eraseIdx t).map Prod.snd) := by
      rw [Multiset.coe_eq_coe.mpr (hset.map Prod.snd), List.map_cons, settle_program]
      rfl
    have h2 : Multiset.ofList (c.threads.map Prod.snd)
        = .request o next ::ₘ Multiset.ofList ((c.threads.eraseIdx t).map Prod.snd) := by
      rw [← Multiset.coe_eq_coe.mpr (herase.map Prod.snd), List.map_cons, hget]
      rfl
    show Multiset.ofList ((c.threads.set t (M.settle l' (next r))).map Prod.snd) + {.request o next}
      = Multiset.ofList (c.threads.map Prod.snd) + {next r}
    rw [h1, h2, ← Multiset.singleton_add, ← Multiset.singleton_add]
    ac_rfl

/-- **Threads cannot go on forever.** -/
theorem next_wf (M : Machine S σ ℓ C α) : WellFounded M.Next :=
  Subrelation.wf (r := InvImage (CutExpand After) Conf.programs) cutExpand_of_next
    (InvImage.wf _ after_wf.cutExpand)

/-- **The rule.**  Where some thread is always enabled, the threads can all be run to the end. -/
theorem finishes {I : Conf S σ ℓ α → Prop} (hstep : ∀ c c', I c → M.Next c' c → I c')
    (henabled : ∀ c, I c → ¬ c.Finished → ∃ c', M.Next c' c) (h : I c) :
    ∃ (ts : List Nat) (c' : Conf S σ ℓ α), M.run c (ts.map Act.step) = some c' ∧ c'.Finished := by
  induction c using M.next_wf.induction with
  | _ c ih =>
    by_cases hdone : c.Finished
    · exact ⟨[], c, rfl, hdone⟩
    · obtain ⟨c', hnext⟩ := henabled c h hdone
      obtain ⟨ts, d, hrun, hd⟩ := ih c' hnext (hstep c c' h hnext)
      obtain ⟨t, ht⟩ := hnext
      refine ⟨t :: ts, d, ?_, hd⟩
      rw [List.map_cons, run]
      show (M.step c t).bind _ = _
      rw [ht]
      exact hrun

end Machine

/-- A lock that is taken is held by a thread. -/
theorem Exclusive.holder {held : ℓ → Bool} {ls : List ℓ} (h : Exclusive held true ls) :
    ∃ l ∈ ls, held l = true :=
  List.countP_pos_iff.mp (h ▸ Nat.one_pos)

end Concur
