/-
# What everybody may know

Some facts about the shared state stay true once they are: a table has an entry, a number has been
passed.  A thread that has learned such a fact may rely on it, whatever the other threads do, until
the system restarts.  `Discipline` cannot say this, because there a program promises things about
its own local state only.

Here the shared state has a KNOWLEDGE, which every step lets grow, and a contract speaks of the
local state and the knowledge at the time.  What an operation teaches may name values that only the
program remembers; no history variable has to record them.  As in `Discipline`, `sound` is the one
obligation per operation, and `Learning.run` the rule for whole runs.
-/
import Taihu.Lib.Machine

namespace Concur

open Program

variable {S : Signature} {σ ℓ C α κ : Type}

/-- Ask for `pre`, which may use what is known; let the knowledge grow and promise `learned` of
what it has become. -/
def Contract.learning [Preorder κ] (pre : S.Op → ℓ → κ → Prop)
    (learned : (o : S.Op) → ℓ → S.Reply o → ℓ → κ → Prop) : Contract S (ℓ × κ) where
  pre := fun o x => pre o x.1 x.2
  gives := fun o x r y => x.2 ≤ y.2 ∧ learned o x.1 r y.1 y.2

/-- An invariant under which every thread keeps a contract about its local state and what the
shared state lets everybody know. -/
structure Learning (M : Machine S σ ℓ C α) (κ : Type) [Preorder κ] extends Rule S σ ℓ C where
  know : σ → κ
  pre : S.Op → ℓ → κ → Prop
  learned : (o : S.Op) → ℓ → S.Reply o → ℓ → κ → Prop
  inv : σ → List ℓ → Prop
  post : α → ℓ → Prop
  pre_mono : ∀ o l k k', k ≤ k' → pre o l k → pre o l k'
  perm : ∀ s ls ls', ls.Perm ls' → inv s ls → inv s ls'
  spawn : ∀ s ls call, permit call → inv s ls → inv s (M.fresh call :: ls)
  starts : ∀ call k, permit call →
    Keeps (Contract.learning pre learned) (fun a x => post a x.1) (M.code call) (M.fresh call, k)
  retire : ∀ s l rest a, post a l → inv s (l :: rest) →
    inv s (M.retire l :: rest) ∧ post a (M.retire l)
  restart : restarts → ∀ s ls, inv s ls → inv (M.restart s) []
  sound : ∀ s l rest o s' l' r, inv s (l :: rest) → pre o l (know s) → allow s l rest o →
    M.exec s l o = some (s', l', r) →
      inv s' (l' :: rest) ∧ know s ≤ know s' ∧ learned o l r l' (know s')

namespace Learning

variable [Preorder κ] {M : Machine S σ ℓ C α} (D : Learning M κ)

/-- The contract of the threads. -/
abbrev contract : Contract S (ℓ × κ) := Contract.learning D.pre D.learned

/-- The program keeps the contract, from this local state and knowledge on. -/
def Follows (p : Program S α) (l : ℓ) (k : κ) : Prop :=
  Keeps D.contract (fun a x => D.post a x.1) p (l, k)

/-- Knowing more does no harm. -/
theorem Follows.mono {p : Program S α} {l : ℓ} {k k' : κ} (h : D.Follows p l k) (hk : k ≤ k') :
    D.Follows p l k' := by
  cases p with
  | pure a => exact h
  | request o next =>
    refine ⟨D.pre_mono o l k k' hk h.1, ?_⟩
    rintro r y ⟨hle, hl⟩
    exact h.2 r y ⟨hk.trans hle, hl⟩

/-- The invariant holds and every thread keeps the contract, from what is known now. -/
structure Holds (c : Conf S σ ℓ α) : Prop where
  inv : D.inv c.shared c.locals
  follows : ∀ th ∈ c.threads, D.Follows th.2 th.1 (D.know c.shared)

theorem holds_spawn {c : Conf S σ ℓ α} {call : C} (h : D.Holds c) (hp : D.permit call) :
    D.Holds ⟨c.shared, c.threads ++ [(M.fresh call, M.code call)]⟩ where
  inv := by
    simp only [Conf.locals, List.map_append, List.map_cons, List.map_nil]
    exact D.perm _ _ _ (List.perm_append_singleton _ _).symm (D.spawn _ _ call hp h.inv)
  follows := by
    intro th hth
    rcases List.mem_append.mp hth with hth | hth
    · exact h.follows th hth
    · rw [List.mem_singleton.mp hth]
      exact D.starts call _ hp

/-- What a thread leaves when it goes on with `p`. -/
theorem settle_follows {s : σ} {l : ℓ} {rest : List ℓ} {p : Program S α}
    (hinv : D.inv s (l :: rest)) (hk : D.Follows p l (D.know s)) :
    D.inv s ((M.settle l p).1 :: rest) ∧ D.Follows (M.settle l p).2 (M.settle l p).1 (D.know s) := by
  cases p with
  | pure a => exact D.retire s l rest a hk hinv
  | request o next => exact ⟨hinv, hk⟩

theorem holds_step {c c' : Conf S σ ℓ α} {t : Nat} (h : D.Holds c)
    (hok : D.Admits c (.step t)) (hs : M.step c t = some c') : D.Holds c' := by
  obtain ⟨l, o, next, s', l', r, hth, hx, rfl⟩ := M.step_eq_some hs
  have hf : D.Follows (Program.request o next) l (D.know c.shared) :=
    h.follows _ (List.mem_of_getElem? hth)
  have hl : c.locals[t]? = some l := by simp [Conf.locals, List.getElem?_map, hth]
  have hnext : c.next? t = some (l, o) := by simp [Conf.next?, hth]
  have hpre : D.inv c.shared (l :: c.others t) := D.perm _ _ _ (perm_cons_eraseIdx hl) h.inv
  obtain ⟨hinv, hle, hlearned⟩ := D.sound _ _ _ o s' l' r hpre hf.1 (hok l o hnext) hx
  have hgo : D.Follows (next r) l' (D.know s') := hf.2 r (l', D.know s') ⟨hle, hlearned⟩
  obtain ⟨hinv', hgo'⟩ := D.settle_follows hinv hgo
  constructor
  · refine D.perm _ _ _ ?_ hinv'
    simp only [Conf.locals, List.map_set]
    exact (set_perm_cons hl _).symm
  · intro th hin
    rcases List.mem_or_eq_of_mem_set hin with hin | rfl
    · exact Follows.mono D (h.follows th hin) hle
    · exact hgo'

/-- One permitted action keeps everything. -/
theorem holds_act {c c' : Conf S σ ℓ α} {a : Act C} (h : D.Holds c) (hok : D.Admits c a)
    (ha : M.act c a = some c') : D.Holds c' := by
  cases a with
  | spawn call => exact Option.some.inj ha ▸ D.holds_spawn h hok
  | step t => exact D.holds_step h hok ha
  | restart =>
    have hc : c' = ⟨M.restart c.shared, []⟩ := (Option.some.inj ha).symm
    subst hc
    exact ⟨D.restart hok _ _ h.inv, fun th hth => absurd hth List.not_mem_nil⟩

/-- **The rule.**  In every run whose actions are all admitted, the invariant holds at the end and
every thread keeps the contract. -/
theorem run {c c' : Conf S σ ℓ α} {as : List (Act C)} (h : D.Holds c)
    (hok : M.Along D.Admits c as) (hrun : M.run c as = some c') : D.Holds c' :=
  M.run_invariant (fun _ _ _ hc ha hact => D.holds_act hc ha hact) h hok hrun

theorem holds_initial {s : σ} (h : D.inv s []) : D.Holds ⟨s, []⟩ :=
  ⟨h, fun _ hth => absurd hth List.not_mem_nil⟩

variable {D}

/-- A thread that has returned satisfies the postcondition. -/
theorem Holds.post {c : Conf S σ ℓ α} (h : D.Holds c) {l : ℓ} {p : Program S α}
    (hth : (l, p) ∈ c.threads) {a : α} (hp : p.value? = some a) : D.post a l := by
  have hf := h.follows _ hth
  cases p with
  | pure b =>
    have hab : b = a := Option.some.inj hp
    exact hab ▸ hf
  | request o next => exact absurd hp (by simp [value?])

/-- The stepping thread meets the precondition of its next operation, and the invariant holds of
it and the others. -/
theorem Holds.next {c : Conf S σ ℓ α} (h : D.Holds c) {t : Nat} {l : ℓ} {o : S.Op}
    (hn : c.next? t = some (l, o)) :
    D.inv c.shared (l :: c.others t) ∧ D.pre o l (D.know c.shared) := by
  unfold Conf.next? at hn
  split at hn
  · rename_i l' o' next hth
    obtain ⟨rfl, rfl⟩ := Prod.mk.inj (Option.some.inj hn)
    have hl : c.locals[t]? = some l' := by simp [Conf.locals, List.getElem?_map, hth]
    exact ⟨D.perm _ _ _ (perm_cons_eraseIdx hl) h.inv,
      (h.follows _ (List.mem_of_getElem? hth)).1⟩
  · exact absurd hn (by simp)

end Learning

end Concur
