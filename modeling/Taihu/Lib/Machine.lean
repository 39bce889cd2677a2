/-
# Interleavings of programs, and invariants that hold in all of them

A MACHINE gives the atomic operations a meaning on a shared state and the caller's local
state, names the calls a client may make, and says what a restart leaves of the shared state.
A configuration is the shared state with one program per thread.  In one action a new call
starts, one thread takes one step, or the system restarts and every thread is gone.

A run may be restricted by a RULE: which calls may start, whether restarts happen, and a
condition on the state BEFORE each step, which sees the thread that steps and the local states
of the others.  A result then reads "in every run whose steps all meet the condition".

`Discipline` packages what has to be proved once per invariant: every operation, performed
where its precondition holds and the rule allows the step, keeps the invariant and gives the
caller what the contract promises.  `Discipline.run` is the resulting rule for whole runs.  An
invariant does not depend on the order of the threads, so an obligation speaks of the stepping
thread and the rest.
-/
import Taihu.Lib.Program
import Mathlib

namespace Concur

open Program

/-- Operations with a meaning, calls with their code, and a restart. -/
structure Machine (S : Signature) (σ ℓ C α : Type) where
  /-- perform an operation; `none` when it has to wait. -/
  exec : σ → ℓ → (o : S.Op) → Option (σ × ℓ × S.Reply o)
  code : C → Program S α
  /-- the local state a call starts with. -/
  fresh : C → ℓ
  /-- what remains of the local state when the call returns. -/
  retire : ℓ → ℓ
  restart : σ → σ

/-- The shared state and the threads: each has its local state and the rest of its program. -/
structure Conf (S : Signature) (σ ℓ α : Type) where
  shared : σ
  threads : List (ℓ × Program S α)

/-- What can happen next. -/
inductive Act (C : Type) where
  | spawn (c : C)
  | step (t : Nat)
  | restart

/-- Start a call as thread `t` and take its first `n` steps. -/
def Act.calls {C : Type} (call : C) (t n : Nat) : List (Act C) :=
  .spawn call :: List.replicate n (.step t)

variable {S : Signature} {σ ℓ C α : Type}

namespace Conf

/-- The local states of the threads. -/
def locals (c : Conf S σ ℓ α) : List ℓ := c.threads.map Prod.fst

/-- The local states of the threads other than `t`. -/
def others (c : Conf S σ ℓ α) (t : Nat) : List ℓ := c.locals.eraseIdx t

/-- No call is in progress. -/
def Quiescent (c : Conf S σ ℓ α) : Prop := ∀ th ∈ c.threads, th.2.isDone = true

instance (c : Conf S σ ℓ α) : Decidable c.Quiescent :=
  inferInstanceAs (Decidable (∀ th ∈ c.threads, th.2.isDone = true))

/-- The operation thread `t` is about to perform, and its local state. -/
def next? (c : Conf S σ ℓ α) (t : Nat) : Option (ℓ × S.Op) :=
  match c.threads[t]? with
  | some (l, .request o _) => some (l, o)
  | _ => none

/-- The value thread `t` has returned. -/
def result? (c : Conf S σ ℓ α) (t : Nat) : Option α := (c.threads[t]?).bind (fun th => th.2.value?)

end Conf

/-- Which actions a run may take: the calls that may start, whether the system may restart, and
the condition on a step, given the shared state, the thread's local state and the others'. -/
structure Rule (S : Signature) (σ ℓ C : Type) where
  permit : C → Prop
  restarts : Prop
  allow : σ → ℓ → List ℓ → S.Op → Prop

/-- The rule admits action `a` in configuration `c`. -/
def Rule.Admits (R : Rule S σ ℓ C) (c : Conf S σ ℓ α) : Act C → Prop
  | .spawn call => R.permit call
  | .step t => ∀ l o, c.next? t = some (l, o) → R.allow c.shared l (c.others t) o
  | .restart => R.restarts

namespace Machine

variable (M : Machine S σ ℓ C α)

/-- The thread that continues with `p`; a program that has returned leaves `retire` behind. -/
def settle (l : ℓ) (p : Program S α) : ℓ × Program S α :=
  (if p.isDone then M.retire l else l, p)

/-- One step of thread `t`. -/
def step (c : Conf S σ ℓ α) (t : Nat) : Option (Conf S σ ℓ α) :=
  match c.threads[t]? with
  | some (l, .request o next) =>
    (M.exec c.shared l o).map
      (fun x => ⟨x.1, c.threads.set t (M.settle x.2.1 (next x.2.2))⟩)
  | _ => none

/-- One action. -/
def act (c : Conf S σ ℓ α) : Act C → Option (Conf S σ ℓ α)
  | .spawn call => some ⟨c.shared, c.threads ++ [(M.fresh call, M.code call)]⟩
  | .step t => M.step c t
  | .restart => some ⟨M.restart c.shared, []⟩

/-- The configuration after a list of actions; `none` if one of them is not enabled. -/
def run (c : Conf S σ ℓ α) : List (Act C) → Option (Conf S σ ℓ α)
  | [] => some c
  | a :: as => (M.act c a).bind (fun c' => run c' as)

/-- Every action of the run satisfies `ok` in the configuration before it. -/
def Along (ok : Conf S σ ℓ α → Act C → Prop) (c : Conf S σ ℓ α) : List (Act C) → Prop
  | [] => True
  | a :: as => ok c a ∧ ∀ c', M.act c a = some c' → Along ok c' as

theorem run_append (c : Conf S σ ℓ α) (as bs : List (Act C)) :
    M.run c (as ++ bs) = (M.run c as).bind (fun c' => M.run c' bs) := by
  induction as generalizing c with
  | nil => rfl
  | cons a as ih => simp only [List.cons_append, run, ih, Option.bind_assoc]

theorem along_append {ok : Conf S σ ℓ α → Act C → Prop} {c : Conf S σ ℓ α}
    {as bs : List (Act C)} : M.Along ok c (as ++ bs) ↔
      M.Along ok c as ∧ ∀ c', M.run c as = some c' → M.Along ok c' bs := by
  induction as generalizing c with
  | nil => simp [Along, run]
  | cons a as ih =>
    simp only [List.cons_append, Along, run, ih, Option.bind_eq_some_iff]
    constructor
    · rintro ⟨h, hall⟩
      refine ⟨⟨h, fun c' hc => (hall c' hc).1⟩, ?_⟩
      rintro c'' ⟨c', hc, hr⟩
      exact (hall c' hc).2 c'' hr
    · rintro ⟨⟨h, hall⟩, hrest⟩
      exact ⟨h, fun c' hc => ⟨hall c' hc, fun c'' hr => hrest c'' ⟨c', hc, hr⟩⟩⟩

theorem Along.mono {ok ok' : Conf S σ ℓ α → Act C → Prop} (himp : ∀ c a, ok c a → ok' c a)
    {c : Conf S σ ℓ α} {as : List (Act C)} (h : M.Along ok c as) : M.Along ok' c as := by
  induction as generalizing c with
  | nil => trivial
  | cons a as ih => exact ⟨himp c a h.1, fun c' hc => ih (h.2 c' hc)⟩

/-- What the actions keep may be assumed of every configuration on the way. -/
theorem Along.keep {ok : Conf S σ ℓ α → Act C → Prop} {I : Conf S σ ℓ α → Prop}
    (hstep : ∀ c a c', I c → ok c a → M.act c a = some c' → I c') {as : List (Act C)} :
    ∀ {c : Conf S σ ℓ α}, I c → M.Along ok c as → M.Along (fun c a => I c ∧ ok c a) c as := by
  induction as with
  | nil => exact fun _ _ => True.intro
  | cons a as ih =>
    intro c h0 h
    exact ⟨⟨h0, h.1⟩, fun c' hc => ih (hstep c a c' h0 h.1 hc) (h.2 c' hc)⟩

/-- A condition that always holds. -/
theorem along_of_forall {ok : Conf S σ ℓ α → Act C → Prop} (h : ∀ c a, ok c a)
    (as : List (Act C)) : ∀ c : Conf S σ ℓ α, M.Along ok c as := by
  induction as with
  | nil => exact fun _ => True.intro
  | cons a as ih => exact fun c => ⟨h c a, fun c' _ => ih c'⟩

/-- **Invariants of runs.**  What the initial configuration satisfies and every permitted
action keeps holds after every permitted run. -/
theorem run_invariant {ok : Conf S σ ℓ α → Act C → Prop} {I : Conf S σ ℓ α → Prop}
    (hstep : ∀ c a c', I c → ok c a → M.act c a = some c' → I c')
    {c c' : Conf S σ ℓ α} {as : List (Act C)} (h0 : I c) (hok : M.Along ok c as)
    (hrun : M.run c as = some c') : I c' := by
  induction as generalizing c with
  | nil => exact Option.some.inj hrun ▸ h0
  | cons a as ih =>
    obtain ⟨d, hd, hrun⟩ := Option.bind_eq_some_iff.mp hrun
    exact ih (hstep c a d h0 hok.1 hd) (hok.2 d hd) hrun

/-- A step of thread `t`, taken apart. -/
theorem step_eq_some {c c' : Conf S σ ℓ α} {t : Nat} (h : M.step c t = some c') :
    ∃ l o next s' l' r, c.threads[t]? = some (l, .request o next) ∧
      M.exec c.shared l o = some (s', l', r) ∧
      c' = ⟨s', c.threads.set t (M.settle l' (next r))⟩ := by
  unfold step at h
  split at h
  · rename_i l o next hth
    obtain ⟨⟨s', l', r⟩, hx, rfl⟩ := Option.map_eq_some_iff.mp h
    exact ⟨l, o, next, s', l', r, hth, hx, rfl⟩
  · exact absurd h (by simp)

end Machine

/-! ## Conditions on a given run can be evaluated -/

instance Rule.admits_decidable (R : Rule S σ ℓ C) [∀ call, Decidable (R.permit call)]
    [Decidable R.restarts] [∀ s l ls o, Decidable (R.allow s l ls o)] (c : Conf S σ ℓ α) :
    ∀ a, Decidable (R.Admits c a)
  | .spawn call => inferInstanceAs (Decidable (R.permit call))
  | .restart => inferInstanceAs (Decidable R.restarts)
  | .step t =>
    match h : c.next? t with
    | none => .isTrue (fun _ _ he => absurd (h.symm.trans he) (by simp))
    | some (l, o) => decidable_of_iff (R.allow c.shared l (c.others t) o)
        ⟨fun ha l' o' he => by
            obtain ⟨rfl, rfl⟩ := Prod.mk.inj (Option.some.inj (h.symm.trans he))
            exact ha,
          fun ha => ha l o h⟩

namespace Machine

instance along_decidable (M : Machine S σ ℓ C α) {ok : Conf S σ ℓ α → Act C → Prop}
    [∀ c a, Decidable (ok c a)] : ∀ (as : List (Act C)) (c : Conf S σ ℓ α),
    Decidable (M.Along ok c as)
  | [], _ => .isTrue True.intro
  | a :: as, c =>
    match h : M.act c a with
    | none => decidable_of_iff (ok c a)
        ⟨fun ho => ⟨ho, fun _ he => absurd (h.symm.trans he) (by simp)⟩, And.left⟩
    | some d =>
      have : Decidable (M.Along ok d as) := along_decidable M as d
      decidable_of_iff (ok c a ∧ M.Along ok d as)
        ⟨fun ho => ⟨ho.1, fun _ he => Option.some.inj (h.symm.trans he) ▸ ho.2⟩,
          fun ho => ⟨ho.1, ho.2 d h⟩⟩

end Machine

/-! ## The stepping thread and the rest -/

theorem perm_cons_eraseIdx {β : Type} {l : List β} {t : Nat} {a : β} (h : l[t]? = some a) :
    l.Perm (a :: l.eraseIdx t) := by
  obtain ⟨ht, rfl⟩ := List.getElem?_eq_some_iff.mp h
  exact (List.getElem_cons_eraseIdx_perm ht).symm

theorem eraseIdx_set {β : Type} (b : β) :
    ∀ (l : List β) (t : Nat), (l.set t b).eraseIdx t = l.eraseIdx t
  | [], _ => rfl
  | _ :: _, 0 => rfl
  | a :: l, t + 1 => congrArg (a :: ·) (eraseIdx_set b l t)

theorem set_perm_cons {β : Type} {l : List β} {t : Nat} {a : β} (h : l[t]? = some a) (b : β) :
    (l.set t b).Perm (b :: l.eraseIdx t) := by
  obtain ⟨ht, -⟩ := List.getElem?_eq_some_iff.mp h
  have hget : (l.set t b)[t]? = some b := by simp [ht]
  have hperm := perm_cons_eraseIdx hget
  rwa [eraseIdx_set] at hperm

/-! ## The rule for invariants that speak of every thread's local state -/

/-- A contract and a global invariant that the operations respect under a rule.  `sound` is the
one proof obligation per operation; the invariant must also survive the start and the return of
a call and, where the rule has restarts, a restart. -/
structure Discipline (M : Machine S σ ℓ C α) extends Rule S σ ℓ C where
  contract : Contract S ℓ
  inv : σ → List ℓ → Prop
  post : α → ℓ → Prop
  perm : ∀ s ls ls', ls.Perm ls' → inv s ls → inv s ls'
  spawn : ∀ s ls call, permit call → inv s ls → inv s (M.fresh call :: ls)
  starts : ∀ call, permit call → Keeps contract post (M.code call) (M.fresh call)
  retire : ∀ s l rest a, post a l → inv s (l :: rest) →
    inv s (M.retire l :: rest) ∧ post a (M.retire l)
  restart : restarts → ∀ s ls, inv s ls → inv (M.restart s) []
  sound : ∀ s l rest o s' l' r, inv s (l :: rest) → contract.pre o l → allow s l rest o →
    M.exec s l o = some (s', l', r) → inv s' (l' :: rest) ∧ contract.gives o l r l'

namespace Discipline

variable {M : Machine S σ ℓ C α} (D : Discipline M)

/-- The invariant holds and every thread keeps the contract in the rest of its program. -/
structure Holds (c : Conf S σ ℓ α) : Prop where
  inv : D.inv c.shared c.locals
  keeps : ∀ th ∈ c.threads, Keeps D.contract D.post th.2 th.1

theorem holds_spawn {c : Conf S σ ℓ α} {call : C} (h : D.Holds c) (hp : D.permit call) :
    D.Holds ⟨c.shared, c.threads ++ [(M.fresh call, M.code call)]⟩ where
  inv := by
    simp only [Conf.locals, List.map_append, List.map_cons, List.map_nil]
    exact D.perm _ _ _ (List.perm_append_singleton _ _).symm (D.spawn _ _ call hp h.inv)
  keeps := by
    intro th hth
    rcases List.mem_append.mp hth with hth | hth
    · exact h.keeps th hth
    · rw [List.mem_singleton.mp hth]
      exact D.starts call hp

/-- What a thread leaves when it goes on with `p`. -/
theorem settle_ok {s : σ} {l : ℓ} {rest : List ℓ} {p : Program S α}
    (hinv : D.inv s (l :: rest)) (hk : Keeps D.contract D.post p l) :
    D.inv s ((M.settle l p).1 :: rest) ∧
      Keeps D.contract D.post (M.settle l p).2 (M.settle l p).1 := by
  cases p with
  | pure a => exact D.retire s l rest a hk hinv
  | request o next => exact ⟨hinv, hk⟩

theorem holds_step {c c' : Conf S σ ℓ α} {t : Nat} (h : D.Holds c)
    (hok : D.Admits c (.step t)) (hs : M.step c t = some c') : D.Holds c' := by
  obtain ⟨l, o, next, s', l', r, hth, hx, rfl⟩ := M.step_eq_some hs
  have hmem : (l, Program.request o next) ∈ c.threads := List.mem_of_getElem? hth
  have hk : Keeps D.contract D.post (Program.request o next) l := h.keeps _ hmem
  have hl : c.locals[t]? = some l := by simp [Conf.locals, List.getElem?_map, hth]
  have hnext : c.next? t = some (l, o) := by simp [Conf.next?, hth]
  have hpre : D.inv c.shared (l :: c.others t) := D.perm _ _ _ (perm_cons_eraseIdx hl) h.inv
  obtain ⟨hinv, hg⟩ := D.sound _ _ _ o s' l' r hpre hk.1 (hok l o hnext) hx
  obtain ⟨hinv', hk'⟩ := D.settle_ok hinv (hk.2 r l' hg)
  constructor
  · refine D.perm _ _ _ ?_ hinv'
    simp only [Conf.locals, List.map_set]
    exact (set_perm_cons hl _).symm
  · intro th hin
    rcases List.mem_or_eq_of_mem_set hin with hin | rfl
    · exact h.keeps th hin
    · exact hk'

/-- One permitted action keeps everything. -/
theorem holds_act {c c' : Conf S σ ℓ α} {a : Act C} (h : D.Holds c) (hok : D.Admits c a)
    (ha : M.act c a = some c') : D.Holds c' := by
  cases a with
  | spawn call => exact Option.some.inj ha ▸ D.holds_spawn h hok
  | step t => exact D.holds_step h hok ha
  | restart =>
    have hc : c' = ⟨M.restart c.shared, []⟩ := (Option.some.inj ha).symm
    subst hc
    exact ⟨D.restart hok _ _ h.inv, fun th hth => absurd hth List.not_mem_nil⟩

/-- **The rule.**  In every run whose actions are all admitted, the invariant holds at the
end and every thread keeps the contract. -/
theorem run {c c' : Conf S σ ℓ α} {as : List (Act C)} (h : D.Holds c)
    (hok : M.Along D.Admits c as) (hrun : M.run c as = some c') : D.Holds c' :=
  M.run_invariant (fun _ _ _ hc ha hact => D.holds_act hc ha hact) h hok hrun

/-- Before any call has started only the invariant is in question. -/
theorem holds_initial {s : σ} (h : D.inv s []) : D.Holds ⟨s, []⟩ :=
  ⟨h, fun _ hth => absurd hth List.not_mem_nil⟩

variable {D}

/-- A thread that has returned satisfies the postcondition. -/
theorem Holds.post {c : Conf S σ ℓ α} (h : D.Holds c) {l : ℓ}
    {p : Program S α} (hth : (l, p) ∈ c.threads) {a : α} (hp : p.value? = some a) :
    D.post a l := by
  have hk := h.keeps _ hth
  cases p with
  | pure b =>
    have hab : b = a := Option.some.inj hp
    exact hab ▸ hk
  | request o next => exact absurd hp (by simp [value?])

/-- The stepping thread meets the precondition of its next operation, and the invariant holds
of it and the others. -/
theorem Holds.next {c : Conf S σ ℓ α} (h : D.Holds c) {t : Nat} {l : ℓ} {o : S.Op}
    (hn : c.next? t = some (l, o)) : D.inv c.shared (l :: c.others t) ∧ D.contract.pre o l := by
  unfold Conf.next? at hn
  split at hn
  · rename_i l' o' next hth
    obtain ⟨rfl, rfl⟩ := Prod.mk.inj (Option.some.inj hn)
    have hl : c.locals[t]? = some l' := by simp [Conf.locals, List.getElem?_map, hth]
    exact ⟨D.perm _ _ _ (perm_cons_eraseIdx hl) h.inv,
      (h.keeps _ (List.mem_of_getElem? hth)).1⟩
  · exact absurd hn (by simp)

end Discipline

/-! ## Contracts that promise what the machine does -/

/-- Ask for `pre`, promise what an operation can do in a state that satisfies `agree`. -/
def Machine.under (M : Machine S σ ℓ C α) (pre : S.Op → ℓ → Prop)
    (agree : σ → ℓ → S.Op → Prop) : Contract S ℓ where
  pre := pre
  gives := fun o l r l' => ∃ s s', agree s l o ∧ M.exec s l o = some (s', l', r)

/-- The contract that asks nothing and promises what the machine can do. -/
def Machine.possible (M : Machine S σ ℓ C α) : Contract S ℓ :=
  M.under (fun _ _ => True) (fun _ _ _ => True)

section

variable {M : Machine S σ ℓ C α} {pre : S.Op → ℓ → Prop} {agree : σ → ℓ → S.Op → Prop} {β : Type}

/-- One operation, and what follows it. -/
theorem Machine.keeps_step {o : S.Op} {f : S.Reply o → Program S β} {post : β → ℓ → Prop} {l : ℓ}
    (hpre : pre o l) (h : ∀ s s' r l', agree s l o → M.exec s l o = some (s', l', r) →
      Keeps (M.under pre agree) post (f r) l') :
    Keeps (M.under pre agree) post (perform o >>= f) l :=
  ⟨hpre, fun r l' ⟨s, s', ha, hx⟩ => h s s' r l' ha hx⟩

/-- One operation at the end. -/
theorem Machine.keeps_last {o : S.Op} {post : S.Reply o → ℓ → Prop} {l : ℓ} (hpre : pre o l)
    (h : ∀ s s' r l', agree s l o → M.exec s l o = some (s', l', r) → post r l') :
    Keeps (M.under pre agree) post (perform o) l :=
  ⟨hpre, fun r l' ⟨s, s', ha, hx⟩ => h s s' r l' ha hx⟩

end

/-- The contract that asks and promises nothing. -/
def Contract.trivial : Contract S ℓ := ⟨fun _ _ => True, fun _ _ _ _ => True⟩

/-- Every program keeps the trivial contract. -/
theorem keeps_trivial (p : Program S α) (l : ℓ) :
    Keeps Contract.trivial (fun _ _ => True) p l := by
  induction p generalizing l with
  | pure a => exact True.intro
  | request o next ih => exact ⟨True.intro, fun r l' _ => ih r l'⟩

/-! ## Locks -/

/-- The lock bit is set when one of the threads holds the lock; never do two. -/
def Exclusive (held : ℓ → Bool) (mu : Bool) (ls : List ℓ) : Prop :=
  ls.countP held = if mu then 1 else 0

namespace Exclusive

variable {held : ℓ → Bool} {mu : Bool} {l l' : ℓ} {rest : List ℓ}

theorem perm {ls ls' : List ℓ} (hp : ls.Perm ls') (h : Exclusive held mu ls) :
    Exclusive held mu ls' := (hp.countP_eq held).symm.trans h

/-- A new thread that holds nothing. -/
theorem cons (h : Exclusive held mu rest) (hl : held l = false) : Exclusive held mu (l :: rest) := by
  unfold Exclusive
  rw [List.countP_cons_of_neg (by simp [hl])]
  exact h

/-- A step that has nothing to do with the lock. -/
theorem same (h : Exclusive held mu (l :: rest)) (hl : held l' = held l) :
    Exclusive held mu (l' :: rest) := by
  unfold Exclusive at h ⊢
  rwa [List.countP_cons, hl, ← List.countP_cons]

/-- While one thread holds the lock no other does. -/
theorem others (h : Exclusive held mu (l :: rest)) (hl : held l = true) :
    ∀ x ∈ rest, held x = false := by
  unfold Exclusive at h
  rw [List.countP_cons_of_pos hl] at h
  have hzero : rest.countP held = 0 := by
    split at h <;> omega
  intro x hx
  exact Bool.eq_false_iff.mpr (List.countP_eq_zero.mp hzero x hx)

/-- A thread takes the free lock. -/
theorem lock (h : Exclusive held false (l :: rest)) (hl : held l' = true) :
    Exclusive held true (l' :: rest) := by
  unfold Exclusive at h ⊢
  rw [List.countP_cons] at h
  rw [List.countP_cons_of_pos hl]
  simp only [Bool.false_eq_true, if_false, if_true] at h ⊢
  omega

/-- The holder gives the lock back. -/
theorem unlock (h : Exclusive held mu (l :: rest)) (hl : held l = true) (hl' : held l' = false) :
    Exclusive held false (l' :: rest) := by
  unfold Exclusive
  rw [List.countP_cons_of_neg (by simp [hl']), List.countP_eq_zero.mpr]
  · rfl
  · exact fun x hx => by simp [h.others hl x hx]

end Exclusive

end Concur
