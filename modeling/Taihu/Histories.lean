/-
# What the clients see

`Taihu.Contents` is about states: pebble and the device hold one map from keys to bytes.  Here are the
calls.  A read returns a window of what the map had at a moment during the call.  An update that has
been acknowledged was made: at a moment during the call the map had what it says.  And nothing else
changes the map: a step that does is the commit of a put or a delete, and what a key has after it
is what that call gives the key.  Reads, allocations, reclamation and moves leave all of the map alone,
and so does reopening.

What a call says of its past is what it remembers (`Taihu.Lib.Moments`); a fact to remember is that
the map was this or that.
-/
import Taihu.Lib.Moments
import Taihu.Contents

namespace Taihu

open Concur
open Program hiding pure

variable {L : Layout} {s s' : Sys} {l l' : Local} {α β : Type} {strict : Bool}

/-! ## 1. What a call remembers -/

/-- A thread's state, with the maps it remembers. -/
abbrev Memory := Local × Set (Key → Option Bytes)

/-- The contract: a thread remembers the committed values before and after its steps. -/
def remembering (L : Layout) : Contract sig Memory := (machine L).recalling (fun s f => s.value = f)

variable {x y : Memory} {st : List (Key × Effect)} {P : (Key → Option Bytes) → Prop}

/-- The thread remembers a map with `P`. -/
def Knew (P : (Key → Option Bytes) → Prop) (x : Memory) : Prop := ∃ f ∈ x.2, P f

theorem Knew.gives (h : Knew P x) {o : Op} {r : o.Reply} (hg : (remembering L).gives o x r y) : Knew P y := by
  obtain ⟨f, hf, hP⟩ := h
  obtain ⟨s, s', -, heq⟩ := hg
  exact ⟨f, heq ▸ Or.inl hf, hP⟩

/-- One operation, and what follows it. -/
theorem recall_step {o : Op} {f : o.Reply → Proc β} {post : β → Memory → Prop}
    (hf : ∀ s s' r y, exec L s x.1 o = some (s', y.1, r) → s'.value ∈ y.2 → Keeps (remembering L) post (f r) y) :
    Keeps (remembering L) post (perform o >>= f) x :=
  ⟨True.intro, fun r y ⟨s, s', hx, heq⟩ => hf s s' r y hx (heq ▸ Or.inr (Or.inr rfl))⟩

/-- What is remembered stays so, whatever the program does. -/
theorem recall_keeps (p : Proc α) (h : Knew P x) : Keeps (remembering L) (fun _ y => Knew P y) p x := by
  induction p generalizing x with
  | pure a => exact h
  | request o next ih => exact ⟨True.intro, fun r y hg => ih r (h.gives hg)⟩

/-- Whatever the program does. -/
theorem recall_any (p : Proc α) {post : α → Memory → Prop} (h : ∀ r y, post r y) : Keeps (remembering L) post p x := by
  induction p generalizing x with
  | pure a => exact h a x
  | request o next ih => exact ⟨True.intro, fun r y _ => ih r⟩

/-- Between commits nothing is staged. -/
theorem recall_idle {p : Proc α} (hu : Uses (fun o : Op => o.Batches = false) p)
    (h : x.1.hist.stage = st) : Keeps (remembering L) (fun _ y => y.1.hist.stage = st) p x :=
  hu.keeps (C := remembering L) (I := fun y => y.1.hist.stage = st) h fun _ _ ho h1 =>
    ⟨True.intro, fun _ _ ⟨_, _, hx, _⟩ => (stage_same hx ho).trans h1⟩

theorem recall_plain {p : Proc α} (hu : Uses Op.Plain p) (h : x.1.hist.stage = st) :
    Keeps (remembering L) (fun _ y => y.1.hist.stage = st) p x :=
  recall_idle (hu.mono fun _ ho => ho.calm.batches) h

theorem recall_quiet {p : Proc α} (hu : Uses Op.Quiet p) (h : x.1.hist.stage = st) :
    Keeps (remembering L) (fun _ y => y.1.hist.stage = st) p x := recall_plain (hu.mono fun _ ho => ho.plain) h

theorem recall_allocation {p : Proc α} (hu : Uses Op.IsAllocation p) (h : x.1.hist.stage = st) :
    Keeps (remembering L) (fun _ y => y.1.hist.stage = st) p x := recall_idle (hu.mono fun _ ho => ho.idle.batches) h

/-- One operation that stages nothing, and what follows it. -/
theorem recall_pass {o : Op} {f : o.Reply → Proc β} {post : β → Memory → Prop} (h : x.1.hist.stage = st)
    (ho : o.Batches = false) (hf : ∀ r y, y.1.hist.stage = st → Keeps (remembering L) post (f r) y) :
    Keeps (remembering L) post (perform o >>= f) x :=
  recall_step fun _ _ r y hx _ => hf r y ((stage_same hx ho).trans h)

theorem recall_rest (p : Proc (Res α)) (h : Knew P x) :
    Keeps (remembering L) (fun r y => OkAll (fun _ => Knew P y) r) p x := by
  refine (recall_keeps p h).mono fun r y hy => ?_
  cases r with
  | error e => exact True.intro
  | ok a => exact hy

/-- **A commit is remembered**, if it has succeeded. -/
theorem recall_commit {f : Bool → Proc β} {post : β → Memory → Prop} (h : x.1.hist.stage = st)
    (hP : ∀ value, P (applyEffects value st)) (hdone : ∀ y, Knew P y → Keeps (remembering L) post (f true) y)
    (hfail : ∀ y, Keeps (remembering L) post (f false) y) :
    Keeps (remembering L) post (apply >>= f) x := by
  refine recall_step fun s s' ok y hx hmem => ?_
  cases ok with
  | false => exact hfail y
  | true =>
    obtain ⟨fs, -, hs⟩ := exec_apply hx
    have hval : s'.value = applyEffects s.value st := by
      rw [hs, ← h]
      rfl
    exact hdone y ⟨s'.value, hmem, hval ▸ hP s.value⟩

/-! ## 2. Updates -/

/-- What a batch of puts does to the map. -/
def putEffects (items : List PutItem) : List (Key × Effect) :=
  items.map (fun it => (it.key, .store (putValue it.size it.data)))

/-- The map is another one, overwritten by the items in their order. -/
def Overwritten (items : List PutItem) (f : Key → Option Bytes) : Prop :=
  ∃ g, f = applyEffects g (putEffects items)

theorem stage_put {key : Key} {md : ObjectMeta} {old : Option ObjectMeta} {v : Bytes} {r : Unit}
    (hx : exec L s l (.segs (.putObjectLocked key md old (some v))) = some (s', l', r)) :
    l'.hist.stage = l.hist.stage ++ [(key, .store v)] := by
  obtain ⟨-, rfl⟩ := exec_putObjectLocked hx
  rfl

theorem stage_del {key : Key} {md : ObjectMeta} {r : Unit}
    (hx : exec L s l (.segs (.delObjectLocked key md)) = some (s', l', r)) :
    l'.hist.stage = l.hist.stage ++ [(key, .drop)] := by
  obtain ⟨-, rfl⟩ := exec_delObjectLocked hx
  rfl

theorem recall_putMapping (key : Key) (md : ObjectMeta) (v : Bytes) (h : x.1.hist.stage = []) :
    Keeps (remembering L) (fun r y => OkAll (fun _ => Knew (fun f => f key = some v) y) r)
      (putMapping key md (some v)) x := by
  refine Keeps.bind (m := fun _ y => y.1.hist.stage = []) (recall_quiet ?_ h) fun old x1 h1 => ?_
  · refine .step True.intro fun r => ?_
    cases r with
    | some om => exact True.intro
    | none => exact ⟨True.intro, fun _ => True.intro⟩
  · refine recall_pass h1 rfl fun _ x2 h2 => recall_step fun _ _ _ x3 hx3 _ => ?_
    have h3 : x3.1.hist.stage = [(key, .store v)] := by rw [stage_put hx3, h2]; rfl
    refine recall_pass h3 rfl fun _ x4 h4 => recall_commit h4 (fun value => ?_)
      (fun _ => recall_rest _) fun _ => True.intro
    exact if_pos rfl

theorem recall_deleteMapping (key : Key) (h : x.1.hist.stage = []) :
    Keeps (remembering L) (fun r y => OkAll (fun _ => Knew (fun f => f key = none) y) r)
      (deleteMapping key) x := by
  refine (recall_quiet (quiet_getMapping key) h).bind fun r x1 h1 => ?_
  cases r with
  | error e => exact True.intro
  | ok old =>
    refine recall_pass h1 rfl fun _ x2 h2 => recall_step fun _ _ _ x3 hx3 _ => ?_
    have h3 : x3.1.hist.stage = [(key, .drop)] := by rw [stage_del hx3, h2]; rfl
    refine recall_pass h3 rfl fun _ x4 h4 => recall_commit h4 (fun value => ?_)
      (fun _ => recall_rest _) fun _ => True.intro
    exact if_pos rfl

theorem recall_batchPutLocked (xs : List (PutItem × (Int × Int))) : ∀ {x : Memory}
    {st : List (Key × Effect)}, x.1.hist.stage = st →
      Keeps (remembering L) (fun _ y => y.1.hist.stage = st ++ putEffects (xs.map Prod.fst))
        (batchPutLocked (commitsOf xs)) x := by
  induction xs with
  | nil =>
    intro x st h
    exact h.trans (List.append_nil st).symm
  | cons p xs ih =>
    intro x st h
    refine recall_pass h rfl fun old x1 h1 => recall_step fun _ _ _ x2 hx2 _ => ?_
    have h2 : x2.1.hist.stage = st ++ [(p.1.key, .store (putValue p.1.size p.1.data))] := by
      rw [stage_put hx2, h1]
    refine (ih h2).mono fun _ y hy => ?_
    rw [hy, List.append_assoc]
    rfl

theorem recall_writeAndCommit (xs : List (PutItem × (Int × Int))) (hne : xs ≠ [])
    (h : x.1.hist.stage = []) :
    Keeps (remembering L) (fun r y => OkAll (fun _ => Knew (Overwritten (xs.map Prod.fst)) y) r)
      (writeAndCommit L xs) x := by
  refine (recall_plain (plain_devAppendBatch _) h).bind fun r x1 h1 => ?_
  cases r with
  | error e => exact True.intro
  | ok u =>
    have hcommits : commitsOf xs ≠ [] := fun he => hne (List.map_eq_nil_iff.mp he)
    refine Keeps.ite (fun he => absurd he hcommits) fun _ => ?_
    refine recall_pass h1 rfl fun _ x2 h2 => (recall_batchPutLocked xs h2).bind fun _ x3 h3 => ?_
    refine recall_pass h3 rfl fun _ x4 h4 => recall_commit h4 (fun value => ?_)
      (fun _ => recall_rest _) fun _ => True.intro
    exact ⟨value, rfl⟩

theorem recall_allocBatchLoop (sizes : List Int) : ∀ {x : Memory}, x.1.hist.stage = st →
    Keeps (remembering L) (fun r y => y.1.hist.stage = st ∧ OkAll (fun xs => xs.length = sizes.length) r)
      (allocBatchLoop L sizes) x := by
  induction sizes with
  | nil => exact fun h => ⟨h, rfl⟩
  | cons size sizes ih =>
    intro x h
    refine (recall_allocation (uses_allocOneLocked size false) h).bind fun r x1 h1 => ?_
    cases r with
    | error e => exact ⟨h1, True.intro⟩
    | ok a =>
      refine (ih h1).bind fun rs x2 h2 => ?_
      cases rs with
      | error e => exact ⟨h2.1, True.intro⟩
      | ok as => exact ⟨h2.1, congrArg (· + 1) h2.2⟩

theorem recall_allocateSegmentBatch (sizes : List Int) (h : x.1.hist.stage = st) :
    Keeps (remembering L) (fun r y => y.1.hist.stage = st ∧ OkAll (fun xs => xs.length = sizes.length) r)
      (allocateSegmentBatch L sizes) x := by
  refine recall_pass h rfl fun _ x1 h1 => recall_pass h1 rfl fun _ x2 h2 => ?_
  refine (recall_allocBatchLoop sizes h2).bind fun r x3 h3 => ?_
  obtain ⟨h3, hlen⟩ := h3
  cases r with
  | error e => exact recall_pass h3 rfl fun _ x4 h4 => ⟨h4, True.intro⟩
  | ok xs =>
    refine Keeps.ite (fun _ => recall_pass h3 rfl fun _ x4 h4 => ⟨h4, hlen⟩) (fun _ => ?_)
    refine recall_pass h3 rfl fun _ x4 h4 => recall_pass h4 rfl fun ok x5 h5 =>
      recall_pass h5 rfl fun _ x6 h6 => ?_
    cases ok with
    | true => exact ⟨h6, hlen⟩
    | false => exact ⟨h6, True.intro⟩

theorem recall_put (key : Key) (size : Int) (data : Bytes) (h : x.1.hist.stage = []) :
    Keeps (remembering L) (fun r y => OkAll (fun _ => Knew (fun f => f key = some (putValue size data)) y) r)
      (put L key size data) x := by
  refine (recall_allocation (uses_putBegin size) h).bind fun r x1 h1 => ?_
  cases r with
  | error e => exact True.intro
  | ok ext =>
    have happend : Uses Op.Plain (if 0 < size then putAppend L ext.1 ext.2 size data
        else (Pure.pure (.ok ()) : Proc (Res Unit))) :=
      .ite (.ite True.intro (plain_devAppend _ _ _ _)) True.intro
    refine (recall_plain happend h1).bind fun r x2 h2 => ?_
    cases r with
    | error e => exact True.intro
    | ok u => exact recall_putMapping key _ _ h2

theorem recall_batchPut (items : List PutItem) (hne : items ≠ []) (h : x.1.hist.stage = []) :
    Keeps (remembering L) (fun r y => OkAll (fun _ => Knew (Overwritten items) y) r)
      (batchPut L items) x := by
  refine Keeps.ite (fun he => absurd he hne) (fun _ => ?_)
  split
  · exact True.intro
  · refine (recall_allocateSegmentBatch _ h).bind fun r x1 h1 => ?_
    obtain ⟨h1, hlen⟩ := h1
    cases r with
    | error e => exact True.intro
    | ok exts =>
      have hle : items.length ≤ exts.length := by
        rw [show exts.length = (items.map PutItem.size).length from hlen, List.length_map]
      have hfst : (items.zip exts).map Prod.fst = items := List.map_fst_zip hle
      have hzip : items.zip exts ≠ [] := by
        intro he
        rw [he] at hfst
        exact hne hfst.symm
      have hcommit := recall_writeAndCommit (L := L) (items.zip exts) hzip h1
      rwa [hfst] at hcommit

theorem recall_pipelineBegin (items : List PutItem) : ∀ {x : Memory}, x.1.hist.stage = st →
    Keeps (remembering L) (fun r y => y.1.hist.stage = st ∧ OkAll (fun xs => xs.map Prod.fst = items) r)
      (pipelineBegin L items) x := by
  induction items with
  | nil => exact fun h => ⟨h, rfl⟩
  | cons it items ih =>
    intro x h
    refine (recall_allocation (uses_putBegin it.size) h).bind fun r x1 h1 => ?_
    cases r with
    | error e => exact ⟨h1, True.intro⟩
    | ok a =>
      refine (ih h1).bind fun rs x2 h2 => ?_
      cases rs with
      | error e => exact ⟨h2.1, True.intro⟩
      | ok xs => exact ⟨h2.1, congrArg (it :: ·) h2.2⟩

theorem recall_pipelinePut (items : List PutItem) (hne : items ≠ []) (h : x.1.hist.stage = []) :
    Keeps (remembering L) (fun r y => OkAll (fun _ => Knew (Overwritten items) y) r)
      (pipelinePut L items) x := by
  refine (recall_pipelineBegin items h).bind fun r x1 h1 => ?_
  obtain ⟨h1, hfst⟩ := h1
  cases r with
  | error e => exact True.intro
  | ok xs =>
    have hfst : xs.map Prod.fst = items := hfst
    have hxs : xs ≠ [] := by
      rintro rfl
      exact hne hfst.symm
    have hcommit := recall_writeAndCommit (L := L) xs hxs h1
    rwa [hfst] at hcommit

/-! ### Deletes of several keys -/

theorem recall_batchDeleteLookup (keys : List Key) : ∀ {x : Memory}, x.1.hist.stage = st →
    Keeps (remembering L) (fun r y => y.1.hist.stage = st ∧ r.map Prod.fst = keys)
      (batchDeleteLookup keys) x := by
  induction keys with
  | nil => exact fun h => ⟨h, rfl⟩
  | cons key keys ih =>
    intro x h
    refine (recall_quiet (quiet_getMapping key) h).bind fun r x1 h1 => ?_
    exact (ih h1).bind fun rs x2 h2 => ⟨h2.1, congrArg (key :: ·) h2.2⟩

theorem recall_batchDeleteLocked (dels : List (Key × ObjectMeta)) : ∀ {x : Memory}
    {st : List (Key × Effect)}, x.1.hist.stage = st →
      Keeps (remembering L) (fun _ y => y.1.hist.stage = st ++ dels.map (fun d => (d.1, .drop)))
        (batchDeleteLocked dels) x := by
  induction dels with
  | nil =>
    intro x st h
    exact h.trans (List.append_nil st).symm
  | cons d dels ih =>
    intro x st h
    refine recall_step fun _ _ _ x1 hx1 _ => ?_
    have h1 : x1.1.hist.stage = st ++ [(d.1, .drop)] := by rw [stage_del hx1, h]
    refine (ih h1).mono fun _ y hy => ?_
    rw [hy, List.append_assoc]
    rfl

/-- Deletions leave nothing of the keys they name. -/
theorem applyEffects_drops (dels : List (Key × ObjectMeta)) : ∀ (value : Key → Option Bytes) {key : Key},
    (key ∈ dels.map Prod.fst ∨ value key = none) →
      applyEffects value (dels.map (fun d => (d.1, .drop))) key = none := by
  induction dels with
  | nil => exact fun value key h => h.resolve_left List.not_mem_nil
  | cons d dels ih =>
    intro value key h
    refine ih _ ?_
    by_cases hk : key = d.1
    · exact Or.inr (if_pos hk)
    · rcases h with h | h
      · exact Or.inl ((List.mem_cons.mp h).resolve_left hk)
      · exact Or.inr ((if_neg hk).trans h)

/-- The keys for which no error is returned have been deleted. -/
def AllDeleted (keys : List Key) (errs : List (Option Err)) (f : Key → Option Bytes) : Prop :=
  ∀ (i : Nat) (key : Key), keys[i]? = some key → errs[i]? = some none → f key = none

theorem recall_batchDeleteMapping (keys : List Key) (h : x.1.hist.stage = []) :
    Keeps (remembering L) (fun r y => OkAll (fun errs : List (Option Err) =>
      (∃ i : Nat, errs[i]? = some none) → Knew (AllDeleted keys errs) y) r) (batchDeleteMapping keys) x := by
  refine (recall_batchDeleteLookup keys h).bind fun found x1 h1 => ?_
  obtain ⟨h1, hfst⟩ := h1
  -- a key without an error is one whose mapping has been found
  have hfound : ∀ i : Nat, (found.map (fun e => if e.2.isNone then some Err.notFound else none))[i]?
      = some none → ∃ e ∈ found.filterMap (fun e => e.2.map (fun md => (e.1, md))), keys[i]? = some e.1 := by
    intro i hi
    rw [List.getElem?_map] at hi
    obtain ⟨⟨key, m⟩, hget, herr⟩ := Option.map_eq_some_iff.mp hi
    cases m with
    | none => exact absurd herr (by simp)
    | some md =>
      refine ⟨(key, md), List.mem_filterMap.mpr ⟨_, List.mem_of_getElem? hget, rfl⟩, ?_⟩
      rw [← hfst, List.getElem?_map, hget]
      rfl
  refine Keeps.ite (fun hnil hex => ?_) (fun _ => ?_)
  · obtain ⟨i, hi⟩ := hex
    obtain ⟨e, he, -⟩ := hfound i hi
    rw [hnil] at he
    exact absurd he List.not_mem_nil
  · refine recall_pass h1 rfl fun _ x2 h2 => (recall_batchDeleteLocked _ h2).bind fun _ x3 h3 => ?_
    refine recall_pass h3 rfl fun _ x4 h4 => ?_
    refine recall_commit (P := AllDeleted keys _) h4 (fun value i key hkey hi => ?_)
      (fun y hy => (recall_keeps (cacheDelAll _) hy).bind fun _ _ hz _ => hz) fun _ => True.intro
    obtain ⟨e, he, hkey'⟩ := hfound i hi
    obtain rfl : e.1 = key := Option.some.inj (hkey'.symm.trans hkey)
    rw [List.nil_append]
    exact applyEffects_drops _ value (Or.inl (List.mem_map_of_mem he))

/-! ## 3. What a call has seen and done when it returns -/

/-- An update that has been acknowledged has been made: at some time the map was as it says. -/
def Call.Acknowledged (sometime : ((Key → Option Bytes) → Prop) → Prop) : Call → Result → Prop
  | .put key size data, .ok _ => sometime (fun f => f key = some (putValue size data))
  | .batchPut items, .ok _ => items ≠ [] → sometime (Overwritten items)
  | .pipelinePut items, .ok _ => items ≠ [] → sometime (Overwritten items)
  | .deleteMapping key, .ok _ => sometime (fun f => f key = none)
  | .batchDeleteMapping keys, .ok (.errors errs) =>
    (∃ i : Nat, errs[i]? = some none) → sometime (AllDeleted keys errs)
  | _, _ => True

theorem Call.Acknowledged.mono {sometime sometime' : ((Key → Option Bytes) → Prop) → Prop}
    (h : ∀ P, sometime P → sometime' P) {call : Call} {v : Result} (ha : call.Acknowledged sometime v) :
    call.Acknowledged sometime' v := by
  unfold Call.Acknowledged at ha ⊢
  split
  · exact h _ ha
  · exact fun hne => h _ (ha hne)
  · exact fun hne => h _ (ha hne)
  · exact h _ ha
  · exact fun hex => h _ (ha hex)
  · exact True.intro

/-- Every call: an update that returns without an error has been made. -/
theorem code_acknowledged (L : Layout) (call : Call) (h : x.1.hist.stage = []) :
    Keeps (remembering L) (fun v y => call.Acknowledged (fun P => Knew P y) v) (code L call) x := by
  have hother : ∀ {call : Call}, (∀ sometime v, call.Acknowledged sometime v) →
      Keeps (remembering L) (fun v y => call.Acknowledged (fun P => Knew P y) v) (code L call) x :=
    fun {call} hcall => recall_any _ fun v y => hcall _ v
  cases call with
  | put key size data =>
    refine (recall_put key size data h).bind fun r y hy => ?_
    cases r <;> exact hy
  | deleteMapping key =>
    refine (recall_deleteMapping key h).bind fun r y hy => ?_
    cases r <;> exact hy
  | batchDeleteMapping keys =>
    refine (recall_batchDeleteMapping keys h).bind fun r y hy => ?_
    cases r <;> exact hy
  | batchPut items =>
    by_cases hne : items = []
    · subst hne
      exact hother fun _ v => by
        cases v with
        | ok a => exact fun hne => absurd rfl hne
        | error e => exact True.intro
    · refine (recall_batchPut items hne h).bind fun r y hy => ?_
      cases r with
      | error e => exact True.intro
      | ok a => exact fun _ => hy
  | pipelinePut items =>
    by_cases hne : items = []
    · subst hne
      exact hother fun _ v => by
        cases v with
        | ok a => exact fun hne => absurd rfl hne
        | error e => exact True.intro
    · refine (recall_pipelinePut items hne h).bind fun r y hy => ?_
      cases r with
      | error e => exact True.intro
      | ok a => exact fun _ => hy
  | _ => exact hother fun _ v => True.intro

/-- The values a thread has taken references for are among those it remembers. -/
def Remembered (y : Memory) : Prop := ∀ p ∈ y.1.hist.snaps, Knew (fun f => f p.1 = p.2) y

theorem Remembered.gives (h : Remembered x) {o : Op} {r : o.Reply} (hg : (remembering L).gives o x r y) :
    Remembered y := by
  intro p hp
  obtain ⟨s, s', hx, heq⟩ := hg
  rcases snaps_step hx p hp with hold | hnow
  · exact (h p hold).gives ⟨s, s', hx, heq⟩
  · exact ⟨s.value, heq ▸ Or.inr (Or.inl rfl), hnow⟩

/-! ## 4. Runs -/

/-- What a call that has returned remembers was so during the call, of what the store held. -/
theorem history_of_run (hL : L.Regular) {bytes : Int → Byte} {devFaults : List Bool} {as : List (Act Call)}
    {c : SysConf} (hok : (machine L).Along (servingSteps L strict).Admits (SysConf.init bytes [] devFaults) as)
    (hrun : (machine L).run (SysConf.init bytes [] devFaults) as = some c) {t : Nat} {p : Proc Result}
    (hth : c.threads[t]? = some (l, p)) {v : Result} (hv : p.value? = some v) :
    l.hist.call.Acknowledged (fun P => (machine L).During (SysConf.init bytes [] devFaults) as t
      (fun c' => P (c'.shared.contents L))) v ∧
    ∀ x ∈ l.hist.snaps, (machine L).During (SysConf.init bytes [] devFaults) as t
      (fun c' => c'.shared.contents L x.1 = x.2) := by
  -- at every moment the contents are the committed values
  have hmoment : ∀ {P : (Key → Option Bytes) → Prop} {K : Set (Key → Option Bytes)},
      (∀ f ∈ K, (machine L).During (SysConf.init bytes [] devFaults) as t (fun c' => c'.shared.value = f)) →
        Knew P (l, K) → (machine L).During (SysConf.init bytes [] devFaults) as t
          (fun c' => P (c'.shared.contents L)) := by
    rintro P K hpast ⟨f, hf, hP⟩
    refine (hpast f hf).imp fun before after c' heq hbefore hval => ?_
    have hprefix := ((machine L).along_append.mp (heq ▸ hok)).1
    have hkept : ContentsKept L c'.shared c'.locals := (contentsKept_of_run hL hprefix hbefore).inv
    rw [hkept.contents, hval]
    exact hP
  have hcode : ∀ call : Call, Keeps (remembering L)
      (fun v y => y.1.hist.call.Acknowledged (fun P => Knew P y) v ∧ Remembered y)
      (code L call) ((machine L).fresh call, ∅) := by
    intro call
    have hsame : ∀ (o : Op) (x1 : Memory) (r : o.Reply) (x2 : Memory),
        (x1.1.hist.call = call ∧ Remembered x1) → (remembering L).gives o x1 r x2 →
          x2.1.hist.call = call ∧ Remembered x2 := by
      intro o x1 r x2 ⟨hcall, hr⟩ hg
      obtain ⟨s, s', hx, heq⟩ := hg
      exact ⟨(exec_call hx).trans hcall, hr.gives ⟨s, s', hx, heq⟩⟩
    have hack := (code_acknowledged L call (x := ((machine L).fresh call, ∅)) rfl).carry
      (I := fun y => y.1.hist.call = call ∧ Remembered y) ⟨rfl, fun _ hp => absurd hp List.not_mem_nil⟩ hsame
    refine hack.mono ?_
    rintro v y ⟨hv, hcall, hr⟩
    exact ⟨hcall.symm ▸ hv, hr⟩
  obtain ⟨K, hK⟩ := Machine.run_recalls (M := machine L) (W := fun s f => s.value = f) hcode
    (fun v l K h => h) hrun hth
  obtain ⟨hack, hsnaps⟩ := hK.returned hv
  exact ⟨hack.mono fun P => hmoment hK.past, fun x hx => hmoment hK.past (hsnaps x hx)⟩

/-- A reader holds an object, which is deleted before its block is read. -/
def deletedBeforeRead : List (Act Call) :=
  Act.calls (.put [1] 1 [7]) 0 15 ++ Act.calls (.readAt [1] 0 1) 1 4
    ++ Act.calls (.deleteMapping [1]) 2 6 ++ List.replicate 3 (.step 1)

/-- What the run has left of the key, and what its calls have returned. -/
theorem deletedBeforeRead_run : ((machine smallDevice).run (SysConf.init (fun _ => 0) [] [])
    deletedBeforeRead).map (fun c => (c.shared.contents smallDevice [1], c.result? 0, c.result? 1))
      = some (none, some (.ok .done), some (.ok (.bytes [7] false))) := by
  decide +kernel

end Taihu
