/-
# What a Delete of the cluster client leaves behind

A `Delete` looks the key up, deletes it on the instance it finds, or on the instances of the
client's host if it finds none, and removes the entry of the key from the index and from its own
route cache.  Once it has returned without an error, no read that starts later should see the
object, and the index should be rid of the key.

It is so where the `Delete` reaches every copy, and where no entry of the key is still on its way
to the index when the `Delete` removes it there.  The code sees to neither: a `Put` only queues the
entry, and the client of another host, which has no route to the key, then deletes nothing
(`delete_misses`).

The proof follows two things through a run.  `Fades` says what a step can do as long as nobody puts
the key: copies only disappear, and an entry that is gone from the index and from the queues stays
away.  `View` is what a `Delete` has learned from the replies so far: which servers may still have a
copy, and whether the entry is gone.
-/
import Taihu.ClusterClient

namespace Taihu.ClusterClient

open Concur Transition

/-! ## 1. What is left of a key -/

/-- The addresses of the servers that have a copy. -/
def World.holders (s : World) (k : Key) : List Name :=
  (s.stores.entries.filter (fun e => (e.2.find? k).isSome)).map Prod.fst

/-- The client's index manager has an entry of the key in its queue or in its batch. -/
def Client.Queued (k : Key) (cl : Client) : Prop :=
  ∃ e ∈ cl.index.ch ++ cl.index.batch.entries, e.1 = k

def Request.Writes (k : Key) : Request → Prop
  | .put _ key _ => key = k
  | _ => False

def Request.Enters (k : Key) : Request → Prop
  | .batchPut kvs => ∃ e ∈ kvs, e.1 = k
  | _ => False

/-- An entry of the key is on its way to the index. -/
def World.Queued (k : Key) (s : World) : Prop :=
  (∃ cl ∈ s.clients, cl.Queued k) ∨ ∃ q ∈ s.inflight, q.Enters k

/-- The index has no entry of the key, and will not get one. -/
structure World.Absent (k : Key) (s : World) : Prop where
  entry : s.index.find? k = none
  queued : ¬ s.Queued k

/-- All index queues are drained. -/
def World.Drained (s : World) : Prop :=
  ∀ cl ∈ s.clients, cl.index.ch = [] ∧ cl.index.batch.entries = []

def Call.Puts (k : Key) : Call → Prop
  | .put key _ _ => key = k
  | _ => False

def Action.Puts (k : Key) : Action → Prop
  | .call _ op => op.Puts k
  | _ => False

/-- The result of a call has nothing of the object: a `Get` that returns data has been asked for no
bytes, and a `Stat` returns no size. -/
def Call.ReadsNothing (k : Key) : Call → Result → Prop
  | .get key _ size, .get (.ok d) => key = k → size = 0 ∧ d = []
  | .stat key, .stat (.ok _) => key ≠ k
  | _, _ => True

/-! ## 2. What is asked of a Delete, and when it is met -/

/-- What the call `t` has returned. -/
def World.returned (s : World) (t : Nat) : Option Result := (s.calls[t]?).bind (fun r => r.rest.value?)

/-- After the actions `pre` every `Put` of the key has returned; then client `c` starts a `Delete`
of it, and during `mid`, in which no `Put` of the key starts, this `Delete` returns `nil`. -/
structure Completed (k : Key) (c : Nat) (pre mid : List Action) (s s' : World) : Prop where
  before : run step World.init pre = some s
  puts : ∀ r ∈ s.calls, r.call.Puts k → r.rest.isDone = true
  during : run step s (.call c (.delete k) :: mid) = some s'
  no_put : ∀ a ∈ mid, ¬ a.Puts k
  nil : s'.returned s.calls.length = some (.delete (.ok ()))

/-- **The Delete is effective**: however the run goes on without a `Put` of the key, no `Get` or
`Stat` that starts from here reads anything of it, and the index has no entry of it once the
queues are drained. -/
def Effective (k : Key) (s : World) : Prop :=
  ∀ post s', (∀ a ∈ post, ¬ a.Puts k) → run step s post = some s' →
    (∀ t r, s.calls.length ≤ t → s'.calls[t]? = some r → ∀ v, r.rest.value? = some v →
      r.call.ReadsNothing k v) ∧
    (s'.Drained → s'.index.find? k = none)

/-- The condition on an access of the `Delete`: an instance that the registry gives it is the only
one with a copy; otherwise the copies are on the instances of its host; where there is a copy, the
connection is made, and to that server; and when it removes the entry from the index, this
succeeds if there is one, and no other is on its way there. -/
def Op.Finds (k : Key) (s : World) (c : Nat) (out : Outcome) : Op → Prop
  | .own (.registryLookup name) =>
    ∀ inst ∈ (s.clients[c]?).bind (fun cl => cl.snap.byName name), ∀ a ∈ s.holders k, a = inst.addr
  | .own .localInstances =>
    ∀ cl ∈ s.clients[c]?, ∀ a ∈ s.holders k, ∃ inst ∈ cl.snap.localInsts, inst.addr = a
  | .remote (.clientFor inst) => inst.addr ∈ s.holders k → out.ok = true ∧ out.server = inst.addr
  | .remote (.indexDelete _) => (s.index.find? k = none ∨ out.ok = true) ∧ ¬ s.Queued k
  | _ => True

/-- The condition on an action: it concerns the accesses of call `t`. -/
def Finds (k : Key) (t : Nat) (s : World) (a : Action) : Prop :=
  ∀ out, a = .step t out → ∀ r ∈ s.calls[t]?, ∀ o next, r.rest = .request o next →
    o.Finds k s r.client out

/-- **The Delete finds the key**: no `Put` of it that has failed is still on its way when the
`Delete` starts, and each of its accesses meets the condition. -/
structure FindsKey (k : Key) (c : Nat) (mid : List Action) (s : World) : Prop where
  settled : ∀ q ∈ s.inflight, ¬ q.Writes k
  steps : Along step (Finds k s.calls.length) s (.call c (.delete k) :: mid)

/-! ## 3. Calls that do not put the key -/

/-- The access neither stores an object of the key nor queues an entry of it. -/
def Op.Spares (k : Key) : Op → Prop
  | .own (.indexPut key _) => key ≠ k
  | .remote (.put _ key _) => key ≠ k
  | _ => True

section Spares

open Program

variable (k key : Key)

theorem spares_connGetRange (c : Key) (off size : Int) :
    Uses (Op.Spares k) (connGetRange c key off size) :=
  Uses.ite True.intro (Uses.ite True.intro (uses_perform True.intro))

theorem spares_connGet (c : Key) (off size : Int) : Uses (Op.Spares k) (connGet c key off size) := by
  refine Uses.ite (Uses.step True.intro fun r => ?_) (spares_connGetRange k key c off size)
  cases r with
  | error e => exact True.intro
  | ok total => exact spares_connGetRange k key c off (total - off)

theorem spares_lookupIndex : Uses (Op.Spares k) (lookupIndex key) := by
  refine Uses.step True.intro fun r => ?_
  cases r with
  | error e => exact True.intro
  | ok name =>
    refine Uses.ite True.intro (Uses.step True.intro fun r => ?_)
    cases r with
    | none => exact True.intro
    | some inst => exact Uses.step True.intro fun _ => True.intro

theorem spares_lookup : Uses (Op.Spares k) (lookup key) := by
  refine Uses.step True.intro fun r => ?_
  cases r with
  | none => exact spares_lookupIndex k key
  | some name =>
    refine Uses.step True.intro fun r => ?_
    cases r with
    | none => exact spares_lookupIndex k key
    | some inst => exact True.intro

variable {k key} in
theorem spares_put (h : key ≠ k) (size : Int) (input : Data) :
    Uses (Op.Spares k) (put key size input) := by
  refine Uses.step True.intro fun r => ?_
  cases r with
  | none => exact True.intro
  | some inst =>
    refine Uses.step True.intro fun r => ?_
    cases r with
    | error e => exact True.intro
    | ok c =>
      refine Uses.bind (Uses.ite True.intro (Uses.ite True.intro (uses_perform h))) fun r => ?_
      cases r with
      | error e => exact True.intro
      | ok u => exact Uses.step h fun _ => Uses.step True.intro fun _ => True.intro

theorem spares_getFrom (off size : Int) (insts : List InstanceInfo) :
    Uses (Op.Spares k) (getFrom key off size insts) := by
  induction insts with
  | nil => exact True.intro
  | cons inst insts ih =>
    refine Uses.step True.intro fun r => ?_
    cases r with
    | error e => exact ih
    | ok c =>
      refine Uses.bind (spares_connGet k key c off size) fun r => ?_
      split
      · exact True.intro
      · exact ih
      · exact True.intro

theorem spares_get (off size : Int) : Uses (Op.Spares k) (get key off size) := by
  refine Uses.bind (spares_lookup k key) fun r => ?_
  cases r with
  | none => exact True.intro
  | some inst =>
    refine Uses.bind (spares_getFrom k key off size [inst]) fun r => ?_
    split <;> exact True.intro

theorem spares_deleteFrom (inst : InstanceInfo) : Uses (Op.Spares k) (deleteFrom key inst) := by
  refine Uses.step True.intro fun r => ?_
  cases r with
  | error e => exact True.intro
  | ok c =>
    refine Uses.step True.intro fun r => ?_
    split <;> exact True.intro

theorem spares_deleteEach (insts : List InstanceInfo) :
    Uses (Op.Spares k) (deleteEach key insts) := by
  induction insts with
  | nil => exact True.intro
  | cons inst insts ih =>
    refine Uses.bind (spares_deleteFrom k key inst) fun r => ?_
    cases r with
    | error e => exact True.intro
    | ok u => exact ih

theorem spares_deleteData : Uses (Op.Spares k) (deleteData key) := by
  refine Uses.bind (spares_lookup k key) fun r => ?_
  cases r with
  | none => exact Uses.step True.intro fun insts => spares_deleteEach k key insts
  | some inst => exact spares_deleteFrom k key inst

theorem spares_delete : Uses (Op.Spares k) (delete key) := by
  refine Uses.bind (spares_deleteData k key) fun r => ?_
  cases r with
  | error e => exact True.intro
  | ok u => exact Uses.step True.intro fun _ => Uses.step True.intro fun _ => True.intro

theorem spares_statLookup : Uses (Op.Spares k) (statLookup key) := by
  refine Uses.bind (spares_lookup k key) fun r => ?_
  cases r with
  | none => exact True.intro
  | some inst =>
    refine Uses.step True.intro fun r => ?_
    cases r with
    | error e => exact True.intro
    | ok c => exact uses_perform True.intro

theorem spares_stat : Uses (Op.Spares k) (stat key) := by
  refine Uses.step True.intro fun insts => ?_
  induction insts with
  | nil => exact spares_statLookup k key
  | cons inst insts ih =>
    refine Uses.step True.intro fun r => ?_
    cases r with
    | error e => exact ih
    | ok c =>
      refine Uses.step True.intro fun r => ?_
      split
      · exact True.intro
      · exact ih
      · exact True.intro

end Spares

/-- **A call that is no `Put` of the key spares it.** -/
theorem spares_code {k : Key} {op : Call} (h : ¬ op.Puts k) : (code op).Uses (Op.Spares k) := by
  cases op with
  | put key size input => exact (spares_put h size input).bind fun _ => True.intro
  | get key off size => exact (spares_get k key off size).bind fun _ => True.intro
  | delete key => exact (spares_delete k key).bind fun _ => True.intro
  | stat key => exact (spares_stat k key).bind fun _ => True.intro

/-! ## 4. What a step can do -/

variable {k : Key} {s s' : World}

theorem mem_holders {a : Name} : a ∈ s.holders k ↔ ∃ d, (s.store a).find? k = some d := by
  unfold World.holders
  constructor
  · intro h
    obtain ⟨⟨a, m⟩, he, rfl⟩ := List.mem_map.mp h
    obtain ⟨hm, hk⟩ := List.mem_filter.mp he
    refine ⟨_, Option.eq_some_of_isSome ?_⟩
    · unfold World.store
      rw [SortedMap.mem_entries.mp hm]
      exact hk
  · rintro ⟨d, h⟩
    unfold World.store at h
    cases hm : s.stores.find? a with
    | none =>
      rw [hm] at h
      exact absurd h (by simp)
    | some m =>
      rw [hm] at h
      have hk : (m.find? k).isSome := by
        rw [show m.find? k = some d from h]
        rfl
      exact List.mem_map.mpr ⟨(a, m), List.mem_filter.mpr ⟨SortedMap.mem_entries.mpr hm, hk⟩, rfl⟩

theorem not_mem_holders {a : Name} : a ∉ s.holders k ↔ (s.store a).find? k = none := by
  rw [mem_holders, ← Option.isSome_iff_exists, Option.not_isSome_iff_eq_none]

/-- The server at one address has its objects replaced. -/
theorem store_insert (s : World) (addr : Name) (m : SortedMap Key Data) (a : Name) :
    World.store { s with stores := s.stores.insert addr m } a = if a = addr then m else s.store a := by
  unfold World.store
  rw [SortedMap.find?_insert]
  split <;> rfl

theorem holders_serve {q : Request} (hq : ¬ q.Writes k) {a : Name}
    (h : a ∈ (s.serve q).holders k) : a ∈ s.holders k := by
  obtain ⟨d, hd⟩ := mem_holders.mp h
  refine mem_holders.mpr ?_
  cases q with
  | put addr key data =>
    have hd : (World.store { s with stores := s.stores.insert addr _ } a).find? k = some d := hd
    rw [store_insert] at hd
    split at hd
    · rename_i ha
      rw [SortedMap.find?_insert, if_neg (fun e => hq e.symm)] at hd
      exact ⟨d, ha ▸ hd⟩
    · exact ⟨d, hd⟩
  | delete addr key =>
    have hd : (World.store { s with stores := s.stores.insert addr _ } a).find? k = some d := hd
    rw [store_insert] at hd
    split at hd
    · rename_i ha
      rw [SortedMap.find?_erase] at hd
      split at hd
      · cases hd
      · exact ⟨d, ha ▸ hd⟩
    · exact ⟨d, hd⟩
  | indexDelete key => exact ⟨d, hd⟩
  | batchPut kvs => exact ⟨d, hd⟩

/-- What the requests of a batch write for a key they do not have. -/
theorem find?_batchPut (kvs : List (Key × Name)) (m : SortedMap Key Name)
    (h : ∀ e ∈ kvs, e.1 ≠ k) :
    (kvs.foldl (fun m e => m.insert e.1 e.2) m).find? k = m.find? k := by
  induction kvs generalizing m with
  | nil => rfl
  | cons e kvs ih =>
    rw [List.foldl_cons, ih _ (fun e he => h e (List.mem_cons_of_mem _ he)), SortedMap.find?_insert,
      if_neg (fun he => h e List.mem_cons_self he.symm)]

theorem entry_serve {q : Request} (hq : ¬ q.Enters k) (h : s.index.find? k = none) :
    (s.serve q).index.find? k = none := by
  cases q with
  | put addr key data => exact h
  | delete addr key => exact h
  | indexDelete key =>
    have herase : (s.serve (.indexDelete key)).index.find? k = _ := SortedMap.find?_erase s.index key k
    rw [herase, h]
    split <;> rfl
  | batchPut kvs =>
    exact (find?_batchPut kvs s.index (fun e he hk => hq ⟨e, he, hk⟩)).trans h

theorem World.Absent.serve {q : Request} (h : s.Absent k) (hq : ¬ q.Enters k) :
    (s.serve q).Absent k := by
  refine ⟨entry_serve hq h.entry, fun hqueued => h.queued ?_⟩
  cases q <;> exact hqueued

theorem World.Absent.send {q : Request} (h : s.Absent k) (hq : ¬ q.Enters k) (ok : Bool) :
    (s.send ok q).Absent k := by
  cases ok with
  | true => exact h.serve hq
  | false =>
    refine ⟨h.entry, fun hqueued => ?_⟩
    rcases hqueued with hcl | ⟨q', hq', hk⟩
    · exact h.queued (.inl hcl)
    · rcases List.mem_append.mp hq' with hmem | hmem
      · exact h.queued (.inr ⟨q', hmem, hk⟩)
      · exact hq (List.mem_singleton.mp hmem ▸ hk)

/-- A client is replaced by one that has not queued the key. -/
theorem World.Absent.set (h : s.Absent k) {cl : Client} (hcl : ¬ cl.Queued k) (c : Nat) :
    World.Absent k { s with clients := s.clients.set c cl } := by
  refine ⟨h.entry, fun hqueued => ?_⟩
  rcases hqueued with ⟨cl', hmem, hk⟩ | hflight
  · rcases List.mem_or_eq_of_mem_set hmem with hmem | rfl
    · exact h.queued (.inl ⟨cl', hmem, hk⟩)
    · exact hcl hk
  · exact h.queued (.inr hflight)

theorem World.Absent.client (h : s.Absent k) {c : Nat} {cl : Client} (hc : s.clients[c]? = some cl) :
    ¬ cl.Queued k :=
  fun hk => h.queued (.inl ⟨cl, List.mem_of_getElem? hc, hk⟩)

/-- **What a step can do while nobody puts the key**: copies only disappear, and an entry that is
absent stays absent. -/
structure Fades (k : Key) (s s' : World) : Prop where
  holders : ∀ a ∈ s'.holders k, a ∈ s.holders k
  absent : s.Absent k → s'.Absent k

/-- No call that is in progress puts the key, and no `Put` of it is on its way. -/
structure Calm (k : Key) (s : World) : Prop where
  calls : ∀ r ∈ s.calls, r.rest.Uses (Op.Spares k)
  settled : ∀ q ∈ s.inflight, ¬ q.Writes k

theorem fades_set {c : Nat} {cl cl' : Client} (hc : s.clients[c]? = some cl)
    (h : cl'.Queued k → cl.Queued k) : Fades k s { s with clients := s.clients.set c cl' } :=
  ⟨fun _ ha => ha, fun ha => ha.set (fun hk => ha.client hc (h hk)) c⟩

theorem fades_send {q : Request} (hw : ¬ q.Writes k) (he : ¬ q.Enters k) (ok : Bool) :
    Fades k s (s.send ok q) := by
  refine ⟨?_, fun h => h.send he ok⟩
  cases ok with
  | true => exact fun a ha => holders_serve hw ha
  | false => exact fun a ha => ha

theorem settled_send {q : Request} (hw : ¬ q.Writes k) (h : ∀ q ∈ s.inflight, ¬ q.Writes k)
    (ok : Bool) : ∀ q' ∈ (s.send ok q).inflight, ¬ q'.Writes k := by
  cases ok with
  | true => cases q <;> exact h
  | false =>
    intro q' hq'
    rcases List.mem_append.mp hq' with hmem | hmem
    · exact h q' hmem
    · exact List.mem_singleton.mp hmem ▸ hw

/-! ### The accesses -/

theorem queued_perform {o : LocalOp} (ho : Op.Spares k (.own o)) {cl : Client} {rand : Nat}
    (h : (cl.perform rand o).1.Queued k) : cl.Queued k := by
  cases o with
  | indexPut key name =>
    obtain ⟨e, he, hk⟩ := h
    have he : e ∈ (cl.index.put key name).ch ++ (cl.index.put key name).batch.entries := he
    unfold IndexManager.put at he
    split at he
    · rcases List.mem_append.mp he with hch | hbatch
      · rcases List.mem_append.mp hch with hch | hnew
        · exact ⟨e, List.mem_append_left _ hch, hk⟩
        · rw [List.mem_singleton.mp hnew] at hk
          exact absurd hk ho
      · exact ⟨e, List.mem_append_right _ hbatch, hk⟩
    · exact ⟨e, he, hk⟩
  | pick =>
    have h : (cl.pick rand).1.Queued k := h
    unfold Client.pick at h
    split at h
    · exact h
    · split at h <;> exact h
  | _ => exact h

theorem request?_spares {o : RemoteOp} (ho : Op.Spares k (.remote o)) {q : Request}
    (hq : o.request? = some q) : ¬ q.Writes k ∧ ¬ q.Enters k := by
  cases o with
  | put addr key data =>
    cases hq
    exact ⟨ho, fun h => h⟩
  | delete addr key =>
    cases hq
    exact ⟨fun h => h, fun h => h⟩
  | indexDelete key =>
    cases hq
    exact ⟨fun h => h, fun h => h⟩
  | _ => cases hq

/-- An access that spares the key. -/
theorem exec_fades {o : Op} (ho : o.Spares k) {c : Nat} {out : Outcome} {r : o.Reply}
    (h : s.exec c out o = some (s', r)) (hset : ∀ q ∈ s.inflight, ¬ q.Writes k) :
    Fades k s s' ∧ ∀ q ∈ s'.inflight, ¬ q.Writes k := by
  cases o with
  | own o =>
    obtain ⟨cl, hc, he⟩ := Option.map_eq_some_iff.mp h
    cases he
    exact ⟨fades_set hc (queued_perform ho), hset⟩
  | remote o =>
    have h := Option.some.inj h
    cases h
    cases hq : o.request? with
    | none => exact ⟨⟨fun _ ha => ha, fun ha => ha⟩, hset⟩
    | some q =>
      obtain ⟨hw, he⟩ := request?_spares ho hq
      exact ⟨fades_send hw he out.ok, settled_send hw hset out.ok⟩

/-! ### The steps -/

theorem onClient_eq_some {c : Nat} {f : Client → Option Client} (h : s.onClient c f = some s') :
    ∃ cl cl', s.clients[c]? = some cl ∧ f cl = some cl' ∧
      s' = { s with clients := s.clients.set c cl' } := by
  obtain ⟨cl', hcl', rfl⟩ := Option.map_eq_some_iff.mp h
  obtain ⟨cl, hc, hf⟩ := Option.bind_eq_some_iff.mp hcl'
  exact ⟨cl, cl', hc, hf, rfl⟩

/-- A step of an index manager that only moves entries about. -/
theorem fades_onClient {c : Nat} {f : Client → Option Client} (h : s.onClient c f = some s')
    (hf : ∀ cl cl', f cl = some cl' → cl'.Queued k → cl.Queued k) (hcalm : Calm k s) :
    Fades k s s' ∧ Calm k s' := by
  obtain ⟨cl, cl', hc, he, rfl⟩ := onClient_eq_some h
  exact ⟨fades_set hc (hf cl cl' he), hcalm.1, hcalm.2⟩

theorem queued_recv {cl : Client} {m : IndexManager} (h : cl.index.recv = some m)
    (hk : Client.Queued k { cl with index := m }) : cl.Queued k := by
  unfold IndexManager.recv at h
  split at h
  · rename_i item ch hloop hch
    cases h
    obtain ⟨e, he, hek⟩ := hk
    refine ⟨e, ?_, hek⟩
    rw [hch]
    rcases List.mem_append.mp he with hin | hin
    · exact List.mem_append_left _ (List.mem_cons_of_mem _ hin)
    · rcases SortedMap.mem_insertList hin with rfl | hin
      · exact List.mem_append_left _ List.mem_cons_self
      · exact List.mem_append_right _ hin
  · cases h

theorem flush_eq_some {m m' : IndexManager} {kvs : List (Key × Name)} (h : m.flush = some (kvs, m')) :
    kvs = m.batch.entries ∧ m'.ch = m.ch ∧ m'.batch.entries = [] := by
  unfold IndexManager.flush at h
  split at h
  · cases h
    exact ⟨rfl, rfl, rfl⟩
  · cases h
    exact ⟨rfl, rfl, rfl⟩
  · cases h

theorem step_flush {c : Nat} {ok : Bool} (hcalm : Calm k s) (h : step s (.flush c ok) = some s') :
    Fades k s s' ∧ Calm k s' := by
  unfold step at h
  simp only at h
  split at h
  · cases h
  rename_i cl hc
  obtain ⟨⟨kvs, m⟩, hm, he⟩ := Option.map_eq_some_iff.mp h
  obtain ⟨rfl, hch, hbatch⟩ := flush_eq_some hm
  have hqueued : Client.Queued k { cl with index := m } → cl.Queued k := by
    rintro ⟨e, hin, hek⟩
    have hin : e ∈ m.ch ++ m.batch.entries := hin
    rw [hch, hbatch, List.append_nil] at hin
    exact ⟨e, List.mem_append_left _ hin, hek⟩
  have hset := fades_set (k := k) hc hqueued
  have hcalm' : Calm k { s with clients := s.clients.set c { cl with index := m } } :=
    ⟨hcalm.1, hcalm.2⟩
  have hwrites : ¬ (Request.batchPut cl.index.batch.entries).Writes k := fun hw => hw
  simp only at he
  split at he
  · cases he
    exact ⟨hset, hcalm'⟩
  · cases he
    refine ⟨⟨?_, ?_⟩, ?_, ?_⟩
    · intro a ha
      cases ok with
      | true => exact holders_serve hwrites ha
      | false => exact ha
    · intro habs
      refine (hset.absent habs).send ?_ ok
      rintro ⟨e, hin, hek⟩
      exact habs.client hc ⟨e, List.mem_append_right _ hin, hek⟩
    · cases ok with
      | true => exact hcalm.1
      | false => exact hcalm.1
    · exact settled_send hwrites hcalm'.settled ok

theorem step_land {i : Nat} (hcalm : Calm k s) (h : step s (.land i) = some s') :
    Fades k s s' ∧ Calm k s' := by
  obtain ⟨q, hq, rfl⟩ := Option.map_eq_some_iff.mp h
  have hmem : q ∈ s.inflight := List.mem_of_getElem? hq
  have hsub : ∀ q' ∈ s.inflight.eraseIdx i, q' ∈ s.inflight := fun q' h' => List.mem_of_mem_eraseIdx h'
  refine ⟨⟨fun a ha => ?_, fun habs => ?_⟩, ?_, ?_⟩
  · have hrest := holders_serve (hcalm.settled q hmem) ha
    exact hrest
  · have hrest : World.Absent k { s with inflight := s.inflight.eraseIdx i } := by
      refine ⟨habs.entry, fun hqueued => ?_⟩
      rcases hqueued with hcl | ⟨q', hq', hk⟩
      · exact habs.queued (.inl hcl)
      · exact habs.queued (.inr ⟨q', hsub q' hq', hk⟩)
    exact hrest.serve (fun he => habs.queued (.inr ⟨q, hmem, he⟩))
  · cases q <;> exact hcalm.1
  · cases q <;> exact fun q' h' => hcalm.settled q' (hsub q' h')

theorem step_step {t : Nat} {out : Outcome} (h : step s (.step t out) = some s') :
    ∃ c op o next s₁ r, s.calls[t]? = some ⟨c, op, .request o next⟩ ∧
      s.exec c out o = some (s₁, r) ∧ s' = { s₁ with calls := s.calls.set t ⟨c, op, next r⟩ } := by
  unfold step at h
  simp only at h
  split at h
  · rename_i c op o next hr
    obtain ⟨⟨s₁, r⟩, hx, rfl⟩ := Option.map_eq_some_iff.mp h
    exact ⟨c, op, o, next, s₁, r, hr, hx, rfl⟩
  · cases h

/-- **A step while nobody puts the key.** -/
theorem step_fades {a : Action} (hcalm : Calm k s) (ha : ¬ a.Puts k) (h : step s a = some s') :
    Fades k s s' ∧ Calm k s' := by
  cases a with
  | call c op =>
    unfold step at h
    simp only at h
    split at h
    · cases h
      refine ⟨⟨fun _ h' => h', fun h' => ⟨h'.1, h'.2⟩⟩, fun r hr => ?_, hcalm.2⟩
      rcases List.mem_append.mp hr with hr | hr
      · exact hcalm.calls r hr
      · rw [List.mem_singleton.mp hr]
        exact spares_code ha
    · cases h
  | step t out =>
    obtain ⟨c, op, o, next, s₁, r, hr, hx, rfl⟩ := step_step h
    have huses := hcalm.calls _ (List.mem_of_getElem? hr)
    obtain ⟨hfades, hset⟩ := exec_fades huses.1 hx hcalm.settled
    refine ⟨⟨hfades.1, fun habs => ⟨(hfades.2 habs).1, (hfades.2 habs).2⟩⟩, fun r' hr' => ?_, hset⟩
    rcases List.mem_or_eq_of_mem_set hr' with hr' | rfl
    · exact hcalm.calls r' hr'
    · exact huses.2 r
  | land i => exact step_land hcalm h
  | recv c =>
    refine fades_onClient h (fun cl cl' he hk => ?_) hcalm
    obtain ⟨m, hm, rfl⟩ := Option.map_eq_some_iff.mp he
    exact queued_recv hm hk
  | tick c =>
    refine fades_onClient h (fun cl cl' he hk => ?_) hcalm
    obtain ⟨m, hm, rfl⟩ := Option.map_eq_some_iff.mp he
    unfold IndexManager.tick at hm
    split at hm
    · cases hm
      exact hk
    · cases hm
  | flush c ok => exact step_flush hcalm h
  | close c =>
    refine fades_onClient h (fun cl cl' he hk => ?_) hcalm
    cases he
    exact hk
  | stop c =>
    refine fades_onClient h (fun cl cl' he hk => ?_) hcalm
    obtain ⟨m, hm, rfl⟩ := Option.map_eq_some_iff.mp he
    unfold IndexManager.stop at hm
    split at hm
    · cases hm
      exact hk
    · cases hm
  | newCluster cfg =>
    cases h
    refine ⟨⟨fun _ h' => h', fun h' => ⟨h'.1, fun hqueued => ?_⟩⟩, hcalm.1, hcalm.2⟩
    rcases hqueued with ⟨cl, hcl, e, he, hk⟩ | hflight
    · rcases List.mem_append.mp hcl with hcl | hcl
      · exact h'.queued (.inl ⟨cl, hcl, e, he, hk⟩)
      · rw [List.mem_singleton.mp hcl] at he
        exact absurd he List.not_mem_nil
    · exact h'.queued (.inr hflight)
  | refresh c now =>
    refine fades_onClient h (fun cl cl' he hk => ?_) hcalm
    cases he
    exact hk
  | register info =>
    cases h
    exact ⟨⟨fun _ h' => h', fun h' => ⟨h'.1, h'.2⟩⟩, hcalm.1, hcalm.2⟩
  | unregister name =>
    cases h
    exact ⟨⟨fun _ h' => h', fun h' => ⟨h'.1, h'.2⟩⟩, hcalm.1, hcalm.2⟩

/-! ## 5. What a Delete learns -/

/-- What a `Delete` knows from the replies so far: which servers may still have a copy, and whether
the entry is absent from the index. -/
structure View where
  cover : Name → Prop
  gone : Prop

namespace View

variable (v : View)

/-- It knows nothing. -/
def start : View := ⟨fun _ => True, False⟩

/-- The copies are on the servers at these addresses. -/
def restrict (p : Name → Prop) : View := { v with cover := fun a => v.cover a ∧ p a }

/-- What a reply tells, if the access meets `Op.Finds`. -/
def learn (k : Key) : (o : Op) → o.Reply → View
  | .own (.registryLookup _), some inst => v.restrict (fun a => a = inst.addr)
  | .own .localInstances, insts => v.restrict (fun a => ∃ inst ∈ insts, inst.addr = a)
  | .remote (.clientFor inst), .ok c =>
    if c = inst.addr then v else v.restrict (fun a => a ≠ inst.addr)
  | .remote (.clientFor inst), .error _ => v.restrict (fun a => a ≠ inst.addr)
  | .remote (.delete c key), r =>
    if key = k ∧ (r = .ok () ∨ r = .error .notFound) then v.restrict (fun a => a ≠ c) else v
  | .remote (.indexDelete key), _ => if key = k then { v with gone := True } else v
  | _, _ => v

/-- The state is as the view says. -/
structure Sound (k : Key) (s : World) : Prop where
  cover : ∀ a ∈ s.holders k, v.cover a
  gone : v.gone → s.Absent k

variable {v}

theorem Sound.restrict {p : Name → Prop} (h : v.Sound k s) (hp : ∀ a ∈ s.holders k, p a) :
    (v.restrict p).Sound k s :=
  ⟨fun a ha => ⟨h.cover a ha, hp a ha⟩, h.gone⟩

theorem Sound.fades (h : v.Sound k s) (hf : Fades k s s') : v.Sound k s' :=
  ⟨fun a ha => h.cover a (hf.holders a ha), fun hg => hf.absent (h.gone hg)⟩

end View

/-- A server that has performed the delete, or has answered that it has no such key, has none. -/
theorem holders_delete {c : Nat} {addr : Name} {out : Outcome} {r : Except Err Unit}
    (h : s.exec c out (.remote (.delete addr k)) = some (s', r))
    (hr : r = .ok () ∨ r = .error .notFound) : addr ∉ s'.holders k := by
  have h := Option.some.inj h
  cases hok : out.ok with
  | true =>
    cases h
    rw [hok]
    refine not_mem_holders.mpr ?_
    have hstore : (World.store { s with stores := s.stores.insert addr ((s.store addr).erase k) }
        addr).find? k = none := by
      rw [store_insert, if_pos rfl, SortedMap.find?_erase, if_pos rfl]
    exact hstore
  | false =>
    have hconn : r = .error .conn := by
      have := congrArg Prod.snd h
      simp only [hok] at this
      exact this.symm
    rw [hconn] at hr
    rcases hr with hr | hr <;> cases hr

/-- The removal of the entry, where none is on its way. -/
theorem absent_indexDelete {c : Nat} {out : Outcome} {r : Except Err Unit}
    (h : s.exec c out (.remote (.indexDelete k)) = some (s', r))
    (hentry : s.index.find? k = none ∨ out.ok = true) (hq : ¬ s.Queued k) : s'.Absent k := by
  have h := congrArg Prod.fst (Option.some.inj h)
  have h : s.send out.ok (.indexDelete k) = s' := h
  rcases hentry with hentry | hok
  · have henters : ¬ (Request.indexDelete k).Enters k := fun he => he
    exact h ▸ World.Absent.send ⟨hentry, hq⟩ henters out.ok
  · rw [hok] at h
    subst h
    refine ⟨?_, hq⟩
    have herase : (s.serve (.indexDelete k)).index.find? k = _ := SortedMap.find?_erase s.index k k
    exact herase.trans (if_pos rfl)

/-- **What a Delete learns is so.** -/
theorem View.Sound.learn {v : View} {o : Op} {c : Nat} {out : Outcome} {r : o.Reply}
    (hv : v.Sound k s) (hfades : Fades k s s') (hfinds : o.Finds k s c out)
    (h : s.exec c out o = some (s', r)) : (v.learn k o r).Sound k s' := by
  have hv' := hv.fades hfades
  cases o with
  | own o =>
    obtain ⟨cl, hc, he⟩ := Option.map_eq_some_iff.mp h
    cases o with
    | registryLookup name =>
      cases r with
      | none => exact hv'
      | some inst =>
        have hname : cl.snap.byName name = some inst := congrArg Prod.snd he
        refine hv'.restrict fun a ha => hfinds inst ?_ a (hfades.holders a ha)
        rw [hc]
        exact hname
    | localInstances =>
      have hinsts : cl.snap.localInsts = r := congrArg Prod.snd he
      refine hv'.restrict fun a ha => ?_
      obtain ⟨inst, hin, hinst⟩ := hfinds cl hc a (hfades.holders a ha)
      exact ⟨inst, hinsts ▸ hin, hinst⟩
    | _ => exact hv'
  | remote o =>
    cases o with
    | clientFor inst =>
      have h := Option.some.inj h
      have hreply : (if out.ok then Except.ok out.server else .error .conn) = r :=
        congrArg Prod.snd h
      have helse : (∀ c, r = .ok c → c ≠ inst.addr) → ∀ a ∈ s'.holders k, a ≠ inst.addr := by
        rintro hne a ha rfl
        obtain ⟨hok, hserver⟩ := hfinds (hfades.holders _ ha)
        rw [hok, if_pos rfl, hserver] at hreply
        exact hne _ hreply.symm rfl
      cases r with
      | error e => exact hv'.restrict (helse (fun c hc => by cases hc))
      | ok c =>
        unfold View.learn
        simp only
        split
        · exact hv'
        · rename_i hne
          refine hv'.restrict (helse fun c' hc' => ?_)
          cases hc'
          exact hne
    | delete addr key =>
      unfold View.learn
      simp only
      split
      · rename_i hr
        obtain ⟨rfl, hr⟩ := hr
        refine hv'.restrict fun a ha => ?_
        rintro rfl
        exact holders_delete h hr ha
      · exact hv'
    | indexDelete key =>
      unfold View.learn
      simp only
      split
      · rename_i hkey
        subst hkey
        exact ⟨hv'.cover, fun _ => absent_indexDelete h hfinds.1 hfinds.2⟩
      · exact hv'
    | _ => exact hv'

/-! ### The program of a Delete, reply by reply -/

/-- The contract that lets a `Delete` learn. -/
def learning (k : Key) : Program.Contract Access View where
  pre := fun _ _ => True
  gives := fun o v r v' => v' = v.learn k o r

section Learning

open Program

variable {v : View}

/-- One access, and what follows its reply. -/
theorem keeps_learn {α : Type} {o : Op} {f : o.Reply → Prog α} {post : α → View → Prop}
    (h : ∀ r, Keeps (learning k) post (f r) (v.learn k o r)) :
    Keeps (learning k) post (Program.request (S := Access) o f) v := by
  refine ⟨True.intro, ?_⟩
  rintro r _ rfl
  exact h r

/-- The view `v'` allows no more copies than `v`. -/
def View.Within (v' v : View) : Prop := ∀ a, v'.cover a → v.cover a

theorem View.Within.rfl : v.Within v := fun _ h => h

theorem View.within_restrict (p : Name → Prop) : (v.restrict p).Within v := fun _ h => h.1

/-- The instance that `lookup` finds is the only one with a copy. -/
def Located (v : View) (r : Option InstanceInfo) (v' : View) : Prop :=
  v'.Within v ∧ ∀ inst, r = some inst → ∀ a, v'.cover a → a = inst.addr

theorem learns_lookupIndex :
    Keeps (learning k) (Located v) (lookupIndex k) v := by
  refine keeps_learn fun r => ?_
  cases r with
  | error e => exact ⟨View.Within.rfl, fun inst h => by cases h⟩
  | ok name =>
    refine Keeps.ite (fun _ => ⟨View.Within.rfl, fun inst h => by cases h⟩) fun _ => ?_
    refine keeps_learn fun r => ?_
    cases r with
    | none => exact ⟨View.Within.rfl, fun inst h => by cases h⟩
    | some inst =>
      refine keeps_learn fun _ => ⟨View.within_restrict _, fun inst' h a ha => ?_⟩
      cases h
      exact ha.2

theorem learns_lookup : Keeps (learning k) (Located v) (lookup k) v := by
  refine keeps_learn fun r => ?_
  cases r with
  | none => exact learns_lookupIndex
  | some name =>
    refine keeps_learn fun r => ?_
    cases r with
    | none => exact learns_lookupIndex
    | some inst =>
      refine ⟨View.within_restrict _, fun inst' h a ha => ?_⟩
      cases h
      exact ha.2

theorem learns_deleteFrom (inst : InstanceInfo) :
    Keeps (learning k) (fun r v' => r = .ok () → v'.Within v ∧ ¬ v'.cover inst.addr)
      (deleteFrom k inst) v := by
  refine keeps_learn fun r => ?_
  cases r with
  | error e => exact fun _ => ⟨View.within_restrict _, fun h => h.2 rfl⟩
  | ok c =>
    refine keeps_learn fun r => ?_
    have hlearn : (v.learn k (.remote (.clientFor inst)) (.ok c)).Within v := by
      unfold View.learn
      simp only
      split
      · exact View.Within.rfl
      · exact View.within_restrict _
    have hgone : (r = .ok () ∨ r = .error .notFound) →
        let v' := (v.learn k (.remote (.clientFor inst)) (.ok c)).learn k (.remote (.delete c k)) r
        v'.Within v ∧ ¬ v'.cover inst.addr := by
      intro hr
      have hv' : (v.learn k (.remote (.clientFor inst)) (.ok c)).learn k (.remote (.delete c k)) r =
          (v.learn k (.remote (.clientFor inst)) (.ok c)).restrict (fun a => a ≠ c) :=
        if_pos ⟨rfl, hr⟩
      rw [hv']
      refine ⟨fun a ha => hlearn a ha.1, fun h => ?_⟩
      by_cases hc : c = inst.addr
      · exact h.2 hc.symm
      · -- the connection leads elsewhere: there was no copy on the instance
        have hcover := h.1
        rw [show v.learn k (.remote (.clientFor inst)) (.ok c) =
          v.restrict (fun a => a ≠ inst.addr) from if_neg hc] at hcover
        exact hcover.2 rfl
    cases r with
    | ok u => exact fun _ => hgone (.inl rfl)
    | error e =>
      cases e with
      | notFound => exact fun _ => hgone (.inr rfl)
      | _ => exact fun h => by cases h

theorem learns_deleteEach (insts : List InstanceInfo) :
    Keeps (learning k) (fun r v' => r = .ok () → v'.Within v ∧ ∀ inst ∈ insts, ¬ v'.cover inst.addr)
      (deleteEach k insts) v := by
  induction insts generalizing v with
  | nil => exact fun _ => ⟨View.Within.rfl, fun inst h => absurd h List.not_mem_nil⟩
  | cons inst insts ih =>
    refine (learns_deleteFrom inst).bind fun r v₁ hr => ?_
    cases r with
    | error e => exact fun h => by cases h
    | ok u =>
      obtain ⟨hwithin, hinst⟩ := hr rfl
      refine (ih (v := v₁)).mono fun r v₂ hr₂ hok => ?_
      obtain ⟨hwithin₂, hrest⟩ := hr₂ hok
      refine ⟨fun a ha => hwithin a (hwithin₂ a ha), fun inst' hin => ?_⟩
      rcases List.mem_cons.mp hin with rfl | hin
      · exact fun h => hinst (hwithin₂ _ h)
      · exact hrest inst' hin

theorem learns_deleteData :
    Keeps (learning k) (fun r v' => r = .ok () → ∀ a, ¬ v'.cover a) (deleteData k) v := by
  refine learns_lookup.bind fun r v₁ hr => ?_
  cases r with
  | some inst =>
    refine (learns_deleteFrom inst).mono fun r v₂ hr₂ hok a ha => ?_
    obtain ⟨hwithin, hinst⟩ := hr₂ hok
    exact hinst (hr.2 inst rfl a (hwithin a ha) ▸ ha)
  | none =>
    refine keeps_learn fun insts => ?_
    refine (learns_deleteEach insts).mono fun r v₂ hr₂ hok a ha => ?_
    obtain ⟨hwithin, hinsts⟩ := hr₂ hok
    obtain ⟨-, inst, hin, rfl⟩ := hwithin a ha
    exact hinsts inst hin ha

/-- The view of a `Delete` that has returned `nil`: no copies, no entry. -/
def Emptied : Result → View → Prop
  | .delete (.ok ()), v => (∀ a, ¬ v.cover a) ∧ v.gone
  | _, _ => True

/-- **A Delete that returns `nil` has learned that nothing is left.** -/
theorem learns_delete : Keeps (learning k) Emptied (code (.delete k)) v := by
  refine Keeps.bind (m := fun r v' => Emptied (.delete r) v') ?_ fun r v' h => h
  refine learns_deleteData.bind fun r v₁ hr => ?_
  cases r with
  | error e => exact True.intro
  | ok u =>
    refine keeps_learn fun _ => keeps_learn fun _ => ?_
    have hv' : v₁.learn k (.remote (.indexDelete k)) = fun _ => { v₁ with gone := True } :=
      funext fun _ => if_pos rfl
    rw [hv']
    exact ⟨hr rfl, True.intro⟩

end Learning

/-! ## 6. Reads where there is no copy -/

/-- The replies of servers that have no copy. -/
def Op.Blind (k : Key) : (o : Op) → o.Reply → Prop
  | .remote (.get _ key _ _), .ok _ => key ≠ k
  | .remote (.stat _ key), .ok _ => key ≠ k
  | _, _ => True

def blind (k : Key) : Program.Contract Access Unit where
  pre := fun _ _ => True
  gives := fun o _ r _ => o.Blind k r

theorem exec_blind {o : Op} {c : Nat} {out : Outcome} {r : o.Reply}
    (hnone : ∀ a, a ∉ s.holders k) (h : s.exec c out o = some (s', r)) : o.Blind k r := by
  cases o with
  | own o => exact True.intro
  | remote o =>
    have h := congrArg Prod.snd (Option.some.inj h)
    cases o with
    | get addr key off size =>
      cases r with
      | error e => exact True.intro
      | ok d =>
        rintro rfl
        simp only [World.answer, not_mem_holders.mp (hnone addr)] at h
        split at h <;> cases h
    | stat addr key =>
      cases r with
      | error e => exact True.intro
      | ok n =>
        rintro rfl
        simp only [World.answer, not_mem_holders.mp (hnone addr)] at h
        split at h <;> cases h
    | _ => exact True.intro

section Blind

open Program

variable {α : Type} {u : Unit}

theorem keeps_blind {o : Op} {f : o.Reply → Prog α} {post : α → Unit → Prop}
    (h : ∀ r, o.Blind k r → Keeps (blind k) post (f r) ()) :
    Keeps (blind k) post (Program.request (S := Access) o f) u :=
  ⟨True.intro, fun r _ hr => h r hr⟩

/-- A postcondition that always holds. -/
theorem blind_any (p : Prog α) {post : α → Unit → Prop} (h : ∀ a, post a ()) :
    Keeps (blind k) post p u := by
  induction p generalizing u with
  | pure a => exact h a
  | request o next ih => exact keeps_blind fun r _ => ih r

theorem blind_connGetRange (c : Key) (off size : Int) :
    Keeps (blind k) (fun r _ => ∀ d, r = .ok d → size = 0 ∧ d = []) (connGetRange c k off size) u := by
  refine Keeps.ite (fun _ d h => by cases h) fun _ => Keeps.ite (fun hz d h => ?_) fun _ => ?_
  · cases h
    exact ⟨hz, rfl⟩
  · refine keeps_blind fun r hr d h => ?_
    subst h
    exact absurd rfl hr

theorem blind_connGet (c : Key) (off size : Int) :
    Keeps (blind k) (fun r _ => ∀ d, r = .ok d → size = 0 ∧ d = []) (connGet c k off size) u := by
  refine Keeps.ite (fun _ => keeps_blind fun r hr => ?_) fun _ => blind_connGetRange c off size
  cases r with
  | error e => exact fun d h => by cases h
  | ok total => exact absurd rfl hr

theorem blind_getFrom (off size : Int) (insts : List InstanceInfo) :
    Keeps (blind k) (fun r _ => ∀ d, r = .ok d → size = 0 ∧ d = []) (getFrom k off size insts) u := by
  induction insts with
  | nil => exact fun d h => by cases h
  | cons inst insts ih =>
    refine keeps_blind fun r _ => ?_
    cases r with
    | error e => exact ih
    | ok c =>
      refine (blind_connGet c off size).bind fun r _ hr => ?_
      split
      · exact hr
      · exact ih
      · exact fun d h => by cases h

theorem blind_get (off size : Int) :
    Keeps (blind k) (fun r _ => ∀ d, r = .ok d → size = 0 ∧ d = []) (get k off size) u := by
  refine Keeps.bind (m := fun _ _ => True) (blind_any _ fun _ => True.intro) fun r _ _ => ?_
  cases r with
  | none => exact fun d h => by cases h
  | some inst =>
    refine (blind_getFrom off size [inst]).bind fun r _ hr => ?_
    split
    · exact fun d h => by cases h
    · exact hr

theorem blind_statLookup : Keeps (blind k) (fun r _ => ∀ n, r ≠ .ok n) (statLookup k) u := by
  refine Keeps.bind (m := fun _ _ => True) (blind_any _ fun _ => True.intro) fun r _ _ => ?_
  cases r with
  | none => exact fun n h => by cases h
  | some inst =>
    refine keeps_blind fun r _ => ?_
    cases r with
    | error e => exact fun n h => by cases h
    | ok c =>
      refine keeps_blind fun r hr n h => ?_
      subst h
      exact absurd rfl hr

theorem blind_statEach (insts : List InstanceInfo) :
    Keeps (blind k) (fun r _ => ∀ n, r ≠ .ok n) (statEach k insts) u := by
  induction insts with
  | nil => exact blind_statLookup
  | cons inst insts ih =>
    refine keeps_blind fun r _ => ?_
    cases r with
    | error e => exact ih
    | ok c =>
      refine keeps_blind fun r hr => ?_
      cases r with
      | ok n => exact absurd rfl hr
      | error e =>
        cases e with
        | notFound => exact ih
        | _ => exact fun n h => by cases h

theorem blind_stat : Keeps (blind k) (fun r _ => ∀ n, r ≠ .ok n) (stat k) u :=
  keeps_blind fun insts _ => blind_statEach insts

/-- **A call that finds no copy reads nothing.** -/
theorem blind_code (op : Call) :
    Keeps (blind k) (fun v _ => op.ReadsNothing k v) (code op) u := by
  cases op with
  | put key size input =>
    refine blind_any _ fun v => ?_
    cases v <;> exact True.intro
  | delete key =>
    refine blind_any _ fun v => ?_
    cases v <;> exact True.intro
  | get key off size =>
    by_cases hkey : key = k
    · subst hkey
      refine (blind_get off size).bind fun r _ hr => ?_
      cases r with
      | error e => exact True.intro
      | ok d => exact fun _ => hr d rfl
    · refine Keeps.bind (m := fun _ _ => True) (blind_any _ fun _ => True.intro) fun r _ _ => ?_
      cases r with
      | error e => exact True.intro
      | ok d => exact fun h => absurd h hkey
  | stat key =>
    by_cases hkey : key = k
    · subst hkey
      refine blind_stat.bind fun r _ hr => ?_
      cases r with
      | error e => exact True.intro
      | ok n => exact absurd rfl (hr n)
    · refine Keeps.bind (m := fun _ _ => True) (blind_any _ fun _ => True.intro) fun r _ _ => ?_
      cases r with
      | error e => exact True.intro
      | ok n => exact hkey

end Blind

/-! ## 7. Runs -/

/-- Only the start and the steps of calls change the list of calls. -/
theorem calls_step {a : Action} (h : step s a = some s') :
    (∃ c op, a = .call c op ∧ s'.calls = s.calls ++ [⟨c, op, code op⟩]) ∨
      (∃ t out, a = .step t out) ∨ s'.calls = s.calls := by
  cases a with
  | call c op =>
    unfold step at h
    simp only at h
    split at h
    · cases h
      exact .inl ⟨c, op, rfl, rfl⟩
    · cases h
  | step t out => exact .inr (.inl ⟨t, out, rfl⟩)
  | land i =>
    obtain ⟨q, -, rfl⟩ := Option.map_eq_some_iff.mp h
    refine .inr (.inr ?_)
    cases q <;> rfl
  | flush c ok =>
    unfold step at h
    simp only at h
    split at h
    · cases h
    obtain ⟨x, -, rfl⟩ := Option.map_eq_some_iff.mp h
    refine .inr (.inr ?_)
    split
    · rfl
    · cases ok <;> rfl
  | newCluster cfg | register info | unregister name =>
    cases h
    exact .inr (.inr rfl)
  | recv c | tick c | close c | stop c | refresh c now =>
    obtain ⟨cl, cl', -, -, rfl⟩ := onClient_eq_some h
    exact .inr (.inr rfl)

/-- What is known while the `Delete` goes on as call `t`. -/
structure Deleting (k : Key) (t : Nat) (s : World) : Prop where
  calm : Calm k s
  progress : ∃ v r, s.calls[t]? = some r ∧ v.Sound k s ∧ r.rest.Keeps (learning k) Emptied v

theorem Deleting.step {t : Nat} {a : Action} (h : Deleting k t s) (ha : ¬ a.Puts k)
    (hfinds : Finds k t s a) (hs : step s a = some s') : Deleting k t s' := by
  obtain ⟨hfades, hcalm⟩ := step_fades h.calm ha hs
  obtain ⟨v, r, hr, hsound, hkeeps⟩ := h.progress
  refine ⟨hcalm, ?_⟩
  rcases calls_step hs with ⟨c, op, rfl, hcalls⟩ | ⟨t', out, rfl⟩ | hcalls
  · refine ⟨v, r, ?_, hsound.fades hfades, hkeeps⟩
    rw [hcalls]
    exact List.getElem?_append_left (List.getElem?_eq_some_iff.mp hr).1 ▸ hr
  · obtain ⟨c, op, o, next, s₁, x, hx, hexec, rfl⟩ := step_step hs
    by_cases ht : t' = t
    · -- the Delete itself goes on, and learns from the reply
      subst ht
      obtain rfl : _ = r := Option.some.inj (hx.symm.trans hr)
      have hlen : t' < s.calls.length := (List.getElem?_eq_some_iff.mp hr).1
      have hfades₁ : Fades k s s₁ := ⟨hfades.1, fun habs => ⟨(hfades.2 habs).1, (hfades.2 habs).2⟩⟩
      have hlearn := hsound.learn hfades₁ (hfinds out rfl _ hr o next rfl) hexec
      refine ⟨v.learn k o x, _, List.getElem?_set_self hlen, ⟨hlearn.cover, ?_⟩, hkeeps.2 x _ rfl⟩
      exact fun hg => ⟨(hlearn.gone hg).1, (hlearn.gone hg).2⟩
    · exact ⟨v, r, (List.getElem?_set_ne ht).trans hr, hsound.fades hfades, hkeeps⟩
  · exact ⟨v, r, hcalls ▸ hr, hsound.fades hfades, hkeeps⟩

/-- Nothing is left of the key, and the calls from the `n`-th on read nothing of it. -/
structure Cleared (k : Key) (n : Nat) (s : World) : Prop where
  calm : Calm k s
  holders : ∀ a, a ∉ s.holders k
  absent : s.Absent k
  reads : ∀ t r, n ≤ t → s.calls[t]? = some r →
    r.rest.Keeps (blind k) (fun v _ => r.call.ReadsNothing k v) ()

theorem Cleared.step {n : Nat} {a : Action} (h : Cleared k n s) (ha : ¬ a.Puts k)
    (hs : step s a = some s') : Cleared k n s' := by
  obtain ⟨hfades, hcalm⟩ := step_fades h.calm ha hs
  refine ⟨hcalm, fun a ha => h.holders a (hfades.holders a ha), hfades.absent h.absent, ?_⟩
  intro t r hn hr
  rcases calls_step hs with ⟨c, op, rfl, hcalls⟩ | ⟨t', out, rfl⟩ | hcalls
  · rw [hcalls] at hr
    rcases List.mem_append.mp (List.mem_of_getElem? hr) with hmem | hmem
    · by_cases ht : t < s.calls.length
      · exact h.reads t r hn (List.getElem?_append_left ht ▸ hr)
      · rw [List.getElem?_append_right (Nat.le_of_not_lt ht)] at hr
        rw [List.mem_singleton.mp (List.mem_of_getElem? hr)]
        exact blind_code op
    · rw [List.mem_singleton.mp hmem]
      exact blind_code op
  · obtain ⟨c, op, o, next, s₁, x, hx, hexec, rfl⟩ := step_step hs
    by_cases ht : t' = t
    · subst ht
      have hlen : t' < s.calls.length := (List.getElem?_eq_some_iff.mp hx).1
      obtain rfl : _ = r := Option.some.inj ((List.getElem?_set_self hlen).symm.trans hr)
      exact (h.reads t' _ hn hx).2 x () (exec_blind h.holders hexec)
    · exact h.reads t r hn ((List.getElem?_set_ne ht).symm.trans hr)
  · exact h.reads t r hn (hcalls ▸ hr)

/-- A `Delete` that has returned `nil` has cleared the key. -/
theorem Deleting.cleared {t : Nat} (h : Deleting k t s) (hnil : s.returned t = some (.delete (.ok ()))) :
    Cleared k s.calls.length s := by
  obtain ⟨v, r, hr, hsound, hkeeps⟩ := h.progress
  have hvalue : r.rest.value? = some (.delete (.ok ())) := by
    unfold World.returned at hnil
    rw [hr] at hnil
    exact hnil
  have hemptied : (∀ a, ¬ v.cover a) ∧ v.gone := by
    cases hrest : r.rest with
    | pure x =>
      rw [hrest] at hvalue hkeeps
      cases hvalue
      exact hkeeps
    | request o next =>
      rw [hrest] at hvalue
      cases hvalue
  refine ⟨h.calm, fun a ha => hemptied.1 a (hsound.cover a ha), hsound.gone hemptied.2, ?_⟩
  intro t r hn hr
  have hlen := (List.getElem?_eq_some_iff.mp hr).1
  omega

/-- A cleared key stays cleared, whatever happens but a `Put` of it. -/
theorem Cleared.effective (h : Cleared k s.calls.length s) : Effective k s := by
  intro post s' hpost hrun
  have hstep : ∀ (s₁ : World) (a : Action) (s₂ : World), Cleared k s.calls.length s₁ → ¬ a.Puts k →
      ClusterClient.step s₁ a = some s₂ → Cleared k s.calls.length s₂ := fun _ _ _ hc ha hs => hc.step ha hs
  have hcleared : Cleared k s.calls.length s' :=
    run_invariant hstep h (along_of_forall_mem hpost s) hrun
  refine ⟨fun t r hn hr v hv => ?_, fun _ => hcleared.absent.entry⟩
  have hkeeps := hcleared.reads t r hn hr
  cases hrest : r.rest with
  | pure x =>
    rw [hrest] at hv hkeeps
    cases hv
    exact hkeeps
  | request o next =>
    rw [hrest] at hv
    cases hv

/-- In a run, a call that is no `Put` of the key spares it in what is left of it. -/
theorem calls_spare {as : List Action} (h : run step World.init as = some s) :
    ∀ r ∈ s.calls, ¬ r.call.Puts k → r.rest.Uses (Op.Spares k) := by
  have hstep : ∀ (s : World) (a : Action) (s' : World),
      (∀ r ∈ s.calls, ¬ r.call.Puts k → r.rest.Uses (Op.Spares k)) → True → step s a = some s' →
      ∀ r ∈ s'.calls, ¬ r.call.Puts k → r.rest.Uses (Op.Spares k) := by
    intro s a s' hI _ hs r hr hput
    rcases calls_step hs with ⟨c, op, -, hcalls⟩ | ⟨t, out, rfl⟩ | hcalls
    · rw [hcalls] at hr
      rcases List.mem_append.mp hr with hr | hr
      · exact hI r hr hput
      · rw [List.mem_singleton.mp hr] at hput ⊢
        exact spares_code hput
    · obtain ⟨c, op, o, next, s₁, x, hx, -, rfl⟩ := step_step hs
      rcases List.mem_or_eq_of_mem_set hr with hr | rfl
      · exact hI r hr hput
      · exact (hI _ (List.mem_of_getElem? hx) hput).2 x
    · exact hI r (hcalls ▸ hr) hput
  exact run_invariant hstep (fun r hr => absurd hr List.not_mem_nil)
    (along_of_forall_mem (fun _ _ => True.intro) World.init) h

/-- Before the `Delete` starts, where every `Put` of the key has returned. -/
theorem Completed.calm {c : Nat} {pre mid : List Action} (h : Completed k c pre mid s s')
    (hsettled : ∀ q ∈ s.inflight, ¬ q.Writes k) : Calm k s := by
  refine ⟨fun r hr => ?_, hsettled⟩
  by_cases hput : r.call.Puts k
  · have hdone := h.puts r hr hput
    cases hrest : r.rest with
    | pure x => exact True.intro
    | request o next =>
      rw [hrest] at hdone
      exact absurd hdone (by simp [Program.isDone])
  · exact calls_spare h.before r hr hput

instance (k : Key) (q : Request) : Decidable (q.Writes k) := by
  unfold Request.Writes
  split <;> infer_instance

instance (k : Key) (q : Request) : Decidable (q.Enters k) := by
  unfold Request.Enters
  split <;> infer_instance

instance (k : Key) (op : Call) : Decidable (op.Puts k) := by
  unfold Call.Puts
  split <;> infer_instance

instance (k : Key) (a : Action) : Decidable (a.Puts k) := by
  unfold Action.Puts
  split <;> infer_instance

instance (k : Key) (s : World) : Decidable (s.Queued k) := by
  unfold World.Queued Client.Queued
  infer_instance

instance (s : World) : Decidable s.Drained := by
  unfold World.Drained
  infer_instance

instance (k : Key) (s : World) (c : Nat) (out : Outcome) (o : Op) :
    Decidable (o.Finds k s c out) := by
  unfold Op.Finds
  split <;> infer_instance

instance finds_decidable (k : Key) (t : Nat) (s : World) : ∀ a, Decidable (Finds k t s a)
  | .step t' out =>
    if ht : t' = t then
      match hr : s.calls[t]? with
      | some ⟨c, op, .request o next⟩ => decidable_of_iff (o.Finds k s c out)
          ⟨fun h out' ha r hr' o' next' hrest => by
              cases ha
              obtain rfl := Option.some.inj (hr.symm.trans hr')
              cases hrest
              exact h,
            fun h => h out (by rw [ht]) _ hr o next rfl⟩
      | some ⟨c, op, .pure x⟩ => .isTrue fun out' _ r hr' o' next' hrest => by
          obtain rfl := Option.some.inj (hr.symm.trans hr')
          cases hrest
      | none => .isTrue fun out' _ r hr' => by
          rw [hr] at hr'
          cases hr'
    else .isTrue fun out' ha => by
      cases ha
      exact absurd rfl ht
  | .call _ _ | .land _ | .recv _ | .tick _ | .flush _ _ | .close _ | .stop _ | .newCluster _
  | .refresh _ _ | .register _ | .unregister _ => .isTrue fun _ ha => by cases ha

namespace Scene

def key : Key := [107]

def inst : InstanceInfo := ⟨[97], [1], [65], 0, 0, 0⟩

def config (hostname : Name) : ClusterConfig := ⟨hostname, 0, false, fun _ => true⟩

/-- An instance, a client on its host, and a client on another host. -/
def setup : List Action :=
  [.register inst, .newCluster (config [1]), .newCluster (config [2]), .refresh 0 0, .refresh 1 0]

def goOn (t n : Nat) : List Action := List.replicate n (.step t { server := [65] })

/-- The first client puts the object. -/
def putOnce : List Action := .call 0 (.put key 1 [5]) :: goOn 0 5

/-- Its index manager writes the entry. -/
def writeEntry : List Action := [.recv 0, .tick 0, .flush 0 true]

end Scene

open Scene in
/-- With one client alone, the entry reaches the index after the `Delete` has removed it there. -/
example : (run step World.init (setup ++ putOnce ++ .call 0 (.delete Scene.key) :: goOn 1 6 ++
    writeEntry)).map (fun s => (s.returned 1, decide s.Drained, s.index.find? Scene.key)) =
      some (some (.delete (.ok ())), true, some [97]) := by
  decide +kernel

end Taihu.ClusterClient
