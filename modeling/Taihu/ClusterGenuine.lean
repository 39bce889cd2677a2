/-
# What the cluster client reads has been put

Objects pass from the calls of one client through a connection to a server, and from there to the
calls of any other; a request that has failed for its caller may still be performed; servers keep what
clients delete elsewhere.  Routes pass from a put through a queue, a batch and the KV into the caches
of other clients.  Whatever becomes of the calls on the way, nothing in this is made up: what a server
has for a key is what some call has put for this key, and a route names an instance that has been
registered, and a key that has been put.

`Facts` is what has been put, and who has been registered.  The facts only grow along a run, and
`World.Genuine` says that everything in the world is among them.  A call keeps to that as long as what
it is told is among the facts (`genuine`).
-/
import Taihu.ClusterDelete

namespace Taihu.ClusterClient

open Concur Transition Program

/-! ## 1. The facts -/

/-- The objects that have been put, the keys of the puts, and the names of the instances that have
been registered. -/
structure Facts where
  objects : Key → Data → Prop
  keys : Key → Prop
  names : Name → Prop

namespace Facts

variable (F : Facts)

/-- The key has been put, and the instance been registered. -/
def Route (key : Key) (name : Name) : Prop := F.keys key ∧ F.names name

/-- What may be served for `[off, off+size)` of the object: nothing for no bytes, and otherwise that
range of an object that has been put. -/
def Serves (key : Key) (off size : Int) (d : Data) : Prop :=
  if size = 0 then d = [] else ∃ v, F.objects key v ∧ readRange v off size = .ok d

/-- All of these facts are among the others. -/
structure Within (F F' : Facts) : Prop where
  objects : ∀ k d, F.objects k d → F'.objects k d
  keys : ∀ k, F.keys k → F'.keys k
  names : ∀ n, F.names n → F'.names n

variable {F} {F' F'' : Facts}

theorem Within.rfl : F.Within F := ⟨fun _ _ h => h, fun _ h => h, fun _ h => h⟩

theorem Within.trans (h : F.Within F') (h' : F'.Within F'') : F.Within F'' :=
  ⟨fun k d hd => h'.objects k d (h.objects k d hd), fun k hk => h'.keys k (h.keys k hk),
    fun n hn => h'.names n (h.names n hn)⟩

theorem Route.mono {key : Key} {name : Name} (h : F.Route key name) (hF : F.Within F') : F'.Route key name :=
  ⟨hF.keys key h.1, hF.names name h.2⟩

end Facts

/-- The call puts this as the object of the key. -/
def Call.Stores (k : Key) (d : Data) : Call → Prop
  | .put key size input => key = k ∧ 0 ≤ size ∧ size ≤ input.length ∧ d = input.take size.toNat
  | _ => False

/-- What the call has to put is among the facts. -/
structure Call.Known (op : Call) (F : Facts) : Prop where
  objects : ∀ k d, op.Stores k d → F.objects k d
  keys : ∀ k, op.Puts k → F.keys k

/-- What a read returns is among the facts.  A read to the end asks for the length first, which may be
that of another object than the one it is served from. -/
def Call.Reads (F : Facts) : Call → Result → Prop
  | .get key off size, .get (.ok d) =>
    if size < 0 then ∃ w, F.objects key w ∧ F.Serves key off (w.length - off) d
    else F.Serves key off size d
  | .stat key, .stat (.ok n) => ∃ w, F.objects key w ∧ n = w.length
  | _, _ => True

/-- The size that is told of an object is that of one that has been put. -/
def Sized (F : Facts) (key : Key) (r : Except Err Nat) : Prop :=
  ∀ n, r = .ok n → ∃ w, F.objects key w ∧ n = w.length

/-! ## 2. Calls keep to the facts -/

/-- The contract: a call passes on what is among the facts, and what it is told is. -/
def genuine (F : Facts) : Contract Access Unit where
  pre := fun o _ => match o with
    | .own (.indexPut key name) => F.Route key name
    | .own (.cachePut key name) => F.Route key name
    | .remote (.put _ key d) => F.objects key d
    | _ => True
  gives := fun o _ r _ => match o, r with
    | .own .pick, r => ∀ inst, r = some inst → F.names inst.name
    | .own (.cacheGet key), r => ∀ name, r = some name → F.Route key name
    | .remote (.indexGet key), r => ∀ name, r = .ok name → name ≠ [] → F.Route key name
    | .remote (.get _ key off size), r => ∀ d, r = .ok d → ∃ v, F.objects key v ∧ readRange v off size = .ok d
    | .remote (.stat _ key), r => Sized F key r
    | _, _ => True

section


variable {F : Facts} {α : Type} {key : Key} {off size : Int} {u : Unit}

theorem genuine_connPut (c : Key) {input : Data} (h : (Call.put key size input).Known F) :
    Keeps (genuine F) (fun _ _ => True) (connPut c key size input) u := by
  refine Keeps.ite (fun _ => True.intro) fun hlen => Keeps.ite (fun _ => True.intro) fun hsize => ?_
  exact ⟨h.objects key _ ⟨rfl, by omega, by omega, rfl⟩, fun _ _ _ => True.intro⟩

theorem genuine_connGetRange (c : Key) :
    Keeps (genuine F) (fun r _ => ∀ d, r = .ok d → F.Serves key off size d) (connGetRange c key off size) u := by
  refine Keeps.ite (fun _ d hd => by cases hd) fun _ => Keeps.ite (fun hz d hd => ?_) fun hz => ?_
  · cases hd
    exact (if_pos hz).mpr rfl
  · exact ⟨True.intro, fun r _ hg d hd => (if_neg hz).mpr (hg d hd)⟩

theorem genuine_connGet (c : Key) :
    Keeps (genuine F) (fun r _ => ∀ d, r = .ok d → (Call.get key off size).Reads F (.get (.ok d)))
      (connGet c key off size) u := by
  refine Keeps.ite (fun hneg => ?_) fun hneg => ?_
  · refine ⟨True.intro, fun r _ hg => ?_⟩
    cases r with
    | error e => exact fun d hd => by cases hd
    | ok total =>
      obtain ⟨w, hw, rfl⟩ := hg total rfl
      exact (genuine_connGetRange c).mono fun r _ hr d hd => (if_pos hneg).mpr ⟨w, hw, hr d hd⟩
  · exact (genuine_connGetRange c).mono fun r _ hr d hd => (if_neg hneg).mpr (hr d hd)

theorem genuine_lookupIndex : Keeps (genuine F) (fun _ _ => True) (lookupIndex key) u := by
  refine ⟨True.intro, fun r _ hg => ?_⟩
  cases r with
  | error e => exact True.intro
  | ok name =>
    refine Keeps.ite (fun _ => True.intro) fun hne => ⟨True.intro, fun r _ _ => ?_⟩
    cases r with
    | none => exact True.intro
    | some inst => exact ⟨hg name rfl hne, fun _ _ _ => True.intro⟩

theorem genuine_lookup : Keeps (genuine F) (fun _ _ => True) (lookup key) u := by
  refine ⟨True.intro, fun r _ _ => ?_⟩
  cases r with
  | none => exact genuine_lookupIndex
  | some name =>
    refine ⟨True.intro, fun r _ _ => ?_⟩
    cases r with
    | none => exact genuine_lookupIndex
    | some inst => exact True.intro

theorem genuine_put {input : Data} (h : (Call.put key size input).Known F) :
    Keeps (genuine F) (fun _ _ => True) (put key size input) u := by
  refine ⟨True.intro, fun r _ hpick => ?_⟩
  cases r with
  | none => exact True.intro
  | some inst =>
    refine ⟨True.intro, fun r _ _ => ?_⟩
    cases r with
    | error e => exact True.intro
    | ok c =>
      refine (genuine_connPut c h).bind fun r _ _ => ?_
      cases r with
      | error e => exact True.intro
      | ok u =>
        have hroute : F.Route key inst.name := ⟨h.keys key rfl, hpick inst rfl⟩
        exact ⟨hroute, fun _ _ _ => ⟨hroute, fun _ _ _ => True.intro⟩⟩

theorem genuine_getFrom (insts : List InstanceInfo) :
    Keeps (genuine F) (fun r _ => ∀ d, r = .ok d → (Call.get key off size).Reads F (.get (.ok d)))
      (getFrom key off size insts) u := by
  induction insts with
  | nil => exact fun d hd => by cases hd
  | cons inst insts ih =>
    refine ⟨True.intro, fun r _ _ => ?_⟩
    cases r with
    | error e => exact ih
    | ok c =>
      refine (genuine_connGet c).bind fun r _ hr => ?_
      split
      · exact hr
      · exact ih
      · exact fun d hd => by cases hd

theorem genuine_get :
    Keeps (genuine F) (fun r _ => ∀ d, r = .ok d → (Call.get key off size).Reads F (.get (.ok d)))
      (get key off size) u := by
  refine genuine_lookup.bind fun r _ _ => ?_
  cases r with
  | none => exact fun d hd => by cases hd
  | some inst =>
    refine (genuine_getFrom [inst]).bind fun r _ hr => ?_
    split
    · exact fun d hd => by cases hd
    · exact hr

theorem genuine_deleteFrom (inst : InstanceInfo) :
    Keeps (genuine F) (fun _ _ => True) (deleteFrom key inst) u := by
  refine ⟨True.intro, fun r _ _ => ?_⟩
  cases r with
  | error e => exact True.intro
  | ok c =>
    refine ⟨True.intro, fun r _ _ => ?_⟩
    cases r with
    | error e => cases e <;> exact True.intro
    | ok u => exact True.intro

theorem genuine_deleteEach (insts : List InstanceInfo) :
    Keeps (genuine F) (fun _ _ => True) (deleteEach key insts) u := by
  induction insts with
  | nil => exact True.intro
  | cons inst insts ih =>
    refine (genuine_deleteFrom inst).bind fun r _ _ => ?_
    cases r with
    | error e => exact True.intro
    | ok u => exact ih

theorem genuine_delete : Keeps (genuine F) (fun _ _ => True) (delete key) u := by
  have hdata : Keeps (genuine F) (fun _ _ => True) (deleteData key) u := by
    refine genuine_lookup.bind fun r _ _ => ?_
    cases r with
    | none => exact ⟨True.intro, fun insts _ _ => genuine_deleteEach insts⟩
    | some inst => exact genuine_deleteFrom inst
  refine hdata.bind fun r _ _ => ?_
  cases r with
  | error e => exact True.intro
  | ok u => exact ⟨True.intro, fun _ _ _ => ⟨True.intro, fun _ _ _ => True.intro⟩⟩

theorem genuine_statLookup : Keeps (genuine F) (fun r _ => Sized F key r) (statLookup key) u := by
  refine genuine_lookup.bind fun r _ _ => ?_
  cases r with
  | none => exact fun n hn => by cases hn
  | some inst =>
    refine ⟨True.intro, fun r _ _ => ?_⟩
    cases r with
    | error e => exact fun n hn => by cases hn
    | ok c => exact ⟨True.intro, fun r _ hg => hg⟩

theorem genuine_statEach (insts : List InstanceInfo) :
    Keeps (genuine F) (fun r _ => Sized F key r) (statEach key insts) u := by
  induction insts generalizing u with
  | nil => exact genuine_statLookup
  | cons inst insts ih =>
    refine ⟨True.intro, fun r _ _ => ?_⟩
    cases r with
    | error e => exact ih
    | ok c =>
      refine ⟨True.intro, fun r _ hg => ?_⟩
      cases r with
      | ok n => exact hg
      | error e =>
        cases e with
        | notFound => exact ih
        | _ => exact fun n hn => by cases hn

/-- **A call keeps to the facts**, once what it has to put is among them. -/
theorem code_genuine {op : Call} (h : op.Known F) :
    Keeps (genuine F) (fun v _ => op.Reads F v) (code op) u := by
  cases op with
  | put key size input => exact (genuine_put h).bind fun _ _ _ => True.intro
  | get key off size =>
    refine genuine_get.bind fun r _ hr => ?_
    cases r with
    | error e => exact True.intro
    | ok d => exact hr d rfl
  | delete key => exact genuine_delete.bind fun _ _ _ => True.intro
  | stat key =>
    have hstat : Keeps (genuine F) (fun r _ => Sized F key r) (stat key) u :=
      ⟨True.intro, fun insts _ _ => genuine_statEach insts⟩
    refine hstat.bind fun r _ hr => ?_
    cases r with
    | error e => exact True.intro
    | ok n => exact hr n rfl

end

/-! ## 3. A world with nothing made up -/

/-- What the request brings is among the facts. -/
def Request.Genuine (F : Facts) : Request → Prop
  | .put _ key d => F.objects key d
  | .batchPut kvs => ∀ e ∈ kvs, F.Route e.1 e.2
  | _ => True

/-- The routes of the client, and the instances it knows, are among the facts. -/
structure Client.Genuine (F : Facts) (cl : Client) : Prop where
  cached : ∀ i, ∀ e ∈ cl.cache.shards i, F.Route e.1 e.2
  queued : ∀ e ∈ cl.index.ch ++ cl.index.batch.entries, F.Route e.1 e.2
  all : ∀ i ∈ cl.snap.all, F.names i.name
  localInsts : ∀ i ∈ cl.snap.localInsts, F.names i.name
  remoteInsts : ∀ i ∈ cl.snap.remoteInsts, F.names i.name

/-- What is left of the call keeps to the facts, also to those of later. -/
def Running.Genuine (F : Facts) (r : Running) : Prop :=
  ∀ F', F.Within F' → Keeps (genuine F') (fun v _ => r.call.Reads F' v) r.rest ()

/-- **Everything is among the facts.** -/
structure World.Genuine (F : Facts) (s : World) : Prop where
  objects : ∀ a k d, (s.store a).find? k = some d → F.objects k d
  index : ∀ k name, s.index.find? k = some name → F.Route k name
  instances : ∀ n info, s.instances.find? n = some info → F.names info.name
  inflight : ∀ q ∈ s.inflight, q.Genuine F
  clients : ∀ cl ∈ s.clients, cl.Genuine F
  calls : ∀ r ∈ s.calls, r.Genuine F

section

variable {F F' : Facts}

theorem Request.Genuine.mono {q : Request} (h : q.Genuine F) (hF : F.Within F') : q.Genuine F' := by
  cases q with
  | put addr key d => exact hF.objects key d h
  | batchPut kvs => exact fun e he => (h e he).mono hF
  | _ => exact True.intro

theorem Client.Genuine.mono {cl : Client} (h : cl.Genuine F) (hF : F.Within F') : cl.Genuine F' where
  cached i e he := (h.cached i e he).mono hF
  queued e he := (h.queued e he).mono hF
  all i hi := hF.names _ (h.all i hi)
  localInsts i hi := hF.names _ (h.localInsts i hi)
  remoteInsts i hi := hF.names _ (h.remoteInsts i hi)

theorem Running.Genuine.mono {r : Running} (h : r.Genuine F) (hF : F.Within F') : r.Genuine F' :=
  fun F'' hF' => h F'' (hF.trans hF')

theorem World.Genuine.mono {s : World} (h : s.Genuine F) (hF : F.Within F') : s.Genuine F' where
  objects a k d hd := hF.objects k d (h.objects a k d hd)
  index k name hk := (h.index k name hk).mono hF
  instances n info hn := hF.names _ (h.instances n info hn)
  inflight q hq := (h.inflight q hq).mono hF
  clients cl hcl := (h.clients cl hcl).mono hF
  calls r hr := (h.calls r hr).mono hF

theorem genuine_gives_mono {o : Op} {r : o.Reply} (h : (genuine F).gives o () r ()) (hF : F.Within F') :
    (genuine F').gives o () r () := by
  cases o with
  | own o =>
    cases o with
    | pick => exact fun inst hr => hF.names _ (h inst hr)
    | cacheGet key => exact fun name hr => (h name hr).mono hF
    | _ => exact True.intro
  | remote o =>
    cases o with
    | indexGet key => exact fun name hr hne => (h name hr hne).mono hF
    | get addr key off size =>
      intro d hr
      obtain ⟨w, hw, hd⟩ := h d hr
      exact ⟨w, hF.objects key w hw, hd⟩
    | stat addr key =>
      intro n hr
      obtain ⟨w, hw, hn⟩ := h n hr
      exact ⟨w, hF.objects key w hw, hn⟩
    | _ => exact True.intro

end

/-! ## 4. What an access does -/

variable {F : Facts} {s s' : World}

/-! ### The parts of a client -/

theorem cached_setShard {rc : RouteCache} {key : Key} {l : List (Key × Name)} {P : Key × Name → Prop}
    (h : ∀ i, ∀ e ∈ rc.shards i, P e) (hl : ∀ e ∈ l, P e) : ∀ i, ∀ e ∈ (rc.setShard key l).shards i, P e := by
  intro i e he
  have he : e ∈ Function.update rc.shards (fnv32 key % routeShards) l i := he
  rw [Function.update_apply] at he
  split at he
  · exact hl e he
  · exact h i e he

theorem cached_toFront {rc : RouteCache} {key : Key} {name : Name} {P : Key × Name → Prop}
    (h : ∀ i, ∀ e ∈ rc.shards i, P e) (hk : P (key, name)) : ∀ e ∈ rc.toFront key name, P e := by
  intro e he
  rcases List.mem_cons.mp he with rfl | he
  · exact hk
  · exact h _ e (List.mem_of_mem_filter he)

/-- The entry that a lookup finds is one of the shard. -/
theorem mem_of_lookup {key : Key} {name : Name} : {l : List (Key × Name)} →
    l.lookup key = some name → (key, name) ∈ l
  | [], h => by cases h
  | (k, n) :: l, h => by
    rw [List.lookup_cons] at h
    split at h
    · rename_i hk
      cases h
      rw [eq_of_beq hk]
      exact List.mem_cons_self
    · exact List.mem_cons_of_mem _ (mem_of_lookup h)

theorem cached_get {rc : RouteCache} {key : Key} {P : Key × Name → Prop} (h : ∀ i, ∀ e ∈ rc.shards i, P e) :
    (∀ i, ∀ e ∈ (rc.get key).1.shards i, P e) ∧ ∀ name, (rc.get key).2 = some name → P (key, name) := by
  unfold RouteCache.get
  split
  · rename_i name hname
    have hk : P (key, name) := h _ _ (mem_of_lookup hname)
    refine ⟨cached_setShard h (cached_toFront h hk), fun n hn => ?_⟩
    cases hn
    exact hk
  · exact ⟨h, fun n hn => by cases hn⟩

theorem cached_put {rc : RouteCache} {key : Key} {name : Name} {P : Key × Name → Prop}
    (h : ∀ i, ∀ e ∈ rc.shards i, P e) (hk : P (key, name)) :
    ∀ i, ∀ e ∈ (rc.put key name).shards i, P e := by
  have hcons : ∀ e ∈ (key, name) :: rc.shard key, P e := by
    intro e he
    rcases List.mem_cons.mp he with rfl | he
    · exact hk
    · exact h _ e he
  unfold RouteCache.put
  split
  · exact cached_setShard h (cached_toFront h hk)
  · refine cached_setShard h fun e he => ?_
    split at he
    · exact hcons e (List.mem_of_mem_dropLast he)
    · exact hcons e he

theorem cached_delete {rc : RouteCache} {key : Key} {P : Key × Name → Prop}
    (h : ∀ i, ∀ e ∈ rc.shards i, P e) : ∀ i, ∀ e ∈ (rc.delete key).shards i, P e :=
  cached_setShard h fun e he => h _ e (List.mem_of_mem_filter he)

theorem queued_put {m : IndexManager} {key : Key} {name : Name} {P : Key × Name → Prop}
    (h : ∀ e ∈ m.ch ++ m.batch.entries, P e) (hk : P (key, name)) :
    ∀ e ∈ (m.put key name).ch ++ (m.put key name).batch.entries, P e := by
  unfold IndexManager.put
  split
  · intro e he
    rcases List.mem_append.mp he with hch | hbatch
    · rcases List.mem_append.mp hch with hch | hnew
      · exact h e (List.mem_append_left _ hch)
      · exact List.mem_singleton.mp hnew ▸ hk
    · exact h e (List.mem_append_right _ hbatch)
  · exact h

theorem queued_of_recv {m m' : IndexManager} {P : Key × Name → Prop} (hm : m.recv = some m')
    (h : ∀ e ∈ m.ch ++ m.batch.entries, P e) : ∀ e ∈ m'.ch ++ m'.batch.entries, P e := by
  unfold IndexManager.recv at hm
  split at hm
  · rename_i item ch hloop hch
    cases hm
    rw [hch] at h
    intro e he
    rcases List.mem_append.mp he with hin | hin
    · exact h e (List.mem_append_left _ (List.mem_cons_of_mem _ hin))
    · rcases SortedMap.mem_insertList hin with rfl | hin
      · exact h _ (List.mem_append_left _ List.mem_cons_self)
      · exact h e (List.mem_append_right _ hin)
  · cases hm

/-! ### The picker -/

theorem mem_of_choose {l : List InstanceInfo} {rand : Nat} {i : InstanceInfo} (h : choose l rand = some i) :
    i ∈ l := List.mem_of_getElem? h

theorem mem_of_pickLocalFirst {healthy : InstanceInfo → Bool} {snap : Snapshot} {rand : Nat}
    {i : InstanceInfo} (h : pickLocalFirst healthy snap rand = some i) :
    i ∈ snap.localInsts ∨ i ∈ snap.remoteInsts ∨ i ∈ snap.all := by
  unfold pickLocalFirst at h
  split at h
  · rename_i j hj
    cases h
    exact .inl (List.mem_of_mem_filter (mem_of_choose hj))
  · split at h
    · rename_i j hj
      cases h
      exact .inr (.inl (List.mem_of_mem_filter (mem_of_choose hj)))
    · split at h
      · exact .inl (mem_of_choose h)
      · exact .inr (.inr (mem_of_choose h))

theorem mem_of_pickRoundRobin {healthy : InstanceInfo → Bool} {all : List InstanceInfo} {rr : Nat}
    {i : InstanceInfo} (h : pickRoundRobin healthy all rr = some i) : i ∈ all := by
  unfold pickRoundRobin at h
  simp only at h
  split at h
  · rename_i j hj
    cases h
    rcases List.mem_append.mp (List.mem_of_find?_eq_some hj) with hin | hin
    · exact List.mem_of_mem_drop hin
    · exact List.mem_of_mem_take hin
  · exact List.mem_of_getElem? h

/-- The client picks an instance it knows. -/
theorem Client.Genuine.pick {cl : Client} (h : cl.Genuine F) (rand : Nat) :
    (cl.pick rand).1.Genuine F ∧ ∀ i, (cl.pick rand).2 = some i → F.names i.name := by
  unfold Client.pick
  split
  · exact ⟨h, fun i hi => by cases hi⟩
  split
  · exact ⟨⟨h.cached, h.queued, h.all, h.localInsts, h.remoteInsts⟩,
      fun i hi => h.all i (mem_of_pickRoundRobin hi)⟩
  · refine ⟨h, fun i hi => ?_⟩
    rcases mem_of_pickLocalFirst hi with hin | hin | hin
    · exact h.localInsts i hin
    · exact h.remoteInsts i hin
    · exact h.all i hin

/-- **An access to the client's own parts.** -/
theorem Client.Genuine.perform {cl : Client} (h : cl.Genuine F) (rand : Nat) {o : LocalOp}
    (ho : (genuine F).pre (.own o) ()) :
    (cl.perform rand o).1.Genuine F ∧ (genuine F).gives (.own o) () (cl.perform rand o).2 () := by
  cases o with
  | pick => exact h.pick rand
  | cacheGet key =>
    obtain ⟨hcached, hgives⟩ := cached_get h.cached
    exact ⟨⟨hcached, h.queued, h.all, h.localInsts, h.remoteInsts⟩, hgives⟩
  | cachePut key name =>
    exact ⟨⟨cached_put h.cached ho, h.queued, h.all, h.localInsts, h.remoteInsts⟩, True.intro⟩
  | cacheDelete key => exact ⟨⟨cached_delete h.cached, h.queued, h.all, h.localInsts, h.remoteInsts⟩, True.intro⟩
  | registryLookup name => exact ⟨h, True.intro⟩
  | localInstances => exact ⟨h, True.intro⟩
  | indexPut key name => exact ⟨⟨h.cached, queued_put h.queued ho, h.all, h.localInsts, h.remoteInsts⟩, True.intro⟩

/-! ### Servers and the KV -/

/-- What the index has after a batch is what it had, or an entry of the batch. -/
theorem find?_foldl_insert {kvs : List (Key × Name)} {m : SortedMap Key Name} {k : Key} {name : Name}
    (h : (kvs.foldl (fun m e => m.insert e.1 e.2) m).find? k = some name) :
    (k, name) ∈ kvs ∨ m.find? k = some name := by
  induction kvs generalizing m with
  | nil => exact .inr h
  | cons e kvs ih =>
    rcases ih h with hin | hfind
    · exact .inl (List.mem_cons_of_mem _ hin)
    · rw [SortedMap.find?_insert] at hfind
      split at hfind
      · rename_i hk
        cases hfind
        exact .inl (hk ▸ List.mem_cons_self)
      · exact .inr hfind

/-- **A request is performed.** -/
theorem World.Genuine.serve (h : s.Genuine F) {q : Request} (hq : q.Genuine F) : (s.serve q).Genuine F := by
  cases q with
  | put addr key data =>
    refine ⟨fun a k d hd => ?_, h.index, h.instances, h.inflight, h.clients, h.calls⟩
    have hd : (World.store { s with stores := s.stores.insert addr _ } a).find? k = some d := hd
    rw [store_insert] at hd
    split at hd
    · rw [SortedMap.find?_insert] at hd
      split at hd
      · rename_i hk
        cases hd
        exact hk ▸ hq
      · exact h.objects addr k d hd
    · exact h.objects a k d hd
  | delete addr key =>
    refine ⟨fun a k d hd => ?_, h.index, h.instances, h.inflight, h.clients, h.calls⟩
    have hd : (World.store { s with stores := s.stores.insert addr _ } a).find? k = some d := hd
    rw [store_insert] at hd
    split at hd
    · rw [SortedMap.find?_erase] at hd
      split at hd
      · cases hd
      · exact h.objects addr k d hd
    · exact h.objects a k d hd
  | indexDelete key =>
    refine ⟨h.objects, fun k name hk => ?_, h.instances, h.inflight, h.clients, h.calls⟩
    have hk : (s.index.erase key).find? k = some name := hk
    rw [SortedMap.find?_erase] at hk
    split at hk
    · cases hk
    · exact h.index k name hk
  | batchPut kvs =>
    refine ⟨h.objects, fun k name hk => ?_, h.instances, h.inflight, h.clients, h.calls⟩
    rcases find?_foldl_insert hk with hin | hfind
    · exact hq _ hin
    · exact h.index k name hfind

theorem World.Genuine.send (h : s.Genuine F) {q : Request} (hq : q.Genuine F) (ok : Bool) :
    (s.send ok q).Genuine F := by
  cases ok with
  | true => exact h.serve hq
  | false =>
    refine ⟨h.objects, h.index, h.instances, fun q' hq' => ?_, h.clients, h.calls⟩
    rcases List.mem_append.mp hq' with hin | hin
    · exact h.inflight q' hin
    · exact List.mem_singleton.mp hin ▸ hq

/-- A client is replaced. -/
theorem World.Genuine.set (h : s.Genuine F) {cl : Client} (hcl : cl.Genuine F) (c : Nat) :
    World.Genuine F { s with clients := s.clients.set c cl } := by
  refine ⟨h.objects, h.index, h.instances, h.inflight, fun cl' hcl' => ?_, h.calls⟩
  rcases List.mem_or_eq_of_mem_set hcl' with hin | rfl
  · exact h.clients cl' hin
  · exact hcl

theorem World.Genuine.client (h : s.Genuine F) {c : Nat} {cl : Client} (hc : s.clients[c]? = some cl) :
    cl.Genuine F := h.clients cl (List.mem_of_getElem? hc)

/-- What a server or the KV answers. -/
theorem World.Genuine.answer (h : s.Genuine F) (server : Name) {o : RemoteOp} :
    (genuine F).gives (.remote o) () (s.answer server o) () := by
  cases o with
  | indexGet key =>
    intro name hname hne
    cases hfind : s.index.find? key with
    | none =>
      have hname : (Except.ok ((s.index.find? key).getD []) : Except Err Name) = .ok name := hname
      rw [hfind] at hname
      cases hname
      exact absurd rfl hne
    | some n =>
      have hname : (Except.ok ((s.index.find? key).getD []) : Except Err Name) = .ok name := hname
      rw [hfind] at hname
      cases hname
      exact h.index key n hfind
  | get addr key off size =>
    intro d hd
    unfold World.answer at hd
    simp only at hd
    split at hd
    · cases hd
    · rename_i w hw
      exact ⟨w, h.objects addr key w hw, hd⟩
  | stat addr key =>
    intro n hn
    unfold World.answer at hn
    simp only at hn
    split at hn
    · cases hn
    · rename_i w hw
      cases hn
      exact ⟨w, h.objects addr key w hw, rfl⟩
  | _ => exact True.intro

theorem genuine_gives_error {o : RemoteOp} {e : Err} :
    (genuine F).gives (.remote o) () (.error e : Except Err o.Value) () := by
  cases o with
  | indexGet key => exact fun name hr => by cases hr
  | get addr key off size => exact fun d hr => by cases hr
  | stat addr key => exact fun n hr => by cases hr
  | _ => exact True.intro

theorem request?_genuine {o : RemoteOp} (ho : (genuine F).pre (.remote o) ()) {q : Request}
    (hq : o.request? = some q) : q.Genuine F := by
  cases o with
  | put addr key data =>
    cases hq
    exact ho
  | delete addr key =>
    cases hq
    exact True.intro
  | indexDelete key =>
    cases hq
    exact True.intro
  | _ => cases hq

/-- **An access** keeps the world to the facts, and tells the call nothing else. -/
theorem World.Genuine.exec (h : s.Genuine F) {c : Nat} {out : Outcome} {o : Op} {r : o.Reply}
    (ho : (genuine F).pre o ()) (hx : s.exec c out o = some (s', r)) :
    s'.Genuine F ∧ (genuine F).gives o () r () := by
  cases o with
  | own o =>
    obtain ⟨cl, hc, he⟩ := Option.map_eq_some_iff.mp hx
    cases he
    obtain ⟨hcl, hgives⟩ := (h.client hc).perform out.rand ho
    exact ⟨h.set hcl c, hgives⟩
  | remote o =>
    have hx := Option.some.inj hx
    cases hx
    constructor
    · cases hq : o.request? with
      | none => exact h
      | some q => exact h.send (request?_genuine ho hq) out.ok
    · cases hok : out.ok with
      | true => exact h.answer out.server
      | false => exact genuine_gives_error

/-! ## 5. What a step does -/

/-- What the action puts, and who it registers, is among the facts. -/
structure Action.Known (a : Action) (F : Facts) : Prop where
  call : ∀ c op, a = .call c op → op.Known F
  register : ∀ info, a = .register info → F.names info.name

theorem World.Genuine.onClient (h : s.Genuine F) {c : Nat} {f : Client → Option Client}
    (hs : s.onClient c f = some s') (hf : ∀ cl cl', cl.Genuine F → f cl = some cl' → cl'.Genuine F) :
    s'.Genuine F := by
  obtain ⟨cl, cl', hc, he, rfl⟩ := onClient_eq_some hs
  exact h.set (hf cl cl' (h.client hc) he) c

theorem names_listInstances (h : s.Genuine F) : ∀ i ∈ s.listInstances, F.names i.name := by
  intro i hi
  obtain ⟨⟨n, info⟩, he, rfl⟩ := List.mem_map.mp (List.mem_of_mem_take hi)
  exact h.instances n info (SortedMap.mem_entries.mp he)

/-- The client learns of the instances that are registered. -/
theorem Client.Genuine.refresh {cl : Client} (h : cl.Genuine F) {l : List InstanceInfo}
    (hl : ∀ i ∈ l, F.names i.name) (hostname : Name) (now timeout : Int) :
    Client.Genuine F { cl with snap := buildSnapshot l hostname now timeout } where
  cached := h.cached
  queued := h.queued
  all i hi := hl i (List.mem_of_mem_filter hi)
  localInsts i hi := hl i (List.mem_of_mem_filter (List.mem_of_mem_filter hi))
  remoteInsts i hi := hl i (List.mem_of_mem_filter (List.mem_of_mem_filter hi))

theorem genuine_newCluster (cfg : ClusterConfig) : (newCluster cfg).Genuine F where
  cached i e he := by cases he
  queued e he := by cases he
  all i hi := by cases hi
  localInsts i hi := by cases hi
  remoteInsts i hi := by cases hi

theorem step_flush_genuine {c : Nat} {ok : Bool} (h : s.Genuine F) (hs : step s (.flush c ok) = some s') :
    s'.Genuine F := by
  unfold step at hs
  simp only at hs
  split at hs
  · cases hs
  rename_i cl hc
  obtain ⟨⟨kvs, m⟩, hm, he⟩ := Option.map_eq_some_iff.mp hs
  obtain ⟨rfl, hch, hbatch⟩ := flush_eq_some hm
  have hcl := h.client hc
  have hqueued : ∀ e ∈ m.ch ++ m.batch.entries, F.Route e.1 e.2 := by
    intro e he
    rw [hch, hbatch, List.append_nil] at he
    exact hcl.queued e (List.mem_append_left _ he)
  have hflushed : Client.Genuine F { cl with index := m } :=
    ⟨hcl.cached, hqueued, hcl.all, hcl.localInsts, hcl.remoteInsts⟩
  have hset := h.set hflushed c
  have hbatch : (Request.batchPut cl.index.batch.entries).Genuine F :=
    fun e he => hcl.queued e (List.mem_append_right _ he)
  simp only at he
  split at he
  · cases he
    exact hset
  · cases he
    exact hset.send hbatch ok

/-- **A step whose action is among the facts** leaves a world that is. -/
theorem World.Genuine.step {a : Action} (h : s.Genuine F) (ha : a.Known F) (hs : step s a = some s') :
    s'.Genuine F := by
  cases a with
  | call c op =>
    unfold ClusterClient.step at hs
    simp only at hs
    split at hs
    · cases hs
      refine ⟨h.objects, h.index, h.instances, h.inflight, h.clients, fun r hr => ?_⟩
      rcases List.mem_append.mp hr with hr | hr
      · exact h.calls r hr
      · rw [List.mem_singleton.mp hr]
        have hop := ha.call c op rfl
        exact fun F' hF => code_genuine
          ⟨fun k d hd => hF.objects k d (hop.objects k d hd), fun k hk => hF.keys k (hop.keys k hk)⟩
    · cases hs
  | step t out =>
    obtain ⟨c, op, o, next, s₁, r, hr, hx, rfl⟩ := step_step hs
    have hrest : Running.Genuine F ⟨c, op, .request o next⟩ := h.calls _ (List.mem_of_getElem? hr)
    obtain ⟨hs₁, hgives⟩ := h.exec (hrest F .rfl).1 hx
    refine ⟨hs₁.objects, hs₁.index, hs₁.instances, hs₁.inflight, hs₁.clients, fun r' hr' => ?_⟩
    rcases List.mem_or_eq_of_mem_set hr' with hr' | rfl
    · exact h.calls r' hr'
    · exact fun F' hF => (hrest F' hF).2 r () (genuine_gives_mono hgives hF)
  | land i =>
    obtain ⟨q, hq, rfl⟩ := Option.map_eq_some_iff.mp hs
    have hrest : World.Genuine F { s with inflight := s.inflight.eraseIdx i } :=
      ⟨h.objects, h.index, h.instances, fun q' hq' => h.inflight q' (List.mem_of_mem_eraseIdx hq'),
        h.clients, h.calls⟩
    exact hrest.serve (h.inflight q (List.mem_of_getElem? hq))
  | recv c =>
    refine h.onClient hs fun cl cl' hcl he => ?_
    obtain ⟨m, hm, rfl⟩ := Option.map_eq_some_iff.mp he
    exact ⟨hcl.cached, queued_of_recv hm hcl.queued, hcl.all, hcl.localInsts, hcl.remoteInsts⟩
  | tick c =>
    refine h.onClient hs fun cl cl' hcl he => ?_
    obtain ⟨m, hm, rfl⟩ := Option.map_eq_some_iff.mp he
    unfold IndexManager.tick at hm
    split at hm
    · cases hm
      exact ⟨hcl.cached, hcl.queued, hcl.all, hcl.localInsts, hcl.remoteInsts⟩
    · cases hm
  | flush c ok => exact step_flush_genuine h hs
  | close c =>
    refine h.onClient hs fun cl cl' hcl he => ?_
    cases he
    exact ⟨hcl.cached, hcl.queued, hcl.all, hcl.localInsts, hcl.remoteInsts⟩
  | stop c =>
    refine h.onClient hs fun cl cl' hcl he => ?_
    obtain ⟨m, hm, rfl⟩ := Option.map_eq_some_iff.mp he
    unfold IndexManager.stop at hm
    split at hm
    · cases hm
      exact ⟨hcl.cached, hcl.queued, hcl.all, hcl.localInsts, hcl.remoteInsts⟩
    · cases hm
  | newCluster cfg =>
    cases hs
    refine ⟨h.objects, h.index, h.instances, h.inflight, fun cl hcl => ?_, h.calls⟩
    rcases List.mem_append.mp hcl with hcl | hcl
    · exact h.clients cl hcl
    · rw [List.mem_singleton.mp hcl]
      exact genuine_newCluster cfg
  | refresh c now =>
    refine h.onClient hs fun cl cl' hcl he => ?_
    cases he
    exact hcl.refresh (names_listInstances h) _ _ _
  | register info =>
    cases hs
    refine ⟨h.objects, h.index, fun n i hi => ?_, h.inflight, h.clients, h.calls⟩
    have hi : (s.instances.insert info.name info).find? n = some i := hi
    rw [SortedMap.find?_insert] at hi
    split at hi
    · cases hi
      exact ha.register info rfl
    · exact h.instances n i hi
  | unregister name =>
    cases hs
    refine ⟨h.objects, h.index, fun n i hi => ?_, h.inflight, h.clients, h.calls⟩
    have hi : (s.instances.erase name).find? n = some i := hi
    rw [SortedMap.find?_erase] at hi
    split at hi
    · cases hi
    · exact h.instances n i hi

/-! ## 6. Runs -/

/-- The facts of a run: what its calls have put, and who has been registered in it. -/
def facts (as : List Action) : Facts where
  objects k d := ∃ c op, Action.call c op ∈ as ∧ op.Stores k d
  keys k := ∃ c op, Action.call c op ∈ as ∧ op.Puts k
  names n := ∃ info, Action.register info ∈ as ∧ info.name = n

theorem facts_within (as bs : List Action) : (facts as).Within (facts (as ++ bs)) where
  objects := fun _ _ ⟨c, op, hmem, h⟩ => ⟨c, op, List.mem_append_left _ hmem, h⟩
  keys := fun _ ⟨c, op, hmem, h⟩ => ⟨c, op, List.mem_append_left _ hmem, h⟩
  names := fun _ ⟨info, hmem, h⟩ => ⟨info, List.mem_append_left _ hmem, h⟩

theorem known_facts (as : List Action) (a : Action) : a.Known (facts (as ++ [a])) where
  call := fun c op ha => by
    have hmem : Action.call c op ∈ as ++ [a] := ha ▸ List.mem_append_right _ List.mem_cons_self
    exact ⟨fun k d hd => ⟨c, op, hmem, hd⟩, fun k hk => ⟨c, op, hmem, hk⟩⟩
  register := fun info ha =>
    ⟨info, ha ▸ List.mem_append_right _ List.mem_cons_self, rfl⟩

theorem genuine_init : World.init.Genuine (facts []) where
  objects a k d hd := by cases hd
  index k name hk := by cases hk
  instances n info hn := by cases hn
  inflight q hq := by cases hq
  clients cl hcl := by cases hcl
  calls r hr := by cases hr

/-- **In every run, everything in the world is among the facts of the run.** -/
theorem genuine_of_run {as : List Action} (hrun : run step World.init as = some s) : s.Genuine (facts as) := by
  have halong : Along step (fun _ _ => True) World.init as :=
    along_of_forall_mem (fun _ _ => True.intro) _
  exact run_history (I := fun as s => s.Genuine (facts as))
    (fun as _ a _ h _ hs => (h.mono (facts_within as [a])).step (known_facts as a) hs)
    genuine_init halong hrun

/-- **A route leads from a key that has been put to an instance that has been registered**, in the
index, in the route caches and index managers of all clients, and in a batch that is still on its way
to the index. -/
theorem routes_were_put {as : List Action} (hrun : run step World.init as = some s) :
    (∀ k name, s.index.find? k = some name → (facts as).Route k name) ∧
    (∀ cl ∈ s.clients, (∀ i, ∀ e ∈ cl.cache.shards i, (facts as).Route e.1 e.2) ∧
      ∀ e ∈ cl.index.ch ++ cl.index.batch.entries, (facts as).Route e.1 e.2) ∧
    ∀ kvs, Request.batchPut kvs ∈ s.inflight → ∀ e ∈ kvs, (facts as).Route e.1 e.2 := by
  have h := genuine_of_run hrun
  exact ⟨h.index, fun cl hcl => ⟨(h.clients cl hcl).cached, (h.clients cl hcl).queued⟩,
    fun kvs hkvs => h.inflight _ hkvs⟩

open Scene in
theorem routes_were_put_of_written :
    ∃ s, run step World.init (setup ++ putOnce ++ writeEntry) = some s ∧
      s.index.find? Scene.key = some inst.name ∧
      (facts (setup ++ putOnce ++ writeEntry)).Route Scene.key inst.name := by
  obtain ⟨s, hs, hview⟩ := Option.map_eq_some_iff.mp
    (show (run step World.init (setup ++ putOnce ++ writeEntry)).map (fun s => s.index.find? Scene.key) =
      some (some inst.name) by decide +kernel)
  exact ⟨s, hs, hview, (routes_were_put hs).1 _ _ hview⟩

end Taihu.ClusterClient
