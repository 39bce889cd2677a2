/-
# The batch read of the cluster client

`pkg/taihu-client/storage.go` (`GetBatch`, `Get`, `lookup`, `getFrom`) and
`internal/rpcclient/storage_rpc.go` (`GetBatch`).

The keys of a batch are grouped by the instance that the route cache names for them, and each group
is read with one request; the keys without a route, and those of a group whose read fails, are read
one by one with `Get`.  The instances, the registry and the index stay as they are during the call,
and a connection to an instance leads to the same server throughout.  Every remote access may fail.

What `Get` returns depends on the route in the cache and on nothing else that changes (`value`).  A
call changes a route in two ways: it takes the name from the index, or the entry is pushed out by
that of another key (`Later`).  So what a batch reads is what `Get` returns at its start, or what
`Get` returns without a route, and the second only for a key whose route is no longer the one of
the start (`get_batch_reads`).  The cache holds 4096 entries in a shard, and a batch can push out
one that it has just used (`pushed_out_route`).

Every buffer is numbered when a connection hands it out, and a release function is the list of the
buffers that it gives back.
-/
import Taihu.ClusterClient
import Taihu.Store
import Taihu.Lib.Alone
import Taihu.Lib.Ledger

namespace Taihu.ClusterBatch

open Concur
open Program hiding pure
open ClusterClient (Name Data InstanceInfo RouteCache readRange newRouteCache)

/-- The errors of the client. -/
abbrev SdkErr := ClusterClient.Err

/-- A buffer that a connection has handed out. -/
abbrev Handle := Unit × Nat

/-- A release function that a connection or `Get` returns. -/
abbrev Release := List Handle

/-! ## 1. The accesses -/

inductive Op where
  | ctxErr
  | cacheGet (key : Key)
  | cachePut (key : Key) (name : Name)
  | registryLookup (name : Name)
  | indexGet (key : Key)
  | clientFor (inst : InstanceInfo)
  /-- whether the connection that `pick` chooses is a `batchGetter`. -/
  | pick (c : Name)
  | connGet (c : Name) (key : Key) (off size : Int)
  | connGetBatch (c : Name) (keys : List Key) (off size : Int)
  | release (h : Handle)
  deriving DecidableEq

@[reducible] def Op.Reply : Op → Type
  | .ctxErr => Option SdkErr
  | .cacheGet _ => Option Name
  | .cachePut _ _ => Unit
  | .registryLookup _ => Option InstanceInfo
  | .indexGet _ => Except SdkErr Name
  | .clientFor _ => Except SdkErr Name
  | .pick _ => Bool
  | .connGet _ _ _ _ => Except SdkErr (Data × Handle)
  | .connGetBatch _ _ _ _ => Except SdkErr (List Data × Handle)
  | .release _ => Unit

@[reducible] def Access : Signature := ⟨Op, Op.Reply⟩

abbrev Prog (α : Type) := Program Access α

abbrev ask (o : Op) : Prog o.Reply := Program.perform (S := Access) o

/-! ## 2. The calls -/

/-- The functions of a list of releases are called, one after the other. -/
def callEach : Release → Prog Unit
  | [] => pure ()
  | h :: rels => do
    ask (.release h)
    callEach rels

/-- The loop of `rpcclient.Storage.GetBatch` over a connection without batches; `rels` are the
releases of the keys before. -/
def rpcGetEach (c : Name) (off size : Int) : List Key → Release → Prog (Except SdkErr (List Data × Release))
  | [], rels => pure (.ok ([], rels))
  | key :: keys, rels => do
    match ← ask (.connGet c key off size) with
    | .error e => do
      callEach rels
      pure (.error e)
    | .ok (data, h) =>
      match ← rpcGetEach c off size keys (rels ++ [h]) with
      | .error e => pure (.error e)
      | .ok (out, rels) => pure (.ok (data :: out, rels))

/-- `rpcclient.Storage.GetBatch`. -/
def rpcGetBatch (c : Name) (keys : List Key) (off size : Int) :
    Prog (Except SdkErr (List Data × Release)) := do
  if ← ask (.pick c) then
    match ← ask (.connGetBatch c keys off size) with
    | .error e => pure (.error e)
    | .ok (out, h) => pure (.ok (out, [h]))
  else rpcGetEach c off size keys []

/-- The second half of `lookup`. -/
def lookupIndex (key : Key) : Prog (Option InstanceInfo) := do
  match ← ask (.indexGet key) with
  | .error _ => pure none
  | .ok name =>
    if name = [] then pure none
    else
      match ← ask (.registryLookup name) with
      | none => pure none
      | some inst => do
        ask (.cachePut key name)
        pure (some inst)

/-- `lookup`. -/
def lookup (key : Key) : Prog (Option InstanceInfo) := do
  match ← ask (.cacheGet key) with
  | none => lookupIndex key
  | some name =>
    match ← ask (.registryLookup name) with
    | none => lookupIndex key
    | some inst => pure (some inst)

/-- `getFrom`. -/
def getFrom (key : Key) (off size : Int) : List InstanceInfo → Prog (Except SdkErr (Data × Release))
  | [] => pure (.error .notFound)
  | inst :: insts => do
    match ← ask (.clientFor inst) with
    | .error _ => getFrom key off size insts
    | .ok c =>
      match ← ask (.connGet c key off size) with
      | .ok (data, h) => pure (.ok (data, [h]))
      | .error .notFound => getFrom key off size insts
      | .error e => pure (.error e)

/-- `getFromSource`, where no source is set. -/
def getFromSource : Prog (Except SdkErr (Data × Release)) := pure (.error .sourceUnset)

/-- `Get`. -/
def get (key : Key) (off size : Int) : Prog (Except SdkErr (Data × Release)) := do
  match ← lookup key with
  | none => getFromSource
  | some inst =>
    match ← getFrom key off size [inst] with
    | .error .notFound => getFromSource
    | r => pure r

/-- The keys of a batch by the instance that the route cache names for them, and those it names
none for. -/
structure Grouping where
  groups : SortedMap Name (List Nat)
  miss : List Nat

def Grouping.empty : Grouping := ⟨.empty, []⟩

/-- `groups[name] = append(groups[name], i)`. -/
def Grouping.add (g : Grouping) (name : Name) (i : Nat) : Grouping :=
  { g with groups := g.groups.insert name ((g.groups.find? name).getD [] ++ [i]) }

/-- `miss = append(miss, i)`. -/
def Grouping.addMiss (g : Grouping) (i : Nat) : Grouping := { g with miss := g.miss ++ [i] }

/-- The first loop of `GetBatch`. -/
def group : List (Key × Nat) → Grouping → Prog Grouping
  | [], g => pure g
  | (key, i) :: rest, g => do
    match ← ask (.cacheGet key) with
    | none => group rest (g.addMiss i)
    | some name =>
      match ← ask (.registryLookup name) with
      | none => group rest (g.addMiss i)
      | some _ => group rest (g.add name i)

/-- `out` and `rels`. -/
structure Batch where
  out : List Data
  rels : Release

/-- `out[i], rels = data, append(rels, rel)`. -/
def Batch.put (b : Batch) (i : Nat) (data : Data) (rel : Release) : Batch :=
  ⟨b.out.set i data, b.rels ++ rel⟩

/-- `out[i] = gout[j]` for the `j`-th `i` of the group. -/
def scatter (out : List Data) : List Nat → List Data → List Data
  | i :: idxs, data :: gout => scatter (out.set i data) idxs gout
  | _, _ => out

section Batch

variable (keys : List Key) (off size : Int)

/-- The loop over `Get`, for the keys at these places. -/
def fetchEach : List Nat → Batch → Prog (Except SdkErr Batch)
  | [], b => pure (.ok b)
  | i :: idxs, b => do
    match ← get (keys.getD i []) off size with
    | .error e => do
      callEach b.rels
      pure (.error e)
    | .ok (data, rel) => fetchEach idxs (b.put i data rel)

/-- The body of the loop over the groups. -/
def readGroup (name : Name) (idxs : List Nat) (b : Batch) : Prog (Except SdkErr Batch) := do
  match ← ask (.registryLookup name) with
  | none => fetchEach keys off size idxs b
  | some inst =>
    match ← ask (.clientFor inst) with
    | .error _ => fetchEach keys off size idxs b
    | .ok c =>
      match ← rpcGetBatch c (idxs.map (fun i => keys.getD i [])) off size with
      | .error _ => fetchEach keys off size idxs b
      | .ok (gout, grel) => pure (.ok ⟨scatter b.out idxs gout, b.rels ++ grel⟩)

/-- The loop over the groups. -/
def readGroups : List (Name × List Nat) → Batch → Prog (Except SdkErr Batch)
  | [], b => pure (.ok b)
  | (name, idxs) :: rest, b => do
    match ← readGroup keys off size name idxs b with
    | .error e => pure (.error e)
    | .ok b => readGroups rest b

/-- `releaseAll` with its `once`. -/
structure ReleaseAll where
  done : Bool
  rels : Release

/-- A call of it. -/
def ReleaseAll.call (r : ReleaseAll) : Prog ReleaseAll := do
  if r.done then pure r
  else do
    callEach r.rels
    pure { r with done := true }

/-- `n` calls of it. -/
def ReleaseAll.calls (r : ReleaseAll) : Nat → Prog ReleaseAll
  | 0 => pure r
  | n + 1 => do
    let r ← r.call
    r.calls n

/-- `GetBatch`; `order` is the range order of the map `groups`. -/
def getBatch (order : List Name) : Prog (Except SdkErr (List Data × ReleaseAll)) := do
  if keys = [] ∨ size = 0 then pure (.ok ([], ⟨false, []⟩))
  else if off < 0 ∨ size < 0 then pure (.error .invalidRange)
  else
    match ← ask .ctxErr with
    | some e => pure (.error e)
    | none => do
      let g ← group keys.zipIdx Grouping.empty
      match ← fetchEach keys off size g.miss ⟨List.replicate keys.length [], []⟩ with
      | .error e => pure (.error e)
      | .ok b =>
        match ← readGroups keys off size (rangeOrder Prod.fst order g.groups.entries) b with
        | .error e => pure (.error e)
        | .ok b => pure (.ok (b.out, ⟨false, b.rels⟩))

end Batch

/-! ## 3. What the accesses answer -/

/-- What does not change during a call: the registry and the index, the server that a connection to
an instance leads to, and the objects on each server. -/
structure World where
  registry : Name → Option InstanceInfo
  index : Key → Name
  server : InstanceInfo → Name
  stores : Name → Key → Option Data

/-- How an access goes: the error it fails with, and whether a connection reads batches. -/
structure Outcome where
  err : Option SdkErr := none
  batch : Bool := true

/-- The route cache, the buffers that have been handed out, and how many accesses there were. -/
structure Session where
  cache : RouteCache
  bufs : Ledger Unit
  clock : Nat

namespace Session

def start (cache : RouteCache) : Session := ⟨cache, .empty, 0⟩

def tick (s : Session) : Session := { s with clock := s.clock + 1 }

/-- A connection hands out what it has read, with a buffer. -/
def handOut {α : Type} (s : Session) : Except SdkErr α → Session × Except SdkErr (α × Handle)
  | .error e => (s, .error e)
  | .ok a => ({ s with bufs := s.bufs.take () }, .ok (a, s.bufs.next ()))

end Session

namespace World

variable (w : World)

/-- `Get` of a connection, once the size is known. -/
def readSized (c : Name) (key : Key) (off size : Int) : Except SdkErr Data :=
  if size < 0 then .error .invalidRange
  else if size = 0 then .ok []
  else
    match w.stores c key with
    | none => .error .notFound
    | some d => readRange d off size

/-- `Get` of a connection. -/
def read (c : Name) (key : Key) (off size : Int) : Except SdkErr Data :=
  if size < 0 then
    match w.stores c key with
    | none => .error .notFound
    | some d => w.readSized c key off (d.length - off)
  else w.readSized c key off size

/-- Each of the keys. -/
def readEach (c : Name) (off size : Int) : List Key → Except SdkErr (List Data)
  | [] => .ok []
  | key :: keys =>
    match w.read c key off size with
    | .error e => .error e
    | .ok data => (readEach c off size keys).map (data :: ·)

/-- `GetBatch` of a connection. -/
def readBatch (c : Name) (keys : List Key) (off size : Int) : Except SdkErr (List Data) :=
  if keys = [] ∨ size = 0 then .ok []
  else if off < 0 ∨ size < 0 then .error .invalidRange
  else w.readEach c off size keys

/-- An access whose outcome is known. -/
def perform (x : Outcome) (s : Session) : (o : Op) → Session × o.Reply
  | .ctxErr => (s, x.err)
  | .cacheGet key => ({ s with cache := (s.cache.get key).1 }, (s.cache.get key).2)
  | .cachePut key name => ({ s with cache := s.cache.put key name }, ())
  | .registryLookup name => (s, w.registry name)
  | .indexGet key => (s, x.err.elim (.ok (w.index key)) .error)
  | .clientFor inst => (s, x.err.elim (.ok (w.server inst)) .error)
  | .pick _ => (s, x.batch)
  | .connGet c key off size => s.handOut (x.err.elim (w.read c key off size) .error)
  | .connGetBatch c keys off size => s.handOut (x.err.elim (w.readBatch c keys off size) .error)
  | .release h => ({ s with bufs := s.bufs.give h }, ())

/-- How each access of a run goes, by its number. -/
abbrev Faults := Nat → Op → Outcome

def answers (x : Faults) (s : Session) (o : Op) : Session × o.Reply :=
  w.perform (x s.clock o) s.tick o

/-- Nothing fails. -/
def faultless : Faults := fun _ _ => {}

/-- A `GetBatch` from a route cache. -/
def call (x : Faults) (order : List Name) (cache : RouteCache) (keys : List Key) (off size : Int) :
    Session × Except SdkErr (List Data × ReleaseAll) :=
  (getBatch keys off size order).alone (w.answers x) (Session.start cache)

/-- `Get` returns these data when it runs alone from a route cache and nothing fails. -/
def Returns (cache : RouteCache) (key : Key) (off size : Int) (data : Data) : Prop :=
  ((get key off size).alone (w.answers faultless) (Session.start cache)).2.map Prod.fst = .ok data

end World

/-! ## 4. Routes -/

/-- The route of a key in the cache. -/
def peek (rc : RouteCache) (key : Key) : Option Name := (rc.shard key).lookup key

theorem lookup_filter_ne {key key' : Key} (h : key' ≠ key) (l : List (Key × Name)) :
    (l.filter (fun e => e.1 ≠ key)).lookup key' = l.lookup key' := by
  induction l with
  | nil => rfl
  | cons e l ih =>
    obtain ⟨k, name⟩ := e
    by_cases hk : k = key
    · subst hk
      rw [List.filter_cons_of_neg (by simp), ih, List.lookup_cons, beq_false_of_ne h]
    · rw [List.filter_cons_of_pos (by simpa using hk), List.lookup_cons, List.lookup_cons, ih]

/-- An entry that is pushed out leaves its key without a route. -/
theorem lookup_dropLast (key : Key) (l : List (Key × Name)) :
    l.dropLast.lookup key = l.lookup key ∨ l.dropLast.lookup key = none := by
  rcases List.eq_nil_or_concat l with rfl | ⟨init, e, rfl⟩
  · exact Or.inl rfl
  · rw [List.concat_eq_append, List.dropLast_concat, List.lookup_append]
    cases init.lookup key with
    | none => exact Or.inr rfl
    | some name => exact Or.inl rfl

section Routes

variable (rc : RouteCache) (key key' : Key) (name : Name) (l : List (Key × Name))

theorem shard_setShard : (rc.setShard key l).shard key = l := by
  simp [RouteCache.setShard, RouteCache.shard]

theorem peek_setShard_self : peek (rc.setShard key l) key = l.lookup key := by
  rw [peek, shard_setShard]

/-- The shard of another key is the same list, or it is left alone. -/
theorem peek_setShard :
    peek (rc.setShard key l) key' = l.lookup key' ∧ rc.shard key' = rc.shard key ∨
      peek (rc.setShard key l) key' = peek rc key' := by
  by_cases h : ClusterClient.fnv32 key' % ClusterClient.routeShards =
      ClusterClient.fnv32 key % ClusterClient.routeShards
  · left
    simp [peek, RouteCache.setShard, RouteCache.shard, h]
  · right
    simp [peek, RouteCache.setShard, RouteCache.shard, h]

theorem lookup_toFront_self : (rc.toFront key name).lookup key = some name := by
  simp [RouteCache.toFront]

theorem lookup_toFront (h : key' ≠ key) :
    (rc.toFront key name).lookup key' = (rc.shard key).lookup key' := by
  unfold RouteCache.toFront
  rw [List.lookup_cons, beq_false_of_ne h]
  exact lookup_filter_ne h _

theorem get_snd : (rc.get key).2 = peek rc key := by
  unfold RouteCache.get peek
  cases (rc.shard key).lookup key with
  | none => rfl
  | some name => rfl

/-- A lookup changes no route. -/
theorem peek_get : peek (rc.get key).1 key' = peek rc key' := by
  unfold RouteCache.get
  cases hr : (rc.shard key).lookup key with
  | none => rfl
  | some name =>
    by_cases h : key' = key
    · subst h
      show peek (rc.setShard key' (rc.toFront key' name)) key' = _
      rw [peek_setShard_self, lookup_toFront_self, peek, hr]
    · show peek (rc.setShard key (rc.toFront key name)) key' = _
      rcases peek_setShard rc key key' (rc.toFront key name) with ⟨hp, hs⟩ | hp
      · rw [hp, lookup_toFront rc key key' name h, peek, hs]
      · exact hp

/-- The key that is put has the name, unless the shard holds nothing. -/
theorem peek_put_self : peek (rc.put key name) key = some name ∨ peek (rc.put key name) key = none := by
  unfold RouteCache.put
  cases hr : (rc.shard key).lookup key with
  | some old =>
    left
    show peek (rc.setShard key (rc.toFront key name)) key = _
    rw [peek_setShard_self, lookup_toFront_self]
  | none =>
    simp only [peek_setShard_self]
    have hself : ((key, name) :: rc.shard key).lookup key = some name := by simp
    split
    · rw [← hself]
      exact lookup_dropLast key _
    · exact Or.inl hself

/-- Another key keeps its route, or loses it. -/
theorem peek_put (h : key' ≠ key) :
    peek (rc.put key name) key' = peek rc key' ∨ peek (rc.put key name) key' = none := by
  unfold RouteCache.put
  cases hr : (rc.shard key).lookup key with
  | some old =>
    left
    show peek (rc.setShard key (rc.toFront key name)) key' = _
    rcases peek_setShard rc key key' (rc.toFront key name) with ⟨hp, hs⟩ | hp
    · rw [hp, lookup_toFront rc key key' name h, peek, hs]
    · exact hp
  | none =>
    have hother : ((key, name) :: rc.shard key).lookup key' = (rc.shard key).lookup key' := by
      rw [List.lookup_cons, beq_false_of_ne h]
    simp only
    split
    · rcases peek_setShard rc key key' ((key, name) :: rc.shard key).dropLast with ⟨hp, hs⟩ | hp
      · rw [hp, peek, hs, ← hother]
        exact lookup_dropLast key' _
      · exact Or.inl hp
    · rcases peek_setShard rc key key' ((key, name) :: rc.shard key) with ⟨hp, hs⟩ | hp
      · exact Or.inl (by rw [hp, hother, peek, hs])
      · exact Or.inl hp

end Routes

/-! ## 5. What `Get` returns -/

namespace World

variable (w : World)

/-- The instance that the index names. -/
def indexed (key : Key) : Option InstanceInfo :=
  if w.index key = [] then none else w.registry (w.index key)

/-- The instance that `lookup` finds, when the cache has this route. -/
def route (cached : Option Name) (key : Key) : Option InstanceInfo :=
  (cached.bind w.registry).or (w.indexed key)

/-- What `Get` makes of the answer of an instance. -/
def valueAt (key : Key) (off size : Int) (inst : InstanceInfo) : Except SdkErr Data :=
  match w.read (w.server inst) key off size with
  | .error .notFound => .error .sourceUnset
  | r => r

/-- What `Get` returns, when the cache has this route and nothing fails. -/
def value (cached : Option Name) (key : Key) (off size : Int) : Except SdkErr Data :=
  (w.route cached key).elim (.error .sourceUnset) (w.valueAt key off size)

variable {w} {key : Key} {off size : Int} {name : Name} {inst : InstanceInfo} {d : Data}

theorem valueAt_of_read (h : w.read (w.server inst) key off size = .ok d) :
    w.valueAt key off size inst = .ok d := by
  unfold valueAt
  rw [h]

theorem route_of_registered (h : w.registry name = some inst) : w.route (some name) key = some inst := by
  simp [route, h]

/-- A name that is not registered is no route. -/
theorem route_of_vanished (h : w.registry name = none) : w.route (some name) key = w.indexed key := by
  simp [route, h]

theorem route_none : w.route none key = w.indexed key := by simp [route]

/-- A route that is taken from the index leads where no route leads. -/
theorem route_index (h : w.index key ≠ []) : w.route (some (w.index key)) key = w.route none key := by
  simp [route, indexed, h]

theorem value_index (h : w.index key ≠ []) :
    w.value (some (w.index key)) key off size = w.value none key off size := by
  unfold value
  rw [route_index h]

theorem alone_lookupIndex (s : Session) :
    ((lookupIndex key).alone (w.answers faultless) s).2 = w.indexed key := by
  unfold lookupIndex indexed
  simp only [Bind.bind, Program.bind, Program.perform, alone, answers, perform, faultless,
    Option.elim_none]
  split
  · rfl
  · simp only [alone, answers, perform]
    cases w.registry (w.index key) with
    | none => rfl
    | some inst => rfl

theorem alone_lookup (s : Session) :
    ((lookup key).alone (w.answers faultless) s).2 = w.route (peek s.cache key) key := by
  unfold lookup
  simp only [Bind.bind, Program.bind, Program.perform, alone, answers, perform, Session.tick, get_snd]
  cases peek s.cache key with
  | none =>
    rw [route_none]
    exact alone_lookupIndex _
  | some name =>
    simp only [alone, answers, perform]
    cases hr : w.registry name with
    | none =>
      rw [route_of_vanished hr]
      exact alone_lookupIndex _
    | some inst =>
      rw [route_of_registered hr]
      rfl

/-- **`Get` returns the value of the route that the cache has**, when it runs alone and nothing
fails. -/
theorem alone_get (s : Session) :
    ((get key off size).alone (w.answers faultless) s).2.map Prod.fst =
      w.value (peek s.cache key) key off size := by
  unfold get value
  rw [alone_bind, alone_lookup]
  cases w.route (peek s.cache key) key with
  | none => rfl
  | some inst =>
    simp only [getFrom, Bind.bind, Program.bind, Program.perform, alone, answers, perform,
      faultless, Option.elim_none, Option.elim_some, valueAt, Session.handOut]
    cases w.read (w.server inst) key off size with
    | error e => cases e <;> rfl
    | ok d => rfl

theorem returns_iff {cache : RouteCache} :
    w.Returns cache key off size d ↔ w.value (peek cache key) key off size = .ok d := by
  unfold Returns
  rw [alone_get]
  rfl

end World

/-! ## 6. What a call does to the routes -/

/-- What a call may make of a route cache: a key keeps its route, or loses it, or gets the one of
the index. -/
def World.Later (w : World) (c c' : RouteCache) : Prop :=
  ∀ key, peek c' key = peek c key ∨ peek c' key = none ∨
    peek c' key = some (w.index key) ∧ w.index key ≠ []

section Later

variable {w : World} {c c' c'' : RouteCache} {key : Key} {off size : Int} {d : Data}

theorem World.Later.refl : w.Later c c := fun _ => Or.inl rfl

theorem World.Later.trans (h : w.Later c c') (h' : w.Later c' c'') : w.Later c c'' := by
  intro key
  rcases h' key with he | hn | hi
  · rw [he]
    exact h key
  · exact Or.inr (Or.inl hn)
  · exact Or.inr (Or.inr hi)

theorem World.Later.get : w.Later c (c.get key).1 := fun key' => Or.inl (peek_get c key key')

theorem World.Later.put (hi : w.index key ≠ []) : w.Later c (c.put key (w.index key)) := by
  intro key'
  by_cases h : key' = key
  · subst h
    rcases peek_put_self c key' (w.index key') with hs | hn
    · exact Or.inr (Or.inr ⟨hs, hi⟩)
    · exact Or.inr (Or.inl hn)
  · rcases peek_put c key key' (w.index key) h with hs | hn
    · exact Or.inl hs
    · exact Or.inr (Or.inl hn)

/-- **The data are what `Get` returns at the start of the call**, or without a route, and then the
route is no longer the one of the start. -/
def World.Good (w : World) (c₀ c : RouteCache) (key : Key) (off size : Int) (d : Data) : Prop :=
  w.value (peek c₀ key) key off size = .ok d ∨
    w.value none key off size = .ok d ∧ peek c key ≠ peek c₀ key

variable {c₀ : RouteCache}

/-- What `Get` returns at any moment of the call is good. -/
theorem good_of_value (h : w.Later c₀ c) (hd : w.value (peek c key) key off size = .ok d) :
    w.Good c₀ c key off size d := by
  by_cases hsame : peek c key = peek c₀ key
  · left
    rwa [hsame] at hd
  · right
    refine ⟨?_, hsame⟩
    rcases h key with he | hn | ⟨hi, hx⟩
    · exact absurd he hsame
    · rwa [hn] at hd
    · rwa [hi, World.value_index hx] at hd

/-- What is good stays good. -/
theorem World.Good.later (hg : w.Good c₀ c key off size d) (h : w.Later c c') :
    w.Good c₀ c' key off size d := by
  rcases hg with hd | ⟨hd, hne⟩
  · exact Or.inl hd
  · by_cases hsame : peek c' key = peek c₀ key
    · left
      rcases h key with he | hn | ⟨hi, hx⟩
      · exact absurd (he.symm.trans hsame) hne
      · rwa [← hsame, hn]
      · rwa [← hsame, hi, World.value_index hx]
    · exact Or.inr ⟨hd, hsame⟩

end Later

/-! ## 7. Reading one key -/

/-- What an access may answer, however it goes. -/
def World.contract (w : World) : Program.Contract Access Session := contractOf w.answers

/-- What is in hand after a call: what it returns, and what was in hand before. -/
def Held {α : Type} (rels : α → Release) (hand : Release) (s : Session) : Except SdkErr α → Prop
  | .ok a => s.bufs.Accounts (rels a ++ hand)
  | .error _ => s.bufs.Accounts hand

section Keeps

variable {w : World} {s : Session} {hand : Release}

/-- A program that asks is good when it goes on well after each outcome. -/
theorem keeps_ask {α : Type} {post : α → Session → Prop} (o : Op) (f : o.Reply → Prog α)
    (h : ∀ x, Keeps w.contract post (f (w.perform x s.tick o).2) (w.perform x s.tick o).1) :
    Keeps w.contract post (ask o >>= f) s := by
  refine ⟨True.intro, ?_⟩
  rintro r s' ⟨x, hx⟩
  have hnext := h (x s.clock o)
  rw [show w.perform (x s.clock o) s.tick o = (s', r) from hx] at hnext
  exact hnext

theorem callEach_keeps (rels : Release) {s : Session} (h : s.bufs.Accounts (rels ++ hand)) :
    Keeps w.contract (fun _ s' => s'.cache = s.cache ∧ s'.bufs.Accounts hand) (callEach rels) s := by
  induction rels generalizing s with
  | nil => exact ⟨rfl, h⟩
  | cons t rels ih =>
    refine keeps_ask (.release t) _ fun _ => ?_
    exact ih (s := { s.tick with bufs := s.bufs.give t }) (Ledger.Accounts.give h)

variable {key : Key} {off size : Int}

theorem lookupIndex_keeps :
    Keeps w.contract (fun r s' => w.Later s.cache s'.cache ∧ s'.bufs = s.bufs ∧
      ∀ inst, r = some inst → w.indexed key = some inst) (lookupIndex key) s := by
  refine keeps_ask (.indexGet key) _ fun x => ?_
  cases hx : x.err with
  | some e =>
    simp only [World.perform, hx, Option.elim_some]
    exact ⟨World.Later.refl, rfl, fun _ hbad => by cases hbad⟩
  | none =>
    simp only [World.perform, hx, Option.elim_none]
    split
    · exact ⟨World.Later.refl, rfl, fun _ hbad => by cases hbad⟩
    · rename_i hname
      refine keeps_ask (.registryLookup _) _ fun _ => ?_
      simp only [World.perform]
      cases hr : w.registry (w.index key) with
      | none => exact ⟨World.Later.refl, rfl, fun _ hbad => by cases hbad⟩
      | some inst =>
        refine keeps_ask (.cachePut _ _) _ fun _ => ⟨World.Later.put hname, rfl, ?_⟩
        intro inst' h
        cases h
        rw [World.indexed, if_neg hname, hr]

theorem lookup_keeps :
    Keeps w.contract (fun r s' => w.Later s.cache s'.cache ∧ s'.bufs = s.bufs ∧
      ∀ inst, r = some inst → w.route (peek s.cache key) key = some inst) (lookup key) s := by
  refine keeps_ask (.cacheGet key) _ fun _ => ?_
  simp only [World.perform, get_snd, Session.tick]
  cases hp : peek s.cache key with
  | none =>
    refine lookupIndex_keeps.mono fun r s' h => ⟨World.Later.get.trans h.1, h.2.1, ?_⟩
    rw [World.route_none]
    exact h.2.2
  | some name =>
    refine keeps_ask (.registryLookup _) _ fun _ => ?_
    simp only [World.perform]
    cases hr : w.registry name with
    | none =>
      refine lookupIndex_keeps.mono fun r s' h => ⟨World.Later.get.trans h.1, h.2.1, ?_⟩
      rw [World.route_of_vanished hr]
      exact h.2.2
    | some inst =>
      refine ⟨World.Later.get, rfl, ?_⟩
      intro inst' h
      cases h
      exact World.route_of_registered hr

theorem getFrom_keeps {inst : InstanceInfo} (h : s.bufs.Accounts hand) :
    Keeps w.contract (fun r s' => s'.cache = s.cache ∧ Held Prod.snd hand s' r ∧
      ∀ a, r = .ok a → w.read (w.server inst) key off size = .ok a.1)
      (getFrom key off size [inst]) s := by
  refine keeps_ask (.clientFor inst) _ fun x => ?_
  cases hx : x.err with
  | some e =>
    simp only [World.perform, hx, Option.elim_some]
    exact ⟨rfl, h, fun _ hbad => by cases hbad⟩
  | none =>
    simp only [World.perform, hx, Option.elim_none]
    refine keeps_ask (.connGet _ _ _ _) _ fun y => ?_
    simp only [World.perform]
    cases hr : y.err.elim (w.read (w.server inst) key off size) Except.error with
    | error e =>
      cases e <;> exact ⟨rfl, h, fun _ hbad => by cases hbad⟩
    | ok d =>
      refine ⟨rfl, h.take (), ?_⟩
      intro a ha
      cases ha
      cases hy : y.err with
      | some e => rw [hy] at hr; cases hr
      | none => rwa [hy] at hr

/-- **`Get`**: data that it returns are the value of the route that the cache had. -/
theorem get_keeps (h : s.bufs.Accounts hand) :
    Keeps w.contract (fun r s' => w.Later s.cache s'.cache ∧ Held Prod.snd hand s' r ∧
      ∀ a, r = .ok a → w.value (peek s.cache key) key off size = .ok a.1) (get key off size) s := by
  refine lookup_keeps.bind fun r s₁ hl => ?_
  obtain ⟨hlater, hbufs, hroute⟩ := hl
  rw [← hbufs] at h
  cases r with
  | none => exact ⟨hlater, h, fun _ hbad => by cases hbad⟩
  | some inst =>
    refine (getFrom_keeps h).bind fun r s₂ hr => ?_
    obtain ⟨hcache, hheld, hread⟩ := hr
    rw [← hcache] at hlater
    cases r with
    | ok a =>
      refine ⟨hlater, hheld, ?_⟩
      intro a' ha
      cases ha
      rw [World.value, hroute inst rfl]
      exact World.valueAt_of_read (hread a rfl)
    | error e => cases e <;> exact ⟨hlater, hheld, fun _ hbad => by cases hbad⟩

/-! ## 8. Reading a group -/

theorem rpcGetEach_keeps (c : Name) (ks : List Key) {s : Session} {rels : Release}
    (h : s.bufs.Accounts (rels ++ hand)) :
    Keeps w.contract (fun r s' => s'.cache = s.cache ∧ Held Prod.snd hand s' r ∧
      ∀ a, r = .ok a → w.readEach c off size ks = .ok a.1) (rpcGetEach c off size ks rels) s := by
  induction ks generalizing s rels with
  | nil =>
    refine ⟨rfl, h, ?_⟩
    intro a ha
    cases ha
    rfl
  | cons k ks ih =>
    refine keeps_ask (.connGet c k off size) _ fun x => ?_
    simp only [World.perform]
    cases hr : x.err.elim (w.read c k off size) Except.error with
    | error e =>
      refine (callEach_keeps (s := s.tick) rels h).bind fun _ s' h' => ?_
      exact ⟨h'.1, h'.2, fun _ hbad => by cases hbad⟩
    | ok d =>
      have hread : w.read c k off size = .ok d := by
        cases hx : x.err with
        | some e => rw [hx] at hr; cases hr
        | none => rwa [hx] at hr
      have hrels : (s.bufs.take ()).Accounts (rels ++ [s.bufs.next ()] ++ hand) := by
        refine (h.take ()).perm ?_
        rw [List.append_assoc]
        exact List.perm_middle.symm
      refine (ih (s := { s.tick with bufs := s.bufs.take () }) hrels).bind fun r s' h' => ?_
      cases r with
      | error e => exact ⟨h'.1, h'.2.1, fun _ hbad => by cases hbad⟩
      | ok a =>
        refine ⟨h'.1, h'.2.1, ?_⟩
        intro a' ha
        cases ha
        rw [World.readEach, hread]
        simp [h'.2.2 a rfl, Except.map]

/-- **The batch of a connection**: the data of each key, in their order. -/
theorem rpcGetBatch_keeps (c : Name) (ks : List Key) (hsize : 0 < size) (h : s.bufs.Accounts hand) :
    Keeps w.contract (fun r s' => s'.cache = s.cache ∧ Held Prod.snd hand s' r ∧
      ∀ a, r = .ok a → w.readEach c off size ks = .ok a.1) (rpcGetBatch c ks off size) s := by
  refine keeps_ask (.pick c) _ fun x => ?_
  refine Keeps.ite (fun _ => ?_) (fun _ => ?_)
  · refine keeps_ask (.connGetBatch c ks off size) _ fun y => ?_
    simp only [World.perform]
    cases hr : y.err.elim (w.readBatch c ks off size) Except.error with
    | error e => exact ⟨rfl, h, fun _ hbad => by cases hbad⟩
    | ok out =>
      refine ⟨rfl, h.take (), ?_⟩
      intro a ha
      cases ha
      cases hy : y.err with
      | some e => rw [hy] at hr; cases hr
      | none =>
        rw [hy, Option.elim_none, World.readBatch] at hr
        split at hr
        · rename_i hks
          cases hr
          rcases hks with rfl | h0
          · rfl
          · omega
        · split at hr
          · cases hr
          · exact hr
  · exact rpcGetEach_keeps (s := s.tick) c ks h

end Keeps

/-! ## 9. Filling the batch -/

/-- The data at these places are good. -/
structure World.Filled (w : World) (c₀ c : RouteCache) (keys : List Key) (off size : Int)
    (done : Nat → Prop) (out : List Data) : Prop where
  length : out.length = keys.length
  good : ∀ i, done i → ∃ d, out[i]? = some d ∧ w.Good c₀ c (keys.getD i []) off size d

section Filled

variable {w : World} {c₀ c c' : RouteCache} {keys : List Key} {off size : Int}
  {done : Nat → Prop} {out : List Data} {d : Data} {i : Nat}

theorem World.Filled.later (hf : w.Filled c₀ c keys off size done out) (h : w.Later c c') :
    w.Filled c₀ c' keys off size done out := by
  refine ⟨hf.length, fun i hi => ?_⟩
  obtain ⟨d, hd, hg⟩ := hf.good i hi
  exact ⟨d, hd, hg.later h⟩

/-- Good data at one more place. -/
theorem World.Filled.set (hf : w.Filled c₀ c keys off size done out) (hi : i < keys.length)
    (hd : w.Good c₀ c (keys.getD i []) off size d) :
    w.Filled c₀ c keys off size (fun j => done j ∨ j = i) (out.set i d) := by
  refine ⟨by rw [List.length_set, hf.length], fun j hj => ?_⟩
  by_cases hij : i = j
  · subst hij
    refine ⟨d, ?_, hd⟩
    rw [List.getElem?_set_self]
    rw [hf.length]
    exact hi
  · rw [List.getElem?_set_ne hij]
    exact hf.good j (hj.resolve_right (Ne.symm hij))

theorem World.Filled.mono {done' : Nat → Prop} (hf : w.Filled c₀ c keys off size done out)
    (h : ∀ i, done' i → done i) : w.Filled c₀ c keys off size done' out :=
  ⟨hf.length, fun i hi => hf.good i (h i hi)⟩

/-- **The data of a group** belong to its keys, in their order. -/
theorem filled_scatter {inst : InstanceInfo} {name : Name} (hr : w.registry name = some inst)
    (idxs : List Nat) : ∀ {gout out : List Data} {done : Nat → Prop},
      (∀ i ∈ idxs, i < keys.length ∧ peek c₀ (keys.getD i []) = some name) →
      w.readEach (w.server inst) off size (idxs.map (fun i => keys.getD i [])) = .ok gout →
      w.Filled c₀ c keys off size done out →
      w.Filled c₀ c keys off size (fun j => done j ∨ j ∈ idxs) (scatter out idxs gout) := by
  induction idxs with
  | nil =>
    intro gout out done _ _ hf
    have hout : scatter out [] gout = out := by
      cases gout <;> rfl
    rw [hout]
    exact hf.mono fun i hi => hi.resolve_right (by simp)
  | cons i idxs ih =>
    intro gout out done hidxs hread hf
    rw [List.map_cons, World.readEach] at hread
    cases hd : w.read (w.server inst) (keys.getD i []) off size with
    | error e =>
      rw [hd] at hread
      cases hread
    | ok d =>
      rw [hd] at hread
      cases hrest : w.readEach (w.server inst) off size (idxs.map (fun i => keys.getD i [])) with
      | error e =>
        simp only [hrest] at hread
        cases hread
      | ok rest =>
        simp only [hrest] at hread
        cases hread
        obtain ⟨hi, hpeek⟩ := hidxs i List.mem_cons_self
        have hgood : w.Good c₀ c (keys.getD i []) off size d := by
          left
          rw [hpeek, World.value, World.route_of_registered hr]
          exact World.valueAt_of_read hd
        have hset := ih (fun j hj => hidxs j (List.mem_cons_of_mem i hj)) hrest (hf.set hi hgood)
        refine hset.mono fun j hj => ?_
        rcases hj with hj | hj
        · exact Or.inl (Or.inl hj)
        · rcases List.mem_cons.mp hj with rfl | hj
          · exact Or.inl (Or.inr rfl)
          · exact Or.inr hj

end Filled

/-! ## 10. Grouping -/

/-- The place has been put into a group or among the misses. -/
def Grouping.Covers (g : Grouping) (i : Nat) : Prop :=
  i ∈ g.miss ∨ ∃ name idxs, g.groups.find? name = some idxs ∧ i ∈ idxs

/-- The places are those of keys, and a group is made of the places whose keys have its name as
their route. -/
structure Grouping.Sound (c : RouteCache) (keys : List Key) (g : Grouping) : Prop where
  miss : ∀ i ∈ g.miss, i < keys.length
  groups : ∀ name idxs, g.groups.find? name = some idxs → ∀ i ∈ idxs,
    i < keys.length ∧ peek c (keys.getD i []) = some name

section Grouping

variable {w : World} {c₀ : RouteCache} {keys : List Key} {g : Grouping} {i j : Nat} {name : Name}

theorem sound_empty : Grouping.empty.Sound c₀ keys := by
  constructor
  · intro i hi
    cases hi
  · intro name idxs h
    cases h

theorem Grouping.Sound.addMiss (hg : g.Sound c₀ keys) (hi : i < keys.length) :
    (g.addMiss i).Sound c₀ keys := by
  refine ⟨fun j hj => ?_, hg.groups⟩
  rcases List.mem_append.mp hj with hj | hj
  · exact hg.miss j hj
  · rwa [List.mem_singleton.mp hj]

theorem covers_addMiss : (g.addMiss i).Covers j ↔ g.Covers j ∨ j = i := by
  simp only [Grouping.Covers, Grouping.addMiss, List.mem_append, List.mem_singleton]
  exact or_right_comm

theorem Grouping.Sound.add (hg : g.Sound c₀ keys) (hi : i < keys.length)
    (hp : peek c₀ (keys.getD i []) = some name) : (g.add name i).Sound c₀ keys := by
  refine ⟨hg.miss, fun name' idxs hf j hj => ?_⟩
  rw [Grouping.add, SortedMap.find?_insert] at hf
  split at hf
  · rename_i hname
    subst hname
    cases hf
    rcases List.mem_append.mp hj with hj | hj
    · cases hold : g.groups.find? name' with
      | none => simp [hold] at hj
      | some old => exact hg.groups name' old hold j (by simpa [hold] using hj)
    · rw [List.mem_singleton.mp hj]
      exact ⟨hi, hp⟩
  · exact hg.groups name' idxs hf j hj

/-- No place is forgotten. -/
theorem covers_add (h : g.Covers j ∨ j = i) : (g.add name i).Covers j := by
  rcases h with (hm | ⟨name', idxs, hf, hj⟩) | rfl
  · exact Or.inl hm
  · right
    by_cases hname : name' = name
    · subst hname
      refine ⟨name', _, SortedMap.find?_insert_self _ _ _, ?_⟩
      rw [hf]
      exact List.mem_append_left [i] hj
    · refine ⟨name', idxs, ?_, hj⟩
      rw [Grouping.add, SortedMap.find?_insert, if_neg hname]
      exact hf
  · right
    exact ⟨name, _, SortedMap.find?_insert_self _ _ _, List.mem_append_right _ List.mem_cons_self⟩

/-- **The grouping** covers all places, by the routes that the cache has at the start. -/
theorem group_keeps (rest : List (Key × Nat)) {s : Session} {g : Grouping}
    (hrest : ∀ e ∈ rest, e.2 < keys.length ∧ keys.getD e.2 [] = e.1)
    (hpeek : ∀ key, peek s.cache key = peek c₀ key) (hg : g.Sound c₀ keys) :
    Keeps w.contract (fun g' s' => (∀ key, peek s'.cache key = peek c₀ key) ∧ s'.bufs = s.bufs ∧
      g'.Sound c₀ keys ∧ ∀ j, (g.Covers j ∨ ∃ e ∈ rest, e.2 = j) → g'.Covers j) (group rest g) s := by
  induction rest generalizing s g with
  | nil =>
    refine ⟨hpeek, rfl, hg, fun j hj => ?_⟩
    exact hj.resolve_right (by simp)
  | cons e rest ih =>
    obtain ⟨key, i⟩ := e
    obtain ⟨hi, hkey⟩ := hrest (key, i) List.mem_cons_self
    have htail := fun e he => hrest e (List.mem_cons_of_mem (key, i) he)
    have hpeek' : ∀ k, peek (s.cache.get key).1 k = peek c₀ k := by
      intro k
      rw [peek_get, hpeek]
    have hsplit : ∀ j, (g.Covers j ∨ ∃ e ∈ (key, i) :: rest, e.2 = j) →
        (g.Covers j ∨ j = i) ∨ ∃ e ∈ rest, e.2 = j := by
      rintro j (hj | ⟨e, he, rfl⟩)
      · exact Or.inl (Or.inl hj)
      · rcases List.mem_cons.mp he with rfl | he
        · exact Or.inl (Or.inr rfl)
        · exact Or.inr ⟨e, he, rfl⟩
    have hmiss : ∀ s' : Session, s'.cache = (s.cache.get key).1 → s'.bufs = s.bufs →
        Keeps w.contract (fun g' s' => (∀ key, peek s'.cache key = peek c₀ key) ∧
          s'.bufs = s.bufs ∧ g'.Sound c₀ keys ∧
          ∀ j, (g.Covers j ∨ ∃ e ∈ (key, i) :: rest, e.2 = j) → g'.Covers j)
          (group rest (g.addMiss i)) s' := by
      intro s' hc hb
      have hp' : ∀ k, peek s'.cache k = peek c₀ k := by
        rw [hc]
        exact hpeek'
      refine (ih htail hp' (hg.addMiss hi)).mono fun g' s'' h => ?_
      refine ⟨h.1, h.2.1.trans hb, h.2.2.1, fun j hj => h.2.2.2 j ?_⟩
      rw [covers_addMiss]
      exact hsplit j hj
    refine keeps_ask (.cacheGet key) _ fun _ => ?_
    simp only [World.perform, get_snd, Session.tick]
    cases hp : peek s.cache key with
    | none => exact hmiss _ rfl rfl
    | some name =>
      refine keeps_ask (.registryLookup name) _ fun _ => ?_
      simp only [World.perform]
      cases w.registry name with
      | none => exact hmiss _ rfl rfl
      | some inst =>
        have hroute : peek c₀ (keys.getD i []) = some name := by
          rw [hkey, ← hpeek, hp]
        refine (ih htail hpeek' (hg.add hi hroute)).mono fun g' s' h => ?_
        refine ⟨h.1, h.2.1, h.2.2.1, fun j hj => h.2.2.2 j ?_⟩
        exact (hsplit j hj).imp_left covers_add

end Grouping

/-! ## 11. The loops -/

/-- What a part of the call leaves behind that fills some more places. -/
structure World.Fills (w : World) (c₀ : RouteCache) (keys : List Key) (off size : Int)
    (hand : Release) (done : Nat → Prop) (r : Except SdkErr Batch) (s : Session) : Prop where
  later : w.Later c₀ s.cache
  held : Held Batch.rels hand s r
  filled : ∀ b, r = .ok b → w.Filled c₀ s.cache keys off size done b.out

section Loops

variable {w : World} {c₀ : RouteCache} {keys : List Key} {off size : Int} {hand : Release}

theorem World.Fills.mono {done done' : Nat → Prop} {r : Except SdkErr Batch} {s : Session}
    (h : w.Fills c₀ keys off size hand done r s) (himp : ∀ i, done' i → done i) :
    w.Fills c₀ keys off size hand done' r s :=
  ⟨h.later, h.held, fun b hb => (h.filled b hb).mono himp⟩

/-- **The loop over `Get`.** -/
theorem fetchEach_keeps (idxs : List Nat) {s : Session} {b : Batch} {done : Nat → Prop}
    (hidxs : ∀ i ∈ idxs, i < keys.length) (h : w.Fills c₀ keys off size hand done (.ok b) s) :
    Keeps w.contract (w.Fills c₀ keys off size hand (fun j => done j ∨ j ∈ idxs))
      (fetchEach keys off size idxs b) s := by
  induction idxs generalizing s b done with
  | nil => exact h.mono fun j hj => hj.resolve_right (by simp)
  | cons i idxs ih =>
    refine (get_keeps h.held).bind fun r s' hget => ?_
    obtain ⟨hlater, hheld, hvalue⟩ := hget
    cases r with
    | error e =>
      refine (callEach_keeps b.rels hheld).bind fun _ s'' hc => ?_
      refine ⟨?_, hc.2, fun b' hb' => by cases hb'⟩
      rw [hc.1]
      exact h.later.trans hlater
    | ok a =>
      have hgood : w.Good c₀ s'.cache (keys.getD i []) off size a.1 :=
        (good_of_value h.later (hvalue a rfl)).later hlater
      have hput : w.Fills c₀ keys off size hand (fun j => done j ∨ j = i)
          (.ok (b.put i a.1 a.2)) s' := by
        refine ⟨h.later.trans hlater, ?_, ?_⟩
        · refine Ledger.Accounts.perm hheld ?_
          rw [← List.append_assoc]
          exact List.perm_append_comm.append_right hand
        · intro b' hb'
          cases hb'
          exact ((h.filled b rfl).later hlater).set (hidxs i List.mem_cons_self) hgood
      refine (ih (fun j hj => hidxs j (List.mem_cons_of_mem i hj)) hput).mono fun r s'' hr => ?_
      refine hr.mono fun j hj => ?_
      rcases hj with hj | hj
      · exact Or.inl (Or.inl hj)
      · rcases List.mem_cons.mp hj with rfl | hj
        · exact Or.inl (Or.inr rfl)
        · exact Or.inr hj

/-- **A group**, whichever way it is read. -/
theorem readGroup_keeps {name : Name} {idxs : List Nat} {s : Session} {b : Batch}
    {done : Nat → Prop} (hsize : 0 < size)
    (hidxs : ∀ i ∈ idxs, i < keys.length ∧ peek c₀ (keys.getD i []) = some name)
    (h : w.Fills c₀ keys off size hand done (.ok b) s) :
    Keeps w.contract (w.Fills c₀ keys off size hand (fun j => done j ∨ j ∈ idxs))
      (readGroup keys off size name idxs b) s := by
  have heach : ∀ s' : Session, s'.cache = s.cache → s'.bufs.Accounts (b.rels ++ hand) →
      Keeps w.contract (w.Fills c₀ keys off size hand (fun j => done j ∨ j ∈ idxs))
        (fetchEach keys off size idxs b) s' := by
    intro s' hc hb
    refine fetchEach_keeps idxs (fun i hi => (hidxs i hi).1) ⟨?_, hb, ?_⟩
    · rw [hc]
      exact h.later
    · rw [hc]
      exact h.filled
  refine keeps_ask (.registryLookup name) _ fun _ => ?_
  simp only [World.perform]
  cases hr : w.registry name with
  | none => exact heach _ rfl h.held
  | some inst =>
    refine keeps_ask (.clientFor inst) _ fun x => ?_
    cases hx : x.err with
    | some e =>
      simp only [World.perform, hx, Option.elim_some]
      exact heach _ rfl h.held
    | none =>
      simp only [World.perform, hx, Option.elim_none]
      refine (rpcGetBatch_keeps (s := s.tick.tick) (w.server inst) _ hsize h.held).bind
        fun r s' hbatch => ?_
      obtain ⟨hc, hheld, hread⟩ := hbatch
      cases r with
      | error e => exact heach s' hc hheld
      | ok a =>
        refine ⟨?_, ?_, ?_⟩
        · rw [hc]
          exact h.later
        · refine Ledger.Accounts.perm hheld ?_
          rw [← List.append_assoc]
          exact List.perm_append_comm.append_right hand
        · intro b' hb'
          cases hb'
          rw [hc]
          exact filled_scatter hr idxs hidxs (hread a rfl) (h.filled b rfl)

/-- The loop over the groups. -/
theorem readGroups_keeps (hsize : 0 < size) (groups : List (Name × List Nat)) {s : Session}
    {b : Batch} {done : Nat → Prop}
    (hgroups : ∀ e ∈ groups, ∀ i ∈ e.2, i < keys.length ∧ peek c₀ (keys.getD i []) = some e.1)
    (h : w.Fills c₀ keys off size hand done (.ok b) s) :
    Keeps w.contract (w.Fills c₀ keys off size hand (fun j => done j ∨ ∃ e ∈ groups, j ∈ e.2))
      (readGroups keys off size groups b) s := by
  induction groups generalizing s b done with
  | nil => exact h.mono fun j hj => hj.resolve_right (by simp)
  | cons e groups ih =>
    obtain ⟨name, idxs⟩ := e
    refine (readGroup_keeps hsize (hgroups (name, idxs) List.mem_cons_self) h).bind
      fun r s' hr => ?_
    cases r with
    | error e => exact ⟨hr.later, hr.held, fun b' hb' => by cases hb'⟩
    | ok b' =>
      have htail := fun e he => hgroups e (List.mem_cons_of_mem (name, idxs) he)
      refine (ih htail hr).mono fun r s'' h' => h'.mono fun j hj => ?_
      rcases hj with hj | ⟨e, he, hj⟩
      · exact Or.inl (Or.inl hj)
      · rcases List.mem_cons.mp he with rfl | he
        · exact Or.inl (Or.inr hj)
        · exact Or.inr ⟨e, he, hj⟩

end Loops

/-! ## 12. The batch -/

/-- Every place has the data that `Get` returns for its key: at the start of the call, or without a
route to the key, and then the key does not have the route of the start any more. -/
structure World.Reads (w : World) (cache after : RouteCache) (keys : List Key) (off size : Int)
    (out : List Data) : Prop where
  length : out.length = keys.length
  data : ∀ (i : Nat) (key : Key), keys[i]? = some key → ∃ d, out[i]? = some d ∧
    (w.Returns cache key off size d ∨
      w.Returns (cache.delete key) key off size d ∧ peek after key ≠ peek cache key)

theorem peek_delete (rc : RouteCache) (key : Key) : peek (rc.delete key) key = none := by
  unfold RouteCache.delete
  rw [peek_setShard_self, List.lookup_eq_none_iff]
  intro e he
  have hne : e.1 ≠ key := of_decide_eq_true (List.mem_filter.mp he).2
  rw [bne_iff_ne]
  exact hne.symm

section Batch

variable {w : World} {keys : List Key} {off size : Int} {hand : Release}

theorem World.Filled.reads {cache after : RouteCache} {done : Nat → Prop} {out : List Data}
    (h : w.Filled cache after keys off size done out) (hdone : ∀ i, i < keys.length → done i) :
    w.Reads cache after keys off size out := by
  refine ⟨h.length, fun i key hi => ?_⟩
  obtain ⟨hlt, hkey⟩ := List.getElem?_eq_some_iff.mp hi
  obtain ⟨d, hd, hgood⟩ := h.good i (hdone i hlt)
  rw [List.getD_eq_getElem _ _ hlt, hkey] at hgood
  refine ⟨d, hd, ?_⟩
  rw [World.returns_iff, World.returns_iff, peek_delete]
  exact hgood

/-- What a batch read leaves behind. -/
def World.Answered (w : World) (cache : RouteCache) (keys : List Key) (off size : Int)
    (hand : Release) (r : Except SdkErr (List Data × ReleaseAll)) (s : Session) : Prop :=
  Held (fun a => a.2.rels) hand s r ∧ ∀ a, r = .ok a →
    a.2.done = false ∧ w.Reads cache s.cache keys off size a.1

theorem getBatch_keeps (order : List Name) {s : Session} (hsize : 0 < size)
    (h : s.bufs.Accounts hand) :
    Keeps w.contract (w.Answered s.cache keys off size hand) (getBatch keys off size order) s := by
  unfold getBatch
  refine Keeps.ite (fun hempty => ?_) (fun _ => Keeps.ite (fun _ => ?_) (fun _ => ?_))
  · refine ⟨h, ?_⟩
    intro a ha
    cases ha
    obtain rfl : keys = [] := hempty.resolve_right (by omega)
    exact ⟨rfl, rfl, fun i key hi => by cases hi⟩
  · exact ⟨h, fun a ha => by cases ha⟩
  · refine keeps_ask .ctxErr _ fun x => ?_
    simp only [World.perform]
    cases x.err with
    | some e => exact ⟨h, fun a ha => by cases ha⟩
    | none =>
      have hplaces : ∀ e ∈ keys.zipIdx, e.2 < keys.length ∧ keys.getD e.2 [] = e.1 := by
        intro e he
        obtain ⟨hlt, hkey⟩ := List.getElem?_eq_some_iff.mp (List.mem_zipIdx_iff_getElem?.mp he)
        rw [List.getD_eq_getElem _ _ hlt, hkey]
        exact ⟨hlt, rfl⟩
      refine (group_keeps (s := s.tick) keys.zipIdx hplaces (fun _ => rfl) sound_empty).bind
        fun g s₁ hg => ?_
      obtain ⟨hpeek, hbufs, hsound, hcovers⟩ := hg
      have hstart : w.Fills s.cache keys off size hand (fun _ => False)
          (.ok ⟨List.replicate keys.length [], []⟩) s₁ := by
        refine ⟨fun key => Or.inl (hpeek key), ?_, ?_⟩
        · show s₁.bufs.Accounts hand
          rw [hbufs]
          exact h
        · intro b hb
          cases hb
          exact ⟨List.length_replicate, fun i hi => hi.elim⟩
      refine (fetchEach_keeps g.miss hsound.miss hstart).bind fun r s₂ hmiss => ?_
      cases r with
      | error e => exact ⟨hmiss.held, fun a ha => by cases ha⟩
      | ok b =>
        have hgroups : ∀ e ∈ rangeOrder Prod.fst order g.groups.entries, ∀ i ∈ e.2,
            i < keys.length ∧ peek s.cache (keys.getD i []) = some e.1 := by
          intro e he
          exact hsound.groups e.1 e.2 (SortedMap.mem_entries.mp (mem_rangeOrder_iff.mp he))
        refine (readGroups_keeps hsize _ hgroups hmiss).bind fun r s₃ hr => ?_
        cases r with
        | error e => exact ⟨hr.held, fun a ha => by cases ha⟩
        | ok b' =>
          refine ⟨hr.held, ?_⟩
          intro a ha
          cases ha
          refine ⟨rfl, (hr.filled b' rfl).reads fun i hi => ?_⟩
          have hmem : (keys[i], i) ∈ keys.zipIdx :=
            List.mem_zipIdx_iff_getElem?.mpr (List.getElem?_eq_getElem hi)
          rcases hcovers i (Or.inr ⟨_, hmem, rfl⟩) with hm | ⟨name, idxs, hf, hi⟩
          · exact Or.inl (Or.inr hm)
          · exact Or.inr ⟨(name, idxs), mem_rangeOrder_iff.mpr (SortedMap.mem_entries.mpr hf), hi⟩

/-- A release that has been called does nothing more. -/
theorem calls_keeps_of_done {r : ReleaseAll} (hr : r.done = true) (n : Nat) {s : Session}
    (h : s.bufs.Accounts hand) :
    Keeps w.contract (fun _ s' => s'.bufs.Accounts hand) (r.calls n) s := by
  induction n with
  | zero => exact h
  | succ n ih =>
    unfold ReleaseAll.calls ReleaseAll.call
    rw [if_pos hr]
    exact ih

/-- **The release gives everything back**, however often it is called. -/
theorem calls_keeps {r : ReleaseAll} (hr : r.done = false) (n : Nat) {s : Session}
    (h : s.bufs.Accounts (r.rels ++ hand)) :
    Keeps w.contract (fun _ s' => s'.bufs.Accounts hand) (r.calls (n + 1)) s := by
  unfold ReleaseAll.calls ReleaseAll.call
  rw [hr, if_neg (by simp), bind_assoc]
  refine (callEach_keeps r.rels h).bind fun _ s' hs => ?_
  exact calls_keeps_of_done (r := { r with done := true }) rfl n hs.2

end Batch

/-- **A batch read gives what `Get` gives.**  Whatever fails, when `GetBatch` returns no error the
data in each place are what `Get` returns for its key: at the start of the call, or, when the key
has lost its route since then, without a route.  All buffers are given back, once, when the
returned release has been called, or when the call has failed. -/
theorem get_batch_reads (w : World) (x : World.Faults) (order : List Name) (cache : RouteCache)
    (keys : List Key) (off size : Int) (hsize : 0 < size) :
    (∀ out rel, (w.call x order cache keys off size).2 = .ok (out, rel) →
      w.Reads cache (w.call x order cache keys off size).1.cache keys off size out ∧
      ∀ n, ((rel.calls (n + 1)).alone (w.answers x)
        (w.call x order cache keys off size).1).1.bufs.Settled) ∧
    ∀ e, (w.call x order cache keys off size).2 = .error e →
      (w.call x order cache keys off size).1.bufs.Settled := by
  have hstart : (Session.start cache).bufs.Accounts [] := Ledger.accounts_empty
  have hkeeps : Keeps w.contract (w.Answered cache keys off size [])
      (getBatch keys off size order) (Session.start cache) := getBatch_keeps order hsize hstart
  obtain ⟨hheld, hdata⟩ := hkeeps.alone x
  constructor
  · intro out rel hr
    obtain ⟨hdone, hreads⟩ := hdata (out, rel) hr
    refine ⟨hreads, fun n => ?_⟩
    rw [show ((getBatch keys off size order).alone (w.answers x) (Session.start cache)).2 = _
      from hr] at hheld
    have hback := (calls_keeps (w := w) hdone n hheld).alone x
    exact hback.settled_iff.mpr rfl
  · intro e hr
    rw [show ((getBatch keys off size order).alone (w.answers x) (Session.start cache)).2 = _
      from hr] at hheld
    exact Ledger.Accounts.settled_iff hheld |>.mpr rfl

/-- An instance at the address that is its name. -/
def instanceAt (name : Name) : InstanceInfo := ⟨name, [], name, 0, 0, 0⟩

/-- Two instances; the index has all keys at the second, and the objects on the two differ. -/
def twoPlaces : World where
  registry := fun name => if name = [1] ∨ name = [2] then some (instanceAt name) else none
  index := fun _ => [2]
  server := InstanceInfo.addr
  stores := fun c _ => some (if c = [1] then [10] else [20])

/-- The route cache of a client that has put the key `[8]` on the first instance. -/
def routed : RouteCache := (newRouteCache 4096).put [8] [1]

/-- A batch of three keys, two of them the same. -/
theorem get_batch_reads_duplicates : ∃ out rel,
    (twoPlaces.call World.faultless [] routed [[8], [5], [8]] 0 1).2 = .ok (out, rel) ∧
      out = [[10], [20], [10]] ∧
      twoPlaces.Reads routed (twoPlaces.call World.faultless [] routed [[8], [5], [8]] 0 1).1.cache
        [[8], [5], [8]] 0 1 out ∧
      ((rel.calls 2).alone (twoPlaces.answers World.faultless)
        (twoPlaces.call World.faultless [] routed [[8], [5], [8]] 0 1).1).1.bufs.Settled := by
  have hrun : ((twoPlaces.call World.faultless [] routed [[8], [5], [8]] 0 1).2.toOption.map
      Prod.fst) = some [[10], [20], [10]] := by decide +kernel
  obtain ⟨hok, -⟩ := get_batch_reads twoPlaces World.faultless [] routed [[8], [5], [8]] 0 1
    (by decide)
  cases hr : (twoPlaces.call World.faultless [] routed [[8], [5], [8]] 0 1).2 with
  | error e =>
    rw [hr] at hrun
    cases hrun
  | ok a =>
    rw [hr] at hrun
    obtain ⟨hreads, hback⟩ := hok a.1 a.2 hr
    exact ⟨a.1, a.2, rfl, Option.some.inj hrun, hreads, hback 1⟩

/-! ## 13. A route that is pushed out -/

/-- The shard of a key. -/
def shardOf (key : Key) : UInt32 := ClusterClient.fnv32 key % ClusterClient.routeShards

/-- A key that is new to its shard pushes out the last one, if the shard is full. -/
theorem shard_put_new {rc : RouteCache} {key : Key} (name : Name) (h : peek rc key = none)
    (hlen : (rc.shard key).length ≤ rc.cap) :
    (rc.put key name).shard key = ((key, name) :: rc.shard key).take rc.cap ∧
      (rc.put key name).cap = rc.cap := by
  unfold RouteCache.put
  rw [show (rc.shard key).lookup key = none from h]
  refine ⟨?_, rfl⟩
  simp only [shard_setShard]
  split
  · rename_i hlong
    rw [List.length_cons] at hlong
    rw [List.dropLast_eq_take, List.length_cons, Nat.add_sub_cancel]
    rw [show (rc.shard key).length = rc.cap by omega]
  · rename_i hshort
    rw [List.take_of_length_le (by omega)]

/-- One instance is not reached, and nothing else fails. -/
def unreached (inst : InstanceInfo) : World.Faults := fun _ o =>
  if o = .clientFor inst then { err := some .conn } else {}

section PushedOut

variable {w : World} {lost found : InstanceInfo} {name : Name} {keys : List Key} {off size : Int}
  {d : Data}

/-- Looking for a key without a route changes nothing. -/
theorem get_fst_of_none {rc : RouteCache} {key : Key} (h : peek rc key = none) :
    (rc.get key).1 = rc := by
  unfold RouteCache.get
  rw [show (rc.shard key).lookup key = none from h]

variable (lost) in
theorem alone_lookup_miss {key : Key} {s : Session} (hp : peek s.cache key = none)
    (hname : w.index key ≠ []) (hr : w.registry (w.index key) = some found) :
    ∃ s', (lookup key).alone (w.answers (unreached lost)) s = (s', some found) ∧
      s'.cache = s.cache.put key (w.index key) := by
  refine ⟨⟨s.cache.put key (w.index key), s.bufs, s.clock + 4⟩, ?_, rfl⟩
  simp [lookup, lookupIndex, Bind.bind, Program.bind, Program.perform, alone, World.answers,
    World.perform, Session.tick, get_snd, hp, unreached, hname, hr, get_fst_of_none hp, Pure.pure]

variable (lost) in
/-- Without a route `Get` asks the index, and the route is put. -/
theorem alone_get_miss {key : Key} {s : Session} (hp : peek s.cache key = none)
    (hne : found ≠ lost) (hname : name ≠ []) (hindex : w.index key = name)
    (hr : w.registry name = some found) (hd : w.read (w.server found) key off size = .ok d) :
    ∃ s' rel, (get key off size).alone (w.answers (unreached lost)) s = (s', .ok (d, rel)) ∧
      s'.cache = s.cache.put key name := by
  subst hindex
  obtain ⟨s', hl, hc⟩ := alone_lookup_miss lost hp hname hr
  refine ⟨⟨s'.cache, s'.bufs.take (), s'.clock + 2⟩, [s'.bufs.next ()], ?_, hc⟩
  unfold get
  rw [alone_bind_of hl]
  simp [getFrom, Bind.bind, Program.bind, Program.perform, alone, World.answers, World.perform,
    Session.tick, unreached, hne, hd, Session.handOut, Pure.pure]

variable (lost) in
/-- Keys without a route are all misses. -/
theorem alone_group_misses (rest : List (Key × Nat)) {s : Session} {g : Grouping}
    (hrest : ∀ e ∈ rest, peek s.cache e.1 = none) :
    ∃ s', (group rest g).alone (w.answers (unreached lost)) s =
      (s', { g with miss := g.miss ++ rest.map Prod.snd }) ∧ s'.cache = s.cache := by
  induction rest generalizing s g with
  | nil => exact ⟨s, by simp [group, Pure.pure, alone], rfl⟩
  | cons e rest ih =>
    obtain ⟨key, i⟩ := e
    have hp : peek s.cache key = none := hrest (key, i) List.mem_cons_self
    obtain ⟨s', hrun, hc⟩ := ih (s := s.tick) (g := g.addMiss i)
      (fun e he => hrest e (List.mem_cons_of_mem (key, i) he))
    refine ⟨s', ?_, hc⟩
    have hstep : (group ((key, i) :: rest) g).alone (w.answers (unreached lost)) s =
        (group rest (g.addMiss i)).alone (w.answers (unreached lost)) s.tick := by
      simp [group, Bind.bind, Program.bind, Program.perform, World.answers, World.perform,
        Session.tick, get_snd, hp, get_fst_of_none hp]
    rw [hstep, hrun]
    simp [Grouping.addMiss]

theorem lookup_take_none {key key' : Key} {l : List (Key × Name)} (h : l.lookup key = none)
    (hne : key ≠ key') (n : Nat) : (((key', name) :: l).take n).lookup key = none := by
  rw [List.lookup_eq_none_iff] at h ⊢
  intro e he
  rcases List.mem_cons.mp (List.mem_of_mem_take he) with rfl | he
  · rw [bne_iff_ne]
    exact hne
  · exact h e he

variable (keys) in
/-- **New keys fill their shard**, and push out what was there. -/
theorem alone_fetchEach_misses (sh : UInt32) (hne : found ≠ lost) (hname : name ≠ [])
    (hindex : ∀ key, w.index key = name) (hr : w.registry name = some found)
    (hd : ∀ key, w.read (w.server found) key off size = .ok d) (idxs : List Nat) {s : Session}
    {b : Batch} (hshard : ∀ i ∈ idxs, shardOf (keys.getD i []) = sh)
    (hnew : ∀ i ∈ idxs, (s.cache.shards sh).lookup (keys.getD i []) = none)
    (hnodup : (idxs.map (fun i => keys.getD i [])).Nodup)
    (hlen : (s.cache.shards sh).length ≤ s.cache.cap) :
    ∃ s' b', (fetchEach keys off size idxs b).alone (w.answers (unreached lost)) s = (s', .ok b') ∧
      b'.out.length = b.out.length ∧
      s'.cache.shards sh =
        ((idxs.map (fun i => (keys.getD i [], name))).reverse ++ s.cache.shards sh).take
          s.cache.cap := by
  induction idxs generalizing s b with
  | nil =>
    refine ⟨s, b, rfl, rfl, ?_⟩
    simp [List.take_of_length_le hlen]
  | cons i idxs ih =>
    obtain hsh : shardOf (keys.getD i []) = sh := hshard i List.mem_cons_self
    have hp : peek s.cache (keys.getD i []) = none := by
      have hi := hnew i List.mem_cons_self
      rw [← hsh] at hi
      exact hi
    have hput := shard_put_new name hp (by
      rw [← hsh] at hlen
      exact hlen)
    obtain ⟨s₁, rel, hrun, hc⟩ :=
      alone_get_miss lost hp hne hname (hindex (keys.getD i [])) hr (hd (keys.getD i []))
    have hshards : s₁.cache.shards sh =
        ((keys.getD i [], name) :: s.cache.shards sh).take s.cache.cap := by
      rw [hc, ← hsh]
      exact hput.1
    have hcap : s₁.cache.cap = s.cache.cap := by
      rw [hc]
      exact hput.2
    rw [List.map_cons, List.nodup_cons] at hnodup
    have hnew₁ : ∀ j ∈ idxs, (s₁.cache.shards sh).lookup (keys.getD j []) = none := by
      intro j hj
      rw [hshards]
      refine lookup_take_none (hnew j (List.mem_cons_of_mem i hj)) ?_ _
      intro heq
      exact hnodup.1 (List.mem_map.mpr ⟨j, hj, heq⟩)
    have hlen₁ : (s₁.cache.shards sh).length ≤ s₁.cache.cap := by
      rw [hshards, hcap]
      exact List.length_take_le _ _
    obtain ⟨s', b', hrest, hout, hs'⟩ := ih (s := s₁) (b := b.put i d rel)
      (fun j hj => hshard j (List.mem_cons_of_mem i hj)) hnew₁ hnodup.2 hlen₁
    refine ⟨s', b', ?_, ?_, ?_⟩
    · unfold fetchEach
      rw [alone_bind_of hrun]
      exact hrest
    · rw [hout, Batch.put, List.length_set]
    · rw [hs', hshards, hcap, List.map_cons, List.reverse_cons, List.append_assoc,
        List.singleton_append, List.take_append, List.take_append, List.take_take,
        Nat.min_eq_left (Nat.sub_le _ _)]

variable (lost) in
/-- The key with a route makes a group, the others are misses. -/
theorem alone_group_hit {key : Key} {i : Nat} {rest : List (Key × Nat)} {s : Session}
    {inst : InstanceInfo} {g : Grouping} (hp : peek s.cache key = some name)
    (hr : w.registry name = some inst) (hrest : ∀ e ∈ rest, peek s.cache e.1 = none) :
    ∃ s', (group ((key, i) :: rest) g).alone (w.answers (unreached lost)) s =
      (s', ⟨(g.add name i).groups, g.miss ++ rest.map Prod.snd⟩) ∧
      s'.cache = (s.cache.get key).1 := by
  have hstep : (group ((key, i) :: rest) g).alone (w.answers (unreached lost)) s =
      (group rest (g.add name i)).alone (w.answers (unreached lost))
        ⟨(s.cache.get key).1, s.bufs, s.clock + 2⟩ := by
    simp [group, Bind.bind, Program.bind, Program.perform, World.answers, World.perform,
      Session.tick, get_snd, hp, hr]
  obtain ⟨s', hrun, hc⟩ := alone_group_misses lost (w := w) rest
    (s := ⟨(s.cache.get key).1, s.bufs, s.clock + 2⟩) (g := g.add name i) (fun e he => by
      rw [peek_get]
      exact hrest e he)
  rw [hstep, hrun]
  exact ⟨s', rfl, hc⟩

variable (keys) in
/-- The group of the instance that is not reached is read by `Get`. -/
theorem alone_readGroups_unreached {i : Nat} {s : Session} {b : Batch} {lostName : Name}
    (hp : peek s.cache (keys.getD i []) = none)
    (hne : found ≠ lost) (hname : name ≠ []) (hindex : ∀ key, w.index key = name)
    (hr : w.registry name = some found) (hlost : w.registry lostName = some lost)
    (hd : w.read (w.server found) (keys.getD i []) off size = .ok d) :
    ∃ s' rel, (readGroups keys off size [(lostName, [i])] b).alone (w.answers (unreached lost)) s =
      (s', .ok (b.put i d rel)) := by
  obtain ⟨s', rel, hget, -⟩ :=
    alone_get_miss lost (s := s.tick.tick) hp hne hname (hindex (keys.getD i [])) hr hd
  have hfetch : (fetchEach keys off size [i] b).alone (w.answers (unreached lost)) s.tick.tick =
      (s', .ok (b.put i d rel)) := by
    unfold fetchEach
    rw [alone_bind_of hget]
    rfl
  have hgroup : (readGroup keys off size lostName [i] b).alone (w.answers (unreached lost)) s =
      (s', .ok (b.put i d rel)) := by
    rw [← hfetch]
    simp [readGroup, Bind.bind, Program.bind, Program.perform, World.answers, World.perform,
      Session.tick, unreached, hlost]
  refine ⟨s', rel, ?_⟩
  unfold readGroups
  rw [alone_bind_of hgroup]
  rfl

end PushedOut

/-- A byte whose low half is zero. -/
def highHalf (n : Nat) : Byte := Fin.ofNat 256 (16 * (n % 16))

/-- The `n`-th of 4096 keys in one shard: the shard depends on the low halves of the bytes. -/
def newKey (n : Nat) : Key := [highHalf (n / 256), highHalf (n / 16), highHalf n]

theorem shardOf_highHalves : ∀ a b c : Fin 16,
    shardOf [highHalf a, highHalf b, highHalf c] = 7 := by decide +kernel

theorem shardOf_newKey (n : Nat) : shardOf (newKey n) = 7 := by
  have h := shardOf_highHalves (Fin.ofNat 16 (n / 256)) (Fin.ofNat 16 (n / 16)) (Fin.ofNat 16 n)
  simpa [highHalf, newKey] using h

theorem newKey_injOn {m n : Nat} (hm : m < 4096) (hn : n < 4096) (h : newKey m = newKey n) :
    m = n := by
  simp only [newKey, highHalf, List.cons.injEq, Fin.ext_iff, Fin.val_ofNat] at h
  omega

/-- The key that has a route, and 4096 that have none. -/
def manyKeys : List Key := [8] :: (List.range 4096).map newKey

theorem manyKeys_getD {i : Nat} (hi : i ∈ List.range' 1 4096) :
    manyKeys.getD i [] = newKey (i - 1) := by
  rw [List.mem_range'_1] at hi
  obtain ⟨j, rfl⟩ : ∃ j, i = j + 1 := ⟨i - 1, by omega⟩
  rw [manyKeys, List.getD_cons_succ, Nat.add_sub_cancel, List.getD_eq_getElem _ _ (by simp; omega)]
  simp

/-- The misses are different keys. -/
theorem nodup_misses : ((List.range' 1 4096).map (fun i => manyKeys.getD i [])).Nodup := by
  rw [List.map_congr_left (fun i hi => manyKeys_getD hi)]
  refine List.Nodup.map_on ?_ List.nodup_range'
  intro i hi j hj h
  rw [List.mem_range'_1] at hi hj
  have := newKey_injOn (by omega) (by omega) h
  omega

theorem shards_routed : routed.shards 7 = [([8], [1])] := by decide +kernel

theorem newKey_ne (n : Nat) : newKey n ≠ [8] := by
  intro h
  simp [newKey] at h

theorem peek_newKey {rc : RouteCache} (h : rc.shards 7 = [([8], [1])]) (n : Nat) :
    peek rc (newKey n) = none := by
  have hs : rc.shard (newKey n) = [([8], [1])] := by
    rw [← h, ← shardOf_newKey n]
    rfl
  rw [peek, hs, List.lookup_cons, beq_false_of_ne (newKey_ne n)]
  rfl

theorem shards_routed_get : (routed.get [8]).1.shards 7 = [([8], [1])] := by decide +kernel

theorem newKey_of_mem {e : Key × Nat} (h : e ∈ ((List.range 4096).map newKey).zipIdx 1) :
    ∃ n, e.1 = newKey n := by
  have hmem := List.mem_map_of_mem (f := Prod.fst) h
  rw [List.zipIdx_map_fst] at hmem
  obtain ⟨n, -, hn⟩ := List.mem_map.mp hmem
  exact ⟨n, hn.symm⟩

/-- When the misses have been read the first key has no route. -/
theorem peek_of_full {rc : RouteCache} {l : List (Key × Name)}
    (h : rc.shards 7 = (((List.range' 1 4096).map (fun i => (manyKeys.getD i [], [2]))).reverse ++
      l).take 4096) : peek rc [8] = none := by
  have hs : rc.shard [8] = rc.shards 7 := by
    rw [RouteCache.shard, show ClusterClient.fnv32 [8] % ClusterClient.routeShards = 7 by decide +kernel]
  rw [peek, hs, h, List.take_left' (by simp), List.lookup_eq_none_iff]
  intro e he
  obtain ⟨i, hi, rfl⟩ := List.mem_map.mp (List.mem_reverse.mp he)
  rw [bne_iff_ne, manyKeys_getD hi]
  exact (newKey_ne (i - 1)).symm

theorem call_manyKeys : ∃ s out rel,
    twoPlaces.call (unreached (instanceAt [1])) [] routed manyKeys 0 1 = (s, .ok (out, rel)) ∧
      out[0]? = some [20] := by
  have hpeek : peek routed [8] = some [1] := by decide +kernel
  have hlost : twoPlaces.registry [1] = some (instanceAt [1]) := by decide
  have hfound : twoPlaces.registry [2] = some (instanceAt [2]) := by decide
  have hne : instanceAt [2] ≠ instanceAt [1] := by decide
  have hread : ∀ key, twoPlaces.read (twoPlaces.server (instanceAt [2])) key 0 1 = .ok [20] :=
    fun _ => rfl
  have hmisses : (((List.range 4096).map newKey).zipIdx 1).map Prod.snd = List.range' 1 4096 := by
    rw [List.zipIdx_map_snd, List.length_map, List.length_range]
  -- the key with the route makes a group
  obtain ⟨s₁, hgroup, hc₁⟩ := alone_group_hit (w := twoPlaces) (instanceAt [1])
    (s := (Session.start routed).tick) (i := 0) (g := Grouping.empty) hpeek hlost
    (fun e (he : e ∈ ((List.range 4096).map newKey).zipIdx 1) => by
      obtain ⟨n, hn⟩ := newKey_of_mem he
      rw [hn]
      exact peek_newKey shards_routed n)
  rw [hmisses, show Grouping.empty.miss ++ List.range' 1 4096 = _ from List.nil_append _] at hgroup
  have h7 : s₁.cache.shards 7 = [([8], [1])] := by
    rw [hc₁]
    exact shards_routed_get
  have hcap : s₁.cache.cap = 4096 := by
    rw [hc₁]
    decide +kernel
  -- the 4096 others push its route out
  obtain ⟨s₂, b, hfetch, hout, h7'⟩ := alone_fetchEach_misses manyKeys 7
    (s := s₁) (b := ⟨List.replicate manyKeys.length [], []⟩) hne (List.cons_ne_nil 2 [])
    (fun _ => rfl) hfound hread (List.range' 1 4096)
    (fun i hi => by
      rw [manyKeys_getD hi]
      exact shardOf_newKey (i - 1))
    (fun i hi => by
      rw [h7, manyKeys_getD hi, List.lookup_cons, beq_false_of_ne (newKey_ne (i - 1))]
      rfl)
    nodup_misses (by
      rw [h7, hcap]
      simp)
  rw [hcap] at h7'
  -- its group is read where the index leads
  obtain ⟨s₃, rel, hgroups⟩ := alone_readGroups_unreached manyKeys (i := 0) (b := b)
    (peek_of_full h7') hne (List.cons_ne_nil 2 []) (fun _ => rfl) hfound hlost (hread _)
  refine ⟨s₃, b.out.set 0 [20], ⟨false, b.rels ++ rel⟩, ?_, ?_⟩
  · have hentries : rangeOrder Prod.fst [] (Grouping.empty.add [1] 0).groups.entries =
        [([1], [0])] := by decide +kernel
    have hctx : (ask .ctxErr).alone (twoPlaces.answers (unreached (instanceAt [1])))
        (Session.start routed) = ((Session.start routed).tick, none) := rfl
    unfold World.call getBatch
    rw [if_neg (by simp [manyKeys]), if_neg (by decide), alone_bind_of hctx]
    rw [show manyKeys.zipIdx = ([8], 0) :: ((List.range 4096).map newKey).zipIdx 1 from rfl]
    rw [alone_bind_of hgroup]
    simp only [hentries]
    rw [alone_bind_of hfetch]
    simp only
    rw [alone_bind_of hgroups]
    rfl
  · rw [List.getElem?_set_self]
    rw [hout, List.length_replicate]
    exact List.length_pos_of_ne_nil (List.cons_ne_nil _ _)

/-- **A route that is pushed out is read elsewhere.**  The key `[8]` has its route to the first
instance, and the index has all keys at the second, which has other data.  The 4096 other keys of
the batch push the route out, the first instance is not reached, and the batch has the data of the
second for a key that `Get` reads on the first. -/
theorem pushed_out_route : ¬ ∀ (w : World) (x : World.Faults) (order : List Name)
    (cache : RouteCache) (keys : List Key) (off size : Int), 0 ≤ off → 0 < size →
    ∀ out rel, (w.call x order cache keys off size).2 = .ok (out, rel) →
      ∀ (i : Nat) (key : Key), keys[i]? = some key →
        ∃ d, out[i]? = some d ∧ w.Returns cache key off size d := by
  intro hall
  obtain ⟨s, out, rel, hcall, hout⟩ := call_manyKeys
  obtain ⟨d, hd, hreturns⟩ := hall twoPlaces (unreached (instanceAt [1])) [] routed manyKeys 0 1
    (by decide) (by decide) out rel (by rw [hcall]) 0 [8] rfl
  have hten : (twoPlaces.value (peek routed [8]) [8] 0 1).toOption = some [10] := by decide +kernel
  rw [World.returns_iff] at hreturns
  rw [hreturns] at hten
  rw [hout] at hd
  cases hd
  cases hten

end Taihu.ClusterBatch
