/-
# The cluster client

`pkg/taihu-client`: `storage.go` (`Put`, `Get`, `Delete`, `Stat`, `lookup`, `getFrom`), `index.go`,
`route_cache.go`, `registry.go` and `picker.go`.

Where an object is, is known in four places: to the instance that stores it; to the route caches
of clients; to the queue and the batch of the index manager of the client that has put it; and to
the index in the KV.  A call is a program over the accesses to these places, and between two
accesses anything else may happen: a step of another call, a step of an index manager, a refresh
of a registry, a change of the registered instances.

A remote request is performed at one moment between its call and its return.  One that fails for
its caller may still be on its way: it stays in `inflight` and is performed later, or never.  Which
server the connection of `clientFor` leads to is an outcome here; `ClusterConns` is about it.
The index and the instances are two prefixes of one KV, and separate maps in the model.  No
`Source` is configured.
-/
import Taihu.Records
import Taihu.Lib.Program
import Taihu.Lib.Transition
import Mathlib

namespace Taihu.ClusterClient

open Concur

/-- A name, a host name or an address: a Go string. -/
abbrev Name := Key

abbrev Data := List Byte

/-- The errors that the client tells apart; `conn` stands for all others. -/
inductive Err where
  | notFound
  | invalidRange
  | shortWrite
  | noInstances
  | sourceUnset
  | conn
  deriving DecidableEq, Repr

/-! ## 1. The route cache -/

/-- `fnv32`. -/
def fnv32 (s : Key) : UInt32 :=
  s.foldl (fun h b => (h ^^^ UInt32.ofNat b.val) * 16777619) 2166136261

def routeShards : UInt32 := 16

/-- `routeCache`: the entries of each shard, most recently used first. -/
structure RouteCache where
  shards : UInt32 → List (Key × Name)
  cap : Nat

def newRouteCache (cap : Nat) : RouteCache := ⟨fun _ => [], if cap = 0 then 4096 else cap⟩

namespace RouteCache

variable (rc : RouteCache) (key : Key)

def shard : List (Key × Name) := rc.shards (fnv32 key % routeShards)

def setShard (l : List (Key × Name)) : RouteCache :=
  { rc with shards := Function.update rc.shards (fnv32 key % routeShards) l }

/-- The entry of `key` as the most recently used one. -/
def toFront (name : Name) : List (Key × Name) :=
  (key, name) :: (rc.shard key).filter (fun e => e.1 ≠ key)

def get : RouteCache × Option Name :=
  match (rc.shard key).lookup key with
  | some name => (rc.setShard key (rc.toFront key name), some name)
  | none => (rc, none)

def put (name : Name) : RouteCache :=
  match (rc.shard key).lookup key with
  | some _ => rc.setShard key (rc.toFront key name)
  | none =>
    let l := (key, name) :: rc.shard key
    rc.setShard key (if l.length > rc.cap then l.dropLast else l)

def delete : RouteCache := rc.setShard key ((rc.shard key).filter (fun e => e.1 ≠ key))

end RouteCache

/-! ## 2. The registry and the picker -/

/-- `cluster.InstanceInfo`, with one address for all it is reached at. -/
structure InstanceInfo where
  name : Name
  hostname : Name
  addr : Name
  capacity : Int
  used : Int
  lastHeartbeat : Int
  deriving DecidableEq, Repr

/-- What the client uses of `ClusterConfig`; `healthy` is the comparison of `usagePercent` with
the threshold, which are floating point numbers in the source. -/
structure ClusterConfig where
  hostname : Name
  heartbeatTimeout : Int
  roundRobin : Bool
  healthy : InstanceInfo → Bool

/-- Nanoseconds. -/
def second : Int := 1000000000

/-- `Aliveness`. -/
def InstanceInfo.aliveness (i : InstanceInfo) (now timeout : Int) : Bool :=
  now - i.lastHeartbeat * second ≤ (if timeout ≤ 0 then 5 * second else timeout)

/-- `instanceSnapshot`. -/
structure Snapshot where
  all : List InstanceInfo
  localInsts : List InstanceInfo
  remoteInsts : List InstanceInfo

/-- `byName`: of several instances with one name the last is kept. -/
def Snapshot.byName (snap : Snapshot) (name : Name) : Option InstanceInfo :=
  snap.all.reverse.find? (fun i => i.name = name)

def buildSnapshot (all : List InstanceInfo) (localHostname : Name) (now timeout : Int) : Snapshot :=
  let online := all.filter (fun i => i.aliveness now timeout)
  { all := online
    localInsts := online.filter (fun i => i.hostname = localHostname)
    remoteInsts := online.filter (fun i => i.hostname ≠ localHostname) }

/-- One of a list, as `rand.Intn` chooses. -/
def choose (l : List InstanceInfo) (rand : Nat) : Option InstanceInfo := l[rand % l.length]?

/-- `pickLocalFirst`. -/
def pickLocalFirst (healthy : InstanceInfo → Bool) (snap : Snapshot) (rand : Nat) :
    Option InstanceInfo :=
  match choose (snap.localInsts.filter healthy) rand with
  | some i => some i
  | none =>
    match choose (snap.remoteInsts.filter healthy) rand with
    | some i => some i
    | none => if snap.localInsts ≠ [] then choose snap.localInsts rand else choose snap.all rand

/-- `pickRoundRobin`, at the value `rr` of the counter. -/
def pickRoundRobin (healthy : InstanceInfo → Bool) (all : List InstanceInfo) (rr : Nat) :
    Option InstanceInfo :=
  let start := rr % all.length
  match (all.drop start ++ all.take start).find? healthy with
  | some i => some i
  | none => all[start]?

/-! ## 3. The index manager -/

/-- Where `indexManager.loop` is: waiting in the `select`, about to `flush`, about to flush for the
last time, or gone. -/
inductive Loop where
  | waiting
  | flushing
  | stopping
  | stopped
  deriving DecidableEq, Repr

/-- `indexManager`: the channel, the batch of the loop, and whether `stopCh` is closed. -/
structure IndexManager where
  ch : List (Key × Name)
  batch : SortedMap Key Name
  loop : Loop
  closed : Bool

def indexChanCap : Nat := 4096

def indexBatchMax : Nat := 128

def newIndexManager : IndexManager := ⟨[], .empty, .waiting, false⟩

namespace IndexManager

variable (m : IndexManager)

/-- `put`: the item is dropped when the channel is full. -/
def put (key : Key) (name : Name) : IndexManager :=
  if m.ch.length < indexChanCap then { m with ch := m.ch ++ [(key, name)] } else m

/-- `case item := <-m.ch`. -/
def recv : Option IndexManager :=
  match m.loop, m.ch with
  | .waiting, item :: ch =>
    let batch := m.batch.insert item.1 item.2
    some { m with ch, batch,
                  loop := if batch.entries.length ≥ indexBatchMax then .flushing else .waiting }
  | _, _ => none

/-- `case <-ticker.C`. -/
def tick : Option IndexManager :=
  if m.loop = .waiting then some { m with loop := .flushing } else none

/-- `stop` closes `stopCh`. -/
def close : IndexManager := { m with closed := true }

/-- `case <-m.stopCh`. -/
def stop : Option IndexManager :=
  if m.loop = .waiting ∧ m.closed then some { m with loop := .stopping } else none

/-- `flush`: what is handed to `BatchPut`, and what is left. -/
def flush : Option (List (Key × Name) × IndexManager) :=
  match m.loop with
  | .flushing => some (m.batch.entries, { m with batch := .empty, loop := .waiting })
  | .stopping => some (m.batch.entries, { m with batch := .empty, loop := .stopped })
  | _ => none

end IndexManager

/-! ## 4. The accesses -/

/-- What a call does with the client's own parts. -/
inductive LocalOp where
  | pick
  | cacheGet (key : Key)
  | cachePut (key : Key) (name : Name)
  | cacheDelete (key : Key)
  | registryLookup (name : Name)
  | localInstances
  | indexPut (key : Key) (name : Name)

/-- What a call asks of the KV, of the dialler, and of a server over a connection to it. -/
inductive RemoteOp where
  | indexGet (key : Key)
  | indexDelete (key : Key)
  | clientFor (inst : InstanceInfo)
  | put (addr : Name) (key : Key) (data : Data)
  | get (addr : Name) (key : Key) (off size : Int)
  | delete (addr : Name) (key : Key)
  | stat (addr : Name) (key : Key)

inductive Op where
  | own (o : LocalOp)
  | remote (o : RemoteOp)

@[reducible] def LocalOp.Reply : LocalOp → Type
  | .pick => Option InstanceInfo
  | .cacheGet _ => Option Name
  | .cachePut _ _ => Unit
  | .cacheDelete _ => Unit
  | .registryLookup _ => Option InstanceInfo
  | .localInstances => List InstanceInfo
  | .indexPut _ _ => Unit

@[reducible] def RemoteOp.Value : RemoteOp → Type
  | .indexGet _ => Name
  | .indexDelete _ => Unit
  | .clientFor _ => Name
  | .put _ _ _ => Unit
  | .get _ _ _ _ => Data
  | .delete _ _ => Unit
  | .stat _ _ => Nat

@[reducible] def Op.Reply : Op → Type
  | .own o => o.Reply
  | .remote o => Except Err o.Value

@[reducible] def Access : Signature := ⟨Op, Op.Reply⟩

abbrev Prog (α : Type) := Program Access α

abbrev own (o : LocalOp) : Prog o.Reply := Program.perform (S := Access) (.own o)

abbrev remote (o : RemoteOp) : Prog (Except Err o.Value) := Program.perform (S := Access) (.remote o)

/-! ## 5. The calls -/

/-- `Put` of a connection. -/
def connPut (c key : Key) (size : Int) (input : Data) : Prog (Except Err Unit) :=
  if input.length < size then pure (.error .shortWrite)
  else if size < 0 then pure (.error .invalidRange)
  else remote (.put c key (input.take size.toNat))

/-- `Get` of a connection, once the size is known: nothing is asked for a read of no bytes. -/
def connGetRange (c key : Key) (off size : Int) : Prog (Except Err Data) :=
  if size < 0 then pure (.error .invalidRange)
  else if size = 0 then pure (.ok [])
  else remote (.get c key off size)

/-- `Get` of a connection. -/
def connGet (c key : Key) (off size : Int) : Prog (Except Err Data) :=
  if size < 0 then do
    match ← remote (.stat c key) with
    | .error e => pure (.error e)
    | .ok total => connGetRange c key off (total - off)
  else connGetRange c key off size

/-- The second half of `lookup`. -/
def lookupIndex (key : Key) : Prog (Option InstanceInfo) := do
  match ← remote (.indexGet key) with
  | .error _ => pure none
  | .ok name =>
    if name = [] then pure none
    else
      match ← own (.registryLookup name) with
      | none => pure none
      | some inst => do
        own (.cachePut key name)
        pure (some inst)

/-- `lookup`. -/
def lookup (key : Key) : Prog (Option InstanceInfo) := do
  match ← own (.cacheGet key) with
  | none => lookupIndex key
  | some name =>
    match ← own (.registryLookup name) with
    | none => lookupIndex key
    | some inst => pure (some inst)

/-- `Put`. -/
def put (key : Key) (size : Int) (input : Data) : Prog (Except Err Unit) := do
  match ← own .pick with
  | none => pure (.error .noInstances)
  | some inst =>
    match ← remote (.clientFor inst) with
    | .error e => pure (.error e)
    | .ok c =>
      match ← connPut c key size input with
      | .error e => pure (.error e)
      | .ok _ => do
        own (.indexPut key inst.name)
        own (.cachePut key inst.name)
        pure (.ok ())

/-- `getFrom`. -/
def getFrom (key : Key) (off size : Int) : List InstanceInfo → Prog (Except Err Data)
  | [] => pure (.error .notFound)
  | inst :: insts => do
    match ← remote (.clientFor inst) with
    | .error _ => getFrom key off size insts
    | .ok c =>
      match ← connGet c key off size with
      | .ok data => pure (.ok data)
      | .error .notFound => getFrom key off size insts
      | .error e => pure (.error e)

/-- `getFromSource`, where no source is set. -/
def getFromSource : Prog (Except Err Data) := pure (.error .sourceUnset)

/-- `Get`. -/
def get (key : Key) (off size : Int) : Prog (Except Err Data) := do
  match ← lookup key with
  | none => getFromSource
  | some inst =>
    match ← getFrom key off size [inst] with
    | .error .notFound => getFromSource
    | r => pure r

/-- The body of `Delete` for one instance: one that is not reached is passed over. -/
def deleteFrom (key : Key) (inst : InstanceInfo) : Prog (Except Err Unit) := do
  match ← remote (.clientFor inst) with
  | .error _ => pure (.ok ())
  | .ok c =>
    match ← remote (.delete c key) with
    | .error .notFound => pure (.ok ())
    | r => pure r

/-- The loop of `Delete` over the local instances. -/
def deleteEach (key : Key) : List InstanceInfo → Prog (Except Err Unit)
  | [] => pure (.ok ())
  | inst :: insts => do
    match ← deleteFrom key inst with
    | .error e => pure (.error e)
    | .ok _ => deleteEach key insts

/-- What `Delete` does with the instances. -/
def deleteData (key : Key) : Prog (Except Err Unit) := do
  match ← lookup key with
  | some inst => deleteFrom key inst
  | none => do
    let insts ← own .localInstances
    deleteEach key insts

/-- `Delete`. -/
def delete (key : Key) : Prog (Except Err Unit) := do
  match ← deleteData key with
  | .error e => pure (.error e)
  | .ok _ => do
    let _ ← remote (.indexDelete key)
    own (.cacheDelete key)
    pure (.ok ())

/-- The second half of `Stat`. -/
def statLookup (key : Key) : Prog (Except Err Nat) := do
  match ← lookup key with
  | none => pure (.error .notFound)
  | some inst =>
    match ← remote (.clientFor inst) with
    | .error _ => pure (.error .notFound)
    | .ok c => remote (.stat c key)

/-- The loop of `Stat` over the local instances, and what follows it. -/
def statEach (key : Key) : List InstanceInfo → Prog (Except Err Nat)
  | [] => statLookup key
  | inst :: insts => do
    match ← remote (.clientFor inst) with
    | .error _ => statEach key insts
    | .ok c =>
      match ← remote (.stat c key) with
      | .ok n => pure (.ok n)
      | .error .notFound => statEach key insts
      | .error e => pure (.error e)

/-- `Stat`. -/
def stat (key : Key) : Prog (Except Err Nat) := do
  let insts ← own .localInstances
  statEach key insts

inductive Call where
  | put (key : Key) (size : Int) (input : Data)
  | get (key : Key) (off size : Int)
  | delete (key : Key)
  | stat (key : Key)
  deriving DecidableEq, Repr

inductive Result where
  | put (r : Except Err Unit)
  | get (r : Except Err Data)
  | delete (r : Except Err Unit)
  | stat (r : Except Err Nat)
  deriving DecidableEq

def code : Call → Prog Result
  | .put key size input => Result.put <$> put key size input
  | .get key off size => Result.get <$> get key off size
  | .delete key => Result.delete <$> delete key
  | .stat key => Result.stat <$> stat key

/-! ## 6. The state -/

/-- A request that changes something where it is performed. -/
inductive Request where
  | put (addr : Name) (key : Key) (data : Data)
  | delete (addr : Name) (key : Key)
  | indexDelete (key : Key)
  | batchPut (kvs : List (Key × Name))
  deriving DecidableEq, Repr

/-- `Storage`, less its connections. -/
structure Client where
  cfg : ClusterConfig
  snap : Snapshot
  rr : Nat
  cache : RouteCache
  index : IndexManager

/-- `NewCluster`, before the first refresh of the registry. -/
def newCluster (cfg : ClusterConfig) : Client :=
  { cfg, snap := ⟨[], [], []⟩, rr := 0, cache := newRouteCache 4096, index := newIndexManager }

/-- A call, the client that makes it, and what is left of it to do. -/
structure Running where
  client : Nat
  call : Call
  rest : Prog Result

/-- The KV, the servers by their addresses, the clients, the requests that are still on their way,
and all calls so far, in the order in which they have started. -/
structure World where
  index : SortedMap Key Name
  instances : SortedMap Name InstanceInfo
  stores : SortedMap Name (SortedMap Key Data)
  clients : List Client
  inflight : List Request
  calls : List Running

def World.init : World := ⟨.empty, .empty, .empty, [], [], []⟩

/-- How an access goes: whether a remote one succeeds for its caller, the random number of
`pick`, the server that a connection leads to. -/
structure Outcome where
  ok : Bool := true
  rand : Nat := 0
  server : Name := []
  deriving DecidableEq, Repr

def RemoteOp.request? : RemoteOp → Option Request
  | .indexDelete key => some (.indexDelete key)
  | .put addr key data => some (.put addr key data)
  | .delete addr key => some (.delete addr key)
  | _ => none

/-- `pick`: the counter of the round robin moves with every call. -/
def Client.pick (cl : Client) (rand : Nat) : Client × Option InstanceInfo :=
  if cl.snap.all = [] then (cl, none)
  else if cl.cfg.roundRobin then
    ({ cl with rr := cl.rr + 1 }, pickRoundRobin cl.cfg.healthy cl.snap.all cl.rr)
  else (cl, pickLocalFirst cl.cfg.healthy cl.snap rand)

def Client.perform (cl : Client) (rand : Nat) : (o : LocalOp) → Client × o.Reply
  | .pick => cl.pick rand
  | .cacheGet key => ({ cl with cache := (cl.cache.get key).1 }, (cl.cache.get key).2)
  | .cachePut key name => ({ cl with cache := cl.cache.put key name }, ())
  | .cacheDelete key => ({ cl with cache := cl.cache.delete key }, ())
  | .registryLookup name => (cl, cl.snap.byName name)
  | .localInstances => (cl, cl.snap.localInsts)
  | .indexPut key name => ({ cl with index := cl.index.put key name }, ())

/-- What a server returns for `[off, off+size)` of an object, and the client makes of it. -/
def readRange (d : Data) (off size : Int) : Except Err Data :=
  if off < 0 ∨ off > d.length then .error .invalidRange
  else if d.length < off + size then .error .conn
  else .ok ((d.drop off.toNat).take size.toNat)

namespace World

variable (s : World)

/-- The objects on the server at an address. -/
def store (addr : Name) : SortedMap Key Data := (s.stores.find? addr).getD .empty

/-- A request is performed. -/
def serve : Request → World
  | .put addr key data => { s with stores := s.stores.insert addr ((s.store addr).insert key data) }
  | .delete addr key => { s with stores := s.stores.insert addr ((s.store addr).erase key) }
  | .indexDelete key => { s with index := s.index.erase key }
  | .batchPut kvs => { s with index := kvs.foldl (fun m e => m.insert e.1 e.2) s.index }

/-- A request is performed now, or may be later. -/
def send (ok : Bool) (q : Request) : World :=
  if ok then s.serve q else { s with inflight := s.inflight ++ [q] }

def answer (server : Name) : (o : RemoteOp) → Except Err o.Value
  | .indexGet key => .ok ((s.index.find? key).getD [])
  | .indexDelete _ => .ok ()
  | .clientFor _ => .ok server
  | .put _ _ _ => .ok ()
  | .get addr key off size =>
    match (s.store addr).find? key with
    | none => .error .notFound
    | some d => readRange d off size
  | .delete addr key => if (s.store addr).find? key = none then .error .notFound else .ok ()
  | .stat addr key =>
    match (s.store addr).find? key with
    | none => .error .notFound
    | some d => .ok d.length

/-- An access of a call of client `c`. -/
def exec (c : Nat) (out : Outcome) : (o : Op) → Option (World × o.Reply)
  | .own o => (s.clients[c]?).map fun cl =>
      ({ s with clients := s.clients.set c (cl.perform out.rand o).1 }, (cl.perform out.rand o).2)
  | .remote o =>
    some ((o.request?).elim s (s.send out.ok),
      if out.ok then s.answer out.server o else .error .conn)

/-- A change of one client. -/
def onClient (c : Nat) (f : Client → Option Client) : Option World :=
  ((s.clients[c]?).bind f).map fun cl => { s with clients := s.clients.set c cl }

/-- `ListInstances`, with the limit of its scan. -/
def listInstances : List InstanceInfo := (s.instances.entries.map Prod.snd).take 10000

end World

/-- What can happen next. -/
inductive Action where
  /-- a client starts a call. -/
  | call (c : Nat) (op : Call)
  /-- a call goes on. -/
  | step (t : Nat) (out : Outcome)
  /-- a request that has failed for its caller is performed after all. -/
  | land (i : Nat)
  | recv (c : Nat)
  | tick (c : Nat)
  | flush (c : Nat) (ok : Bool)
  | close (c : Nat)
  | stop (c : Nat)
  | newCluster (cfg : ClusterConfig)
  /-- `refresh`, at the time of the clock; a scan that fails keeps the old snapshot. -/
  | refresh (c : Nat) (now : Int)
  /-- `Register`, and each heartbeat. -/
  | register (info : InstanceInfo)
  | unregister (name : Name)

def step (s : World) : Action → Option World
  | .call c op =>
    if c < s.clients.length then some { s with calls := s.calls ++ [⟨c, op, code op⟩] } else none
  | .step t out =>
    match s.calls[t]? with
    | some ⟨c, op, .request o next⟩ =>
      (s.exec c out o).map fun x => { x.1 with calls := s.calls.set t ⟨c, op, next x.2⟩ }
    | _ => none
  | .land i =>
    (s.inflight[i]?).map fun q => World.serve { s with inflight := s.inflight.eraseIdx i } q
  | .recv c => s.onClient c fun cl => cl.index.recv.map fun m => { cl with index := m }
  | .tick c => s.onClient c fun cl => cl.index.tick.map fun m => { cl with index := m }
  | .flush c ok =>
    match s.clients[c]? with
    | none => none
    | some cl => cl.index.flush.map fun x =>
        let s' : World := { s with clients := s.clients.set c { cl with index := x.2 } }
        if x.1 = [] then s' else s'.send ok (.batchPut x.1)
  | .close c => s.onClient c fun cl => some { cl with index := cl.index.close }
  | .stop c => s.onClient c fun cl => cl.index.stop.map fun m => { cl with index := m }
  | .newCluster cfg => some { s with clients := s.clients ++ [newCluster cfg] }
  | .refresh c now => s.onClient c fun cl =>
      some { cl with snap :=
        buildSnapshot s.listInstances cl.cfg.hostname now cl.cfg.heartbeatTimeout }
  | .register info => some { s with instances := s.instances.insert info.name info }
  | .unregister name => some { s with instances := s.instances.erase name }

end Taihu.ClusterClient
