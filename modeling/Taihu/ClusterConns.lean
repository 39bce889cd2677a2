/-
# The connections of the cluster client

`pkg/taihu-client/storage.go` (`connKey`, `clientFor`) and the dialling of
`internal/rpcclient/dial.go`, `dial_shm_linux.go`.

`clientFor` keeps the connections it has dialled in a map.  The key of an instance in this map is
computed by `connKey`, from the transport and the addresses of the instance; what is dialled is
decided by `clientFor`, which also compares host names.  The two do not agree: with the automatic
transport an instance that has a socket path has it as its key on every host, although only an
instance of the client's host is dialled there; and with the transport `shm` the path of an
instance of another host is dialled on the client's host.

Of an `InstanceInfo` the model has the fields that are read here.  Every call of `clientFor`
comes with the outcome of everything it may dial.
-/
import Taihu.Lib.Memo
import Mathlib

namespace Taihu.ClusterConns

/-! ## 1. Keys and dialling -/

/-- `cluster.InstanceInfo`. -/
structure InstanceInfo where
  name : String
  hostname : String
  addr : String
  addrs : List String
  shmAddr : String
  deriving DecidableEq, Repr

/-- `cfg.Transport`: `TransportRPC`, `TransportShm`, and `TransportAuto` with all other values. -/
inductive Transport where
  | rpc
  | shm
  | auto
  deriving DecidableEq, Repr

/-- What a connection has been dialled to: a TCP address, or a socket on the client's host. -/
inductive Dialled where
  | tcp (addr : String)
  | shm (path : String)
  deriving DecidableEq, Repr

/-- The outcome of dialling: the `k`-th connection to a TCP address, and a socket. -/
structure Network where
  dialClient : String → Nat → Bool
  dialShm : String → Bool

structure Config where
  transport : Transport
  hostname : String
  conns : Int

/-- A call of `clientFor`. -/
structure Call where
  inst : InstanceInfo
  net : Network

/-- `rpcclient.Storage`: what its connections have been dialled to; `inst` is the instance in
whose call they were. -/
structure Conn where
  inst : InstanceInfo
  pool : List Dialled
  deriving DecidableEq, Repr

/-- `connKey`. -/
def connKey (inst : InstanceInfo) (transport : Transport) : String :=
  if transport = .rpc then "tcp://" ++ inst.addr
  else if transport = .shm ∨ inst.shmAddr ≠ "" then "shm://" ++ inst.shmAddr
  else "tcp://" ++ inst.addr

namespace Network

variable (net : Network)

/-- `DialPoolMulti`: `perAddr` connections to each address, or none if one of them fails. -/
def dialPoolMulti (addrs : List String) (perAddr : Int) : Option (List Dialled) :=
  let n := (max perAddr 1).toNat
  if addrs = [] then none
  else if addrs.all (fun a => (List.range n).all (net.dialClient a)) then
    some (addrs.flatMap (fun a => List.replicate n (.tcp a)))
  else none

/-- `DialPool`. -/
def dialPool (addr : String) (n : Int) : Option (List Dialled) := net.dialPoolMulti [addr] n

/-- `DialShmPool`. -/
def dialShmPool (uds : String) : Option (List Dialled) :=
  if net.dialShm uds then some [.shm uds] else none

/-- The address list of an instance, or its one address. -/
def dialTcp (inst : InstanceInfo) (n : Int) : Option (List Dialled) :=
  if inst.addrs ≠ [] then net.dialPoolMulti inst.addrs n else net.dialPool inst.addr n

end Network

/-- The `switch` of `clientFor`. -/
def dial (cfg : Config) (c : Call) : Option (List Dialled) :=
  match cfg.transport with
  | .rpc => c.net.dialTcp c.inst cfg.conns
  | .shm => if c.inst.shmAddr = "" then none else c.net.dialShmPool c.inst.shmAddr
  | .auto =>
    if cfg.hostname ≠ "" ∧ c.inst.hostname = cfg.hostname ∧ c.inst.shmAddr ≠ "" then
      match c.net.dialShmPool c.inst.shmAddr with
      | some pool => some pool
      | none => c.net.dialPool c.inst.addr cfg.conns
    else c.net.dialTcp c.inst cfg.conns

/-- `clientFor`: the connections after it, and the one it returns. -/
def clientFor (cfg : Config) (conns : List (String × Conn)) (c : Call) :
    List (String × Conn) × Option Conn :=
  let key := connKey c.inst cfg.transport
  match conns.lookup key with
  | some conn => (conns, some conn)
  | none =>
    match dial cfg c with
    | none => (conns, none)
    | some pool => ((key, ⟨c.inst, pool⟩) :: conns, some ⟨c.inst, pool⟩)

/-- The connections after a sequence of calls. -/
def connsAfter (cfg : Config) (calls : List Call) : List (String × Conn) :=
  calls.foldl (fun conns c => (clientFor cfg conns c).1) []

/-- `pick` of a connection pool, at the value `rr` of its counter. -/
def pick (pool : List Dialled) (rr : Nat) : Option Dialled :=
  if pool.length = 1 then pool[0]? else pool[rr % pool.length]?

/-- A request over a connection: the server that listens there performs it on its own store. -/
def request {σ : Type} (server : Dialled → InstanceInfo) (stores : InstanceInfo → σ)
    (pool : List Dialled) (rr : Nat) (op : σ → σ) : InstanceInfo → σ :=
  match pick pool rr with
  | some d => Function.update stores (server d) (op (stores (server d)))
  | none => stores

/-! ## 2. What is asked of a connection -/

/-- The addresses of an instance, seen from a host. -/
def AddressOf (host : String) (i : InstanceInfo) : Dialled → Prop
  | .tcp a => a = i.addr ∨ a ∈ i.addrs
  | .shm p => p = i.shmAddr ∧ i.hostname = host

/-- **The connection is one to the instance**: it was dialled for it, to addresses of it; and
where the instance is what listens at its addresses, a request acts on its store, and on no
other. -/
structure Identifies (host : String) (i : InstanceInfo) (conn : Conn) : Prop where
  inst_eq : conn.inst = i
  addresses : ∀ d ∈ conn.pool, AddressOf host i d
  acts : ∀ (σ : Type) (server : Dialled → InstanceInfo), (∀ d, AddressOf host i d → server d = i) →
    ∀ (stores : InstanceInfo → σ) (rr : Nat) (op : σ → σ),
      request server stores conn.pool rr op = Function.update stores i (op (stores i))

/-- Every connection that is returned is one to the instance it is returned for. -/
def Sound (cfg : Config) (calls : List Call) : Prop :=
  ∀ pre c post, calls = pre ++ c :: post → ∀ conn,
    (clientFor cfg (connsAfter cfg pre) c).2 = some conn → Identifies cfg.hostname c.inst conn

/-- Two calls are for instances with the same socket path. -/
def SharesPath (c d : Call) : Prop := c.inst.shmAddr ≠ "" ∧ c.inst.shmAddr = d.inst.shmAddr

/-- **The calls keep hosts apart**: with the transport `shm` no path of another host can be
dialled; unless it is `rpc`, a path that can be dialled for an instance is not also the path of a
later instance on another host. -/
structure Apart (cfg : Config) (calls : List Call) : Prop where
  at_home : cfg.transport = .shm → ∀ c ∈ calls, (dial cfg c).isSome →
    c.inst.hostname = cfg.hostname
  hosts : cfg.transport ≠ .rpc → calls.Pairwise (fun c d => (dial cfg c).isSome →
    SharesPath c d → c.inst.hostname = d.inst.hostname)

/-! ## 3. The map as a memo -/

/-- What a call dials, as a connection. -/
def dialConn (cfg : Config) (c : Call) : Option Conn := (dial cfg c).map (Conn.mk c.inst)

theorem clientFor_eq_serve (cfg : Config) (conns : List (String × Conn)) (c : Call) :
    clientFor cfg conns c =
      Memo.serve (fun c => connKey c.inst cfg.transport) (dialConn cfg) conns c := by
  unfold clientFor Memo.serve dialConn
  simp only
  cases conns.lookup (connKey c.inst cfg.transport) with
  | some conn => rfl
  | none => cases dial cfg c <;> rfl

theorem connsAfter_eq (cfg : Config) (calls : List Call) :
    connsAfter cfg calls =
      Memo.after (fun c => connKey c.inst cfg.transport) (dialConn cfg) calls := by
  unfold connsAfter Memo.after
  simp only [clientFor_eq_serve]

/-- The connection that a call returns: that of the first call with its key whose dialling
succeeds. -/
theorem clientFor_answer (cfg : Config) (pre : List Call) (c : Call) :
    (clientFor cfg (connsAfter cfg pre) c).2 =
      Memo.first (fun c => connKey c.inst cfg.transport) (dialConn cfg)
        (connKey c.inst cfg.transport) (pre ++ [c]) := by
  rw [clientFor_eq_serve, connsAfter_eq]
  exact Memo.answer_eq pre c

/-! ## 4. Keys -/

theorem append_cancel {p a b : String} (h : p ++ a = p ++ b) : a = b := by
  have := congrArg String.toList h
  rw [String.toList_append, String.toList_append] at this
  exact String.toList_inj.mp (List.append_cancel_left this)

theorem shm_ne_tcp (a b : String) : "shm://" ++ a ≠ "tcp://" ++ b := by
  intro h
  have := congrArg String.toList h
  rw [String.toList_append, String.toList_append] at this
  exact absurd (List.head_eq_of_cons_eq this) (by decide)

theorem connKey_of_path {i : InstanceInfo} {t : Transport} (ht : t ≠ .rpc) (h : i.shmAddr ≠ "") :
    connKey i t = "shm://" ++ i.shmAddr := by
  unfold connKey
  rw [if_neg ht, if_pos (.inr h)]

theorem connKey_auto_of_no_path {i : InstanceInfo} (h : i.shmAddr = "") :
    connKey i .auto = "tcp://" ++ i.addr := by
  unfold connKey
  rw [if_neg (show ¬ Transport.auto = .rpc by decide),
    if_neg (show ¬ (Transport.auto = .shm ∨ i.shmAddr ≠ "") by simp [h])]

/-- Two instances with one key share a path or an address. -/
theorem eq_of_connKey_eq {i j : InstanceInfo} {t : Transport} (h : connKey i t = connKey j t) :
    (t ≠ .rpc ∧ i.shmAddr = j.shmAddr ∧ (t = .auto → i.shmAddr ≠ "")) ∨
      (t ≠ .shm ∧ i.addr = j.addr) := by
  cases t with
  | rpc =>
    have h : "tcp://" ++ i.addr = "tcp://" ++ j.addr := h
    exact .inr ⟨by decide, append_cancel h⟩
  | shm =>
    have h : "shm://" ++ i.shmAddr = "shm://" ++ j.shmAddr := h
    exact .inl ⟨by decide, append_cancel h, fun ht => (nomatch ht)⟩
  | auto =>
    by_cases hi : i.shmAddr = ""
    · rw [connKey_auto_of_no_path hi] at h
      by_cases hj : j.shmAddr = ""
      · rw [connKey_auto_of_no_path hj] at h
        exact .inr ⟨by decide, append_cancel h⟩
      · rw [connKey_of_path (by decide) hj] at h
        exact absurd h.symm (shm_ne_tcp _ _)
    · rw [connKey_of_path (by decide) hi] at h
      by_cases hj : j.shmAddr = ""
      · rw [connKey_auto_of_no_path hj] at h
        exact absurd h (shm_ne_tcp _ _)
      · rw [connKey_of_path (by decide) hj] at h
        exact .inl ⟨by decide, append_cancel h, fun _ => hi⟩

theorem SharesPath.connKey_eq {c d : Call} (h : SharesPath c d) {t : Transport} (ht : t ≠ .rpc) :
    connKey c.inst t = connKey d.inst t := by
  rw [connKey_of_path ht h.1, connKey_of_path ht (h.2 ▸ h.1), h.2]

/-! ## 5. What is dialled -/

section Dialling

variable {net : Network} {pool : List Dialled}

theorem mem_dialPoolMulti {addrs : List String} {n : Int}
    (h : net.dialPoolMulti addrs n = some pool) : ∀ d ∈ pool, ∃ a ∈ addrs, d = .tcp a := by
  unfold Network.dialPoolMulti at h
  simp only at h
  split at h
  · cases h
  split at h
  · cases h
    intro d hd
    obtain ⟨a, ha, hd⟩ := List.mem_flatMap.mp hd
    exact ⟨a, ha, List.eq_of_mem_replicate hd⟩
  · cases h

theorem dialPoolMulti_ne_nil {addrs : List String} {n : Int}
    (h : net.dialPoolMulti addrs n = some pool) : pool ≠ [] := by
  unfold Network.dialPoolMulti at h
  simp only at h
  split at h
  · cases h
  rename_i hne
  split at h
  · cases h
    intro hnil
    rw [List.flatMap_eq_nil_iff] at hnil
    obtain ⟨a, addrs, rfl⟩ := List.exists_cons_of_ne_nil hne
    have hzero : (max n 1).toNat = 0 := by simpa using hnil a List.mem_cons_self
    omega
  · cases h

theorem dialTcp_spec {i : InstanceInfo} {n : Int} (h : net.dialTcp i n = some pool)
    (host : String) : pool ≠ [] ∧ ∀ d ∈ pool, AddressOf host i d := by
  unfold Network.dialTcp at h
  split at h
  · refine ⟨dialPoolMulti_ne_nil h, fun d hd => ?_⟩
    obtain ⟨a, ha, rfl⟩ := mem_dialPoolMulti h d hd
    exact .inr ha
  · refine ⟨dialPoolMulti_ne_nil h, fun d hd => ?_⟩
    obtain ⟨a, ha, rfl⟩ := mem_dialPoolMulti h d hd
    exact .inl (List.mem_singleton.mp ha)

theorem dialShmPool_eq {uds : String} (h : net.dialShmPool uds = some pool) :
    pool = [.shm uds] := by
  unfold Network.dialShmPool at h
  split at h
  · exact (Option.some.inj h).symm
  · cases h

end Dialling

variable {cfg : Config} {calls : List Call}

theorem dial_shm {c : Call} {pool : List Dialled} (ht : cfg.transport = .shm)
    (h : dial cfg c = some pool) : c.inst.shmAddr ≠ "" ∧ pool = [.shm c.inst.shmAddr] := by
  unfold dial at h
  rw [ht] at h
  simp only at h
  split at h
  · cases h
  · rename_i hne
    exact ⟨hne, dialShmPool_eq h⟩

/-- Where no path of another host is dialled, what is dialled are addresses of the instance. -/
theorem dial_spec {c : Call} {pool : List Dialled} (h : dial cfg c = some pool)
    (hhome : cfg.transport = .shm → c.inst.hostname = cfg.hostname) :
    pool ≠ [] ∧ ∀ d ∈ pool, AddressOf cfg.hostname c.inst d := by
  cases ht : cfg.transport with
  | rpc =>
    unfold dial at h
    rw [ht] at h
    exact dialTcp_spec h cfg.hostname
  | shm =>
    obtain ⟨-, rfl⟩ := dial_shm ht h
    refine ⟨List.cons_ne_nil _ _, fun d hd => ?_⟩
    rw [List.mem_singleton.mp hd]
    exact ⟨rfl, hhome ht⟩
  | auto =>
    unfold dial at h
    rw [ht] at h
    simp only at h
    split at h
    · rename_i hlocal
      split at h
      · rename_i hshm
        cases h
        rw [dialShmPool_eq hshm]
        refine ⟨List.cons_ne_nil _ _, fun d hd => ?_⟩
        rw [List.mem_singleton.mp hd]
        exact ⟨rfl, hlocal.2.1⟩
      · -- the socket could not be dialled: TCP, to the one address
        refine ⟨dialPoolMulti_ne_nil h, fun d hd => ?_⟩
        obtain ⟨a, ha, rfl⟩ := mem_dialPoolMulti h d hd
        exact .inl (List.mem_singleton.mp ha)
    · exact dialTcp_spec h cfg.hostname

theorem pick_mem {pool : List Dialled} (h : pool ≠ []) (rr : Nat) :
    ∃ d ∈ pool, pick pool rr = some d := by
  have hpos : 0 < pool.length := List.length_pos_iff.mpr h
  unfold pick
  split
  · exact ⟨pool[0], List.getElem_mem hpos, List.getElem?_eq_getElem hpos⟩
  · have hlt : rr % pool.length < pool.length := Nat.mod_lt rr hpos
    exact ⟨pool[rr % pool.length], List.getElem_mem hlt, List.getElem?_eq_getElem hlt⟩

theorem Identifies.of_addresses {host : String} {i : InstanceInfo} {conn : Conn}
    (hinst : conn.inst = i) (hne : conn.pool ≠ []) (haddr : ∀ d ∈ conn.pool, AddressOf host i d) :
    Identifies host i conn where
  inst_eq := hinst
  addresses := haddr
  acts := by
    intro σ server hserver stores rr op
    obtain ⟨d, hd, hpick⟩ := pick_mem hne rr
    unfold request
    rw [hpick]
    simp only
    rw [hserver d (haddr d hd)]

/-! ## 6. The sequences of calls whose connections are right -/

/-- The call whose dialling made the connection. -/
theorem exists_of_clientFor {pre : List Call} {c : Call} {conn : Conn}
    (h : (clientFor cfg (connsAfter cfg pre) c).2 = some conn) :
    ∃ r ∈ pre ++ [c], connKey r.inst cfg.transport = connKey c.inst cfg.transport ∧
      conn.inst = r.inst ∧ dial cfg r = some conn.pool := by
  rw [clientFor_answer] at h
  obtain ⟨r, hr, hkey, hmake⟩ := Memo.first_eq_some h
  obtain ⟨pool, hdial, rfl⟩ := Option.map_eq_some_iff.mp hmake
  exact ⟨r, hr, hkey, rfl, hdial⟩

/-- A call that can be dialled returns a connection. -/
theorem clientFor_isSome (pre : List Call) {c : Call} (h : (dial cfg c).isSome) :
    ∃ conn, (clientFor cfg (connsAfter cfg pre) c).2 = some conn := by
  rw [clientFor_answer]
  refine Memo.first_isSome_of_mem (List.mem_append_right pre List.mem_cons_self) ?_
  unfold dialConn
  rwa [Option.isSome_map]

/-- A later call with the same key returns the same connection. -/
theorem clientFor_again {pre mid : List Call} {c d : Call} {conn : Conn}
    (h : (clientFor cfg (connsAfter cfg pre) c).2 = some conn)
    (hkey : connKey c.inst cfg.transport = connKey d.inst cfg.transport) :
    (clientFor cfg (connsAfter cfg (pre ++ c :: mid)) d).2 = some conn := by
  rw [clientFor_answer] at h ⊢
  rw [← hkey]
  have hsplit : (pre ++ c :: mid) ++ [d] = (pre ++ [c]) ++ (mid ++ [d]) := by
    simp only [List.append_assoc, List.cons_append, List.nil_append]
  rw [hsplit]
  exact Memo.first_append_of_eq_some h _

theorem pairwise_of_splits {α : Type} {R : α → α → Prop} {l : List α}
    (h : ∀ l1 a l2 b l3, l = l1 ++ a :: (l2 ++ b :: l3) → R a b) : l.Pairwise R := by
  induction l with
  | nil => exact .nil
  | cons a l ih =>
    refine .cons (fun b hb => ?_) (ih fun l1 a' l2 b l3 heq => ?_)
    · obtain ⟨l2, l3, rfl⟩ := List.append_of_mem hb
      exact h [] a l2 b l3 rfl
    · exact h (a :: l1) a' l2 b l3 (by rw [heq]; rfl)

theorem Apart.sound (h : Apart cfg calls)
    (haddr : ∀ c ∈ calls, ∀ d ∈ calls, c.inst.addr = d.inst.addr → c.inst = d.inst)
    (hpath : ∀ c ∈ calls, ∀ d ∈ calls, c.inst.hostname = d.inst.hostname → SharesPath c d →
      c.inst = d.inst) : Sound cfg calls := by
  rintro pre c post rfl conn hconn
  obtain ⟨r, hr, hkey, hinst, hdial⟩ := exists_of_clientFor hconn
  have hc : c ∈ pre ++ c :: post := List.mem_append_right pre List.mem_cons_self
  have hrc : r ∈ pre ++ c :: post := by
    rcases List.mem_append.mp hr with hr | hr
    · exact List.mem_append_left _ hr
    · rwa [List.mem_singleton.mp hr]
  have hdials : (dial cfg r).isSome := by rw [hdial]; rfl
  have heq : r.inst = c.inst := by
    rcases List.mem_append.mp hr with hr | hr
    · rcases eq_of_connKey_eq hkey with ⟨ht, hshm, hauto⟩ | ⟨-, ha⟩
      · have hne : r.inst.shmAddr ≠ "" := by
          cases ht' : cfg.transport with
          | rpc => exact absurd ht' ht
          | shm => exact (dial_shm ht' hdial).1
          | auto => exact hauto ht'
        have hhost := (List.pairwise_append.mp (h.hosts ht)).2.2 r hr c List.mem_cons_self hdials
          ⟨hne, hshm⟩
        exact hpath r hrc c hc hhost ⟨hne, hshm⟩
      · exact haddr r hrc c hc ha
    · rw [List.mem_singleton.mp hr]
  obtain ⟨hne, hall⟩ := dial_spec hdial fun ht => h.at_home ht r hrc hdials
  rw [heq] at hall
  exact .of_addresses (hinst.trans heq) hne hall

theorem Sound.apart (h : Sound cfg calls) : Apart cfg calls where
  at_home := by
    intro ht c hc hdials
    obtain ⟨pre, post, rfl⟩ := List.append_of_mem hc
    obtain ⟨conn, hconn⟩ := clientFor_isSome pre hdials
    obtain ⟨r, -, -, -, hdial⟩ := exists_of_clientFor hconn
    have haddr := (h pre c post rfl conn hconn).addresses (.shm r.inst.shmAddr) (by
      rw [(dial_shm ht hdial).2]
      exact List.mem_cons_self)
    exact haddr.2
  hosts := by
    intro ht
    refine pairwise_of_splits fun l1 c l2 d l3 hsplit hdials hshares => ?_
    obtain ⟨conn, hconn⟩ := clientFor_isSome l1 hdials
    have hc := (h l1 c _ hsplit conn hconn).inst_eq
    have hd := (h (l1 ++ c :: l2) d l3 (by rw [hsplit, List.append_assoc]; rfl) conn
      (clientFor_again hconn (hshares.connKey_eq ht))).inst_eq
    rw [← hc, hd]

/-- **The connections of the cluster client are to the instances they are returned for in exactly
the sequences of calls that keep hosts apart.** -/
theorem connections_identify_iff (cfg : Config) (calls : List Call)
    (haddr : ∀ c ∈ calls, ∀ d ∈ calls, c.inst.addr = d.inst.addr → c.inst = d.inst)
    (hpath : ∀ c ∈ calls, ∀ d ∈ calls, c.inst.hostname = d.inst.hostname → SharesPath c d →
      c.inst = d.inst) : Sound cfg calls ↔ Apart cfg calls :=
  ⟨Sound.apart, fun h => h.sound haddr hpath⟩

/-! ## 7. An instance of another host with the same path -/

def hostA : InstanceInfo := ⟨"s0", "a", "10.0.0.1:9000", [], "/dev/s0"⟩

def hostB : InstanceInfo := ⟨"s1", "b", "10.0.0.2:9000", [], "/dev/s0"⟩

def online : Network := ⟨fun _ _ => true, fun _ => true⟩

theorem connections_identify_one :
    Sound ⟨.auto, "a", 1⟩ [⟨hostA, online⟩] ↔ Apart ⟨.auto, "a", 1⟩ [⟨hostA, online⟩] := by
  have hone : ∀ c ∈ [(⟨hostA, online⟩ : Call)], ∀ d ∈ [(⟨hostA, online⟩ : Call)],
      c.inst = d.inst := by
    intro c hc d hd
    rw [List.mem_singleton.mp hc, List.mem_singleton.mp hd]
  exact connections_identify_iff ⟨.auto, "a", 1⟩ [⟨hostA, online⟩]
    (fun c hc d hd _ => hone c hc d hd) (fun c hc d hd _ _ => hone c hc d hd)

/-- A client on host `a` that has a connection to its own instance returns it for the one of
host `b`. -/
theorem remote_gets_local_connection : ¬ ∀ (cfg : Config) (calls : List Call),
    (∀ c ∈ calls, ∀ d ∈ calls, c.inst.addr = d.inst.addr → c.inst = d.inst) →
    (∀ c ∈ calls, ∀ d ∈ calls, c.inst.hostname = d.inst.hostname → SharesPath c d →
      c.inst = d.inst) → Sound cfg calls := by
  intro hall
  have hsound := hall ⟨.auto, "a", 1⟩ [⟨hostA, online⟩, ⟨hostB, online⟩] (by
    intro c hc d hd haddr
    simp only [List.mem_cons, List.not_mem_nil, or_false] at hc hd
    rcases hc with rfl | rfl <;> rcases hd with rfl | rfl
    · rfl
    · exact absurd haddr (by decide)
    · exact absurd haddr (by decide)
    · rfl) (by
    intro c hc d hd hhost _
    simp only [List.mem_cons, List.not_mem_nil, or_false] at hc hd
    rcases hc with rfl | rfl <;> rcases hd with rfl | rfl
    · rfl
    · exact absurd hhost (by decide)
    · exact absurd hhost (by decide)
    · rfl)
  have hconn := hsound [⟨hostA, online⟩] ⟨hostB, online⟩ [] rfl ⟨hostA, [.shm "/dev/s0"]⟩
    (by decide +kernel)
  exact absurd hconn.inst_eq (by decide)

end Taihu.ClusterConns
