/-
# The store used by one caller

A method that runs alone, in a store whose writes succeed, has one outcome.  `Runs` gives it:
the method takes the part of the state it works on from `x` to `x'` and returns `a`, whatever
the rest of the state and the history are.  The equations of this module are those of the
lookups and of the commits; they compose by `Runs.bind`.
-/
import Taihu.Storage

namespace Taihu

open Concur

/-! ## 1. Outcomes -/

/-- What the methods of the store work on, and the caller's batch. -/
structure Solo where
  disk : Disk
  segs : SegmentManager
  cache : MetaCache
  segMu : Bool
  batch : Batch

namespace Solo

/-- The state with `x` in it; no write fails. -/
def sys (x : Solo) (s : Sys) (v : Key → Option Bytes) : Sys :=
  { s with db := ⟨x.disk, []⟩, segs := x.segs, cache := x.cache, segMu := x.segMu, value := v }

def here (x : Solo) (h : Hist) : Local := ⟨x.batch, h⟩

/-- What a caller with local state `l` finds in `s`. -/
def of (s : Sys) (l : Local) : Solo := ⟨s.db.disk, s.segs, s.cache, s.segMu, l.batch⟩

theorem of_sys {s : Sys} (h : s.db.faults = []) (l : Local) : (of s l).sys s s.value = s := by
  obtain ⟨⟨d, f⟩, segs, mu, al, amu, c, dev, v⟩ := s
  subst h
  rfl

theorem of_here (s : Sys) (l : Local) : (of s l).here l.hist = l := rfl

/-- Between two calls: the mutex is free and the batch empty. -/
structure Idle (x : Solo) : Prop where
  segMu : x.segMu = false
  batch : x.batch = []

end Solo

/-- Running alone, `p` takes `x` to `x'` and returns `a`. -/
def Runs {α : Type} (L : Layout) (p : Proc α) (x x' : Solo) (a : α) : Prop :=
  ∀ s h v, ∃ h' v', p.exec (exec L) (x.sys s v) (x.here h) = some (x'.sys s v', x'.here h', a)

variable {L : Layout} {α β : Type} {x x' x'' : Solo} {key : Key} {md : ObjectMeta}

theorem Runs.pure (a : α) : Runs L (Pure.pure a : Proc α) x x a := fun _ h v => ⟨h, v, rfl⟩

/-- **Sequencing.** -/
theorem Runs.bind {p : Proc α} {f : α → Proc β} {a : α} {b : β} (hp : Runs L p x x' a)
    (hf : Runs L (f a) x' x'' b) : Runs L (p >>= f) x x'' b := by
  intro s h v
  obtain ⟨h1, v1, hp⟩ := hp s h v
  obtain ⟨h2, v2, hf⟩ := hf s h1 v1
  exact ⟨h2, v2, by rw [Program.exec_bind, hp, Option.bind_some, hf]⟩

/-- A method has one outcome, and ends in it. -/
theorem Runs.exec {p : Proc α} {a : α} {s : Sys} {l : Local} (h : Runs L p (.of s l) x' a)
    (hf : s.db.faults = []) :
    ∃ h' v', p.exec (exec L) s l = some (x'.sys s v', x'.here h', a) := by
  obtain ⟨h', v', hx⟩ := h s l.hist s.value
  rw [Solo.of_sys hf, Solo.of_here] at hx
  exact ⟨h', v', hx⟩

/-! ## 2. Single operations -/

theorem runs_cacheGet (key : Key) :
    Runs L (cacheGet key) x { x with cache := (x.cache.get key).2 } (x.cache.find? key) := by
  intro s h v
  refine ⟨CacheOp.note h (.get key) (x.cache.find? key), v, ?_⟩
  rw [← MetaCache.get_fst]
  rfl

theorem runs_cachePut (key : Key) (md : ObjectMeta) :
    Runs L (cachePut key md) x { x with cache := x.cache.put key md } () :=
  fun _ h v => ⟨CacheOp.note h (.put key md) (), v, rfl⟩

theorem runs_cacheDel (key : Key) :
    Runs L (cacheDel key) x { x with cache := x.cache.del key } () :=
  fun _ h v => ⟨CacheOp.note h (.del key) (), v, rfl⟩

theorem runs_mappingGet (key : Key) (site : ReadSite) :
    Runs L (mappingGet key site) x x (x.disk.mapping.find? key) :=
  fun s h v => ⟨PebbleOp.note (x.sys s v) x.batch h (.getMapping key site) (x.disk.mapping.find? key),
    v, rfl⟩

theorem runs_segsLock (hx : x.segMu = false) :
    Runs L segsLock x { x with segMu := true } () := by
  intro s h v
  refine ⟨SegsOp.note (x.sys s v) h .lock (), v, ?_⟩
  obtain ⟨d, m, c, mu, b⟩ := x
  subst hx
  rfl

theorem runs_segsUnlock : Runs L segsUnlock x { x with segMu := false } () :=
  fun s h v => ⟨SegsOp.note (x.sys s v) h .unlock (), v, rfl⟩

theorem runs_putObjectLocked (key : Key) (md : ObjectMeta) (old : Option ObjectMeta)
    (value : Option Bytes) :
    Runs L (putObjectLocked key md old value) x
      { x with
        batch := (x.segs.putObjectLocked x.batch key md old).1
        segs := (x.segs.putObjectLocked x.batch key md old).2 } () :=
  fun s h v => ⟨SegsOp.note (x.sys s v) h (.putObjectLocked key md old value) (), v, rfl⟩

theorem runs_delObjectLocked (key : Key) (md : ObjectMeta) :
    Runs L (delObjectLocked key md) x
      { x with
        batch := (x.segs.delObjectLocked x.batch key md).1
        segs := (x.segs.delObjectLocked x.batch key md).2 } () :=
  fun s h v => ⟨SegsOp.note (x.sys s v) h (.delObjectLocked key md) (), v, rfl⟩

theorem runs_apply : Runs L apply x { x with disk := x.disk.apply x.batch, batch := [] } true :=
  fun s h v => ⟨PebbleOp.note (x.sys s v) x.batch h .apply true, applyEffects v h.stage, rfl⟩

/-! ## 3. Lookups -/

/-- The mapping a lookup finds: the cached one, else pebble's. -/
def Solo.look (x : Solo) (key : Key) : Option ObjectMeta :=
  x.cache.find? key <|> x.disk.mapping.find? key

/-- `GetMapping` leaves a key that it finds in pebble in the cache. -/
def MetaCache.readThrough (c : MetaCache) (d : Disk) (key : Key) : MetaCache :=
  match c.find? key, d.mapping.find? key with
  | none, some md => (c.get key).2.put key md
  | _, _ => (c.get key).2

/-- The result of `GetMapping` for what it finds. -/
def foundOr : Option ObjectMeta → Res ObjectMeta
  | some md => .ok md
  | none => .error .notFound

theorem runs_getMapping (key : Key) :
    Runs L (getMapping key) x { x with cache := x.cache.readThrough x.disk key }
      (foundOr (x.look key)) := by
  refine (runs_cacheGet key).bind ?_
  unfold Solo.look MetaCache.readThrough
  cases hc : x.cache.find? key with
  | some md => exact .pure _
  | none =>
    refine (runs_mappingGet key .lookup).bind ?_
    dsimp only
    cases hm : x.disk.mapping.find? key with
    | none => exact .pure _
    | some md => exact (runs_cachePut key md).bind (.pure _)

/-! ## 4. Commits -/

/-- A commit of one put: the batch is built on an empty one. -/
def Solo.commitPut (x : Solo) (key : Key) (md : ObjectMeta) (old : Option ObjectMeta) : Solo :=
  { x with
    disk := x.disk.apply (x.segs.putObjectLocked [] key md old).1
    segs := (x.segs.putObjectLocked [] key md old).2 }

/-- A commit of one delete. -/
def Solo.commitDel (x : Solo) (key : Key) (md : ObjectMeta) : Solo :=
  { x with
    disk := x.disk.apply (x.segs.delObjectLocked [] key md).1
    segs := (x.segs.delObjectLocked [] key md).2 }

theorem runs_putObject (hx : x.Idle) (key : Key) (md : ObjectMeta) (old : Option ObjectMeta)
    (value : Option Bytes) :
    Runs L (putObject key md old value) x (x.commitPut key md old) true := by
  obtain ⟨d, m, c, mu, b⟩ := x
  obtain ⟨rfl, rfl⟩ := hx
  exact (runs_segsLock rfl).bind ((runs_putObjectLocked key md old value).bind
    (runs_segsUnlock.bind runs_apply))

theorem runs_delObject (hx : x.Idle) (key : Key) (md : ObjectMeta) :
    Runs L (delObject key md) x (x.commitDel key md) true := by
  obtain ⟨d, m, c, mu, b⟩ := x
  obtain ⟨rfl, rfl⟩ := hx
  exact (runs_segsLock rfl).bind ((runs_delObjectLocked key md).bind
    (runs_segsUnlock.bind runs_apply))

/-- `PutMapping`. -/
theorem runs_putMapping (hx : x.Idle) (key : Key) (md : ObjectMeta) (value : Option Bytes) :
    Runs L (putMapping key md value) x
      { x.commitPut key md (x.look key) with cache := (x.cache.get key).2.put key md } (.ok ()) := by
  -- the lookup leaves the cache as `get` does: it does not fill
  have hlook : Runs L (do
      match ← cacheGet key with
      | some om => Pure.pure (some om)
      | none => mappingGet key .lookup) x { x with cache := (x.cache.get key).2 } (x.look key) := by
    refine (runs_cacheGet key).bind ?_
    unfold Solo.look
    cases x.cache.find? key with
    | some om => exact .pure _
    | none => exact runs_mappingGet key .lookup
  have hidle : Solo.Idle { x with cache := (x.cache.get key).2 } := ⟨hx.segMu, hx.batch⟩
  refine hlook.bind ((runs_putObject hidle key md _ value).bind ?_)
  exact (runs_cachePut key md).bind (.pure _)

/-- `DeleteMapping`. -/
theorem runs_deleteMapping_none (h : x.look key = none) :
    Runs L (deleteMapping key) x { x with cache := x.cache.readThrough x.disk key }
      (.error .notFound) := by
  refine (runs_getMapping key).bind ?_
  rw [h]
  exact .pure _

theorem runs_deleteMapping_some (hx : x.Idle) (h : x.look key = some md) :
    Runs L (deleteMapping key) x
      { x.commitDel key md with cache := (x.cache.readThrough x.disk key).del key } (.ok ()) := by
  refine (runs_getMapping key).bind ?_
  rw [h]
  have hidle : Solo.Idle { x with cache := x.cache.readThrough x.disk key } := ⟨hx.segMu, hx.batch⟩
  refine (runs_delObject hidle key md).bind ?_
  exact (runs_cacheDel key).bind (.pure _)

end Taihu
