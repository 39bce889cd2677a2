/-
# Cache coherence

An entry of the cache may differ from pebble for a while: between an `Apply` and the cache
update that follows it the writer still OWES the refresh of the key.  The invariant is that this
is the only way to differ (`CacheTracked`).  It is kept by every step except one, a `put` of a
mapping that is not what pebble holds (any more) and that no refresh will correct: the
fill after a lookup, and the write-through of a `PutMapping` that another writer has overtaken.
A run without such fills is coherent whenever no call is in progress (`cache_coherent_of_run`); a
run with one need not be (`stale_fill_after_delete`).
-/
import Taihu.Duty
import Taihu.FreePool

namespace Taihu

open Concur

/-! ## 1. The invariant -/

/-- Every cache entry is what pebble holds, or some thread will refresh it. -/
structure CacheTracked (s : Sys) (ls : List Local) : Prop where
  entry : ∀ key md, s.cache.find? key = some md →
    s.db.disk.mapping.find? key = some md ∨ ∃ l ∈ ls, key ∈ l.duty.refresh
  /-- A thread that applies its batch knows which keys to refresh. -/
  staged : ∀ l ∈ ls, ∀ key ∈ Batch.keys l.batch, key ∈ l.duty.stage

variable {L : Layout} {s s' : Sys} {l l' : Local} {rest : List Local}

theorem CacheTracked.perm {ls ls' : List Local} (hp : ls.Perm ls') (h : CacheTracked s ls) :
    CacheTracked s ls' where
  entry := fun key md hc => (h.entry key md hc).imp_right
    fun ⟨l, hl, hr⟩ => ⟨l, hp.mem_iff.mp hl, hr⟩
  staged := fun l hl => h.staged l (hp.mem_iff.mpr hl)

/-- A refresh is owed by the stepping thread or by another. -/
theorem owed_cons {key : Key} : (∃ x ∈ l :: rest, key ∈ x.duty.refresh) ↔
    key ∈ l.duty.refresh ∨ ∃ x ∈ rest, key ∈ x.duty.refresh := by
  simp only [List.mem_cons, exists_eq_or_imp]

/-- A step that changes no entry and no mapping, and pays off no refresh. -/
theorem CacheTracked.frame (h : CacheTracked s (l :: rest))
    (hc : ∀ key, s'.cache.find? key = s.cache.find? key)
    (hm : s'.db.disk.mapping = s.db.disk.mapping) (hr : l'.duty.refresh = l.duty.refresh)
    (hb : ∀ key ∈ Batch.keys l'.batch, key ∈ l'.duty.stage) : CacheTracked s' (l' :: rest) where
  entry := by
    intro key md hk
    rw [hc] at hk
    rw [hm, owed_cons, hr, ← owed_cons]
    exact h.entry key md hk
  staged := by
    intro x hx
    rcases List.mem_cons.mp hx with rfl | hx
    · exact hb
    · exact h.staged x (List.mem_cons_of_mem _ hx)

/-! ## 2. The steps -/

/-- A thread that stages one more key. -/
theorem CacheTracked.encode (h : CacheTracked s (l :: rest)) {key : Key}
    (hc : s'.cache = s.cache) (hm : s'.db.disk.mapping = s.db.disk.mapping)
    (hd : l'.duty = { l.duty with batch := l'.batch, stage := l.duty.stage ++ [key] })
    (hb : Batch.keys l'.batch = Batch.keys l.batch ++ [key]) : CacheTracked s' (l' :: rest) := by
  have hr : l'.duty.refresh = l.duty.refresh := by rw [hd]
  have hst : l'.duty.stage = l.duty.stage ++ [key] := by rw [hd]
  refine h.frame (fun k => by rw [hc]) hm hr ?_
  intro k hk
  rw [hst]
  rw [hb] at hk
  rcases List.mem_append.mp hk with hk | hk
  · exact List.mem_append_left _ (h.staged l List.mem_cons_self k hk)
  · exact List.mem_append_right _ hk

/-- An `Apply`: the thread now owes the refresh of every key it has written. -/
theorem CacheTracked.apply (h : CacheTracked s (l :: rest)) {ok : Bool}
    (hx : exec L s l (.pebble .apply) = some (s', l', ok)) : CacheTracked s' (l' :: rest) := by
  have hd := duty_apply hx
  have hcache : s'.cache = s.cache := exec_cache hx (by simp)
  obtain ⟨fs, hl', rfl⟩ := exec_apply hx
  have hnil : l'.batch = [] := by rw [hl']
  have hr : l'.duty.refresh = if ok then l.duty.refresh ++ l.duty.stage else l.duty.refresh :=
    congrArg Duty.refresh hd
  cases ok with
  | false => exact h.frame (fun k => rfl) rfl hr (by simp [hnil, Batch.keys])
  | true =>
    constructor
    · intro key md hk
      by_cases hkey : key ∈ Batch.keys l.batch
      · refine Or.inr (owed_cons.mpr (Or.inl ?_))
        rw [hr]
        exact List.mem_append_right _ (h.staged l List.mem_cons_self key hkey)
      · have hsame := Disk.find?_apply_of_notMem s.db.disk hkey
        rcases h.entry key md hk with hold | hold
        · exact Or.inl (hsame.trans hold)
        · refine Or.inr (owed_cons.mpr ((owed_cons.mp hold).imp_left fun hin => ?_))
          rw [hr]
          exact List.mem_append_left _ hin
    · intro x hx'
      rcases List.mem_cons.mp hx' with rfl | hx'
      · simp [hnil, Batch.keys]
      · exact h.staged x (List.mem_cons_of_mem _ hx')

/-- A `del` of the cache pays off a refresh of its key, and leaves no entry there. -/
theorem CacheTracked.cacheDel (h : CacheTracked s (l :: rest)) {key : Key} {r : Unit}
    (hx : exec L s l (.cache (.del key)) = some (s', l', r)) : CacheTracked s' (l' :: rest) := by
  have hd := duty_cacheDel hx
  cases hx
  constructor
  · intro k md hk
    obtain ⟨hne, hold⟩ := MetaCache.find?_del.mp hk
    refine (h.entry k md hold).imp_right fun howed =>
      owed_cons.mpr ((owed_cons.mp howed).imp_left fun hin => ?_)
    rw [hd]
    exact (List.mem_erase_of_ne hne).mpr hin
  · intro x hx'
    rcases List.mem_cons.mp hx' with rfl | hx'
    · exact h.staged l List.mem_cons_self
    · exact h.staged x (List.mem_cons_of_mem _ hx')

/-- What a `put` of the cache may put: the mapping pebble holds, or any if another refresh of
the key is still to come. -/
def FillFresh (s : Sys) (l : Local) (rest : List Local) (key : Key) (md : ObjectMeta) : Prop :=
  s.db.disk.mapping.find? key = some md ∨ key ∈ l.hist.refresh.erase key ∨
    ∃ x ∈ rest, key ∈ x.hist.refresh

theorem CacheTracked.cachePut (h : CacheTracked s (l :: rest)) {key : Key} {md : ObjectMeta}
    {r : Unit} (hok : FillFresh s l rest key md)
    (hx : exec L s l (.cache (.put key md)) = some (s', l', r)) : CacheTracked s' (l' :: rest) := by
  have hd := duty_cachePut hx
  cases hx
  constructor
  · intro k md' hk
    rcases MetaCache.find?_put hk with ⟨rfl, rfl⟩ | ⟨hne, hold⟩
    · exact hok.imp_right fun howed => owed_cons.mpr howed
    · refine (h.entry k md' hold).imp_right fun howed =>
        owed_cons.mpr ((owed_cons.mp howed).imp_left fun hin => ?_)
      rw [hd]
      exact (List.mem_erase_of_ne hne).mpr hin
  · intro x hx'
    rcases List.mem_cons.mp hx' with rfl | hx'
    · exact h.staged l List.mem_cons_self
    · exact h.staged x (List.mem_cons_of_mem _ hx')

/-! ## 3. Runs -/

/-- The step is no `put` of the cache, or a fresh one. -/
def FillsFresh (s : Sys) (l : Local) (rest : List Local) : Op → Prop
  | .cache (.put key md) => FillFresh s l rest key md
  | _ => True

instance (s : Sys) (l : Local) (rest : List Local) (key : Key) (md : ObjectMeta) :
    Decidable (FillFresh s l rest key md) :=
  inferInstanceAs (Decidable (_ ∨ _ ∨ ∃ x ∈ rest, key ∈ x.hist.refresh))

instance (s : Sys) (l : Local) (rest : List Local) : (o : Op) → Decidable (FillsFresh s l rest o)
  | .cache (.put key md) => inferInstanceAs (Decidable (FillFresh s l rest key md))
  | .cache (.get _) => .isTrue True.intro
  | .cache (.del _) => .isTrue True.intro
  | .pebble _ => .isTrue True.intro
  | .segs _ => .isTrue True.intro
  | .alloc _ => .isTrue True.intro
  | .dev _ => .isTrue True.intro

/-- Every step keeps the invariant, if what it puts into the cache is fresh. -/
theorem CacheTracked.step (h : CacheTracked s (l :: rest)) {o : Op} {r : o.Reply}
    (hok : FillsFresh s l rest o) (hx : exec L s l o = some (s', l', r)) :
    CacheTracked s' (l' :: rest) := by
  -- what the operations off the cache, other than `Apply`, have in common
  have hoff : (∀ c, o ≠ .cache c) → o ≠ .pebble .apply →
      l'.duty = ⟨l.batch, l.duty.stage, l.duty.refresh, l'.duty.inSegs, l'.duty.inAlloc⟩ →
      CacheTracked s' (l' :: rest) := by
    intro hc ha hd
    have hb : l'.batch = l.batch := congrArg Duty.batch hd
    have hst : l'.duty.stage = l.duty.stage := by rw [hd]
    have hr : l'.duty.refresh = l.duty.refresh := by rw [hd]
    refine h.frame (fun k => by rw [exec_cache hx hc]) (exec_mapping hx ha) hr ?_
    rw [hst, hb]
    exact h.staged l List.mem_cons_self
  have hcalm : (∀ c, o ≠ .cache c) → o.Calm → CacheTracked s' (l' :: rest) := by
    intro hc ho
    refine hoff hc ?_ (by rw [duty_frame hx hc ho]; rfl)
    rintro rfl
    exact ho
  cases o with
  | cache o =>
    cases o with
    | get key =>
      have hd := duty_cacheGet hx
      have hst : l'.duty.stage = l.duty.stage := congrArg Duty.stage hd
      have hb : l'.batch = l.batch := congrArg Duty.batch hd
      have hcache : ∀ k, s'.cache.find? k = s.cache.find? k := by
        cases hx
        exact fun k => MetaCache.find?_get s.cache key k
      refine h.frame hcache (exec_mapping hx (by simp)) (congrArg Duty.refresh hd) ?_
      rw [hst, hb]
      exact h.staged l List.mem_cons_self
    | put key md => exact h.cachePut hok hx
    | del key => exact h.cacheDel hx
  | pebble o =>
    cases o with
    | apply => exact h.apply hx
    | getMapping key site => exact hcalm (by simp) True.intro
    | getMany keys => exact hcalm (by simp) True.intro
    | iterMapping => exact hcalm (by simp) True.intro
    | getSegment id => exact hcalm (by simp) True.intro
  | segs o =>
    cases o with
    | lock => exact hoff (by simp) (by simp) (by rw [duty_segsLock hx]; rfl)
    | unlock => exact hoff (by simp) (by simp) (by rw [duty_segsUnlock hx]; rfl)
    | putObjectLocked key md old v =>
      refine h.encode (exec_cache hx (by simp)) (exec_mapping hx (by simp))
        (duty_putObjectLocked hx) ?_
      obtain ⟨-, rfl⟩ := exec_putObjectLocked hx
      exact s.segs.putObjectLocked_keys _ _ _ _
    | delObjectLocked key md =>
      refine h.encode (exec_cache hx (by simp)) (exec_mapping hx (by simp))
        (duty_delObjectLocked hx) ?_
      obtain ⟨-, rfl⟩ := exec_delObjectLocked hx
      exact s.segs.delObjectLocked_keys _ _ _
    | _ => exact hcalm (by simp) True.intro
  | alloc o =>
    cases o with
    | lock => exact hoff (by simp) (by simp) (by rw [duty_allocLock hx]; rfl)
    | unlock => exact hoff (by simp) (by simp) (by rw [duty_allocUnlock hx]; rfl)
    | _ => exact hcalm (by simp) True.intro
  | dev o => exact hcalm (by simp) True.intro

/-- Every call may start and the store may be reopened at any time; the cache gets fresh
mappings only. -/
def freshFills : Rule sig Sys Local Call where
  permit := fun _ => True
  restarts := True
  allow := FillsFresh

instance (call : Call) : Decidable (freshFills.permit call) := inferInstanceAs (Decidable True)
instance : Decidable freshFills.restarts := inferInstanceAs (Decidable True)
instance (s : Sys) (l : Local) (ls : List Local) (o : Op) :
    Decidable (freshFills.allow s l ls o) := inferInstanceAs (Decidable (FillsFresh s l ls o))

/-- Tracked entries as an invariant of runs; a call that returns owes nothing. -/
def cacheDiscipline (L : Layout) : Discipline (machine L) where
  toRule := freshFills
  contract := (machine L).possible
  inv := CacheTracked
  post := fun _ l => l.duty = .none
  perm := fun _ _ _ hp h => h.perm hp
  spawn := by
    intro s ls call _ h
    constructor
    · exact fun key md hc => (h.entry key md hc).imp_right
        fun ⟨l, hl, hr⟩ => ⟨l, List.mem_cons_of_mem _ hl, hr⟩
    · intro l hl
      rcases List.mem_cons.mp hl with rfl | hl
      · exact fun key hk => absurd hk List.not_mem_nil
      · exact h.staged l hl
  starts := fun call _ => code_settles L call _ rfl
  retire := fun s l rest _ hd h => ⟨h.frame (fun _ => rfl) rfl rfl (h.staged l List.mem_cons_self), hd⟩
  restart := fun _ s ls _ =>
    ⟨fun key md hc => absurd hc (by simp [machine, Sys.reopen]), fun l hl => absurd hl List.not_mem_nil⟩
  sound := fun s l rest o s' l' r h _ hok hx => ⟨h.step hok hx, s, s', True.intro, hx⟩

theorem cacheTracked_init (bytes : Int → Byte) (dbFaults devFaults : List Bool) :
    CacheTracked (Sys.init bytes dbFaults devFaults) [] :=
  ⟨fun key md hc => absurd hc (by simp [Sys.init]), fun l hl => absurd hl List.not_mem_nil⟩

/-- **Cache coherence.**  After every run whose fills are all fresh, when no call is in progress,
each cache entry equals the mapping in pebble (so a key without a mapping has no entry). -/
theorem cache_coherent_of_run (L : Layout) (bytes : Int → Byte) (dbFaults devFaults : List Bool)
    (as : List (Act Call)) (c : SysConf)
    (hok : (machine L).Along freshFills.Admits (SysConf.init bytes dbFaults devFaults) as)
    (hrun : (machine L).run (SysConf.init bytes dbFaults devFaults) as = some c)
    (hq : c.Quiescent) (key : Key) (md : ObjectMeta)
    (hc : c.shared.cache.find? key = some md) :
    c.shared.db.disk.mapping.find? key = some md := by
  have h := (cacheDiscipline L).run ((cacheDiscipline L).holds_initial
    (cacheTracked_init bytes dbFaults devFaults)) hok hrun
  rcases h.inv.entry key md hc with hm | ⟨l, hl, hr⟩
  · exact hm
  · -- a thread that owes a refresh has not returned
    obtain ⟨⟨l', p⟩, hth, rfl⟩ := List.mem_map.mp hl
    have hdone := hq _ hth
    cases p with
    | request o next => exact absurd hdone (by simp [Program.isDone])
    | pure a =>
      have hd : l'.duty = .none := h.post hth rfl
      rw [hd] at hr
      exact absurd hr List.not_mem_nil

/-- An object is put and looked up again through an empty cache: the store is reopened in
between. -/
def putReopenGet : List (Act Call) :=
  Act.calls (.put [1] 1 [7]) 0 15 ++ [.restart] ++ Act.calls (.getMapping [1]) 0 3

theorem cache_coherent_of_putReopenGet : ∃ c : SysConf,
    (machine ⟨8192, 4⟩).run (SysConf.init (fun _ => 0) [] []) putReopenGet = some c ∧
      c.shared.cache.find? [1] = some ⟨0, 0, 1⟩ ∧
      c.shared.db.disk.mapping.find? [1] = some ⟨0, 0, 1⟩ := by
  obtain ⟨c, hc, hview⟩ := Option.map_eq_some_iff.mp
    (show ((machine ⟨8192, 4⟩).run (SysConf.init (fun _ => 0) [] []) putReopenGet).map
      (fun c => (c.shared.cache.find? [1], decide c.Quiescent)) = some (some ⟨0, 0, 1⟩, true) by
        decide +kernel)
  simp only [Prod.mk.injEq, decide_eq_true_eq] at hview
  obtain ⟨hcache, hq⟩ := hview
  exact ⟨c, hc, hcache, cache_coherent_of_run ⟨8192, 4⟩ (fun _ => 0) [] [] putReopenGet c
    (by decide +kernel) hc hq [1] ⟨0, 0, 1⟩ hcache⟩

/-- A lookup misses the cache, the object is put, the lookup reads pebble, the object is
deleted, and the lookup fills the cache. -/
def lateFill : List (Act Call) :=
  Act.calls (.getMapping [1]) 0 1 ++ Act.calls (.put [1] 1 [7]) 1 15 ++ [.step 0]
    ++ Act.calls (.deleteMapping [1]) 2 6 ++ [.step 0]

/-- **A stale fill.**  No call is in progress, the key is deleted in pebble, and the cache still
has its mapping. -/
theorem stale_fill_after_delete : ∃ c : SysConf,
    (machine ⟨8192, 4⟩).run (SysConf.init (fun _ => 0) [] []) lateFill = some c ∧
      c.Quiescent ∧ c.shared.db.disk.mapping.find? [1] = none ∧
      ¬ ∀ key md, c.shared.cache.find? key = some md →
        c.shared.db.disk.mapping.find? key = some md := by
  obtain ⟨c, hc, hview⟩ := Option.map_eq_some_iff.mp
    (show ((machine ⟨8192, 4⟩).run (SysConf.init (fun _ => 0) [] []) lateFill).map
      (fun c => (c.shared.db.disk.mapping.find? [1], c.shared.cache.find? [1],
        decide c.Quiescent)) = some (none, some ⟨0, 0, 1⟩, true) by decide +kernel)
  simp only [Prod.mk.injEq, decide_eq_true_eq] at hview
  obtain ⟨hm, hcache, hq⟩ := hview
  refine ⟨c, hc, hq, hm, fun h => ?_⟩
  have hin := h [1] ⟨0, 0, 1⟩ hcache
  rw [hm] at hin
  exact absurd hin (by simp)

end Taihu
