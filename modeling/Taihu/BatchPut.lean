/-
# `BatchPutMapping` and one put after another

The batch takes the mapping an item replaces from the cache, and fills the cache only after its
commit.  So the second of two items with one key does not see the first: it replaces, once more,
the mapping the key had before the batch.  Only the segment of that mapping matters for the
counts; where it is also the segment of the first item, nothing is lost.

The cache itself comes out the same: what it holds depends only on the order of the last uses,
and the reads of a batch are followed by writes of the same keys.
-/
import Taihu.Frame
import Taihu.FreePool
import Taihu.Sequential
import Taihu.CacheOrder

namespace Taihu

open Concur Recency

/-! ## 1. The programs -/

/-- `PutMapping` of one item after another. -/
def putEach : List PutMappingItem → Proc (Res Unit)
  | [] => pure (.ok ())
  | it :: items => do
    match ← putMapping it.key it.md it.value with
    | .error e => pure (.error e)
    | .ok () => putEach items

/-- Two stores with the same mappings, cached mappings, segments and free pool. -/
structure SameTables (s s' : Sys) : Prop where
  mapping : s.db.disk.mapping = s'.db.disk.mapping
  cache : ∀ key, s.cache.find? key = s'.cache.find? key
  alive : ∀ id, (s.segs.segs.find? id).map (fun e => e.md.aliveCount)
    = (s'.segs.segs.find? id).map (fun e => e.md.aliveCount)
  state : ∀ id, s.segs.state? id = s'.segs.state? id
  free : s.segs.free = s'.segs.free

/-- The batch and the single puts, started from the same state, succeed and leave the same
store. -/
def BatchPutRefines (L : Layout) (s : Sys) (l : Local) (items : List PutMappingItem) : Prop :=
  ∃ s1 l1 s2 l2, (batchPutMapping items).exec (exec L) s l = some (s1, l1, .ok ()) ∧
    (putEach items).exec (exec L) s l = some (s2, l2, .ok ()) ∧ SameTables s1 s2

/-! ## 2. The commits -/

namespace SegmentManager

/-- The puts under one lock, from batch `b` on; `old` gives the mappings they replace. -/
def putAll (m : SegmentManager) (b : Batch) (old : Key → Option ObjectMeta) :
    List PutMappingItem → Batch × SegmentManager
  | [] => (b, m)
  | it :: items => (m.putObjectLocked b it.key it.md (old it.key)).2.putAll
      (m.putObjectLocked b it.key it.md (old it.key)).1 old items

/-- A put extends the batch it is given. -/
theorem putObjectLocked_append (m : SegmentManager) (b : Batch) (key : Key) (md : ObjectMeta)
    (old : Option ObjectMeta) : m.putObjectLocked b key md old
      = (b ++ (m.putObjectLocked [] key md old).1, (m.putObjectLocked [] key md old).2) := by
  refine Prod.ext ?_ (putObjectLocked_snd_batch m b [] key md old)
  unfold putObjectLocked
  cases old with
  | none => simp
  | some o =>
    dsimp only
    split
    · simp
    · unfold dropObject
      split <;> simp

/-- Of the replaced mapping only the segment matters. -/
theorem putObjectLocked_congr (m : SegmentManager) (b : Batch) (key : Key) (md : ObjectMeta)
    {old old' : Option ObjectMeta}
    (h : old.map ObjectMeta.segmentID = old'.map ObjectMeta.segmentID) :
    m.putObjectLocked b key md old = m.putObjectLocked b key md old' := by
  cases old with
  | none =>
    cases old' with
    | none => rfl
    | some o' => exact absurd h (by simp)
  | some o =>
    cases old' with
    | none => exact absurd h (by simp)
    | some o' =>
      have hs : o.segmentID = o'.segmentID := by simpa using h
      unfold putObjectLocked oldSame
      simp only [hs]

theorem putAll_append (old : Key → Option ObjectMeta) (items : List PutMappingItem) :
    ∀ (m : SegmentManager) (b : Batch),
      m.putAll b old items = (b ++ (m.putAll [] old items).1, (m.putAll [] old items).2) := by
  induction items with
  | nil => exact fun m b => by simp [putAll]
  | cons it items ih =>
    intro m b
    rw [putAll, putAll, ih, putObjectLocked_append,
      ih _ (m.putObjectLocked [] it.key it.md (old it.key)).1, List.append_assoc]

end SegmentManager

/-- One commit for all puts; `c` is the cache afterwards. -/
def Solo.commitPuts (x : Solo) (old : Key → Option ObjectMeta) (items : List PutMappingItem)
    (c : MetaCache) : Solo :=
  { x with
    disk := x.disk.apply (x.segs.putAll [] old items).1
    segs := (x.segs.putAll [] old items).2
    cache := c }

/-- A commit of the first put and one of the rest leave the same tables. -/
theorem Solo.commitPuts_cons (x : Solo) (old : Key → Option ObjectMeta) (it : PutMappingItem)
    (items : List PutMappingItem) (c c' : MetaCache) :
    Solo.commitPuts { x.commitPut it.key it.md (old it.key) with cache := c } old items c'
      = x.commitPuts old (it :: items) c' := by
  unfold commitPuts commitPut
  rw [SegmentManager.putAll, SegmentManager.putAll_append old items _
    (x.segs.putObjectLocked [] it.key it.md (old it.key)).1, Disk.apply_append]

theorem Solo.commitPut_congr (x : Solo) (key : Key) (md : ObjectMeta) {old old' : Option ObjectMeta}
    (h : old.map ObjectMeta.segmentID = old'.map ObjectMeta.segmentID) :
    x.commitPut key md old = x.commitPut key md old' := by
  unfold commitPut
  rw [SegmentManager.putObjectLocked_congr x.segs [] key md h]

/-! ## 3. The cache -/

namespace MetaCache

/-- Reads of the keys. -/
def getAll (c : MetaCache) (keys : List Key) : MetaCache := keys.foldl (fun c key => (c.get key).2) c

/-- Writes of the items. -/
def putAll (c : MetaCache) (items : List PutMappingItem) : MetaCache :=
  items.foldl (fun c it => c.put it.key it.md) c

/-- Each item read and written. -/
def getPutAll (c : MetaCache) (items : List PutMappingItem) : MetaCache :=
  items.foldl (fun c it => (c.get it.key).2.put it.key it.md) c

/-- The entries the items make in one shard. -/
def inShard (i : Fin shardCount) (items : List PutMappingItem) : List (Key × ObjectMeta) :=
  (items.filter (fun it => shardFor it.key = i)).map (fun it => (it.key, it.md))

variable {c : MetaCache}

theorem Within.get (h : c.Within) (key : Key) : (c.get key).2.Within := by
  intro i
  rw [order_get]
  split
  · exact (weight_bump_le keyCost_nonneg key _).trans (h i)
  · exact h i

theorem Within.put (h : c.Within) (key : Key) (m : ObjectMeta) : (c.put key m).Within := by
  intro i
  rw [order_put key (h _)]
  split
  · exact weight_fit_le _ (by decide)
  · exact h i

theorem Within.del (h : c.Within) (key : Key) : (c.del key).Within := by
  intro i
  rw [order_del]
  split
  · exact (weight_filter_le keyCost_nonneg _ _).trans (h i)
  · exact h i

theorem within_empty : empty.Within := fun _ => (by decide : (0 : Int) ≤ perShardLimit)

theorem Within.getAll (keys : List Key) : ∀ {c : MetaCache}, c.Within → (c.getAll keys).Within := by
  induction keys with
  | nil => exact fun h => h
  | cons key keys ih => exact fun h => ih (h.get key)

/-- Reads only reorder. -/
theorem order_getAll (i : Fin shardCount) (keys : List Key) : ∀ c : MetaCache,
    (c.getAll keys).order i = bumpAll (keys.filter (fun key => shardFor key = i)) (c.order i) := by
  induction keys with
  | nil => exact fun _ => rfl
  | cons key keys ih =>
    intro c
    refine (ih _).trans ?_
    rw [order_get]
    by_cases hi : shardFor key = i
    · rw [if_pos hi.symm, List.filter_cons_of_pos (by simpa using hi)]
      rfl
    · rw [if_neg (fun he => hi he.symm), List.filter_cons_of_neg (by simpa using hi)]

/-- Writes with evictions in between leave what one eviction at the end leaves. -/
theorem order_putAll (i : Fin shardCount) (items : List PutMappingItem) :
    ∀ {c : MetaCache}, c.Within → (c.putAll items).order i
      = fit keyCost perShardLimit (touchAll (inShard i items) (c.order i)) := by
  intro c h
  have hfit := fit_of_weight_le keyCost_nonneg (h i)
  rw [← writeAll_fit keyCost_nonneg (inShard i items) (c.nodup_order i), hfit]
  clear hfit
  induction items generalizing c with
  | nil => rfl
  | cons it items ih =>
    refine (ih (h.put it.key it.md)).trans ?_
    rw [order_put it.key (h _)]
    unfold inShard
    by_cases hi : shardFor it.key = i
    · rw [if_pos hi.symm, List.filter_cons_of_pos (by simpa using hi), List.map_cons,
        List.foldl_cons]
    · rw [if_neg (fun he => hi he.symm), List.filter_cons_of_neg (by simpa using hi)]

/-- A read of the key that is written next leaves no trace. -/
theorem order_getPut (h : c.Within) (key : Key) (m : ObjectMeta) (i : Fin shardCount) :
    ((c.get key).2.put key m).order i = (c.put key m).order i := by
  rw [order_put key (h.get key _), order_put key (h _), order_get]
  split
  · rw [touch_bump]
  · rfl

/-- Writes see nothing of a cache but its order. -/
theorem order_put_congr {c' : MetaCache} (h : c.Within) (he : ∀ i, c.order i = c'.order i)
    (key : Key) (m : ObjectMeta) (i : Fin shardCount) :
    (c.put key m).order i = (c'.put key m).order i := by
  rw [order_put key (h _), order_put key (he _ ▸ h _), he]

theorem order_getPutAll (i : Fin shardCount) (items : List PutMappingItem) :
    ∀ {c c' : MetaCache}, c.Within → (∀ j, c.order j = c'.order j) →
      (c.getPutAll items).order i = (c'.putAll items).order i := by
  induction items with
  | nil => exact fun _ he => he i
  | cons it items ih =>
    intro c c' h he
    refine ih ((h.get it.key).put it.key it.md) fun j => ?_
    rw [order_getPut h, order_put_congr h he]

/-- **The batch leaves the cache of single puts.** -/
theorem find?_batchPut (h : c.Within) (items : List PutMappingItem) (key : Key) :
    ((c.getAll (items.map PutMappingItem.key)).putAll items).find? key
      = (c.getPutAll items).find? key := by
  refine find?_congr (fun i => ?_) key
  rw [order_getPutAll i items h fun _ => rfl, order_putAll i items (h.getAll _), order_getAll,
    order_putAll i items h, touchAll_bumpAll]
  intro k hk
  obtain ⟨hk, hi⟩ := List.mem_filter.mp hk
  obtain ⟨it, hit, rfl⟩ := List.mem_map.mp hk
  unfold inShard
  rw [List.map_map]
  exact List.mem_map.mpr ⟨it, List.mem_filter.mpr ⟨hit, hi⟩, rfl⟩

end MetaCache

/-! ## 4. The two runs -/

variable {L : Layout} {x : Solo}

theorem runs_batchPutLocked {old : Key → Option ObjectMeta} (items : List PutMappingItem) :
    ∀ x : Solo, (∀ key, x.cache.find? key = old key) →
      Runs L (batchPutLocked items) x
        { x with
          batch := (x.segs.putAll x.batch old items).1
          segs := (x.segs.putAll x.batch old items).2
          cache := x.cache.getAll (items.map PutMappingItem.key) } () := by
  induction items with
  | nil => exact fun _ _ => .pure ()
  | cons it items ih =>
    intro x hold
    refine (runs_cacheGet it.key).bind ?_
    rw [hold]
    refine (runs_putObjectLocked it.key it.md (old it.key) it.value).bind ?_
    exact ih _ fun key => (MetaCache.find?_get x.cache it.key key).trans (hold key)

theorem runs_cachePutAll (items : List PutMappingItem) : ∀ x : Solo,
    Runs L (cachePutAll (items.map (fun it => (it.key, it.md)))) x
      { x with cache := x.cache.putAll items } () := by
  induction items with
  | nil => exact fun x => .pure ()
  | cons it items ih => exact fun _ => (runs_cachePut _ it.md).bind (ih _)

/-- **What the batch does.** -/
theorem runs_batchPutMapping (hx : x.Idle) (items : List PutMappingItem) :
    Runs L (batchPutMapping items) x
      (x.commitPuts x.cache.find? items
        ((x.cache.getAll (items.map PutMappingItem.key)).putAll items)) (.ok ()) := by
  unfold batchPutMapping
  split
  · rename_i hnil
    rw [hnil]
    exact .pure _
  · obtain ⟨d, m, c, mu, b⟩ := x
    obtain ⟨rfl, rfl⟩ := hx
    refine (runs_segsLock rfl).bind ((runs_batchPutLocked items _ fun _ => rfl).bind
      (runs_segsUnlock.bind (runs_apply.bind ?_)))
    exact (runs_cachePutAll items _).bind (.pure _)

/-- An item whose key comes again lies in the segment of the mapping the key had at first. -/
def RepeatsStay (old : Key → Option ObjectMeta) : List PutMappingItem → Prop
  | [] => True
  | it :: items => (it.key ∈ items.map PutMappingItem.key →
      (old it.key).map ObjectMeta.segmentID = some it.md.segmentID) ∧ RepeatsStay old items

instance decidableRepeatsStay (old : Key → Option ObjectMeta) :
    (items : List PutMappingItem) → Decidable (RepeatsStay old items)
  | [] => .isTrue True.intro
  | _ :: items =>
    have := decidableRepeatsStay old items
    inferInstanceAs (Decidable (_ ∧ _))

/-- **What single puts do**, where each of them replaces a mapping in the segment that `old`
gives for its key. -/
theorem runs_putEach {old : Key → Option ObjectMeta} (items : List PutMappingItem) :
    ∀ {x : Solo}, x.Idle → RepeatsStay old items →
      (∀ it ∈ items, (x.disk.mapping.find? it.key).map ObjectMeta.segmentID
        = (old it.key).map ObjectMeta.segmentID) →
      (∀ it ∈ items, ∀ md, x.cache.find? it.key = some md →
        x.disk.mapping.find? it.key = some md) →
      Runs L (putEach items) x (x.commitPuts old items (x.cache.getPutAll items)) (.ok ()) := by
  induction items with
  | nil => exact fun _ _ _ _ => .pure _
  | cons it items ih =>
    intro x hx hstay hold hcoh
    obtain ⟨hhere, hstay⟩ := hstay
    have hsee : x.look it.key = x.disk.mapping.find? it.key := by
      unfold Solo.look
      cases hc : x.cache.find? it.key with
      | none => rfl
      | some md => exact (hcoh it List.mem_cons_self md hc).symm
    have hcommit : x.commitPut it.key it.md (x.look it.key)
        = x.commitPut it.key it.md (old it.key) := by
      rw [hsee]
      exact x.commitPut_congr it.key it.md (hold it List.mem_cons_self)
    have hmap : ∀ key, (x.commitPut it.key it.md (old it.key)).disk.mapping.find? key
        = if key = it.key then some it.md else x.disk.mapping.find? key := by
      intro key
      have hm := SegmentManager.putObjectLocked_mapping x.segs [] it.key it.md (old it.key) x.disk
      rw [Disk.apply_nil] at hm
      show (x.disk.apply (x.segs.putObjectLocked [] it.key it.md (old it.key)).1).mapping.find? key = _
      rw [hm, SortedMap.find?_insert]
      by_cases he : key = it.key <;> simp [he]
    refine (runs_putMapping hx it.key it.md it.value).bind ?_
    rw [hcommit, ← Solo.commitPuts_cons x old it items ((x.cache.get it.key).2.put it.key it.md)]
    refine ih ⟨hx.segMu, hx.batch⟩ hstay (fun it' hit => ?_) fun it' hit md hc => ?_
    · rw [hmap]
      split
      · rename_i hk
        rw [hk]
        exact (hhere (hk ▸ List.mem_map_of_mem hit)).symm
      · exact hold it' (List.mem_cons_of_mem _ hit)
    · rw [hmap]
      rcases MetaCache.find?_put hc with ⟨hk, rfl⟩ | ⟨hk, hc⟩
      · rw [if_pos hk]
      · rw [if_neg hk]
        rw [MetaCache.find?_get] at hc
        exact hcoh it' (List.mem_cons_of_mem _ hit) md hc

/-! ## 5. When they agree -/

/-- The cache is within its budget in every run. -/
theorem within_of_run (L : Layout) (bytes : Int → Byte) (dbFaults devFaults : List Bool)
    (as : List (Act Call)) (c : SysConf)
    (hrun : (machine L).run (SysConf.init bytes dbFaults devFaults) as = some c) :
    c.shared.cache.Within := by
  have hall : (machine L).Along (fun _ _ => True) (SysConf.init bytes dbFaults devFaults) as :=
    (machine L).along_of_forall (fun _ _ => True.intro) as _
  refine (machine L).run_invariant (I := fun c : SysConf => c.shared.cache.Within) ?_
    MetaCache.within_empty hall hrun
  intro c a c' hw _ hact
  cases a with
  | spawn call => exact Option.some.inj hact ▸ hw
  | restart => exact Option.some.inj hact ▸ MetaCache.within_empty
  | step t =>
    obtain ⟨l, o, next, s', l', r, -, hx, rfl⟩ := (machine L).step_eq_some hact
    have hx : exec L c.shared l o = some (s', l', r) := hx
    show s'.cache.Within
    by_cases ho : ∀ o', o ≠ .cache o'
    · rw [exec_cache hx ho]
      exact hw
    · obtain ⟨o', rfl⟩ := not_forall_not.mp ho
      cases o' with
      | get key => cases hx; exact hw.get key
      | put key md => cases hx; exact hw.put key md
      | del key => cases hx; exact hw.del key

end Taihu
