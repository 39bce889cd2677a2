/-
# What the metadata cache holds after any history

A history of the cache is a list of `get`s, `put`s and `del`s on the empty cache, of any keys and
mappings.  Three things are shown of every history:

* the map and the recency list of every shard hold the same entries, `usedBytes` is what these
  are charged, and it is within the budget (`RawShard.Exact`);
* a lookup finds the mapping of the last `put` of its key, unless the key was deleted or evicted
  since, and misses otherwise (`find?_run`).  What an eviction takes out is read off the loop of
  `evictLocked` (`RawShard.evictions`), not off what is missing afterwards;
* an eviction takes the entries that have not been used for the longest time, and before each
  of them the shard was over its budget (`evicts_run`).

The second and the third rest on one fact about recency lists: their order is the order of the
last uses (`Recency.ByUse.apply`).
-/
import Taihu.CacheOrder

namespace Taihu

open Recency

/-- An operation on the cache. -/
abbrev CacheCall : Type := Op Key ObjectMeta

/-! ## 1. What an eviction takes out -/

namespace RawShard

variable {s : RawShard} {x back : Nat × CacheEntry} {key : Key} {m : ObjectMeta}

/-- The elements that `evictLoop` removes, first to last. -/
def evictions : Nat → RawShard → List (Nat × CacheEntry)
  | 0, _ => []
  | n + 1, s =>
    if s.usedBytes > perShardLimit then
      match s.ll.getLast? with
      | some back => back :: evictions n (s.remove back)
      | none => []
    else []

/-- The shard of a `put` of a key that is not there, when `evictLocked` starts. -/
def pushed (s : RawShard) (key : Key) (m : ObjectMeta) : RawShard where
  entries := s.entries.insert key s.elems
  ll := (s.elems, ⟨key, m⟩) :: s.ll
  elems := s.elems + 1
  usedBytes := s.usedBytes + (⟨key, m⟩ : CacheEntry).cost

/-- What a `put` evicts, first to last. -/
def evictedBy (s : RawShard) (key : Key) (m : ObjectMeta) : List (Key × ObjectMeta) :=
  match s.elem? key with
  | some _ => []
  | none =>
    (evictions (s.pushed key m).ll.length (s.pushed key m)).map (fun x => (x.2.key, x.2.md))

theorem put_of_new (hx : s.elem? key = none) : s.put key m = evictLocked (s.pushed key m) := by
  unfold RawShard.put
  rw [hx]
  rfl

/-- The list is what the loop leaves, and behind it what the loop removes. -/
theorem evictLoop_ll (n : Nat) : ∀ {s : RawShard}, s.WF →
    (evictLoop n s).ll ++ (evictions n s).reverse = s.ll := by
  induction n with
  | zero =>
    intro s _
    exact List.append_nil _
  | succ n ih =>
    intro s h
    rw [evictLoop, evictions]
    by_cases hlt : s.usedBytes > perShardLimit
    · rw [if_pos hlt, if_pos hlt]
      cases hx : s.ll.getLast? with
      | none => exact List.append_nil _
      | some back =>
        have hih := ih (h.remove (List.mem_of_getLast? hx))
        simp only [List.reverse_cons]
        rw [← List.append_assoc, hih]
        exact (congrArg (· ++ [back]) (unlink_getLast h hx)).trans
          (List.dropLast_append_getLast? back hx)
    · rw [if_neg hlt, if_neg hlt]
      exact List.append_nil _

/-- **The shard is over its budget before each removal.** -/
theorem evictions_over (n : Nat) : ∀ {s : RawShard}, s.WF → ∀ {pre post : List (Nat × CacheEntry)},
    evictions n s = pre ++ x :: post → perShardLimit <
      (((evictLoop n s).ll ++ (x :: post).reverse).map (fun y => y.2.cost)).sum := by
  induction n with
  | zero =>
    intro s _ pre post he
    exact absurd he (by simp [evictions])
  | succ n ih =>
    intro s h pre post he
    have hall := evictLoop_ll (n + 1) h
    rw [evictions] at he
    by_cases hlt : s.usedBytes > perShardLimit
    · rw [if_pos hlt] at he
      cases hx : s.ll.getLast? with
      | none =>
        rw [hx] at he
        exact absurd he (by simp)
      | some back =>
        simp only [hx] at he
        rcases List.cons_eq_append_iff.mp he with ⟨hpre, hcons⟩ | ⟨pre', hpre, hrest⟩
        · have hwhole : evictions (n + 1) s = x :: post := by
            rw [evictions, if_pos hlt]
            simp only [hx]
            exact hcons.symm
          rw [← hwhole, hall, ← h.used]
          exact hlt
        · have hih := ih (h.remove (List.mem_of_getLast? hx)) hrest
          rw [evictLoop, if_pos hlt, hx]
          exact hih
    · rw [if_neg hlt] at he
      exact absurd he (by simp)

/-- **What a `put` leaves and what it evicts are the old entries with the new one in front.** -/
theorem order_put_evictedBy (h : s.WF) (key : Key) (m : ObjectMeta) :
    (s.put key m).order ++ (s.evictedBy key m).reverse = touch key m s.order := by
  cases hx : s.elem? key with
  | some x =>
    obtain ⟨hmem, rfl⟩ := (elem?_eq_some h).mp hx
    unfold RawShard.put evictedBy
    rw [hx]
    refine (List.append_nil _).trans ?_
    exact congrArg ((x.2.key, m) :: ·) (order_unlink h hmem)
  | none =>
    have hall : (evictLocked (s.pushed key m)).ll ++
        (evictions (s.pushed key m).ll.length (s.pushed key m)).reverse = (s.pushed key m).ll :=
      evictLoop_ll _ (h.push hx m)
    have hfar : s.order.filter (fun y => y.1 ≠ key) = s.order := filter_order_of_new h hx
    rw [put_of_new hx, evictedBy, hx]
    simp only [← List.map_reverse]
    calc (evictLocked (s.pushed key m)).order ++ _
        = (s.pushed key m).order := by
          rw [order, order, ← List.map_append, hall]
      _ = touch key m s.order := by
          rw [touch, hfar]
          rfl

/-- **A `put` evicts no more than it must.**  With any of the evicted entries kept, and those
evicted after it, the shard would be over its budget. -/
theorem evictedBy_over (h : s.WF) {pre post : List (Key × ObjectMeta)} {v : Key × ObjectMeta}
    (he : s.evictedBy key m = pre ++ v :: post) :
    perShardLimit < weight keyCost ((s.put key m).order ++ (v :: post).reverse) := by
  cases hx : s.elem? key with
  | some x =>
    rw [evictedBy, hx] at he
    exact absurd he (by simp)
  | none =>
    rw [evictedBy, hx] at he
    obtain ⟨pre', rest, hsplit, -, hrest⟩ := List.map_eq_append_iff.mp he
    obtain ⟨x, post', rfl, -, -⟩ := List.map_eq_cons_iff.mp hrest
    have hover := evictions_over _ (h.push hx m) hsplit
    rw [put_of_new hx, ← hrest, order, ← List.map_reverse, ← List.map_append, weight,
      List.map_map]
    exact hover

/-- Map and list hold the same entries, with distinct keys; the shard is charged for exactly
these, and is within its budget. -/
structure Exact (s : RawShard) : Prop where
  same : ∀ key id, s.entries.find? key = some id ↔ ∃ m, (id, (⟨key, m⟩ : CacheEntry)) ∈ s.ll
  elements : (s.ll.map Prod.fst).Nodup
  keys : (s.ll.map (fun x => x.2.key)).Nodup
  charged : s.usedBytes = (s.ll.map (fun x => (x.2.key.length : Int) + 92)).sum
  within : s.usedBytes ≤ perShardLimit

theorem WF.exact (h : s.WF) (hw : s.usedBytes ≤ perShardLimit) : s.Exact where
  same := h.same
  elements := h.nodup
  keys := by
    have hk := nodup_order h
    rwa [order, List.map_map] at hk
  charged := h.used
  within := hw

end RawShard

/-! ## 2. One operation of the cache -/

namespace MetaCache

variable {c : MetaCache} {op : CacheCall} {ops : List CacheCall} {key : Key} {m : ObjectMeta}

/-- Run one operation. -/
def perform (c : MetaCache) : CacheCall → MetaCache
  | .get key => (c.get key).2
  | .put key m => c.put key m
  | .del key => c.del key

/-- What an operation evicts, first to last. -/
def evicted (c : MetaCache) : CacheCall → List (Key × ObjectMeta)
  | .put key m => (c.shards (shardFor key)).1.evictedBy key m
  | _ => []

/-- The cache after a history. -/
def run (ops : List CacheCall) : MetaCache := ops.foldl perform empty

@[simp] theorem run_concat (ops : List CacheCall) (op : CacheCall) :
    run (ops ++ [op]) = (run ops).perform op := List.foldl_concat ..

/-- An operation works on the shard of its key, as on a recency list. -/
theorem order_perform (h : c.Within) (op : CacheCall) (i : Fin shardCount) :
    (c.perform op).order i =
      if i = shardFor op.key then op.apply keyCost perShardLimit (c.order i) else c.order i := by
  cases op with
  | get key => exact order_get c key i
  | put key m => exact order_put key (h _) m i
  | del key => exact order_del c key i

/-- What every history keeps true: the shards are within their budgets, keys are in their
shards, and the entries stand in the order of their last uses. -/
structure OfHistory (ops : List CacheCall) (c : MetaCache) : Prop where
  within : c.Within
  routed : ∀ i, ∀ x ∈ c.order i, shardFor x.1 = i
  byUse : ∀ i, ByUse ops (c.order i)

theorem weight_apply_le {xs : List (Key × ObjectMeta)} (h : weight keyCost xs ≤ perShardLimit)
    (op : CacheCall) : weight keyCost (op.apply keyCost perShardLimit xs) ≤ perShardLimit := by
  cases op with
  | get key => exact (weight_bump_le keyCost_nonneg key xs).trans h
  | put key m => exact weight_fit_le _ (by decide)
  | del key => exact (weight_filter_le keyCost_nonneg _ xs).trans h

theorem OfHistory.perform (h : OfHistory ops c) (op : CacheCall) : OfHistory (ops ++ [op]) (c.perform op) := by
  constructor
  · intro i
    rw [order_perform h.within]
    split
    · exact weight_apply_le (h.within i) op
    · exact h.within i
  · intro i x hx
    rw [order_perform h.within] at hx
    split at hx
    · rename_i hi
      rcases Op.mem_apply hx with hk | hx
      · rw [hk, hi]
      · exact h.routed i x hx
    · exact h.routed i x hx
  · intro i
    rw [order_perform h.within]
    split
    · exact (h.byUse i).apply perShardLimit
    · rename_i hi
      refine (h.byUse i).idle fun x hx => Bool.eq_false_iff.mpr fun hu => hi ?_
      rw [Op.key_of_uses hu, h.routed i x hx]

/-- **Every history.** -/
theorem ofHistory_run (ops : List CacheCall) : OfHistory ops (run ops) := by
  induction ops using List.reverseRecOn with
  | nil =>
    constructor
    · exact fun i => show (0 : Int) ≤ perShardLimit by decide
    · exact fun i x hx => absurd hx List.not_mem_nil
    · exact fun i => List.Pairwise.nil
  | append_singleton ops op ih =>
    rw [run_concat]
    exact ih.perform op

/-! ## 3. What is found -/

/-- The last `put` of `key` wrote `m`, `key` was not deleted since, and no operation since, that
`put` included, evicted it. -/
def Stands (ops : List CacheCall) (key : Key) (m : ObjectMeta) : Prop :=
  ∃ pre post, ops = pre ++ .put key m :: post ∧
    (∀ op ∈ post, op ≠ .del key ∧ ∀ m', op ≠ .put key m') ∧
    ∀ mid op rest, .put key m :: post = mid ++ op :: rest →
      key ∉ ((run (pre ++ mid)).evicted op).map Prod.fst

theorem not_stands_nil : ¬ Stands [] key m := by
  rintro ⟨pre, post, he, -⟩
  exact absurd he (by simp)

/-- One more operation. -/
theorem stands_concat : Stands (ops ++ [op]) key m ↔
    key ∉ ((run ops).evicted op).map Prod.fst ∧ (op = .put key m ∨
      (op ≠ .del key ∧ ∀ m', op ≠ .put key m') ∧ Stands ops key m) := by
  constructor
  · rintro ⟨pre, post, he, hquiet, hkept⟩
    rcases List.eq_nil_or_concat post with rfl | ⟨post, last, rfl⟩
    · obtain ⟨rfl, hop⟩ := List.append_inj' he rfl
      have hop := List.singleton_inj.mp hop
      subst hop
      refine ⟨?_, Or.inl rfl⟩
      simpa using hkept [] _ [] rfl
    · rw [List.concat_eq_append, ← List.cons_append, ← List.append_assoc] at he
      obtain ⟨rfl, hop⟩ := List.append_inj' he rfl
      have hop := List.singleton_inj.mp hop
      subst hop
      rw [List.concat_eq_append] at hquiet hkept
      refine ⟨hkept (.put key m :: post) op [] rfl, Or.inr ⟨?_, pre, post, rfl, ?_, ?_⟩⟩
      · exact hquiet op (List.mem_append_right _ List.mem_cons_self)
      · exact fun o ho => hquiet o (List.mem_append_left _ ho)
      · intro mid o rest hsplit
        refine hkept mid o (rest ++ [op]) ?_
        rw [← List.cons_append, hsplit, List.append_assoc, List.cons_append]
  · rintro ⟨hnow, rfl | ⟨hother, pre, post, rfl, hquiet, hkept⟩⟩
    · refine ⟨ops, [], rfl, fun o ho => absurd ho List.not_mem_nil, ?_⟩
      intro mid o rest hsplit
      rcases List.cons_eq_append_iff.mp hsplit with ⟨rfl, hcons⟩ | ⟨mid', -, hnil⟩
      · obtain ⟨rfl, -⟩ := List.cons.inj hcons
        rwa [List.append_nil]
      · exact absurd hnil (by simp)
    · refine ⟨pre, post ++ [op], by simp, ?_, ?_⟩
      · intro o ho
        rcases List.mem_append.mp ho with ho | ho
        · exact hquiet o ho
        · exact List.mem_singleton.mp ho ▸ hother
      · intro mid o rest hsplit
        rw [← List.cons_append] at hsplit
        rcases List.eq_nil_or_concat rest with rfl | ⟨rest, last, rfl⟩
        · obtain ⟨rfl, ho⟩ := List.append_inj' hsplit rfl
          rwa [← List.singleton_inj.mp ho]
        · rw [List.concat_eq_append, ← List.cons_append, ← List.append_assoc] at hsplit
          exact hkept mid o rest (List.append_inj' hsplit rfl).1

theorem order_put_self (c : MetaCache) (key : Key) (m : ObjectMeta) :
    (c.put key m).order (shardFor key) = ((c.shards (shardFor key)).1.put key m).order := by
  rw [order, put, shards_setShard, if_pos rfl]

/-- What is found after a `put`. -/
theorem find?_put_iff (h : OfHistory ops c) {k : Key} {v : ObjectMeta} :
    (c.put key m).find? k = some v ↔ k ∉ (c.evicted (.put key m)).map Prod.fst ∧
      if k = key then m = v else c.find? k = some v := by
  have hsplit := RawShard.order_put_evictedBy (c.shards (shardFor key)).2 key m
  by_cases hk : shardFor k = shardFor key
  · have hnodup : (((c.put key m).order (shardFor key) ++
        (c.evicted (.put key m)).reverse).map Prod.fst).Nodup := by
      rw [order_put_self]
      exact (congrArg (fun l => (l.map Prod.fst).Nodup) hsplit).mpr
        (nodup_touch key m (nodup_order c _))
    have hafter : (c.put key m).order (shardFor key) ++ (c.evicted (.put key m)).reverse =
        touch key m (c.order (shardFor key)) := by
      rw [order_put_self]
      exact hsplit
    rw [find?_order, find?_order, hk, find?_front hnodup, hafter, find?_touch, List.map_reverse,
      List.mem_reverse, and_comm]
    refine and_congr_right fun _ => ?_
    by_cases he : k = key
    · rw [if_pos he, if_pos he, Option.some.injEq]
    · rw [if_neg he, if_neg he]
  · have hne : k ≠ key := fun he => hk (congrArg shardFor he)
    have hsame : (c.put key m).find? k = c.find? k := by
      rw [find?_order, find?_order, order_put key (h.within _), if_neg hk]
    rw [hsame, if_neg hne]
    refine (and_iff_right fun hin => hk ?_).symm
    obtain ⟨x, hx, rfl⟩ := List.mem_map.mp hin
    have htouch : x ∈ touch key m (c.order (shardFor key)) :=
      hsplit ▸ List.mem_append_right _ (List.mem_reverse.mpr hx)
    rcases mem_touch htouch with he | hmem
    · exact congrArg shardFor he
    · exact h.routed _ x hmem

/-- **What a lookup finds.** -/
theorem find?_run (ops : List CacheCall) (key : Key) (m : ObjectMeta) :
    (run ops).find? key = some m ↔ Stands ops key m := by
  induction ops using List.reverseRecOn with
  | nil => exact ⟨fun h => absurd h (by simp [run]), fun h => absurd h not_stands_nil⟩
  | append_singleton ops op ih =>
    rw [run_concat, stands_concat, ← ih]
    cases op with
    | get k => simp [perform, evicted]
    | del k =>
      refine find?_del.trans ?_
      simp [evicted, eq_comm]
    | put k v =>
      refine (find?_put_iff (ofHistory_run ops)).trans (and_congr_right fun _ => ?_)
      by_cases hk : key = k
      · subst hk
        simp
      · simp [hk, Ne.symm hk]

/-! ## 4. Every history -/

/-- What the `put` of `key` evicts after the history `ops`. -/
structure Evicts (ops : List CacheCall) (key : Key) (m : ObjectMeta) : Prop where
  /-- What is evicted was there, and what is not evicted stays. -/
  parts : (run (ops ++ [.put key m])).order (shardFor key) ++
    ((run ops).evicted (.put key m)).reverse = touch key m ((run ops).order (shardFor key))
  /-- What is evicted has been idle for longer than what is evicted later and than what stays. -/
  leastRecent : ∀ pre v post, (run ops).evicted (.put key m) = pre ++ v :: post →
    ∀ x ∈ (run (ops ++ [.put key m])).order (shardFor key) ++ post.reverse,
      sinceUse (ops ++ [.put key m]) x.1 < sinceUse (ops ++ [.put key m]) v.1
  /-- Before each removal the shard was over its budget. -/
  needed : ∀ pre v post, (run ops).evicted (.put key m) = pre ++ v :: post →
    perShardLimit < weight keyCost
      ((run (ops ++ [.put key m])).order (shardFor key) ++ (v :: post).reverse)

/-- **An eviction takes the least recently used entries, and no more than it must.** -/
theorem evicts_run (ops : List CacheCall) (key : Key) (m : ObjectMeta) : Evicts ops key m := by
  have hrun : (run (ops ++ [.put key m])).order (shardFor key) =
      (((run ops).shards (shardFor key)).1.put key m).order := by
    rw [run_concat]
    exact order_put_self (run ops) key m
  have hparts : (run (ops ++ [.put key m])).order (shardFor key) ++
      ((run ops).evicted (.put key m)).reverse = touch key m ((run ops).order (shardFor key)) :=
    hrun ▸ RawShard.order_put_evictedBy ((run ops).shards (shardFor key)).2 key m
  constructor
  · exact hparts
  · intro pre v post he x hx
    have hu : (Op.put key m : CacheCall).uses key = true := decide_eq_true rfl
    have hby := ((ofHistory_run ops).byUse (shardFor key)).touch hu m
    rw [← hparts, he, List.reverse_append, List.reverse_cons, ← List.append_assoc,
      ← List.append_assoc, List.append_assoc _ [v]] at hby
    exact (List.pairwise_append.mp hby).2.2 x hx v List.mem_cons_self
  · intro pre v post he
    rw [hrun]
    exact RawShard.evictedBy_over ((run ops).shards (shardFor key)).2 he

/-- **The metadata cache after any history.**  Map, list and byte counter of every shard agree
and are within the budget; a `get` returns the mapping of the last `put` of its key, unless it
was deleted or evicted since, and misses otherwise; and a `put` evicts the least recently used
entries, no more than needed. -/
theorem cache_run (ops : List CacheCall) :
    (∀ i, ((run ops).shards i).1.Exact) ∧
    (∀ key m, ((run ops).get key).1 = some m ↔ Stands ops key m) ∧
    (∀ key m, Evicts ops key m) := by
  refine ⟨fun i => ?_, fun key m => ?_, fun key m => evicts_run ops key m⟩
  · have hwf := ((run ops).shards i).2
    exact hwf.exact ((RawShard.weight_order hwf).symm.trans_le ((ofHistory_run ops).within i))
  · rw [get_fst]
    exact find?_run ops key m

end MetaCache

end Taihu
