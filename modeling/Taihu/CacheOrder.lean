/-
# The cache as recency lists

Each shard of the metadata cache is a recency list with a budget (`Taihu.Lib.Recency`): `get`
moves an entry to the front, `put` writes one and evicts, `del` takes one out.  The order of a
shard, its keys with their mappings, determines what lookups find.
-/
import Taihu.Cache
import Taihu.Lib.Recency

namespace Taihu

open Recency

/-- What an entry of `key` is charged. -/
def keyCost (key : Key) : Int := key.length + perEntryOverhead

theorem keyCost_nonneg (key : Key) : 0 ≤ keyCost key := by
  unfold keyCost perEntryOverhead
  omega

namespace RawShard

variable {s : RawShard} {x : Nat × CacheEntry} {key : Key}

/-- Keys and mappings, the most recently used first. -/
def order (s : RawShard) : List (Key × ObjectMeta) := s.ll.map (fun x => (x.2.key, x.2.md))

theorem nodup_order (h : s.WF) : (s.order.map Prod.fst).Nodup := by
  unfold order
  rw [List.map_map]
  refine List.Nodup.map_on ?_ (List.Nodup.of_map _ h.nodup)
  exact fun x hx y hy he => h.eq_of_key hx hy he

theorem find?_order (h : s.WF) (key : Key) : s.find? key = Recency.find? s.order key := by
  refine Option.ext fun m => (find?_eq_some h).trans ?_
  constructor
  · rintro ⟨id, hm⟩
    exact find?_eq_some_of_mem (nodup_order h) (List.mem_map_of_mem hm)
  · intro hm
    obtain ⟨⟨id, e⟩, hx, he⟩ := List.mem_map.mp (mem_of_find? hm)
    cases he
    exact ⟨id, hx⟩

theorem weight_order (h : s.WF) : weight keyCost s.order = s.usedBytes := by
  unfold weight order
  rw [h.used, List.map_map]
  rfl

/-- Taking an element out takes its key out of the order. -/
theorem order_unlink (h : s.WF) (hx : x ∈ s.ll) :
    (s.unlink x).map (fun y => (y.2.key, y.2.md)) = s.order.filter (fun y => y.1 ≠ x.2.key) := by
  unfold unlink order
  rw [List.filter_map]
  congr 1
  refine List.filter_congr fun y hy => ?_
  have hiff : y.1 = x.1 ↔ y.2.key = x.2.key :=
    ⟨fun he => by rw [h.eq_of_fst hy hx he], fun he => by rw [h.eq_of_key hy hx he]⟩
  by_cases he : y.2.key = x.2.key
  · simp [he, hiff.mpr he]
  · have hne : y.1 ≠ x.1 := fun hc => he (hiff.mp hc)
    simp [he, hne]

theorem find?_order_elem (h : s.WF) (hx : s.elem? key = some x) :
    Recency.find? s.order key = some x.2.md := by
  rw [← find?_order h, find?, hx]
  rfl

theorem order_get (h : s.WF) (key : Key) : (s.get key).2.order = bump key s.order := by
  unfold RawShard.get bump
  cases hx : s.elem? key with
  | none =>
    have hf : Recency.find? s.order key = none := by rw [← find?_order h, find?, hx]; rfl
    rw [hf]
  | some x =>
    obtain ⟨hmem, rfl⟩ := (elem?_eq_some h).mp hx
    rw [find?_order_elem h hx]
    exact congrArg ((x.2.key, x.2.md) :: ·) (order_unlink h hmem)

theorem order_remove (h : s.WF) (hx : x ∈ s.ll) :
    (s.remove x).order = s.order.filter (fun y => y.1 ≠ x.2.key) := order_unlink h hx

theorem filter_order_of_new (h : s.WF) (hx : s.elem? key = none) :
    s.order.filter (fun y => y.1 ≠ key) = s.order := by
  refine List.filter_eq_self.mpr fun y hy => ?_
  obtain ⟨z, hz, rfl⟩ := List.mem_map.mp hy
  have hne : z.2.key ≠ key := by
    intro he
    have hsome := (elem?_eq_some h).mpr ⟨hz, he⟩
    rw [hx] at hsome
    exact absurd hsome (by simp)
  simpa using hne

theorem order_del (h : s.WF) (key : Key) :
    (s.del key).order = s.order.filter (fun y => y.1 ≠ key) := by
  unfold RawShard.del
  cases hx : s.elem? key with
  | none => exact (filter_order_of_new h hx).symm
  | some x =>
    obtain ⟨hmem, rfl⟩ := (elem?_eq_some h).mp hx
    exact order_remove h hmem

/-- Taking out the last element leaves the list without its end. -/
theorem unlink_getLast (h : s.WF) (hx : s.ll.getLast? = some x) : s.unlink x = s.ll.dropLast := by
  have hsplit : s.ll.dropLast ++ [x] = s.ll := List.dropLast_append_getLast? x hx
  have hnot : ∀ y ∈ s.ll.dropLast, y.1 ≠ x.1 := by
    have hn := h.nodup
    rw [← hsplit, List.map_append, List.nodup_append] at hn
    exact fun y hy => hn.2.2 _ (List.mem_map_of_mem hy) _ (List.mem_singleton_self _)
  unfold unlink
  conv_lhs => rw [← hsplit]
  rw [List.filter_append, List.filter_eq_self.mpr (fun y hy => by simpa using hnot y hy)]
  simp

theorem order_remove_getLast (h : s.WF) (hx : s.ll.getLast? = some x) :
    (s.remove x).order = s.order.dropLast := by
  have hkeep : (s.remove x).ll = s.ll.dropLast := unlink_getLast h hx
  rw [order, hkeep, order, List.map_dropLast]

theorem order_evictLoop : ∀ (n : Nat) {s : RawShard}, s.WF →
    (evictLoop n s).order = evict keyCost perShardLimit n s.order
  | 0, _, _ => rfl
  | n + 1, s, h => by
    rw [evictLoop, evict, weight_order h]
    by_cases hlt : perShardLimit < s.usedBytes
    · rw [if_pos hlt, if_pos hlt]
      cases hx : s.ll.getLast? with
      | none =>
        have hnil : s.order = [] := by rw [order, List.getLast?_eq_none_iff.mp hx]; rfl
        simp only [hnil, List.dropLast_nil]
        cases n with
        | zero => rfl
        | succ n =>
          rw [evict, if_neg]
          decide
      | some back =>
        rw [← order_remove_getLast h hx]
        exact order_evictLoop n (h.remove (List.mem_of_getLast? hx))
    · rw [if_neg hlt, if_neg hlt]

/-- **A `put` writes the entry in front and keeps what fits.** -/
theorem order_put (h : s.WF) (hb : s.usedBytes ≤ perShardLimit) (key : Key) (m : ObjectMeta) :
    (s.put key m).order = fit keyCost perShardLimit (touch key m s.order) := by
  unfold RawShard.put
  cases hx : s.elem? key with
  | some x =>
    obtain ⟨hmem, rfl⟩ := (elem?_eq_some h).mp hx
    have hnew := h.refront hmem m
    have horder : order { s with ll := (x.1, { x.2 with md := m }) :: s.unlink x }
        = touch x.2.key m s.order := congrArg ((x.2.key, m) :: ·) (order_unlink h hmem)
    rw [← horder]
    exact (fit_of_weight_le keyCost_nonneg ((weight_order hnew).trans_le hb)).symm
  | none =>
    have hpush := h.push hx m
    have hkeep := filter_order_of_new h hx
    refine (order_evictLoop _ hpush).trans ?_
    rw [evict_eq_fit keyCost_nonneg (by simp [order])]
    exact congrArg (fun l => fit keyCost perShardLimit ((key, m) :: l)) hkeep.symm

end RawShard

namespace MetaCache

variable {c c' : MetaCache}

/-- The order of one shard. -/
def order (c : MetaCache) (i : Fin shardCount) : List (Key × ObjectMeta) := (c.shards i).1.order

/-- Every shard is within its budget. -/
def Within (c : MetaCache) : Prop := ∀ i, weight keyCost (c.order i) ≤ perShardLimit

theorem nodup_order (c : MetaCache) (i : Fin shardCount) : ((c.order i).map Prod.fst).Nodup :=
  RawShard.nodup_order (c.shards i).2

/-- Lookups see the order of the key's shard. -/
theorem find?_order (c : MetaCache) (key : Key) :
    c.find? key = Recency.find? (c.order (shardFor key)) key := RawShard.find?_order (c.shards _).2 key

/-- Caches with the same orders answer alike. -/
theorem find?_congr (h : ∀ i, c.order i = c'.order i) (key : Key) : c.find? key = c'.find? key := by
  rw [find?_order, find?_order, h]

theorem order_setShard (c : MetaCache) (i j : Fin shardCount) (s : Shard) :
    (c.setShard i s).order j = if j = i then s.1.order else c.order j := by
  unfold order
  rw [shards_setShard]
  split <;> rfl

theorem order_get (c : MetaCache) (key : Key) (i : Fin shardCount) :
    (c.get key).2.order i = if i = shardFor key then bump key (c.order i) else c.order i := by
  unfold get
  rw [order_setShard]
  split
  · rename_i hi
    rw [hi]
    exact RawShard.order_get (c.shards _).2 key
  · rfl

theorem order_put (key : Key) (h : weight keyCost (c.order (shardFor key)) ≤ perShardLimit)
    (m : ObjectMeta) (i : Fin shardCount) : (c.put key m).order i = if i = shardFor key then
      fit keyCost perShardLimit (touch key m (c.order i)) else c.order i := by
  unfold put
  rw [order_setShard]
  split
  · rename_i hi
    rw [hi]
    exact RawShard.order_put (c.shards _).2 ((RawShard.weight_order (c.shards _).2).symm.trans_le h)
      key m
  · rfl

theorem order_del (c : MetaCache) (key : Key) (i : Fin shardCount) :
    (c.del key).order i = if i = shardFor key then (c.order i).filter (fun y => y.1 ≠ key)
      else c.order i := by
  unfold del
  rw [order_setShard]
  split
  · rename_i hi
    rw [hi]
    exact RawShard.order_del (c.shards _).2 key
  · rfl

end MetaCache

end Taihu
