/-
# The metadata cache

`internal/metastore/cache.go`.  The cache is cut into `shardCount` shards by a hash of the key;
a shard is a map from keys to list elements, the list of those elements with the most recently
used in front, and the number of bytes they are charged with.  An element is a pointer in the
source; here it is a number, and a number is used once.

Every method locks one shard and nothing else, so each is one atomic operation.  A shard is kept
with the proof that its map and its list name the same elements (`Shard.WF`), and what the rest
of the development needs of the cache are four equations on `find?`, the entry a lookup would
see: `get` reads it, a `put` or an eviction never shows a key anything but its newest value, and
`del` removes it.
-/
import Taihu.Records
import Mathlib

namespace Taihu

/-- `shardCount`. -/
def shardCount : Nat := 256

/-- `maxCacheBytes`. -/
def maxCacheBytes : Int := 1073741824

/-- `perShardLimit`: the budget of one shard. -/
def perShardLimit : Int := maxCacheBytes / shardCount

/-- `perEntryOverhead`: what an entry is charged besides the bytes of its key. -/
def perEntryOverhead : Int := 92

/-- `cacheEntry`. -/
structure CacheEntry where
  key : Key
  md : ObjectMeta
  deriving DecidableEq, Repr

/-- The charge for one entry. -/
def CacheEntry.cost (e : CacheEntry) : Int := e.key.length + perEntryOverhead

/-! ## 1. One shard -/

/-- `shard`: `entries` maps a key to its element of `ll`, whose front is the most recently used;
`elems` is the number of elements ever made. -/
structure RawShard where
  entries : SortedMap Key Nat
  ll : List (Nat × CacheEntry)
  elems : Nat
  usedBytes : Int

namespace RawShard

def empty : RawShard := ⟨.empty, [], 0, 0⟩

/-- The element of the list that the map holds for `key`. -/
def elem? (s : RawShard) (key : Key) : Option (Nat × CacheEntry) :=
  (s.entries.find? key).bind (fun id => s.ll.find? (fun x => x.1 == id))

/-- What a lookup of `key` finds. -/
def find? (s : RawShard) (key : Key) : Option ObjectMeta := (s.elem? key).map (fun x => x.2.md)

/-- The list without element `x`: `ll.Remove`. -/
def unlink (s : RawShard) (x : Nat × CacheEntry) : List (Nat × CacheEntry) :=
  s.ll.filter (fun y => y.1 != x.1)

/-- Take element `x` out of the list and its key out of the map, and give its charge back. -/
def remove (s : RawShard) (x : Nat × CacheEntry) : RawShard :=
  { s with
    ll := s.unlink x
    entries := s.entries.erase x.2.key
    usedBytes := s.usedBytes - x.2.cost }

/-- `get`: a hit moves the element to the front. -/
def get (s : RawShard) (key : Key) : Option ObjectMeta × RawShard :=
  match s.elem? key with
  | some x => (some x.2.md, { s with ll := x :: s.unlink x })
  | none => (none, s)

/-- The loop of `evictLocked`; it removes an element in each round, so it ends within as many
rounds as the list has elements. -/
def evictLoop : Nat → RawShard → RawShard
  | 0, s => s
  | n + 1, s =>
    if s.usedBytes > perShardLimit then
      match s.ll.getLast? with
      | some back => evictLoop n (s.remove back)
      | none => s
    else s

/-- `evictLocked`: drop the least recently used entries until the shard is within its budget. -/
def evictLocked (s : RawShard) : RawShard := evictLoop s.ll.length s

/-- `put`. -/
def put (s : RawShard) (key : Key) (m : ObjectMeta) : RawShard :=
  match s.elem? key with
  | some x => { s with ll := (x.1, { x.2 with md := m }) :: s.unlink x }
  | none =>
    let e : CacheEntry := ⟨key, m⟩
    evictLocked
      { entries := s.entries.insert key s.elems
        ll := (s.elems, e) :: s.ll
        elems := s.elems + 1
        usedBytes := s.usedBytes + e.cost }

/-- `del`. -/
def del (s : RawShard) (key : Key) : RawShard :=
  match s.elem? key with
  | some x => s.remove x
  | none => s

/-- The map and the list describe the same elements, no element occurs twice, and `usedBytes`
is the sum of the charges. -/
structure WF (s : RawShard) : Prop where
  fresh : ∀ x ∈ s.ll, x.1 < s.elems
  nodup : (s.ll.map Prod.fst).Nodup
  same : ∀ key id, s.entries.find? key = some id ↔ ∃ m, (id, (⟨key, m⟩ : CacheEntry)) ∈ s.ll
  used : s.usedBytes = (s.ll.map (fun x => x.2.cost)).sum

theorem wf_empty : WF empty where
  fresh := by simp [empty]
  nodup := by simp [empty]
  same := by simp [empty]
  used := by simp [empty]

variable {s : RawShard} {x y : Nat × CacheEntry} {key key' : Key} {m m' : ObjectMeta}

/-- An element is determined by its number. -/
theorem WF.eq_of_fst (h : s.WF) (hx : x ∈ s.ll) (hy : y ∈ s.ll) (he : x.1 = y.1) : x = y :=
  List.inj_on_of_nodup_map h.nodup hx hy he

/-- Two elements with one key are the same element. -/
theorem WF.eq_of_key (h : s.WF) (hx : x ∈ s.ll) (hy : y ∈ s.ll) (he : x.2.key = y.2.key) :
    x = y := by
  have hxe : s.entries.find? x.2.key = some x.1 := (h.same _ _).mpr ⟨x.2.md, hx⟩
  have hye : s.entries.find? x.2.key = some y.1 := (h.same _ _).mpr ⟨y.2.md, he ▸ hy⟩
  exact h.eq_of_fst hx hy (Option.some.inj (hxe.symm.trans hye))

theorem elem?_eq_some (h : s.WF) : s.elem? key = some x ↔ x ∈ s.ll ∧ x.2.key = key := by
  constructor
  · intro hx
    obtain ⟨id, hid, hfind⟩ := Option.bind_eq_some_iff.mp hx
    have hmem : x ∈ s.ll := List.mem_of_find?_eq_some hfind
    have hx1 : x.1 = id := by simpa using List.find?_some hfind
    obtain ⟨m, hm⟩ := (h.same key id).mp hid
    refine ⟨hmem, ?_⟩
    rw [h.eq_of_fst hmem hm hx1]
  · rintro ⟨hmem, hkey⟩
    have hid : s.entries.find? key = some x.1 := (h.same key x.1).mpr ⟨x.2.md, hkey ▸ hmem⟩
    unfold elem?
    rw [hid, Option.bind_some]
    cases hf : s.ll.find? (fun y => y.1 == x.1) with
    | none =>
      have hnone := List.find?_eq_none.mp hf x hmem
      simp at hnone
    | some y =>
      have hy1 : y.1 = x.1 := by simpa using List.find?_some hf
      rw [h.eq_of_fst (List.mem_of_find?_eq_some hf) hmem hy1]

/-- A lookup finds `m` exactly when the list has an entry of `key` with `m`. -/
theorem find?_eq_some (h : s.WF) :
    s.find? key = some m ↔ ∃ id, (id, (⟨key, m⟩ : CacheEntry)) ∈ s.ll := by
  unfold find?
  rw [Option.map_eq_some_iff]
  constructor
  · rintro ⟨⟨id, k, md⟩, hx, rfl⟩
    obtain ⟨hmem, rfl⟩ := (elem?_eq_some h).mp hx
    exact ⟨id, hmem⟩
  · rintro ⟨id, hmem⟩
    exact ⟨(id, ⟨key, m⟩), (elem?_eq_some h).mpr ⟨hmem, rfl⟩, rfl⟩

theorem mem_unlink : y ∈ s.unlink x ↔ y ∈ s.ll ∧ y.1 ≠ x.1 := by
  simp [unlink]

theorem sum_unlink (f : Nat × CacheEntry → Int) :
    ∀ {l : List (Nat × CacheEntry)}, (l.map Prod.fst).Nodup → x ∈ l →
      ((l.filter (fun y => y.1 != x.1)).map f).sum = (l.map f).sum - f x
  | [], _, hx => absurd hx List.not_mem_nil
  | a :: l, hn, hx => by
    obtain ⟨ha, hl⟩ := List.nodup_cons.mp hn
    rcases List.mem_cons.mp hx with rfl | hx
    · have hkeep : l.filter (fun y => y.1 != x.1) = l := by
        refine List.filter_eq_self.mpr ?_
        intro y hy
        have hne : y.1 ≠ x.1 := fun e => ha (e ▸ List.mem_map_of_mem hy)
        simpa using hne
      simp [hkeep]
    · have hne : a.1 ≠ x.1 := fun e => ha (e ▸ List.mem_map_of_mem hx)
      have ih := sum_unlink f hl hx
      rw [List.filter_cons_of_pos (by simpa using hne), List.map_cons, List.sum_cons, ih,
        List.map_cons, List.sum_cons]
      omega

/-- Removing one element of the list keeps the shard well formed. -/
theorem WF.remove (h : s.WF) (hx : x ∈ s.ll) : (s.remove x).WF where
  fresh := fun y hy => h.fresh y (mem_unlink.mp hy).1
  nodup := h.nodup.sublist (List.filter_sublist.map _)
  same := by
    intro key id
    simp only [RawShard.remove, SortedMap.find?_erase]
    by_cases hk : key = x.2.key
    · rw [if_pos hk]
      refine ⟨fun hn => absurd hn (by simp), ?_⟩
      rintro ⟨m, hm⟩
      obtain ⟨hm, hne⟩ := mem_unlink.mp hm
      exact absurd (congrArg Prod.fst (h.eq_of_key hm hx hk)) hne
    · rw [if_neg hk, h.same]
      constructor
      · rintro ⟨m, hm⟩
        refine ⟨m, mem_unlink.mpr ⟨hm, fun he => hk ?_⟩⟩
        rw [← h.eq_of_fst hm hx he]
      · rintro ⟨m, hm⟩
        exact ⟨m, (mem_unlink.mp hm).1⟩
  used := by
    have hsum := sum_unlink (fun y => y.2.cost) h.nodup hx
    simp only [RawShard.remove, unlink, hsum, h.used]

theorem find?_remove (h : s.WF) (hx : x ∈ s.ll) :
    (s.remove x).find? key = some m ↔ key ≠ x.2.key ∧ s.find? key = some m := by
  rw [find?_eq_some (h.remove hx), find?_eq_some h]
  constructor
  · rintro ⟨id, hm⟩
    obtain ⟨hm, hne⟩ := mem_unlink.mp hm
    exact ⟨fun hk => hne (congrArg Prod.fst (h.eq_of_key hm hx hk)), id, hm⟩
  · rintro ⟨hk, id, hm⟩
    refine ⟨id, mem_unlink.mpr ⟨hm, fun he => hk ?_⟩⟩
    rw [← h.eq_of_fst hm hx he]

/-- Putting an element with the number and key of `x` in front, instead of `x`, keeps the shard
well formed: `MoveToFront`, with or without a new value. -/
theorem WF.refront (h : s.WF) (hx : x ∈ s.ll) (m : ObjectMeta) :
    WF { s with ll := (x.1, { x.2 with md := m }) :: s.unlink x } where
  fresh := by
    intro y hy
    rcases List.mem_cons.mp hy with rfl | hy
    · exact h.fresh x hx
    · exact h.fresh y (mem_unlink.mp hy).1
  nodup := by
    refine List.nodup_cons.mpr ⟨?_, h.nodup.sublist (List.filter_sublist.map _)⟩
    intro hin
    obtain ⟨y, hy, he⟩ := List.mem_map.mp hin
    exact (mem_unlink.mp hy).2 he
  same := by
    intro key id
    rw [h.same]
    constructor
    · rintro ⟨m', hm'⟩
      by_cases he : id = x.1
      · have hxe : (id, (⟨key, m'⟩ : CacheEntry)) = x := h.eq_of_fst hm' hx he
        exact ⟨m, by rw [← hxe]; exact List.mem_cons_self⟩
      · exact ⟨m', List.mem_cons_of_mem _ (mem_unlink.mpr ⟨hm', he⟩)⟩
    · rintro ⟨m', hm'⟩
      rcases List.mem_cons.mp hm' with he | hm'
      · obtain ⟨rfl, hkey⟩ := Prod.mk.inj he
        have hkey : key = x.2.key := congrArg CacheEntry.key hkey
        exact ⟨x.2.md, hkey ▸ hx⟩
      · exact ⟨m', (mem_unlink.mp hm').1⟩
  used := by
    have hsum := sum_unlink (fun y => y.2.cost) h.nodup hx
    have hcost : ({ x.2 with md := m } : CacheEntry).cost = x.2.cost := rfl
    simp only [List.map_cons, List.sum_cons, unlink, hcost, hsum, h.used]
    omega

theorem find?_refront (h : s.WF) (hx : x ∈ s.ll) :
    RawShard.find? { s with ll := (x.1, { x.2 with md := m }) :: s.unlink x } key = some m' ↔
      (key = x.2.key ∧ m' = m) ∨ (key ≠ x.2.key ∧ s.find? key = some m') := by
  rw [find?_eq_some (h.refront hx m), find?_eq_some h]
  constructor
  · rintro ⟨id, hm'⟩
    rcases List.mem_cons.mp hm' with he | hm'
    · have he := (Prod.mk.inj he).2
      exact Or.inl ⟨congrArg CacheEntry.key he, congrArg CacheEntry.md he⟩
    · obtain ⟨hm', hne⟩ := mem_unlink.mp hm'
      exact Or.inr ⟨fun hk => hne (congrArg Prod.fst (h.eq_of_key hm' hx hk)), id, hm'⟩
  · rintro (⟨rfl, rfl⟩ | ⟨hk, id, hm'⟩)
    · exact ⟨x.1, List.mem_cons_self⟩
    · refine ⟨id, List.mem_cons_of_mem _ (mem_unlink.mpr ⟨hm', fun he => hk ?_⟩)⟩
      rw [← h.eq_of_fst hm' hx he]

theorem WF.evictLoop (n : Nat) {s : RawShard} (h : s.WF) : (evictLoop n s).WF := by
  induction n generalizing s with
  | zero => exact h
  | succ n ih =>
    unfold RawShard.evictLoop
    split
    · split
      · rename_i back hback
        exact ih (h.remove (List.mem_of_getLast? hback))
      · exact h
    · exact h

/-- Eviction only takes entries away. -/
theorem find?_evictLoop (n : Nat) {s : RawShard} (h : s.WF)
    (hf : (RawShard.evictLoop n s).find? key = some m) : s.find? key = some m := by
  induction n generalizing s with
  | zero => exact hf
  | succ n ih =>
    unfold RawShard.evictLoop at hf
    split at hf
    · split at hf
      · rename_i back hback
        have hmem := List.mem_of_getLast? hback
        exact ((find?_remove h hmem).mp (ih (h.remove hmem) hf)).2
      · exact hf
    · exact hf

theorem WF.get (h : s.WF) (key : Key) : (s.get key).2.WF := by
  unfold RawShard.get
  split
  · rename_i x hx
    exact h.refront ((elem?_eq_some h).mp hx).1 x.2.md
  · exact h

theorem get_fst (s : RawShard) (key : Key) : (s.get key).1 = s.find? key := by
  unfold RawShard.get RawShard.find?
  cases s.elem? key <;> rfl

/-- A `get` changes the order of the entries, not what they are. -/
theorem find?_get (h : s.WF) (key key' : Key) : (s.get key).2.find? key' = s.find? key' := by
  unfold RawShard.get
  split
  · rename_i x hx
    obtain ⟨hmem, hkey⟩ := (elem?_eq_some h).mp hx
    refine Option.ext fun m' => (find?_refront h hmem).trans ?_
    by_cases hk : key' = x.2.key
    · have hfind : s.find? key' = some x.2.md := (find?_eq_some h).mpr ⟨x.1, hk ▸ hmem⟩
      simp [hk ▸ hfind, hk, eq_comm]
    · simp [hk]
  · rfl

theorem WF.push (h : s.WF) (hnew : s.elem? key = none) (m : ObjectMeta) :
    WF { entries := s.entries.insert key s.elems
         ll := (s.elems, ⟨key, m⟩) :: s.ll
         elems := s.elems + 1
         usedBytes := s.usedBytes + (⟨key, m⟩ : CacheEntry).cost } where
  fresh := by
    intro y hy
    rcases List.mem_cons.mp hy with rfl | hy
    · exact Nat.lt_succ_self _
    · exact Nat.lt_succ_of_lt (h.fresh y hy)
  nodup := by
    refine List.nodup_cons.mpr ⟨?_, h.nodup⟩
    intro hin
    obtain ⟨y, hy, he⟩ := List.mem_map.mp hin
    exact absurd he (Nat.ne_of_lt (h.fresh y hy))
  same := by
    intro key' id
    simp only [SortedMap.find?_insert, List.mem_cons, Prod.mk.injEq, CacheEntry.mk.injEq]
    have hno : ∀ y ∈ s.ll, y.2.key ≠ key := by
      intro y hy hk
      have hsome := (elem?_eq_some h).mpr ⟨hy, hk⟩
      rw [hnew] at hsome
      exact absurd hsome (by simp)
    by_cases hk : key' = key
    · subst hk
      rw [if_pos rfl]
      constructor
      · intro he
        exact ⟨m, Or.inl ⟨(Option.some.inj he).symm, rfl, rfl⟩⟩
      · rintro ⟨m', ⟨hid, -, -⟩ | hm'⟩
        · rw [hid]
        · exact absurd rfl (hno _ hm')
    · rw [if_neg hk, h.same]
      constructor
      · rintro ⟨m', hm'⟩
        exact ⟨m', Or.inr hm'⟩
      · rintro ⟨m', ⟨-, hkey, -⟩ | hm'⟩
        · exact absurd hkey hk
        · exact ⟨m', hm'⟩
  used := by
    simp only [List.map_cons, List.sum_cons, h.used]
    omega

theorem WF.put (h : s.WF) (key : Key) (m : ObjectMeta) : (s.put key m).WF := by
  unfold RawShard.put
  split
  · rename_i x hx
    exact h.refront ((elem?_eq_some h).mp hx).1 m
  · rename_i hnew
    exact WF.evictLoop _ (h.push hnew m)

/-- After a `put` a lookup finds the value put, an older entry of another key, or nothing. -/
theorem find?_put (h : s.WF) (hf : (s.put key m).find? key' = some m') :
    (key' = key ∧ m' = m) ∨ (key' ≠ key ∧ s.find? key' = some m') := by
  unfold RawShard.put at hf
  split at hf
  · rename_i x hx
    obtain ⟨hmem, hkey⟩ := (elem?_eq_some h).mp hx
    have hc := (find?_refront h hmem).mp hf
    rwa [hkey] at hc
  · rename_i hnew
    have hpush := h.push hnew m
    obtain ⟨id, hm'⟩ := (find?_eq_some hpush).mp (find?_evictLoop _ hpush hf)
    rcases List.mem_cons.mp hm' with he | hm'
    · have he := (Prod.mk.inj he).2
      exact Or.inl ⟨congrArg CacheEntry.key he, congrArg CacheEntry.md he⟩
    · refine Or.inr ⟨fun hk => ?_, (find?_eq_some h).mpr ⟨id, hm'⟩⟩
      have hsome := (elem?_eq_some h).mpr ⟨hm', hk⟩
      rw [hnew] at hsome
      exact absurd hsome (by simp)

theorem WF.del (h : s.WF) (key : Key) : (s.del key).WF := by
  unfold RawShard.del
  split
  · rename_i x hx
    exact h.remove ((elem?_eq_some h).mp hx).1
  · exact h

/-- A `del` removes exactly the entry of its key. -/
theorem find?_del (h : s.WF) :
    (s.del key).find? key' = some m ↔ key' ≠ key ∧ s.find? key' = some m := by
  unfold RawShard.del
  split
  · rename_i x hx
    obtain ⟨hmem, hkey⟩ := (elem?_eq_some h).mp hx
    rw [find?_remove h hmem, hkey]
  · rename_i hnew
    refine ⟨fun hf => ⟨fun hk => ?_, hf⟩, And.right⟩
    rw [hk, RawShard.find?, hnew] at hf
    exact absurd hf (by simp)

end RawShard

/-- A well-formed shard. -/
abbrev Shard : Type := { s : RawShard // s.WF }

/-! ## 2. The cache -/

/-- `fnv.New32a`: FNV-1a over the bytes of the key. -/
def fnv32a (key : Key) : Nat :=
  key.foldl (fun h b => Nat.xor h b.val * 16777619 % 4294967296) 2166136261

/-- `shardFor`. -/
def shardFor (key : Key) : Fin shardCount := ⟨fnv32a key % shardCount, Nat.mod_lt _ (by decide)⟩

/-- `metaCache`. -/
structure MetaCache where
  shards : Fin shardCount → Shard

namespace MetaCache

def empty : MetaCache := ⟨fun _ => ⟨.empty, RawShard.wf_empty⟩⟩

def setShard (c : MetaCache) (i : Fin shardCount) (s : Shard) : MetaCache :=
  ⟨fun j => if j = i then s else c.shards j⟩

/-- What a lookup of `key` finds. -/
def find? (c : MetaCache) (key : Key) : Option ObjectMeta := (c.shards (shardFor key)).1.find? key

/-- `get`. -/
def get (c : MetaCache) (key : Key) : Option ObjectMeta × MetaCache :=
  let s := c.shards (shardFor key)
  ((s.1.get key).1, c.setShard (shardFor key) ⟨(s.1.get key).2, s.2.get key⟩)

/-- `put`. -/
def put (c : MetaCache) (key : Key) (m : ObjectMeta) : MetaCache :=
  let s := c.shards (shardFor key)
  c.setShard (shardFor key) ⟨s.1.put key m, s.2.put key m⟩

/-- `del`. -/
def del (c : MetaCache) (key : Key) : MetaCache :=
  let s := c.shards (shardFor key)
  c.setShard (shardFor key) ⟨s.1.del key, s.2.del key⟩

@[simp] theorem find?_empty (key : Key) : empty.find? key = none := rfl

theorem shards_setShard (c : MetaCache) (i j : Fin shardCount) (s : Shard) :
    (c.setShard i s).shards j = if j = i then s else c.shards j := rfl

@[simp] theorem get_fst (c : MetaCache) (key : Key) : (c.get key).1 = c.find? key :=
  RawShard.get_fst _ key

@[simp] theorem find?_get (c : MetaCache) (key key' : Key) :
    (c.get key).2.find? key' = c.find? key' := by
  unfold get find?
  rw [shards_setShard]
  split
  · rename_i hi
    rw [RawShard.find?_get (c.shards (shardFor key)).2, hi]
  · rfl

/-- **What a `put` leaves.**  The value put, or an older entry of another key. -/
theorem find?_put {c : MetaCache} {key key' : Key} {m m' : ObjectMeta}
    (h : (c.put key m).find? key' = some m') :
    (key' = key ∧ m' = m) ∨ (key' ≠ key ∧ c.find? key' = some m') := by
  unfold put find? at h
  rw [shards_setShard] at h
  split at h
  · rename_i hi
    have hc := RawShard.find?_put (c.shards (shardFor key)).2 h
    unfold find?
    rwa [hi]
  · rename_i hi
    exact Or.inr ⟨fun hk => hi (congrArg shardFor hk), h⟩

/-- **What a `del` leaves.**  Every entry but that of its key. -/
theorem find?_del {c : MetaCache} {key key' : Key} {m : ObjectMeta} :
    (c.del key).find? key' = some m ↔ key' ≠ key ∧ c.find? key' = some m := by
  unfold del find?
  rw [shards_setShard]
  split
  · rename_i hi
    rw [RawShard.find?_del (c.shards (shardFor key)).2, hi]
  · rename_i hi
    exact ⟨fun h => ⟨fun hk => hi (congrArg shardFor hk), h⟩, And.right⟩

end MetaCache

end Taihu
