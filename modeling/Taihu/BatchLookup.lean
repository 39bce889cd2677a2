/-
# Looking a batch of keys up

`BatchGetMapping` of `internal/metastore/kv_pebble.go` and `getMany` of `model.go`.

Pebble has one key space.  `getMany` runs one iterator over the keys with the prefix of the
mappings and seeks each key in it; the operation `getMany` of the system asks the table of the
mappings for each key.  The first two sections show that these are the same
(`seekMany_eq_getMany`).

Then the batch is compared with `GetMapping` for each key, in any state whose cache is coherent
(`batch_get_mapping`).  The cache may lose any entries on the way: what a caller is told was read
before.
-/
import Taihu.BatchReader
import Taihu.Lib.PrefixRange

namespace Taihu

open Concur

/-! ## 1. The key space of pebble -/

/-- `kvPrefixMapping`: `m`, 0. -/
def kvPrefixMapping : Key := [109, 0]

/-- `kvPrefixState`: `s`, 0. -/
def kvPrefixState : Key := [115, 0]

/-- `kvCursorKey`. -/
def kvCursorKey : Key := [99, 117, 114, 115, 111, 114]

/-- `kvSegmentPrefix`: `seg/`. -/
def kvSegmentPrefix : Key := [115, 101, 103, 47]

def keyMapping (key : Key) : Key := kvPrefixMapping ++ key

def keyState (inner : Key) : Key := kvPrefixState ++ inner

/-- `appendUpper`: the last byte, plus one. -/
def appendUpper (pre : Key) : Key := pre.dropLast ++ (pre.getLast?.map (· + 1)).toList

/-- What a value decodes to. -/
inductive Record where
  | mapping (md : ObjectMeta)
  | segment (md : SegmentMeta)
  | cursor (c : WriteCursor)
  deriving DecidableEq, Repr

/-- `decodeObjectMeta`. -/
def Record.objectMeta : Record → Res ObjectMeta
  | .mapping md => .ok md
  | _ => .error .io

/-- The records of the state under their keys. -/
def Disk.state (d : Disk) : List (Key × Record) :=
  (d.cursor.map fun c => (keyState kvCursorKey, Record.cursor c)).toList ++
    d.segment.entries.map (fun e => (keyState (kvSegmentPrefix ++ Disk.segmentKey e.1), .segment e.2))

/-- What pebble holds. -/
def Disk.keyspace (d : Disk) : SortedMap Key Record :=
  (d.mapping.entries.map (fun e => (keyMapping e.1, Record.mapping e.2)) ++ d.state).foldr
    (fun e m => m.insert e.1 e.2) .empty

/-! ## 2. The iterator -/

/-- `NewIter`: the records of an interval of keys, in byte order. -/
def newIter (m : SortedMap Key Record) (lower upper : Key) : List (Key × Record) :=
  m.entries.filter (fun e => lower ≤ e.1 ∧ e.1 < upper)

/-- `SeekGE`: the first of them at or above `key`. -/
def seekGE (it : List (Key × Record)) (key : Key) : Option (Key × Record) :=
  it.find? (fun e => key ≤ e.1)

/-- The loop of `getMany`. -/
def seekLoop (it : List (Key × Record)) :
    List Key → SortedMap Key ObjectMeta → Res (SortedMap Key ObjectMeta)
  | [], out => .ok out
  | k :: sorted, out =>
    match seekGE it (keyMapping k) with
    | none => .error .notFound
    | some (raw, v) =>
      if raw.drop kvPrefixMapping.length = k then do
        let md ← v.objectMeta
        seekLoop it sorted (out.insert k md)
      else .error .notFound

/-- `getMany`. -/
def Disk.seekMany (d : Disk) (keys : List Key) : Res (SortedMap Key ObjectMeta) :=
  if keys = [] then .ok .empty
  else
    let sorted := keys.mergeSort (· ≤ ·)
    seekLoop (newIter d.keyspace kvPrefixMapping (appendUpper kvPrefixMapping)) sorted .empty

variable {d : Disk} {key : Key}

theorem keyMapping_injective : Function.Injective keyMapping :=
  fun _ _ h => List.append_cancel_left h

/-- The interval of the mappings. -/
theorem mem_range_mapping {raw : Key} :
    (kvPrefixMapping ≤ raw ∧ raw < appendUpper kvPrefixMapping) ↔ kvPrefixMapping <+: raw :=
  PrefixRange.range_succ_iff (p := [(109 : Byte)]) (a := 0) (b := 1)
    ⟨by decide, fun c h h' => by
      have h1 : (0 : Nat) < c.val := h
      have h2 : c.val < 1 := h'
      omega⟩

theorem state_key {e : Key × Record} (he : e ∈ d.state) : kvPrefixState <+: e.1 := by
  rcases List.mem_append.mp he with he | he
  · obtain ⟨c, -, rfl⟩ := Option.map_eq_some_iff.mp (Option.mem_toList.mp he)
    exact List.prefix_append _ _
  · obtain ⟨x, -, rfl⟩ := List.mem_map.mp he
    exact List.prefix_append _ _

/-- **The keys of the state are not mistaken for user keys.** -/
theorem find?_keyspace (d : Disk) (key : Key) :
    d.keyspace.find? (keyMapping key) = (d.mapping.find? key).map .mapping := by
  unfold Disk.keyspace
  rw [SortedMap.find?_foldr_insert, SortedMap.lookupList_append_of_ne,
    SortedMap.lookupList_map_injective keyMapping_injective]
  · rfl
  · intro e he heq
    obtain ⟨r, hr⟩ := state_key he
    rw [heq] at hr
    exact absurd (List.cons.inj hr).1 (by decide)

/-- The first record at or above a key is that of the key, if there is one. -/
theorem seek_eq_some {m : SortedMap Key Record} {lower upper k : Key} {v : Record}
    (hk : lower ≤ k ∧ k < upper) :
    seekGE (newIter m lower upper) k = some (k, v) ↔ m.find? k = some v := by
  unfold seekGE newIter
  rw [List.find?_eq_some_iff_append, ← SortedMap.mem_entries]
  constructor
  · rintro ⟨-, as, bs, hl, -⟩
    have hmem : (k, v) ∈ m.entries.filter (fun e => lower ≤ e.1 ∧ e.1 < upper) := by
      rw [hl]
      exact List.mem_append_right _ List.mem_cons_self
    exact (List.mem_filter.mp hmem).1
  · intro hmem
    have hin : (k, v) ∈ m.entries.filter (fun e => lower ≤ e.1 ∧ e.1 < upper) :=
      List.mem_filter.mpr ⟨hmem, by simpa using hk⟩
    have hsorted := m.sorted.filter (fun e => lower ≤ e.1 ∧ e.1 < upper)
    obtain ⟨as, bs, hl⟩ := List.append_of_mem hin
    refine ⟨by simp, as, bs, hl, fun e he => ?_⟩
    rw [hl, List.pairwise_append] at hsorted
    have hlt : e.1 < k := hsorted.2.2 e he (k, v) List.mem_cons_self
    simpa using hlt

/-- **One round of the loop**: the test of the key lets pass exactly the mapping of `k`. -/
theorem seek_round (d : Disk) (k : Key) :
    (∃ md, d.mapping.find? k = some md ∧
      seekGE (newIter d.keyspace kvPrefixMapping (appendUpper kvPrefixMapping)) (keyMapping k) =
        some (keyMapping k, .mapping md)) ∨
    (d.mapping.find? k = none ∧ ∀ e,
      seekGE (newIter d.keyspace kvPrefixMapping (appendUpper kvPrefixMapping)) (keyMapping k) =
        some e → e.1.drop kvPrefixMapping.length ≠ k) := by
  have hrange : kvPrefixMapping ≤ keyMapping k ∧ keyMapping k < appendUpper kvPrefixMapping :=
    mem_range_mapping.mpr (List.prefix_append _ _)
  cases hf : d.mapping.find? k with
  | some md =>
    refine Or.inl ⟨md, rfl, (seek_eq_some hrange).mpr ?_⟩
    rw [find?_keyspace, hf]
    rfl
  | none =>
    refine Or.inr ⟨rfl, fun e he hkey => ?_⟩
    have hmem := List.mem_of_find?_eq_some he
    obtain ⟨r, hr⟩ := mem_range_mapping.mp (by simpa using (List.mem_filter.mp hmem).2)
    have hraw : e.1 = keyMapping k := by
      rw [← hr, List.drop_left] at hkey
      rw [← hr, hkey]
      rfl
    have hfind := SortedMap.mem_entries.mp (List.mem_filter.mp hmem).1
    rw [hraw, find?_keyspace, hf] at hfind
    cases hfind

/-- What a loop over keys may return: a miss, or all of the mappings on top of `out`. -/
structure Gathered (d : Disk) (keys : List Key) (out m : SortedMap Key ObjectMeta) : Prop where
  found : ∀ k ∈ keys, (d.mapping.find? k).isSome
  holds : ∀ k, m.find? k = if k ∈ keys then d.mapping.find? k else out.find? k

theorem seekLoop_spec (d : Disk) (keys : List Key) : ∀ out,
    ((∃ k ∈ keys, d.mapping.find? k = none) ∧
      seekLoop (newIter d.keyspace kvPrefixMapping (appendUpper kvPrefixMapping)) keys out =
        .error .notFound) ∨
    ∃ m, seekLoop (newIter d.keyspace kvPrefixMapping (appendUpper kvPrefixMapping)) keys out =
      .ok m ∧ Gathered d keys out m := by
  induction keys with
  | nil => exact fun out => Or.inr ⟨out, rfl, fun k hk => absurd hk List.not_mem_nil, fun k => rfl⟩
  | cons k keys ih =>
    intro out
    unfold seekLoop
    rcases seek_round d k with ⟨md, hmd, hseek⟩ | ⟨hnone, hseek⟩
    · rw [hseek]
      simp only [keyMapping, List.drop_left, if_true]
      rcases ih (out.insert k md) with ⟨⟨x, hx, hxn⟩, he⟩ | ⟨m, he, hm⟩
      · exact Or.inl ⟨⟨x, List.mem_cons_of_mem _ hx, hxn⟩, he⟩
      · refine Or.inr ⟨m, he, ?_, fun x => ?_⟩
        · intro x hx
          rcases List.mem_cons.mp hx with rfl | hx
          · rw [hmd]
            rfl
          · exact hm.found x hx
        · rw [hm.holds x, SortedMap.find?_insert]
          by_cases hxk : x = k
          · subst hxk
            simp [hmd]
          · simp [hxk]
    · refine Or.inl ⟨⟨k, List.mem_cons_self, hnone⟩, ?_⟩
      cases hs : seekGE (newIter d.keyspace kvPrefixMapping (appendUpper kvPrefixMapping))
          (keyMapping k) with
      | none => rfl
      | some e => exact if_neg (hseek e hs)

theorem find?_getMany_of_not_mem {keys : List Key} {found : SortedMap Key ObjectMeta}
    (h : d.getMany keys = some found) (hkey : key ∉ keys) : found.find? key = none := by
  induction keys generalizing found with
  | nil =>
    cases h
    rfl
  | cons k keys ih =>
    unfold Disk.getMany at h
    cases hf : d.mapping.find? k with
    | none =>
      rw [hf] at h
      cases h
    | some md =>
      rw [hf] at h
      obtain ⟨out, hout, rfl⟩ := Option.map_eq_some_iff.mp h
      rw [SortedMap.find?_insert, if_neg (fun he : key = k => hkey (he ▸ List.mem_cons_self))]
      exact ih hout fun hk => hkey (List.mem_cons_of_mem _ hk)

theorem getMany_spec (d : Disk) (keys : List Key) :
    ((∃ k ∈ keys, d.mapping.find? k = none) ∧ d.getMany keys = none) ∨
    ∃ m, d.getMany keys = some m ∧ Gathered d keys .empty m := by
  cases hm : d.getMany keys with
  | none => exact Or.inl ⟨getMany_none.mp hm, rfl⟩
  | some m =>
    refine Or.inr ⟨m, rfl, fun k hk => ?_, fun k => ?_⟩
    · refine Option.isSome_iff_ne_none.mpr fun hnone => ?_
      have := getMany_none.mpr ⟨k, hk, hnone⟩
      rw [hm] at this
      cases this
    · split
      · rename_i hk
        exact getMany_some hm hk
      · rename_i hk
        exact find?_getMany_of_not_mem hm hk

/-- The reply of pebble, as the error that the code makes of it. -/
def manyOr : Option (SortedMap Key ObjectMeta) → Res (SortedMap Key ObjectMeta)
  | some found => .ok found
  | none => .error .notFound

/-- **The iterator finds what the table holds.** -/
theorem seekMany_eq_getMany (d : Disk) (keys : List Key) :
    d.seekMany keys = manyOr (d.getMany keys) := by
  unfold Disk.seekMany
  by_cases hnil : keys = []
  · subst hnil
    rfl
  · have hmem : ∀ k, k ∈ keys.mergeSort (· ≤ ·) ↔ k ∈ keys := fun k => List.mem_mergeSort
    rw [if_neg hnil]
    rcases seekLoop_spec d (keys.mergeSort (· ≤ ·)) .empty with ⟨⟨k, hk, hkn⟩, he⟩ | ⟨m, he, hm⟩
    · rw [getMany_none.mpr ⟨k, (hmem k).mp hk, hkn⟩]
      exact he
    · rcases getMany_spec d keys with ⟨⟨k, hk, hkn⟩, -⟩ | ⟨m', hm', hg⟩
      · have := hm.found k ((hmem k).mpr hk)
        rw [hkn] at this
        cases this
      · have heq : m = m' := SortedMap.ext_find? fun k => by
          rw [hm.holds k, hg.holds k]
          simp only [hmem]
        rw [hm', ← heq]
        exact he

/-! ## 3. Lookups in any state -/

/-- Each entry of the cache is the mapping in pebble. -/
def Coherent (d : Disk) (c : MetaCache) : Prop :=
  ∀ key md, c.find? key = some md → d.mapping.find? key = some md

/-- In any state over `d`, `p` takes the cache from `c` to `c'`, changes nothing else, and
returns `a`. -/
def Looks {α : Type} (L : Layout) (d : Disk) (p : Proc α) (c c' : MetaCache) (a : α) : Prop :=
  ∀ (s : Sys) (l : Local), s.db.disk = d →
    ∃ l', p.exec (exec L) { s with cache := c } l = some ({ s with cache := c' }, l', a)

variable {L : Layout} {α β : Type} {c c' c'' : MetaCache} {md : ObjectMeta}

theorem Coherent.get (h : Coherent d c) (key : Key) : Coherent d (c.get key).2 := by
  intro k md hk
  rw [MetaCache.find?_get] at hk
  exact h k md hk

theorem Coherent.put (h : Coherent d c) (hmd : d.mapping.find? key = some md) :
    Coherent d (c.put key md) := by
  intro k m hk
  rcases MetaCache.find?_put hk with ⟨rfl, rfl⟩ | ⟨-, hold⟩
  · exact hmd
  · exact h k m hold

theorem Looks.pure (a : α) : Looks L d (Pure.pure a : Proc α) c c a := fun _ l _ => ⟨l, rfl⟩

/-- **Sequencing.** -/
theorem Looks.bind {p : Proc α} {f : α → Proc β} {a : α} {b : β} (hp : Looks L d p c c' a)
    (hf : Looks L d (f a) c' c'' b) : Looks L d (p >>= f) c c'' b := by
  intro s l hd
  obtain ⟨l1, hx⟩ := hp s l hd
  obtain ⟨l2, hy⟩ := hf s l1 hd
  exact ⟨l2, by rw [Program.exec_bind, hx, Option.bind_some, hy]⟩

theorem looks_cacheGet (key : Key) : Looks L d (cacheGet key) c (c.get key).2 (c.find? key) := by
  intro s l _
  rw [← MetaCache.get_fst]
  exact ⟨_, rfl⟩

theorem looks_cachePut (key : Key) (md : ObjectMeta) :
    Looks L d (cachePut key md) c (c.put key md) () := fun _ _ _ => ⟨_, rfl⟩

theorem looks_mappingGet (key : Key) (site : ReadSite) :
    Looks L d (mappingGet key site) c c (d.mapping.find? key) := by
  rintro s l rfl
  exact ⟨_, rfl⟩

theorem looks_mappingGetMany (keys : List Key) :
    Looks L d (mappingGetMany keys) c c (d.getMany keys) := by
  rintro s l rfl
  exact ⟨_, rfl⟩

/-- `GetMapping` finds what pebble has. -/
theorem looks_getMapping (h : Coherent d c) (key : Key) :
    ∃ c', Looks L d (getMapping key) c c' (foundOr (d.mapping.find? key)) ∧ Coherent d c' := by
  unfold getMapping
  cases hc : c.find? key with
  | some md =>
    refine ⟨(c.get key).2, (looks_cacheGet key).bind ?_, h.get key⟩
    rw [hc, h key md hc]
    exact .pure _
  | none =>
    cases hm : d.mapping.find? key with
    | none =>
      refine ⟨(c.get key).2, (looks_cacheGet key).bind ?_, h.get key⟩
      rw [hc]
      refine (looks_mappingGet key .lookup).bind ?_
      rw [hm]
      exact .pure _
    | some md =>
      refine ⟨(c.get key).2.put key md, (looks_cacheGet key).bind ?_, (h.get key).put hm⟩
      rw [hc]
      refine (looks_mappingGet key .lookup).bind ?_
      rw [hm]
      exact (looks_cachePut key md).bind (.pure _)

/-- The first loop answers for the keys that the cache has; it finds no other mapping than
pebble's. -/
theorem looks_batchGetCached (keys : List Key) : ∀ {c : MetaCache}, Coherent d c →
    ∃ c', Looks L d (batchGetCached keys) c c' (keys.map (fun key => (key, c.find? key))) ∧
      Coherent d c' := by
  induction keys with
  | nil => exact fun {c} h => ⟨c, .pure _, h⟩
  | cons key keys ih =>
    intro c h
    obtain ⟨c', hl, hc'⟩ := ih (h.get key)
    refine ⟨c', (looks_cacheGet key).bind (hl.bind ?_), hc'⟩
    simp only [MetaCache.find?_get]
    exact .pure _

/-- Fills with mappings of pebble. -/
theorem looks_cachePutAll (xs : List (Key × ObjectMeta)) : ∀ {c : MetaCache}, Coherent d c →
    (∀ x ∈ xs, d.mapping.find? x.1 = some x.2) →
    ∃ c', Looks L d (cachePutAll xs) c c' () ∧ Coherent d c' := by
  induction xs with
  | nil => exact fun {c} h _ => ⟨c, .pure _, h⟩
  | cons x xs ih =>
    intro c h hxs
    obtain ⟨c', hl, hc'⟩ := ih (h.put (hxs x List.mem_cons_self))
      (fun y hy => hxs y (List.mem_cons_of_mem _ hy))
    exact ⟨c', (looks_cachePut x.1 x.2).bind hl, hc'⟩

/-! ## 4. The batch -/

/-- The keys that the cache has missed, each once. -/
def missed (c : MetaCache) (keys : List Key) : List Key :=
  (((keys.map (fun key => (key, c.find? key))).filter (fun x => x.2.isNone)).map Prod.fst).dedup

theorem mem_missed {keys : List Key} : key ∈ missed c keys ↔ key ∈ keys ∧ c.find? key = none := by
  simp only [missed, List.mem_dedup, List.mem_map, List.mem_filter, Option.isNone_iff_eq_none]
  constructor
  · rintro ⟨y, ⟨⟨k, hk, rfl⟩, hnone⟩, rfl⟩
    exact ⟨hk, hnone⟩
  · rintro ⟨hk, hnone⟩
    exact ⟨(key, c.find? key), ⟨⟨key, hk, rfl⟩, hnone⟩, rfl⟩

/-- A mapping that a batch reads once from pebble is scattered to every place of its key. -/
theorem scatter_eq {keys : List Key} {f : Key → Option ObjectMeta}
    (h : ∀ key ∈ keys, f key = d.mapping.find? key) (hall : ∀ key ∈ keys, (f key).isSome) :
    (.ok (keys.filterMap f) : Res (List ObjectMeta)) =
      keys.mapM (fun key => foundOr (d.mapping.find? key)) := by
  rw [mapM_foundOr, if_pos fun key hkey => h key hkey ▸ hall key hkey]
  exact congrArg Except.ok (List.filterMap_congr h)

/-- **`BatchGetMapping` looks each key up in pebble.** -/
theorem looks_batchGetMapping (h : Coherent d c) (keys order : List Key) :
    ∃ c', Looks L d (batchGetMapping keys order) c c'
      (keys.mapM (fun key => foundOr (d.mapping.find? key))) ∧ Coherent d c' := by
  obtain ⟨c1, hl, hc1⟩ := looks_batchGetCached (L := L) keys h
  by_cases hnil : missed c keys = []
  · -- the cache has all of them
    have hhit : ∀ key ∈ keys, ∃ md, c.find? key = some md ∧ d.mapping.find? key = some md := by
      intro key hkey
      cases hf : c.find? key with
      | none =>
        have := mem_missed.mpr ⟨hkey, hf⟩
        rw [hnil] at this
        cases this
      | some md => exact ⟨md, rfl, h key md hf⟩
    refine ⟨c1, hl.bind ?_, hc1⟩
    simp only [← missed.eq_1, hnil, if_true]
    rw [List.filterMap_map, ← scatter_eq (f := Prod.snd ∘ fun key => (key, c.find? key))]
    · exact .pure _
    · intro key hkey
      obtain ⟨md, hcm, hdm⟩ := hhit key hkey
      exact hcm.trans hdm.symm
    · intro key hkey
      obtain ⟨md, hcm, -⟩ := hhit key hkey
      exact Option.isSome_of_eq_some hcm
  · rcases getMany_spec d (missed c keys) with ⟨⟨key, hkey, hkn⟩, hmany⟩ | ⟨found, hmany, hg⟩
    · refine ⟨c1, hl.bind ?_, hc1⟩
      simp only [← missed.eq_1, hnil, if_false]
      refine (looks_mappingGetMany _).bind ?_
      rw [hmany, mapM_foundOr, if_neg]
      · exact .pure _
      · intro hall
        have := hall key (mem_missed.mp hkey).1
        rw [hkn] at this
        cases this
    · obtain ⟨c2, hfill, hc2⟩ := looks_cachePutAll (L := L)
        (rangeOrder Prod.fst order found.entries) hc1 (fun x hx => by
          have hx := SortedMap.mem_entries.mp (mem_rangeOrder_iff.mp hx)
          rw [hg.holds x.1] at hx
          split at hx
          · exact hx
          · cases hx)
      refine ⟨c2, hl.bind ?_, hc2⟩
      simp only [← missed.eq_1, hnil, if_false]
      refine (looks_mappingGetMany _).bind ?_
      rw [hmany]
      refine hfill.bind ?_
      have hlook : ∀ key ∈ keys, (c.find? key <|> found.find? key) = d.mapping.find? key := by
        intro key hkey
        cases hf : c.find? key with
        | some md => exact (h key md hf).symm
        | none =>
          have hm := hg.holds key
          rw [if_pos (mem_missed.mpr ⟨hkey, hf⟩)] at hm
          exact hm
      rw [List.filterMap_map, ← scatter_eq
        (f := (fun x => x.2 <|> found.find? x.1) ∘ fun key => (key, c.find? key)) hlook]
      · exact .pure _
      · intro key hkey
        refine (congrArg Option.isSome (hlook key hkey)).trans ?_
        cases hf : c.find? key with
        | some md => rw [h key md hf]; rfl
        | none => exact hg.found key (mem_missed.mpr ⟨hkey, hf⟩)

/-- What a caller of `BatchGetMapping` may be told: that a key is missing, exactly when one is, or
else for each key what `GetMapping` would tell. -/
structure Pointwise (L : Layout) (s : Sys) (l : Local) (keys : List Key)
    (r : Res (List ObjectMeta)) : Prop where
  notFound : r = .error .notFound ↔ ∃ key ∈ keys, s.db.disk.mapping.find? key = none
  each : r ≠ .error .notFound → ∃ metas, r = .ok metas ∧ metas.length = keys.length ∧
    ∀ (i : Nat) (key : Key), keys[i]? = some key → ∃ c l' md, metas[i]? = some md ∧
      (getMapping key).exec (exec L) s l = some ({ s with cache := c }, l', .ok md)

theorem map_eq_map_some {γ δ : Type} {f : γ → Option δ} : ∀ {l : List γ},
    (∀ x ∈ l, (f x).isSome) → l.map f = (l.filterMap f).map some
  | [], _ => rfl
  | x :: l, h => by
    obtain ⟨y, hy⟩ := Option.isSome_iff_exists.mp (h x List.mem_cons_self)
    have ih := map_eq_map_some fun z hz => h z (List.mem_cons_of_mem x hz)
    rw [List.map_cons, List.filterMap_cons_some hy, List.map_cons, hy, ih]

theorem pointwise_mapM {s : Sys} (h : Coherent s.db.disk s.cache) (l : Local) (keys : List Key) :
    Pointwise L s l keys (keys.mapM (fun key => foundOr (s.db.disk.mapping.find? key))) := by
  rw [mapM_foundOr]
  by_cases hall : ∀ key ∈ keys, (s.db.disk.mapping.find? key).isSome
  · rw [if_pos hall]
    have hmetas := map_eq_map_some hall
    generalize keys.filterMap s.db.disk.mapping.find? = metas at hmetas ⊢
    constructor
    · constructor
      · exact fun he => absurd he (by simp)
      · rintro ⟨key, hkey, hnone⟩
        have := hall key hkey
        rw [hnone] at this
        cases this
    · intro _
      refine ⟨metas, rfl, ?_, fun i key hi => ?_⟩
      · have := congrArg List.length hmetas
        simpa using this.symm
      · obtain ⟨md, hmd⟩ := Option.isSome_iff_exists.mp (hall key (List.mem_of_getElem? hi))
        obtain ⟨c', hl, -⟩ := looks_getMapping (L := L) h key
        obtain ⟨l', hx⟩ := hl s l rfl
        have hat : (keys.map s.db.disk.mapping.find?)[i]? = some (some md) := by
          rw [List.getElem?_map, hi, ← hmd]
          rfl
        rw [hmetas, List.getElem?_map] at hat
        obtain ⟨md', hmd', he⟩ := Option.map_eq_some_iff.mp hat
        rw [hmd] at hx
        exact ⟨c', l', md, he ▸ hmd', hx⟩
  · rw [if_neg hall]
    constructor
    · refine ⟨fun _ => ?_, fun _ => rfl⟩
      push Not at hall
      obtain ⟨key, hkey, hnone⟩ := hall
      exact ⟨key, hkey, Option.isNone_iff_eq_none.mp (by simpa using hnone)⟩
    · exact fun hne => absurd rfl hne

/-- **A batch of lookups is its lookups.**  With a coherent cache `BatchGetMapping` tells what
`GetMapping` tells for each key; it leaves everything but the cache as it is, and the cache
coherent.  What pebble tells it is what the iterator finds. -/
theorem batch_get_mapping (L : Layout) (s : Sys) (l : Local) (keys order : List Key)
    (h : Coherent s.db.disk s.cache) :
    (∀ ks, s.db.disk.seekMany ks = manyOr (s.db.disk.getMany ks)) ∧
      ∃ c l' r, (batchGetMapping keys order).exec (exec L) s l =
        some ({ s with cache := c }, l', r) ∧ Pointwise L s l keys r ∧ Coherent s.db.disk c := by
  obtain ⟨c, hl, hc⟩ := looks_batchGetMapping (L := L) h keys order
  obtain ⟨l', hx⟩ := hl s l rfl
  exact ⟨seekMany_eq_getMany s.db.disk, c, l', _, hx, pointwise_mapM h l keys, hc⟩

/-- Two objects, the key of one a prefix of the other's, and the cache has one of them. -/
def halfCached : Sys :=
  { Sys.init (fun _ => 0) [] [] with
    db := ⟨{ Disk.empty with
      mapping := (SortedMap.empty.insert [1] ⟨0, 0, 1⟩).insert [1, 2] ⟨0, 4096, 5⟩ }, []⟩
    cache := MetaCache.empty.put [1] ⟨0, 0, 1⟩ }

theorem batch_get_mapping_halfCached : ∃ c l' r,
    (batchGetMapping [[1, 2], [1], [1, 2]] []).exec (exec ⟨8192, 4⟩) halfCached ⟨[], { call := .batchGetMapping [] [] }⟩ =
      some ({ halfCached with cache := c }, l', r) ∧
    Pointwise ⟨8192, 4⟩ halfCached ⟨[], { call := .batchGetMapping [] [] }⟩ [[1, 2], [1], [1, 2]] r := by
  obtain ⟨-, c, l', r, hx, hr, -⟩ := batch_get_mapping ⟨8192, 4⟩ halfCached ⟨[], { call := .batchGetMapping [] [] }⟩
    [[1, 2], [1], [1, 2]] [] (by
      intro key md hk
      rcases MetaCache.find?_put hk with ⟨rfl, rfl⟩ | ⟨-, hold⟩
      · rfl
      · cases hold)
  exact ⟨c, l', r, hx, hr⟩

end Taihu
