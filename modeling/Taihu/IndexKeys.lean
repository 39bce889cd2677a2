/-
# Enumerating the index

`ListIndexKeys` of `pkg/taihu-client/ops.go`, `indexKey` of `index.go` and `Scan` of
`internal/cluster/kv_mem.go`.

The index is one prefix of a KV whose `Scan` takes a half-open interval of keys.  The upper bound
that `ListIndexKeys` asks for is the prefix followed by the byte `0xff`, which is below the keys
that go on with that byte.  `list_index_keys_iff`: the enumeration is complete exactly when there
is no such key.
-/
import Taihu.Lib.PrefixRange
import Taihu.Records

namespace Taihu.IndexKeys

/-- `IndexKeyPrefix`: `/taihu/index/`. -/
def indexKeyPrefix : Key := [47, 116, 97, 105, 104, 117, 47, 105, 110, 100, 101, 120, 47]

/-- `indexKey`. -/
def indexKey (key : Key) : Key := indexKeyPrefix ++ key

/-! ## 1. The KV -/

/-- A KV, as far as its keys go: `Scan` without a limit returns the keys of an interval in byte
order. -/
structure KV where
  keys : Finset Key
  scan : Key → Key → List Key
  scan_eq : ∀ start stop, start ≠ [] → stop ≠ [] →
    scan start stop = (keys.filter (fun k => start ≤ k ∧ k < stop)).sort (· ≤ ·)

/-- `MemoryKV`: the keys of the map, in the order in which it is ranged over. -/
structure MemoryKV where
  m : List Key
  nodup : m.Nodup

/-- `MemoryKV.Scan`, the keys; an empty bound is no bound. -/
def MemoryKV.scan (kv : MemoryKV) (start stop : Key) (limit : Int) : List Key :=
  let keys := kv.m.filter (fun k => (start = [] ∨ start ≤ k) ∧ (stop = [] ∨ k < stop))
  let keys := keys.mergeSort (· ≤ ·)
  if limit > 0 ∧ (keys.length : Int) > limit then keys.take limit.toNat else keys

theorem MemoryKV.scan_eq (kv : MemoryKV) (start stop : Key) (h : start ≠ []) (h' : stop ≠ []) :
    kv.scan start stop 0
      = (kv.m.toFinset.filter (fun k => start ≤ k ∧ k < stop)).sort (· ≤ ·) := by
  have hkeys : kv.m.filter (fun k => (start = [] ∨ start ≤ k) ∧ (stop = [] ∨ k < stop))
      = kv.m.filter (fun k => start ≤ k ∧ k < stop) := by
    simp [h, h']
  unfold scan
  simp only [hkeys, gt_iff_lt, lt_self_iff_false, false_and, if_false]
  refine List.Perm.eq_of_pairwise (fun (a b : Key) _ _ (h : a ≤ b) (h' : b ≤ a) =>
    le_antisymm h h') ?_ ?_ ?_
  · exact List.pairwise_mergeSort' _ _
  · exact Finset.pairwise_sort _ _
  · refine (List.mergeSort_perm _ _).trans ?_
    refine (List.perm_ext_iff_of_nodup (kv.nodup.filter _) (Finset.sort_nodup _ _)).mpr fun k => ?_
    simp

/-- The KV that `MemoryKV` implements. -/
def MemoryKV.toKV (kv : MemoryKV) : KV :=
  ⟨kv.m.toFinset, fun start stop => kv.scan start stop 0, kv.scan_eq⟩

/-! ## 2. The enumeration -/

/-- `strings.TrimPrefix`. -/
def trimPrefix (k p : Key) : Key := if p <+: k then k.drop p.length else k

/-- `ListIndexKeys`. -/
def listIndexKeys (kv : KV) (pre : Key) : List Key :=
  let start := indexKeyPrefix ++ pre
  let stop := indexKeyPrefix ++ pre ++ [255]
  (kv.scan start stop).map (fun k => trimPrefix k indexKeyPrefix)

/-- The enumeration is what it is for: the objects that start with `pre`, each once. -/
structure Complete (kv : KV) (pre : Key) : Prop where
  nodup : (listIndexKeys kv pre).Nodup
  mem_iff : ∀ key, key ∈ listIndexKeys kv pre ↔ indexKey key ∈ kv.keys ∧ pre <+: key

variable {kv : KV} {pre : Key}

theorem le_byte (a : Byte) : a ≤ 255 := by
  have h := a.isLt
  exact Fin.le_def.mpr (by show a.val ≤ 255; omega)

/-- The keys that `Scan` is asked for. -/
theorem mem_scan {k : Key} :
    k ∈ kv.scan (indexKeyPrefix ++ pre) (indexKeyPrefix ++ pre ++ [255]) ↔
      ∃ key, indexKey key = k ∧ k ∈ kv.keys ∧ pre <+: key ∧ ¬ pre ++ [255] <+: key := by
  rw [kv.scan_eq _ _ (by simp [indexKeyPrefix]) (by simp), Finset.mem_sort, Finset.mem_filter,
    PrefixRange.range_top_iff le_byte, List.append_assoc]
  constructor
  · rintro ⟨hk, ⟨r, rfl⟩, hno⟩
    refine ⟨pre ++ r, (List.append_assoc _ _ _).symm, hk, List.prefix_append pre r, fun h => hno ?_⟩
    rw [List.append_assoc]
    exact (List.prefix_append_right_inj _).mpr h
  · rintro ⟨key, rfl, hk, hpre, hno⟩
    exact ⟨hk, (List.prefix_append_right_inj _).mpr hpre,
      fun h => hno ((List.prefix_append_right_inj _).mp h)⟩

theorem trimPrefix_indexKey (key : Key) : trimPrefix (indexKey key) indexKeyPrefix = key := by
  unfold trimPrefix indexKey
  rw [if_pos (List.prefix_append _ _), List.drop_left]

/-- What the enumeration returns. -/
theorem mem_listIndexKeys {key : Key} : key ∈ listIndexKeys kv pre ↔
    indexKey key ∈ kv.keys ∧ pre <+: key ∧ ¬ pre ++ [255] <+: key := by
  unfold listIndexKeys
  rw [List.mem_map]
  constructor
  · rintro ⟨k, hk, rfl⟩
    obtain ⟨key, rfl, hin, hpre, hno⟩ := mem_scan.mp hk
    rw [trimPrefix_indexKey]
    exact ⟨hin, hpre, hno⟩
  · rintro ⟨hin, hpre, hno⟩
    exact ⟨indexKey key, mem_scan.mpr ⟨key, rfl, hin, hpre, hno⟩, trimPrefix_indexKey key⟩

/-- Nothing is returned twice. -/
theorem nodup_listIndexKeys (kv : KV) (pre : Key) : (listIndexKeys kv pre).Nodup := by
  refine List.Nodup.map_on ?_ ?_
  · intro k hk k' hk' h
    obtain ⟨key, rfl, -⟩ := mem_scan.mp hk
    obtain ⟨key', rfl, -⟩ := mem_scan.mp hk'
    rw [trimPrefix_indexKey, trimPrefix_indexKey] at h
    rw [h]
  · rw [kv.scan_eq _ _ (by simp [indexKeyPrefix]) (by simp)]
    exact Finset.sort_nodup _ _

/-- **Enumeration.**  `ListIndexKeys` returns the indexed objects that start with `pre`, each
once, exactly when none of them goes on with the byte `0xff`. -/
theorem list_index_keys_iff (kv : KV) (pre : Key) :
    Complete kv pre ↔ ∀ key, indexKey key ∈ kv.keys → ¬ pre ++ [255] <+: key := by
  constructor
  · intro h key hin hpre
    have hp : pre <+: key := (List.prefix_append pre [255]).trans hpre
    exact (mem_listIndexKeys.mp ((h.mem_iff key).mpr ⟨hin, hp⟩)).2.2 hpre
  · intro h
    refine ⟨nodup_listIndexKeys kv pre, fun key => ?_⟩
    rw [mem_listIndexKeys]
    constructor
    · rintro ⟨hin, hpre, -⟩
      exact ⟨hin, hpre⟩
    · rintro ⟨hin, hpre⟩
      exact ⟨hin, hpre, h key hin⟩

/-- **An object that is not listed**: its key is the byte `0xff`, in a `MemoryKV`. -/
theorem last_byte_is_not_listed :
    ¬ Complete (MemoryKV.toKV ⟨[indexKey [255]], by decide⟩) [] := by
  intro h
  have hin : [255] ∈ listIndexKeys (MemoryKV.toKV ⟨[indexKey [255]], by decide⟩) [] :=
    (h.mem_iff [255]).mpr ⟨by decide, by decide⟩
  exact absurd hin (by decide +kernel)

end Taihu.IndexKeys
