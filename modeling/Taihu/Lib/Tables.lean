/-
# Tables in one ordered store

A store maps raw keys to raw values, and it is read by key or by an interval of keys, in their
order.  A TABLE is kept in it by an injective code of its keys and one of its values.  Several
tables share a store when the code of one never produces a key of another.

`Holds` says what a table is in a store: under the code of each key is the code of its value.  A
write of the table changes it as a map is changed (`Holds.set`, `Holds.erase`), and one under any
other key leaves it (`Holds.congr`).  An interval that has all keys of the table, and in this store
no others (`Owns`), is scanned for exactly its entries, each once, in the order of their codes
(`scan_spec`).
-/
import Taihu.Lib.SortedMap

/-- The codes of the keys and of the values. -/
structure Table (R V κ ν : Type) where
  key : κ → R
  encode : ν → V
  key_injective : Function.Injective key
  encode_injective : Function.Injective encode

namespace Table

variable {R V κ ν : Type} [LinearOrder R]

/-! ## 1. Scans -/

/-- The records of an interval of keys, in their order. -/
def scan (s : SortedMap R V) (lower upper : R) : List (R × V) :=
  s.entries.filter (fun e => lower ≤ e.1 ∧ e.1 < upper)

variable {s : SortedMap R V} {lower upper raw : R} {x : V}

theorem mem_scan {e : R × V} :
    e ∈ scan s lower upper ↔ s.find? e.1 = some e.2 ∧ lower ≤ e.1 ∧ e.1 < upper := by
  rw [scan, List.mem_filter, decide_eq_true_eq, ← SortedMap.mem_entries]

theorem sorted_scan (s : SortedMap R V) (lower upper : R) :
    (scan s lower upper).Pairwise (fun a b => a.1 < b.1) := s.sorted.filter _

/-- Stores that agree on an interval are scanned alike. -/
theorem scan_congr {s' : SortedMap R V}
    (h : ∀ k, lower ≤ k → k < upper → s.find? k = s'.find? k) :
    scan s lower upper = scan s' lower upper := by
  refine SortedMap.eq_of_sorted (sorted_scan s lower upper) (sorted_scan s' lower upper) fun e => ?_
  rw [mem_scan, mem_scan]
  constructor
  · rintro ⟨he, hl, hu⟩
    exact ⟨(h e.1 hl hu).symm.trans he, hl, hu⟩
  · rintro ⟨he, hl, hu⟩
    exact ⟨(h e.1 hl hu).trans he, hl, hu⟩

/-! ## 2. What a table is in a store -/

variable {t : Table R V κ ν} {f : κ → Option ν} {k : κ} {v : ν}

/-- Under the code of each key is the code of its value. -/
def Holds (t : Table R V κ ν) (s : SortedMap R V) (f : κ → Option ν) : Prop :=
  ∀ k, s.find? (t.key k) = (f k).map t.encode

/-- The interval has all keys of the table, and in this store no others. -/
structure Owns (t : Table R V κ ν) (s : SortedMap R V) (lower upper : R) : Prop where
  keys : ∀ k, lower ≤ t.key k ∧ t.key k < upper
  only : ∀ raw x, s.find? raw = some x → lower ≤ raw → raw < upper → ∃ k, raw = t.key k

theorem holds_empty (t : Table R V κ ν) : t.Holds .empty (fun _ => none) := fun _ => rfl

theorem owns_empty (h : ∀ k, lower ≤ t.key k ∧ t.key k < upper) : t.Owns .empty lower upper :=
  ⟨h, fun raw x hx => by cases hx⟩

section Writes

variable [DecidableEq κ]

/-- A write of the table. -/
theorem Holds.set (h : t.Holds s f) (k : κ) (v : ν) :
    t.Holds (s.insert (t.key k) (t.encode v)) (fun k' => if k' = k then some v else f k') := by
  intro k'
  simp only [SortedMap.find?_insert]
  by_cases hk : k' = k
  · rw [if_pos (congrArg t.key hk), if_pos hk]
    rfl
  · rw [if_neg (fun he => hk (t.key_injective he)), if_neg hk]
    exact h k'

/-- A removal from the table. -/
theorem Holds.erase (h : t.Holds s f) (k : κ) :
    t.Holds (s.erase (t.key k)) (fun k' => if k' = k then none else f k') := by
  intro k'
  simp only [SortedMap.find?_erase]
  by_cases hk : k' = k
  · rw [if_pos (congrArg t.key hk), if_pos hk]
    rfl
  · rw [if_neg (fun he => hk (t.key_injective he)), if_neg hk]
    exact h k'

end Writes

/-- What happens to other keys leaves the table. -/
theorem Holds.congr {s' : SortedMap R V} (h : t.Holds s f)
    (hs : ∀ k, s'.find? (t.key k) = s.find? (t.key k)) : t.Holds s' f :=
  fun k => (hs k).trans (h k)

/-- What happens outside the interval leaves it to the table. -/
theorem Owns.congr {s' : SortedMap R V} (h : t.Owns s lower upper)
    (hs : ∀ raw, lower ≤ raw → raw < upper → s'.find? raw = s.find? raw) :
    t.Owns s' lower upper :=
  ⟨h.keys, fun raw y hy hl hu => h.only raw y ((hs raw hl hu).symm.trans hy) hl hu⟩

theorem Owns.set (h : t.Owns s lower upper) (k : κ) : t.Owns (s.insert (t.key k) x) lower upper := by
  refine ⟨h.keys, fun raw y hy hl hu => ?_⟩
  rw [SortedMap.find?_insert] at hy
  split at hy
  · exact ⟨k, ‹_›⟩
  · exact h.only raw y hy hl hu

/-! ## 3. What a scan of a table finds -/

/-- The code of an entry. -/
def code (t : Table R V κ ν) (e : κ × ν) : R × V := (t.key e.1, t.encode e.2)

theorem exists_map_of_forall {α β : Type} {g : α → β} : ∀ {l : List β},
    (∀ b ∈ l, ∃ a, g a = b) → ∃ l' : List α, l = l'.map g
  | [], _ => ⟨[], rfl⟩
  | b :: l, h => by
    obtain ⟨a, rfl⟩ := h b List.mem_cons_self
    obtain ⟨l', rfl⟩ := exists_map_of_forall (fun b hb => h b (List.mem_cons_of_mem _ hb))
    exact ⟨a :: l', rfl⟩

/-- A record in the interval is an entry of the table. -/
theorem mem_scan_code (h : t.Holds s f) (ho : t.Owns s lower upper) {e : R × V} :
    e ∈ scan s lower upper ↔ ∃ k v, e = t.code (k, v) ∧ f k = some v := by
  rw [mem_scan]
  constructor
  · rintro ⟨hfind, hl, hu⟩
    obtain ⟨k, hk⟩ := ho.only e.1 e.2 hfind hl hu
    rw [hk, h k] at hfind
    obtain ⟨v, hv, he⟩ := Option.map_eq_some_iff.mp hfind
    exact ⟨k, v, Prod.ext hk he.symm, hv⟩
  · rintro ⟨k, v, rfl, hv⟩
    refine ⟨?_, ho.keys k⟩
    show s.find? (t.key k) = some (t.encode v)
    rw [h k, hv]
    rfl

/-- **A scan finds the entries of the table**, each once, in the order of their codes. -/
theorem scan_spec (h : t.Holds s f) (ho : t.Owns s lower upper) :
    ∃ entries : List (κ × ν), scan s lower upper = entries.map t.code ∧
      entries.Pairwise (fun a b => t.key a.1 < t.key b.1) ∧
      ∀ k v, (k, v) ∈ entries ↔ f k = some v := by
  obtain ⟨entries, hentries⟩ := exists_map_of_forall (g := t.code) (l := scan s lower upper)
    (fun e he => by
      obtain ⟨k, v, rfl, -⟩ := (mem_scan_code h ho).mp he
      exact ⟨(k, v), rfl⟩)
  refine ⟨entries, hentries, ?_, fun k v => ?_⟩
  · have hsorted := sorted_scan s lower upper
    rw [hentries, List.pairwise_map] at hsorted
    exact hsorted
  · have hmem : (k, v) ∈ entries ↔ t.code (k, v) ∈ scan s lower upper := by
      rw [hentries, List.mem_map]
      constructor
      · intro hkv
        exact ⟨(k, v), hkv, rfl⟩
      · rintro ⟨e, he, hcode⟩
        have hkey : e.1 = k := t.key_injective (congrArg Prod.fst hcode)
        have hval : e.2 = v := t.encode_injective (congrArg Prod.snd hcode)
        rw [← hkey, ← hval]
        exact he
    rw [hmem, mem_scan_code h ho]
    constructor
    · rintro ⟨k', v', hcode, hf⟩
      have hkey : k = k' := t.key_injective (congrArg Prod.fst hcode)
      have hval : v = v' := t.encode_injective (congrArg Prod.snd hcode)
      rw [hkey, hval]
      exact hf
    · intro hf
      exact ⟨k, v, rfl, hf⟩

end Table
