/-
# Finite maps kept as strictly sorted association lists

An ordered key-value store hands out its records in key order, and two stores that answer
every lookup alike also iterate alike.  The map of this module has both properties by
construction: it is an association list together with the proof that its keys increase
strictly, so the list IS the iteration order, and two maps with the same lookups are equal
(`SortedMap.ext_find?`).

Besides lookup, insertion and removal the module counts the entries whose VALUE satisfies a
predicate (`count`).  The two equations `count_insert` and `count_erase` say what one write
does to such a count; they are stated additively so that no natural number is subtracted.
-/
import Mathlib

/-- A finite map: its entries, in strictly increasing order of their keys. -/
structure SortedMap (κ ν : Type) [LinearOrder κ] where
  entries : List (κ × ν)
  sorted : entries.Pairwise (fun a b => a.1 < b.1)

namespace SortedMap

variable {κ ν : Type} [LinearOrder κ]

/-! ## 1. The list functions -/

/-- The value of the first entry with key `k`. -/
def lookupList (k : κ) : List (κ × ν) → Option ν
  | [] => none
  | (k', v) :: t => if k = k' then some v else lookupList k t

/-- Insert at the sorted position, replacing an entry with the same key. -/
def insertList (k : κ) (v : ν) : List (κ × ν) → List (κ × ν)
  | [] => [(k, v)]
  | (k', v') :: t =>
    if k < k' then (k, v) :: (k', v') :: t
    else if k = k' then (k, v) :: t
    else (k', v') :: insertList k v t

/-- Remove the first entry with key `k`. -/
def eraseList (k : κ) : List (κ × ν) → List (κ × ν)
  | [] => []
  | (k', v') :: t => if k = k' then t else (k', v') :: eraseList k t

theorem mem_insertList {k : κ} {v : ν} {e : κ × ν} :
    ∀ {l : List (κ × ν)}, e ∈ insertList k v l → e = (k, v) ∨ e ∈ l
  | [], h => by simpa [insertList] using h
  | (k', v') :: t, h => by
    simp only [insertList] at h
    split at h
    · rcases List.mem_cons.mp h with h | h
      · exact Or.inl h
      · exact Or.inr h
    · split at h
      · rcases List.mem_cons.mp h with h | h
        · exact Or.inl h
        · exact Or.inr (List.mem_cons_of_mem _ h)
      · rcases List.mem_cons.mp h with h | h
        · exact Or.inr (h ▸ List.mem_cons_self)
        · rcases mem_insertList h with h | h
          · exact Or.inl h
          · exact Or.inr (List.mem_cons_of_mem _ h)

theorem sorted_insertList (k : κ) (v : ν) :
    ∀ {l : List (κ × ν)}, l.Pairwise (fun a b => a.1 < b.1) →
      (insertList k v l).Pairwise (fun a b => a.1 < b.1)
  | [], _ => by simp [insertList]
  | (k', v') :: t, h => by
    have ht := List.pairwise_cons.mp h
    simp only [insertList]
    split
    · rename_i hlt
      refine List.pairwise_cons.mpr ⟨?_, h⟩
      intro e he
      rcases List.mem_cons.mp he with rfl | he
      · exact hlt
      · exact lt_trans hlt (ht.1 e he)
    · split
      · rename_i heq
        subst heq
        exact List.pairwise_cons.mpr ⟨ht.1, ht.2⟩
      · rename_i hlt hne
        refine List.pairwise_cons.mpr ⟨?_, sorted_insertList k v ht.2⟩
        intro e he
        rcases mem_insertList he with rfl | he
        · exact lt_of_le_of_ne (not_lt.mp hlt) (fun e => hne e.symm)
        · exact ht.1 e he

theorem eraseList_sublist (k : κ) : ∀ l : List (κ × ν), (eraseList k l).Sublist l
  | [] => List.Sublist.slnil
  | (k', v') :: t => by
    simp only [eraseList]
    split
    · exact List.sublist_cons_self _ _
    · exact (eraseList_sublist k t).cons_cons _

theorem lookupList_eq_none {k : κ} :
    ∀ {l : List (κ × ν)}, (∀ e ∈ l, e.1 ≠ k) → lookupList k l = none
  | [], _ => rfl
  | (k', v') :: t, h => by
    have hne : k ≠ k' := fun e => h (k', v') List.mem_cons_self e.symm
    rw [lookupList, if_neg hne]
    exact lookupList_eq_none (fun e he => h e (List.mem_cons_of_mem _ he))

theorem mem_of_lookupList {k : κ} {v : ν} :
    ∀ {l : List (κ × ν)}, lookupList k l = some v → (k, v) ∈ l
  | [], h => by simp [lookupList] at h
  | (k', v') :: t, h => by
    simp only [lookupList] at h
    split at h
    · rename_i heq
      rw [heq, Option.some.inj h]
      exact List.mem_cons_self
    · exact List.mem_cons_of_mem _ (mem_of_lookupList h)

theorem lookupList_of_mem {k : κ} {v : ν} :
    ∀ {l : List (κ × ν)}, l.Pairwise (fun a b => a.1 < b.1) → (k, v) ∈ l →
      lookupList k l = some v
  | (k', v') :: t, h, hm => by
    have ht := List.pairwise_cons.mp h
    rcases List.mem_cons.mp hm with he | hm
    · simp only [Prod.mk.injEq] at he
      rw [lookupList, if_pos he.1, he.2]
    · rw [lookupList, if_neg (ne_of_gt (ht.1 _ hm))]
      exact lookupList_of_mem ht.2 hm

/-! ## 2. The map operations -/

/-- The map with no entries. -/
def empty : SortedMap κ ν := ⟨[], List.Pairwise.nil⟩

instance : Inhabited (SortedMap κ ν) := ⟨empty⟩

def find? (m : SortedMap κ ν) (k : κ) : Option ν := lookupList k m.entries

def insert (m : SortedMap κ ν) (k : κ) (v : ν) : SortedMap κ ν :=
  ⟨insertList k v m.entries, sorted_insertList k v m.sorted⟩

def erase (m : SortedMap κ ν) (k : κ) : SortedMap κ ν :=
  ⟨eraseList k m.entries, m.sorted.sublist (eraseList_sublist k m.entries)⟩

/-- The keys, in increasing order. -/
def keys (m : SortedMap κ ν) : List κ := m.entries.map Prod.fst

/-- How many entries carry a value that satisfies `p`. -/
def count (p : ν → Bool) (m : SortedMap κ ν) : Nat := m.entries.countP (fun e => p e.2)

@[simp] theorem find?_empty (k : κ) : (empty : SortedMap κ ν).find? k = none := rfl

@[simp] theorem count_empty (p : ν → Bool) : (empty : SortedMap κ ν).count p = 0 := rfl

/-- An entry of the list is exactly a successful lookup. -/
theorem mem_entries {m : SortedMap κ ν} {k : κ} {v : ν} :
    (k, v) ∈ m.entries ↔ m.find? k = some v :=
  ⟨fun h => lookupList_of_mem m.sorted h, fun h => mem_of_lookupList h⟩

theorem mem_keys {m : SortedMap κ ν} {k : κ} : k ∈ m.keys ↔ ∃ v, m.find? k = some v := by
  constructor
  · intro h
    obtain ⟨⟨k', v⟩, hm, rfl⟩ := List.mem_map.mp h
    exact ⟨v, mem_entries.mp hm⟩
  · rintro ⟨v, h⟩
    exact List.mem_map.mpr ⟨(k, v), mem_entries.mpr h, rfl⟩

theorem nodup_keys (m : SortedMap κ ν) : m.keys.Nodup := by
  refine List.Pairwise.map Prod.fst ?_ m.sorted
  exact fun a b h => ne_of_lt h

/-- An insertion adds no entry but the new one. -/
theorem entries_insert_subperm (m : SortedMap κ ν) (k : κ) (v : ν) :
    (m.insert k v).entries.Subperm ((k, v) :: m.entries) :=
  List.subperm_of_subset (List.Nodup.of_map Prod.fst (m.insert k v).nodup_keys)
    fun _ he => List.mem_cons.mpr (mem_insertList he)

theorem entries_erase_subperm (m : SortedMap κ ν) (k : κ) :
    (m.erase k).entries.Subperm m.entries := (eraseList_sublist k m.entries).subperm

theorem lookupList_insertList (k k' : κ) (v : ν) :
    ∀ l : List (κ × ν), lookupList k' (insertList k v l)
      = if k' = k then some v else lookupList k' l
  | [] => by simp [insertList, lookupList]
  | (a, b) :: t => by
    have ih := lookupList_insertList k k' v t
    simp only [insertList]
    split
    · simp only [lookupList]
    · split
      · rename_i heq
        subst heq
        simp only [lookupList]
        split <;> rfl
      · rename_i hne
        simp only [lookupList, ih]
        by_cases h : k' = a
        · have hk : ¬ k' = k := fun e => hne (e.symm.trans h)
          rw [if_pos h, if_neg hk, if_pos h]
        · rw [if_neg h, if_neg h]

@[simp] theorem find?_insert (m : SortedMap κ ν) (k k' : κ) (v : ν) :
    (m.insert k v).find? k' = if k' = k then some v else m.find? k' :=
  lookupList_insertList k k' v m.entries

theorem find?_insert_self (m : SortedMap κ ν) (k : κ) (v : ν) :
    (m.insert k v).find? k = some v := by simp

theorem lookupList_eraseList (k k' : κ) :
    ∀ {l : List (κ × ν)}, l.Pairwise (fun a b => a.1 < b.1) →
      lookupList k' (eraseList k l) = if k' = k then none else lookupList k' l
  | [], _ => by simp [eraseList, lookupList]
  | (a, b) :: t, h => by
    have ht := List.pairwise_cons.mp h
    have ih := lookupList_eraseList k k' ht.2
    simp only [eraseList]
    split
    · rename_i heq
      subst heq
      by_cases hk : k' = k
      · rw [if_pos hk, hk]
        exact lookupList_eq_none (fun e he => ne_of_gt (ht.1 e he))
      · rw [if_neg hk, lookupList, if_neg hk]
    · rename_i hne
      simp only [lookupList, ih]
      by_cases hka : k' = a
      · have hk : ¬ k' = k := fun e => hne (e.symm.trans hka)
        rw [if_pos hka, if_neg hk, if_pos hka]
      · rw [if_neg hka, if_neg hka]

@[simp] theorem find?_erase (m : SortedMap κ ν) (k k' : κ) :
    (m.erase k).find? k' = if k' = k then none else m.find? k' :=
  lookupList_eraseList k k' m.sorted

/-- Lists that are strictly sorted and have the same members are the same. -/
theorem eq_of_sorted {α β : Type} [LinearOrder β] {rank : α → β} {l l' : List α}
    (h : l.Pairwise (fun a b => rank a < rank b)) (h' : l'.Pairwise (fun a b => rank a < rank b))
    (hmem : ∀ a, a ∈ l ↔ a ∈ l') : l = l' := by
  have hnd : ∀ {n : List α}, n.Pairwise (fun a b => rank a < rank b) → n.Nodup := fun hn =>
    hn.imp (fun hlt e => absurd (congrArg rank e) (ne_of_lt hlt))
  have hperm : l.Perm l' := (List.perm_ext_iff_of_nodup (hnd h) (hnd h')).mpr hmem
  exact hperm.eq_of_pairwise (fun a b _ _ hab hba => absurd hba (lt_asymm hab)) h h'

/-- **Lookups determine the map.** -/
theorem ext_find? {m m' : SortedMap κ ν} (h : ∀ k, m.find? k = m'.find? k) : m = m' := by
  have heq : m.entries = m'.entries := by
    refine eq_of_sorted m.sorted m'.sorted ?_
    rintro ⟨k, v⟩
    rw [mem_entries, mem_entries, h k]
  cases m
  cases m'
  simp only at heq
  subst heq
  rfl

theorem insert_insert (m : SortedMap κ ν) (k : κ) (v v' : ν) :
    (m.insert k v).insert k v' = m.insert k v' := by
  refine ext_find? fun k' => ?_
  simp only [find?_insert]
  split <;> rfl

theorem find?_foldr_insert (k : κ) : ∀ l : List (κ × ν),
    (l.foldr (fun e m => m.insert e.1 e.2) (empty : SortedMap κ ν)).find? k = lookupList k l
  | [] => rfl
  | e :: l => by
    rw [List.foldr_cons, find?_insert, find?_foldr_insert k l]
    rfl

theorem lookupList_append_of_ne {k : κ} {l : List (κ × ν)} :
    ∀ {l' : List (κ × ν)}, (∀ e ∈ l, e.1 ≠ k) → lookupList k (l' ++ l) = lookupList k l'
  | [], h => lookupList_eq_none h
  | e :: l', h => by
    simp only [List.cons_append, lookupList, lookupList_append_of_ne h]

/-! ## 3. Changing every value -/

/-- The same keys, each value replaced by its image. -/
def mapValues {μ : Type} (m : SortedMap κ ν) (f : ν → μ) : SortedMap κ μ :=
  ⟨m.entries.map (fun e => (e.1, f e.2)), List.Pairwise.map _ (fun _ _ h => h) m.sorted⟩

/-- A lookup after the keys are coded by an injective map and the values are replaced. -/
theorem lookupList_map_injective {κ' μ : Type} [LinearOrder κ'] {f : κ → κ'}
    (hf : Function.Injective f) (g : ν → μ) (k : κ) : ∀ l : List (κ × ν),
    lookupList (f k) (l.map (fun e => (f e.1, g e.2))) = (lookupList k l).map g
  | [] => rfl
  | e :: l => by
    simp only [List.map_cons, lookupList, hf.eq_iff, lookupList_map_injective hf g k l]
    split <;> rfl

@[simp] theorem find?_mapValues {μ : Type} (m : SortedMap κ ν) (f : ν → μ) (k : κ) :
    (m.mapValues f).find? k = (m.find? k).map f :=
  lookupList_map_injective Function.injective_id f k m.entries

/-! ## 4. Counting values -/

theorem countP_insertList (p : ν → Bool) (k : κ) (v : ν) :
    ∀ l : List (κ × ν), l.Pairwise (fun a b => a.1 < b.1) →
      (insertList k v l).countP (fun e => p e.2) + ((lookupList k l).toList.countP p)
        = l.countP (fun e => p e.2) + (if p v then 1 else 0)
  | [], _ => by simp [insertList, lookupList, List.countP_cons]
  | (a, b) :: t, h => by
    have ht := List.pairwise_cons.mp h
    have ih := countP_insertList p k v t ht.2
    simp only [insertList, lookupList]
    split
    · rename_i hlt
      have hnone : lookupList k t = none :=
        lookupList_eq_none (fun e he => ne_of_gt (lt_trans hlt (ht.1 e he)))
      rw [if_neg (ne_of_lt hlt), hnone]
      simp [List.countP_cons]
    · split
      · rename_i heq
        simp [List.countP_cons]
        omega
      · simp only [List.countP_cons]
        omega

/-- One insertion: the value it overwrites leaves the count, the new value enters it. -/
theorem count_insert (m : SortedMap κ ν) (p : ν → Bool) (k : κ) (v : ν) :
    (m.insert k v).count p + (m.find? k).toList.countP p
      = m.count p + (if p v then 1 else 0) :=
  countP_insertList p k v m.entries m.sorted

theorem countP_eraseList (p : ν → Bool) (k : κ) :
    ∀ l : List (κ × ν),
      (eraseList k l).countP (fun e => p e.2) + ((lookupList k l).toList.countP p)
        = l.countP (fun e => p e.2)
  | [] => by simp [eraseList, lookupList]
  | (a, b) :: t => by
    have ih := countP_eraseList p k t
    simp only [eraseList, lookupList]
    split
    · simp [List.countP_cons]
    · simp only [List.countP_cons]
      omega

/-- One removal: the removed value leaves the count. -/
theorem count_erase (m : SortedMap κ ν) (p : ν → Bool) (k : κ) :
    (m.erase k).count p + (m.find? k).toList.countP p = m.count p :=
  countP_eraseList p k m.entries

theorem count_pos_iff {m : SortedMap κ ν} {p : ν → Bool} :
    0 < m.count p ↔ ∃ k v, m.find? k = some v ∧ p v = true := by
  rw [count, List.countP_pos_iff]
  constructor
  · rintro ⟨⟨k, v⟩, hm, hp⟩
    exact ⟨k, v, mem_entries.mp hm, hp⟩
  · rintro ⟨k, v, hf, hp⟩
    exact ⟨(k, v), mem_entries.mpr hf, hp⟩

end SortedMap
