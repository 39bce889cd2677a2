/-
# `BatchDeleteMapping` and one delete after another

The batch looks all its keys up before it deletes any.  A key that occurs twice and has a mapping
is therefore found twice: both occurrences report success, and the segment of its object is
charged twice.  Apart from that, and from entries that the lookups of the batch may push out of
the cache, the batch does what `DeleteMapping` on each key does.

The lookups are compared on the orders of the cache: the order a sequence of deletes leaves is
the order the lookups leave, without the deleted keys.
-/
import Taihu.Frame
import Taihu.FreePool
import Taihu.Sequential
import Taihu.CacheOrder

namespace Taihu

open Concur Recency

/-! ## 1. The programs -/

/-- The error of a call that returns nothing. -/
def errOf : Res Unit → Option Err
  | .ok _ => none
  | .error e => some e

/-- `DeleteMapping` on one key after another. -/
def deleteEach : List Key → Proc (List (Option Err))
  | [] => pure []
  | key :: keys => do
    let r ← deleteMapping key
    let errs ← deleteEach keys
    pure (errOf r :: errs)

/-- Two states of the store that no caller can tell apart: the mappings, what the cache answers,
and every segment's count and state. -/
structure SameStore (s s' : Sys) : Prop where
  mapping : s.db.disk.mapping = s'.db.disk.mapping
  cache : ∀ key, s.cache.find? key = s'.cache.find? key
  alive : ∀ id, (s.segs.segs.find? id).map (fun e => e.md.aliveCount)
    = (s'.segs.segs.find? id).map (fun e => e.md.aliveCount)
  state : ∀ id, s.segs.state? id = s'.segs.state? id

/-- The batch and the single deletes, started from the same state, return the same errors and
leave the same store. -/
def BatchDeleteRefines (L : Layout) (s : Sys) (l : Local) (keys : List Key) : Prop :=
  ∃ s1 l1 s2 l2 errs, (batchDeleteMapping keys).exec (exec L) s l = some (s1, l1, .ok errs) ∧
    (deleteEach keys).exec (exec L) s l = some (s2, l2, errs) ∧ SameStore s1 s2

/-! ## 2. Lookups that evict nothing -/

/-- If the lookup of `key` fills the cache, the shard has room for the entry. -/
def MetaCache.Fits (c : MetaCache) (d : Disk) (key : Key) : Prop :=
  c.find? key = none → d.mapping.find? key ≠ none →
    keyCost key + weight keyCost (c.order (shardFor key)) ≤ perShardLimit

instance (c : MetaCache) (d : Disk) (key : Key) : Decidable (c.Fits d key) :=
  inferInstanceAs (Decidable (_ → _ → _))

/-- The cache after lookups of the keys. -/
def MetaCache.readAll (c : MetaCache) (d : Disk) (keys : List Key) : MetaCache :=
  keys.foldl (fun c key => c.readThrough d key) c

/-- No lookup evicts. -/
def MetaCache.RoomFor (d : Disk) : MetaCache → List Key → Prop
  | _, [] => True
  | c, key :: keys => c.Fits d key ∧ RoomFor d (c.readThrough d key) keys

instance MetaCache.decidableRoomFor (d : Disk) :
    ∀ (c : MetaCache) (keys : List Key), Decidable (c.RoomFor d keys)
  | _, [] => .isTrue True.intro
  | c, key :: keys =>
    have := decidableRoomFor d (c.readThrough d key) keys
    inferInstanceAs (Decidable (_ ∧ _))

variable {c c' : MetaCache} {d : Disk} {key : Key} {i : Fin shardCount}

theorem bump_of_find? {xs : List (Key × ObjectMeta)} {md : ObjectMeta}
    (h : Recency.find? xs key = some md) : bump key xs = touch key md xs := by
  unfold bump
  rw [h]

theorem bump_of_none {xs : List (Key × ObjectMeta)} (h : Recency.find? xs key = none) :
    bump key xs = xs := by
  unfold bump
  rw [h]

/-- A lookup that evicts nothing moves what it finds to the front of its shard. -/
theorem order_readThrough (h : c.Fits d key) (i : Fin shardCount) :
    (c.readThrough d key).order i = if i = shardFor key then
      match c.find? key <|> d.mapping.find? key with
      | some md => touch key md (c.order i)
      | none => c.order i
    else c.order i := by
  have hsee := c.find?_order key
  unfold MetaCache.readThrough
  cases hc : c.find? key with
  | some md =>
    rw [MetaCache.order_get]
    refine if_ctx_congr Iff.rfl (fun hi => ?_) fun _ => rfl
    rw [hi]
    exact bump_of_find? (hsee.symm.trans hc)
  | none =>
    have hb := bump_of_none (hsee.symm.trans hc)
    have hget : ∀ j, (c.get key).2.order j = c.order j := by
      intro j
      rw [MetaCache.order_get]
      split
      · rename_i hj
        rw [hj, hb]
      · rfl
    cases hm : d.mapping.find? key with
    | none =>
      rw [hget]
      exact (ite_self _).symm
    | some md =>
      have hroom := h hc (by rw [hm]; simp)
      have hcost := keyCost_nonneg key
      rw [MetaCache.order_put key (by rw [hget]; omega), hget]
      refine if_ctx_congr Iff.rfl (fun hi => ?_) fun _ => rfl
      rw [hi]
      exact fit_of_weight_le keyCost_nonneg ((weight_touch_le keyCost_nonneg _ _ _).trans hroom)

/-- What lookups find after a lookup that evicts nothing. -/
theorem find?_readThrough (h : c.Fits d key) (key' : Key) :
    (c.readThrough d key).find? key' =
      if key' = key then c.find? key <|> d.mapping.find? key else c.find? key' := by
  rw [MetaCache.find?_order, order_readThrough h]
  by_cases hk : key' = key
  · subst hk
    rw [if_pos rfl, if_pos rfl]
    cases hc : c.find? key' with
    | some md => exact (find?_touch key' md _ key').trans (if_pos rfl)
    | none =>
      cases hm : d.mapping.find? key' with
      | some md => exact (find?_touch key' md _ key').trans (if_pos rfl)
      | none => exact (c.find?_order key').symm.trans hc
  · rw [if_neg hk]
    split
    · cases c.find? key <|> d.mapping.find? key with
      | none => exact (c.find?_order key').symm
      | some md => rw [find?_touch, if_neg hk, ← MetaCache.find?_order]
    · exact (c.find?_order key').symm

/-- A lookup changes no other's result. -/
theorem look_readThrough (h : c.Fits d key) (key' : Key) :
    ((c.readThrough d key).find? key' <|> d.mapping.find? key')
      = (c.find? key' <|> d.mapping.find? key') := by
  rw [find?_readThrough h]
  split
  · rename_i hk
    subst hk
    cases c.find? key' <;> cases d.mapping.find? key' <;> rfl
  · rfl

/-! ## 3. The deletions -/

/-- The deletions under one lock, from batch `b` on. -/
def SegmentManager.delAll (m : SegmentManager) (b : Batch) :
    List (Key × ObjectMeta) → Batch × SegmentManager
  | [] => (b, m)
  | (key, md) :: dels => (m.delObjectLocked b key md).2.delAll (m.delObjectLocked b key md).1 dels

/-- A deletion extends the batch it is given. -/
theorem SegmentManager.delObjectLocked_append (m : SegmentManager) (b : Batch) (key : Key)
    (md : ObjectMeta) : m.delObjectLocked b key md
      = (b ++ (m.delObjectLocked [] key md).1, (m.delObjectLocked [] key md).2) := by
  unfold delObjectLocked dropObject
  cases m.segs.find? md.segmentID with
  | none => simp
  | some e => simp

theorem SegmentManager.delAll_append (dels : List (Key × ObjectMeta)) :
    ∀ (m : SegmentManager) (b : Batch),
      m.delAll b dels = (b ++ (m.delAll [] dels).1, (m.delAll [] dels).2) := by
  induction dels with
  | nil => exact fun m b => by simp [delAll]
  | cons x dels ih =>
    intro m b
    rw [delAll, delAll, ih, delObjectLocked_append, ih _ (m.delObjectLocked [] x.1 x.2).1,
      List.append_assoc]

/-- One commit for all deletions; `c` is the cache afterwards. -/
def Solo.commitDels (x : Solo) (dels : List (Key × ObjectMeta)) (c : MetaCache) : Solo :=
  { x with
    disk := x.disk.apply (x.segs.delAll [] dels).1
    segs := (x.segs.delAll [] dels).2
    cache := c }

/-- A commit of the first deletion and one of the rest leave the same tables. -/
theorem Solo.commitDels_cons (x : Solo) (key : Key) (md : ObjectMeta)
    (dels : List (Key × ObjectMeta)) (c c' : MetaCache) :
    Solo.commitDels { x.commitDel key md with cache := c } dels c'
      = x.commitDels ((key, md) :: dels) c' := by
  unfold commitDels commitDel
  rw [SegmentManager.delAll, SegmentManager.delAll_append dels _
    (x.segs.delObjectLocked [] key md).1, Disk.apply_append]

variable {L : Layout} {x : Solo}

theorem runs_batchDeleteLocked (dels : List (Key × ObjectMeta)) : ∀ x : Solo,
    Runs L (batchDeleteLocked dels) x
      { x with
        batch := (x.segs.delAll x.batch dels).1
        segs := (x.segs.delAll x.batch dels).2 } () := by
  induction dels with
  | nil => exact fun x => .pure ()
  | cons y dels ih =>
    intro x
    exact (runs_delObjectLocked y.1 y.2).bind (ih _)

/-- The cache after `cacheDelAll`. -/
def MetaCache.delAll (c : MetaCache) (keys : List Key) : MetaCache := keys.foldl MetaCache.del c

theorem runs_cacheDelAll (keys : List Key) : ∀ x : Solo,
    Runs L (cacheDelAll keys) x { x with cache := x.cache.delAll keys } () := by
  induction keys with
  | nil => exact fun x => .pure ()
  | cons key keys ih =>
    intro x
    exact (runs_cacheDel key).bind (ih _)

/-- `key` is not one of those taken out of shard `i`. -/
def Kept (gone : List Key) (i : Fin shardCount) (key : Key) : Prop := key ∉ gone ∨ shardFor key ≠ i

instance (gone : List Key) (i : Fin shardCount) : DecidablePred (Kept gone i) :=
  fun key => inferInstanceAs (Decidable (key ∉ gone ∨ shardFor key ≠ i))

/-- `c` is `c'` without the keys `gone`. -/
def MetaCache.Without (gone : List Key) (c c' : MetaCache) : Prop :=
  ∀ i, c.order i = (c'.order i).filter (fun x => Kept gone i x.1)

theorem MetaCache.without_nil (c : MetaCache) : c.Without [] c :=
  fun i => (List.filter_eq_self.mpr fun x _ => by simp [Kept]).symm

theorem MetaCache.Without.congr {gone gone' : List Key} (h : c.Without gone c')
    (hm : ∀ key, key ∈ gone ↔ key ∈ gone') : c.Without gone' c' := by
  intro i
  rw [h i]
  refine List.filter_congr fun x _ => decide_eq_decide.mpr ?_
  unfold Kept
  rw [hm]

/-- Taking out one more key. -/
theorem MetaCache.Without.del {gone : List Key} (h : c.Without gone c') (key : Key) :
    (c.del key).Without (key :: gone) c' := by
  intro i
  rw [MetaCache.order_del, h i]
  by_cases hi : i = shardFor key
  · rw [if_pos hi, List.filter_filter]
    refine List.filter_congr fun x _ => Bool.eq_iff_iff.mpr ?_
    simp only [Bool.and_eq_true, decide_eq_true_eq]
    unfold Kept
    by_cases hx : x.1 = key
    · simp [hx, hi]
    · simp [hx]
  · rw [if_neg hi]
    refine List.filter_congr fun x _ => decide_eq_decide.mpr ?_
    unfold Kept
    by_cases hx : x.1 = key
    · simp [hx, Ne.symm hi]
    · simp [hx]

theorem MetaCache.without_delAll (keys : List Key) : ∀ {gone : List Key} {c : MetaCache},
    c.Without gone c' → (c.delAll keys).Without (keys ++ gone) c' := by
  induction keys with
  | nil => exact fun h => h
  | cons key keys ih =>
    intro gone c h
    refine (ih (h.del key)).congr fun k => ?_
    simp only [List.mem_append, List.mem_cons]
    tauto

theorem MetaCache.Without.find? {gone : List Key} (h : c.Without gone c') (key : Key) :
    c.find? key = if key ∈ gone then none else c'.find? key := by
  rw [MetaCache.find?_order, h, find?_filter, ← MetaCache.find?_order]
  by_cases hk : key ∈ gone
  · simp [Kept, hk]
  · simp [Kept, hk]

/-- A lookup of a key that is still there. -/
theorem MetaCache.Without.readThrough {gone : List Key} {d' : Disk} (h : c.Without gone c')
    (hk : key ∉ gone) (hd : d'.mapping.find? key = d.mapping.find? key) (hf : c'.Fits d key) :
    (c.readThrough d' key).Without gone (c'.readThrough d key) := by
  have hfind : c.find? key = c'.find? key := by rw [h.find?, if_neg hk]
  have hfits : c.Fits d' key := by
    intro hc hm
    have hle := weight_filter_le keyCost_nonneg (fun x => decide (Kept gone (shardFor key) x.1))
      (c'.order (shardFor key))
    have hroom := hf (hfind.symm.trans hc) (hd ▸ hm)
    rw [h (shardFor key)]
    omega
  intro i
  rw [order_readThrough hfits, order_readThrough hf, hfind, hd, h i]
  split
  · cases c'.find? key <|> d.mapping.find? key with
    | none => rfl
    | some md =>
      dsimp only
      unfold touch
      rw [List.filter_cons_of_pos (by simp [Kept, hk]), List.filter_filter, List.filter_filter]
      exact congrArg _ (List.filter_congr fun x _ => Bool.and_comm _ _)
  · rfl

/-- A lookup of a key that has been taken out: the whole lookup does nothing, while the one in
the larger cache only moves that key. -/
theorem MetaCache.Without.readGone {gone : List Key} {d' : Disk} (h : c.Without gone c') (hk : key ∈ gone)
    (hd : d'.mapping.find? key = none) (hf : c'.Fits d key) :
    (c.readThrough d' key).Without gone (c'.readThrough d key) := by
  have hnone : c.find? key = none := by rw [h.find?, if_pos hk]
  have hfits : c.Fits d' key := fun _ hm => absurd hd hm
  intro i
  have hstay : (c.readThrough d' key).order i = c.order i := by
    rw [order_readThrough hfits, hnone, hd]
    exact ite_self _
  rw [hstay, order_readThrough hf, h i]
  split
  · rename_i hi
    cases c'.find? key <|> d.mapping.find? key with
    | none => rfl
    | some md =>
      have hgone : ¬ Kept gone i key := fun hkept => hkept.elim (fun hn => hn hk) (fun hn => hn hi.symm)
      show _ = (touch key md (c'.order i)).filter _
      unfold touch
      rw [List.filter_cons_of_neg (by simpa using hgone), List.filter_filter]
      refine List.filter_congr fun x _ => ?_
      by_cases hx : x.1 = key
      · simp [hx, hgone]
      · simp [hx]
  · rfl

/-! ## 4. The two runs -/

/-- The errors of single deletes, when the keys `gone` are deleted already. -/
def singleErrs (look : Key → Option ObjectMeta) : List Key → List Key → List (Option Err)
  | _, [] => []
  | gone, key :: keys =>
    match if key ∈ gone then none else look key with
    | none => some .notFound :: singleErrs look gone keys
    | some _ => none :: singleErrs look (key :: gone) keys

/-- The deletions single deletes make. -/
def singleDels (look : Key → Option ObjectMeta) : List Key → List Key → List (Key × ObjectMeta)
  | _, [] => []
  | gone, key :: keys =>
    match if key ∈ gone then none else look key with
    | none => singleDels look gone keys
    | some md => (key, md) :: singleDels look (key :: gone) keys

/-- The errors of the batch. -/
def batchErrs (look : Key → Option ObjectMeta) (keys : List Key) : List (Option Err) :=
  keys.map (fun key => if (look key).isNone then some .notFound else none)

/-- The deletions of the batch. -/
def batchDels (look : Key → Option ObjectMeta) (keys : List Key) : List (Key × ObjectMeta) :=
  keys.filterMap (fun key => (look key).map (fun md => (key, md)))

/-- The lookups of the batch. -/
theorem runs_batchDeleteLookup {look : Key → Option ObjectMeta} (keys : List Key) :
    ∀ x : Solo, (∀ key, x.look key = look key) → x.cache.RoomFor x.disk keys →
      Runs L (batchDeleteLookup keys) x { x with cache := x.cache.readAll x.disk keys }
        (keys.map (fun key => (key, look key))) := by
  induction keys with
  | nil => exact fun x _ _ => .pure []
  | cons key keys ih =>
    intro x hlook hroom
    obtain ⟨hfit, hroom⟩ := hroom
    refine (runs_getMapping key).bind ?_
    refine (ih { x with cache := x.cache.readThrough x.disk key }
      (fun key' => (look_readThrough hfit key').trans (hlook key')) hroom).bind ?_
    have hres : (foundOr (x.look key)).toOption = look key := by
      rw [hlook]
      cases look key <;> rfl
    rw [hres]
    exact .pure _

theorem batch_foundDels (look : Key → Option ObjectMeta) (keys : List Key) :
    (keys.map (fun key => (key, look key))).filterMap (fun x => x.2.map (fun md => (x.1, md)))
      = batchDels look keys := by
  rw [List.filterMap_map]
  rfl

theorem batch_foundErrs (look : Key → Option ObjectMeta) (keys : List Key) :
    (keys.map (fun key => (key, look key))).map
        (fun x => if x.2.isNone then some Err.notFound else none) = batchErrs look keys := by
  rw [List.map_map]
  rfl

/-- **What the batch does.** -/
theorem runs_batchDeleteMapping (hx : x.Idle) (keys : List Key)
    (hroom : x.cache.RoomFor x.disk keys) :
    Runs L (batchDeleteMapping keys) x
      (x.commitDels (batchDels x.look keys)
        ((x.cache.readAll x.disk keys).delAll ((batchDels x.look keys).map Prod.fst)))
      (.ok (batchErrs x.look keys)) := by
  refine (runs_batchDeleteLookup keys x (fun _ => rfl) hroom).bind ?_
  dsimp only
  rw [batch_foundDels, batch_foundErrs]
  split
  · rename_i hnil
    rw [hnil]
    exact .pure _
  · obtain ⟨d, m, c, mu, b⟩ := x
    obtain ⟨rfl, rfl⟩ := hx
    refine (runs_segsLock rfl).bind ((runs_batchDeleteLocked _ _).bind
      (runs_segsUnlock.bind (runs_apply.bind ?_)))
    exact (runs_cacheDelAll _ _).bind (.pure _)

/-- **What single deletes do.**  `c` and `d` are cache and disk of a batch that has looked up the
keys so far, `gone` those of them that have been deleted. -/
theorem runs_deleteEach {look : Key → Option ObjectMeta} {d : Disk} (keys : List Key) :
    ∀ {x : Solo} {c : MetaCache} {gone : List Key}, x.Idle → x.cache.Without gone c →
      (∀ key, x.disk.mapping.find? key = if key ∈ gone then none else d.mapping.find? key) →
      (∀ key, (c.find? key <|> d.mapping.find? key) = look key) → c.RoomFor d keys →
      ∃ c', Runs L (deleteEach keys) x (x.commitDels (singleDels look gone keys) c')
          (singleErrs look gone keys) ∧
        c'.Without ((singleDels look gone keys).map Prod.fst ++ gone) (c.readAll d keys) := by
  induction keys with
  | nil => exact fun {x} _ _ _ hc _ _ _ => ⟨x.cache, .pure [], hc⟩
  | cons key keys ih =>
    intro x c gone hx hc hd hlook hroom
    obtain ⟨hfit, hroom⟩ := hroom
    have hlook' : ∀ k, ((c.readThrough d key).find? k <|> d.mapping.find? k) = look k :=
      fun k => (look_readThrough hfit k).trans (hlook k)
    have hsee : x.look key = if key ∈ gone then none else look key := by
      unfold Solo.look
      rw [hc.find?, hd, ← hlook]
      split <;> rfl
    unfold singleErrs singleDels
    rw [← hsee]
    cases hl : x.look key with
    | none =>
      -- gone already, or never there
      have hc' : (x.cache.readThrough x.disk key).Without gone (c.readThrough d key) := by
        by_cases hk : key ∈ gone
        · exact hc.readGone hk (by rw [hd, if_pos hk]) hfit
        · exact hc.readThrough hk (by rw [hd, if_neg hk]) hfit
      obtain ⟨c', hruns, hwithout⟩ := ih (x := { x with cache := x.cache.readThrough x.disk key })
        ⟨hx.segMu, hx.batch⟩ hc' hd hlook' hroom
      exact ⟨c', (runs_deleteMapping_none hl).bind (hruns.bind (.pure _)), hwithout⟩
    | some md =>
      have hk : key ∉ gone := fun hk => by
        rw [hsee, if_pos hk] at hl
        exact absurd hl (by simp)
      have hc' := (hc.readThrough hk (by rw [hd, if_neg hk]) hfit).del key
      have hd' : ∀ k, (x.commitDel key md).disk.mapping.find? k
          = if k ∈ key :: gone then none else d.mapping.find? k := by
        intro k
        have hmap := SegmentManager.delObjectLocked_mapping x.segs [] key md x.disk
        rw [Disk.apply_nil] at hmap
        show (x.disk.apply (x.segs.delObjectLocked [] key md).1).mapping.find? k = _
        rw [hmap, SortedMap.find?_erase, hd]
        by_cases he : k = key <;> simp [he]
      obtain ⟨c', hruns, hwithout⟩ := ih
        (x := { x.commitDel key md with cache := (x.cache.readThrough x.disk key).del key })
        ⟨hx.segMu, hx.batch⟩ hc' hd' hlook' hroom
      rw [Solo.commitDels_cons] at hruns
      refine ⟨c', (runs_deleteMapping_some hx hl).bind (hruns.bind (.pure _)), hwithout.congr ?_⟩
      intro k
      simp only [List.mem_append, List.mem_cons, List.map_cons]
      tauto

/-! ## 5. When they agree -/

/-- No key that a lookup finds occurs twice. -/
def NoneTwice (look : Key → Option ObjectMeta) (keys : List Key) : Prop :=
  ∀ key ∈ keys, look key ≠ none → keys.count key = 1

instance (look : Key → Option ObjectMeta) (keys : List Key) : Decidable (NoneTwice look keys) :=
  inferInstanceAs (Decidable (∀ key ∈ keys, look key ≠ none → keys.count key = 1))

/-- Without repeated keys single deletes find what the batch finds. -/
theorem single_eq_batch {look : Key → Option ObjectMeta} : ∀ {keys gone : List Key},
    (∀ key ∈ keys, look key ≠ none → key ∉ gone ∧ keys.count key = 1) →
    singleErrs look gone keys = batchErrs look keys ∧ singleDels look gone keys = batchDels look keys
  | [], _, _ => ⟨rfl, rfl⟩
  | key :: keys, gone, h => by
    have htail : ∀ k ∈ keys, look k ≠ none → k ≠ key ∧ k ∉ gone ∧ keys.count k = 1 := by
      intro k hk hl
      obtain ⟨hg, hc⟩ := h k (List.mem_cons_of_mem _ hk) hl
      have hpos := List.count_pos_iff.mpr hk
      rw [List.count_cons] at hc
      by_cases he : key = k
      · rw [if_pos (by simpa using he)] at hc
        omega
      · rw [if_neg (by simpa using he)] at hc
        exact ⟨fun hek => he hek.symm, hg, hc⟩
    unfold singleErrs singleDels batchErrs batchDels
    cases hl : look key with
    | none =>
      obtain ⟨hes, hds⟩ : singleErrs look gone keys = batchErrs look keys ∧ _ := single_eq_batch
        fun k hk hlk => (htail k hk hlk).2
      simp [hl, hes, hds, batchErrs, batchDels]
    | some md =>
      have hg := (h key List.mem_cons_self (by rw [hl]; simp)).1
      obtain ⟨hes, hds⟩ : singleErrs look (key :: gone) keys = batchErrs look keys ∧ _ :=
        single_eq_batch fun k hk hlk => ⟨by simp [(htail k hk hlk).1, (htail k hk hlk).2.1], (htail k hk hlk).2.2⟩
      simp [hg, hl, hes, hds, batchErrs, batchDels]

/-- A key that is found twice by the batch is found once by single deletes. -/
theorem noneTwice_of_errs {look : Key → Option ObjectMeta} : ∀ {keys gone : List Key},
    singleErrs look gone keys = batchErrs look keys →
    ∀ key ∈ keys, look key ≠ none → key ∉ gone ∧ keys.count key = 1
  | [], _, _, key, hk, _ => absurd hk List.not_mem_nil
  | k :: keys, gone, h, key, hk, hl => by
    unfold singleErrs batchErrs at h
    rw [List.map_cons] at h
    by_cases hg : k ∈ gone ∨ look k = none
    · have hnone : (if k ∈ gone then none else look k) = none := by
        rcases hg with hg | hg
        · rw [if_pos hg]
        · rw [hg, ite_self]
      rw [hnone] at h
      obtain ⟨hhead, htail⟩ := List.cons.inj h
      have hlk : look k = none := by
        by_contra hne
        rw [if_neg (by simpa [Option.isNone_iff_eq_none] using hne)] at hhead
        exact absurd hhead (by simp)
      have hne : key ≠ k := fun he => hl (he ▸ hlk)
      obtain ⟨hng, hc⟩ := noneTwice_of_errs htail key ((List.mem_cons.mp hk).resolve_left hne) hl
      refine ⟨hng, ?_⟩
      rw [List.count_cons_of_ne (fun he => hne he.symm), hc]
    · rw [not_or] at hg
      obtain ⟨md, hmd⟩ := Option.ne_none_iff_exists'.mp hg.2
      rw [if_neg hg.1, hmd] at h
      obtain ⟨-, htail⟩ := List.cons.inj h
      have ih := noneTwice_of_errs htail
      by_cases he : key = k
      · subst he
        have hnot : key ∉ keys := fun hin => (ih key hin hl).1 List.mem_cons_self
        exact ⟨hg.1, by rw [List.count_cons_self, List.count_eq_zero.mpr hnot]⟩
      · obtain ⟨hng, hc⟩ := ih key ((List.mem_cons.mp hk).resolve_left he) hl
        refine ⟨fun hin => hng (List.mem_cons_of_mem _ hin), ?_⟩
        rw [List.count_cons_of_ne (fun hek => he hek.symm), hc]

end Taihu
