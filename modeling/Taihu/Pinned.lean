/-
# An object that is held stays where it is

A reader with an effective reference takes the blocks of its object one after the other.  Meanwhile
the object may be deleted, overwritten or moved; its extent is then in use no longer, and nothing in
`Taihu.Extents` speaks of it.  Its bytes stay where they are all the same.  The segment is not freed
while somebody holds a reference for it, so no allocation can roll there; and one that stands there
already allocates behind the object.

`Pinned` says this of one object, and `Pinned.step` is the step lemma: it needs the extents in use
to be kept and the reference to be counted.
-/
import Taihu.Transfers

namespace Taihu

open Concur

variable {L : Layout} {s s' : Sys} {l l' : Local} {ls ls' rest : List Local} {x : Held}

/-! ## 1. What a step does to the allocator -/

/-- Where the cursor goes: behind what is taken, or to the segment the allocation rolls to. -/
theorem cursor_cases (h : AllocSound s (l :: rest)) {o : Op} {r : o.Reply} (hp : o.allocPre l.view)
    (hx : exec L s l o = some (s', l', r)) :
    s'.cursor.pos = s.cursor.pos ∨
      (∃ n, o = .alloc (.take n) ∧ 0 ≤ n ∧ s'.cursor.pos = (s.cursor.pos.1, s.cursor.pos.2 + n)) ∨
      ∃ seg b, l.hist.roll = some (seg, b) ∧ s'.cursor.pos = (seg, 0) := by
  by_cases ho : ∀ a, o ≠ .alloc a
  · exact Or.inl (congrArg WriteCursor.pos (exec_cursor hx ho))
  obtain ⟨a, rfl⟩ := not_forall_not.mp ho
  obtain ⟨he, -⟩ := exec_allocOp hx
  cases a with
  | lock =>
    simp only [AllocOp.exec] at he
    split at he <;> cases he
    exact Or.inl rfl
  | unlock => cases he; exact Or.inl rfl
  | ensureLoaded => cases he; exact Or.inl rfl
  | read => cases he; exact Or.inl rfl
  | setCursor seg off =>
    obtain ⟨rfl, a, b, hc, hroll, -⟩ := hp
    obtain ⟨-, hload, -⟩ := ExtentsKept.cursor_eq h hc
    cases he
    refine Or.inr (Or.inr ⟨seg, b, hroll, ?_⟩)
    rw [Sys.cursor, if_pos hload]
    rfl
  | take n =>
    obtain ⟨hn, -, a, hc, -⟩ := hp
    obtain ⟨hka, hload, hcur⟩ := ExtentsKept.cursor_eq h hc
    cases he
    refine Or.inr (Or.inl ⟨n, rfl, hn, ?_⟩)
    rw [hcur, Sys.cursor, if_pos hload, hka]
    rfl
  | persist seg off =>
    obtain ⟨-, -, a, hc, -, -⟩ := hp
    obtain ⟨-, hload, -⟩ := ExtentsKept.cursor_eq h hc
    cases he
    refine Or.inl ?_
    rw [Sys.cursor, Sys.cursor, if_pos hload, if_pos hload]

/-- Where an allocation begins to roll to: a segment that is `Free` or has no record. -/
theorem roll_cases (h : ExtentsKept s (l :: rest)) {o : Op} {r : o.Reply} (hp : o.allocPre l.view)
    (hx : exec L s l o = some (s', l', r)) {id : Int} {b : Bool} (hr : l'.hist.roll = some (id, b)) :
    (∃ b', l.hist.roll = some (id, b')) ∨ s.segs.state? id = some .free ∨
      (s.segs.state? id = none ∧ id ≠ 0) := by
  have hsame : l'.hist.roll = l.hist.roll → ∃ b', l.hist.roll = some (id, b') :=
    fun he => ⟨b, he ▸ hr⟩
  by_cases ho : o.OffAlloc
  · exact Or.inl (hsame (congrArg AllocView.roll (view_frame hx ho)))
  cases o with
  | alloc o =>
    cases o with
    | lock => exact Or.inl (hsame (congrArg AllocView.roll (view_lock hx)))
    | ensureLoaded => exact Or.inl (hsame (congrArg AllocView.roll (view_ensureLoaded hx)))
    | read => exact Or.inl (hsame (congrArg AllocView.roll (view_read hx).1))
    | setCursor seg off => exact Or.inl (hsame (congrArg AllocView.roll (view_setCursor hx)))
    | persist seg off => exact Or.inl (hsame (congrArg AllocView.roll (view_persist hx)))
    | unlock =>
      have hv : l'.hist.roll = none := congrArg AllocView.roll (view_unlock hx)
      exact absurd (hv.symm.trans hr) (by simp)
    | take n =>
      have hv : l'.hist.roll = none := congrArg AllocView.roll (view_take hx).1
      exact absurd (hv.symm.trans hr) (by simp)
  | segs o =>
    cases o with
    | markFull i => exact Or.inl (hsame (congrArg AllocView.roll (view_markFull hx)))
    | activate i =>
      have hv : l'.hist.roll = some (i, true) := congrArg AllocView.roll (view_activate hx)
      obtain ⟨rfl, -⟩ := Prod.mk.inj (Option.some.inj (hv.symm.trans hr))
      exact Or.inl ⟨false, hp.1⟩
    | canUse i =>
      obtain ⟨-, a, hc, rfl, -⟩ := hp
      have hv : l'.hist.roll = if r then some (a.curSeg + 1, false) else l.hist.roll :=
        congrArg AllocView.roll (view_canUse hx)
      have hcur := h.cursors.1
      rw [(h.alloc.cursor hc).2.2] at hcur
      cases r with
      | false => exact Or.inl (hsame hv)
      | true =>
        obtain ⟨rfl, -⟩ := Prod.mk.inj (Option.some.inj (hv.symm.trans hr))
        obtain ⟨c, he, -⟩ := exec_segsOp hx
        have hcan : s.segs.canUse (a.curSeg + 1) = true := by
          simp only [SegsOp.exec] at he
          split at he
          · cases he
          · simp only [Option.some.injEq, Prod.mk.injEq] at he
            exact he.2.2
        unfold SegmentManager.canUse at hcan
        split at hcan
        · rename_i e hfind
          rw [SegmentManager.state?_of_find? hfind]
          exact Or.inr (Or.inl (congrArg some (by simpa using hcan)))
        · rename_i hfind
          refine Or.inr (Or.inr ⟨?_, by omega⟩)
          rw [SegmentManager.state?, hfind]
          rfl
    | popFree =>
      cases r with
      | none => exact Or.inl (hsame (congrArg AllocView.roll (view_popFree hx)))
      | some i =>
        have hv : l'.hist.roll = some (i, true) := congrArg AllocView.roll (view_popFree hx)
        obtain ⟨rfl, -⟩ := Prod.mk.inj (Option.some.inj (hv.symm.trans hr))
        have hpop : SegmentManager.popFree s.db s.segs = some (some i, s'.db, s'.segs) := exec_popFree hx
        rcases SegmentManager.popFree_cases hpop with ⟨-, hno⟩ | ⟨j, ids, e, ok, db', hfree, -, -, hcase⟩
        · exact absurd (congrArg Prod.fst hno) (by simp)
        rcases hcase with ⟨-, heq⟩ | ⟨-, heq⟩
        · obtain rfl : i = j := Option.some.inj (congrArg Prod.fst heq)
          exact Or.inr (Or.inl ((h.pool.mem_iff i).mp (by simp [hfree])))
        · exact absurd (congrArg Prod.fst heq) (by simp)
    | _ => exact absurd True.intro ho
  | _ => exact absurd True.intro ho

/-- Only `reclaimOnce` frees a segment, and none that somebody holds a reference for. -/
theorem referenced_step (h : ExtentsKept s (l :: rest)) {o : Op} {r : o.Reply} (hp : o.allocPre l.view)
    (hb : o.Backed l) {used : Int → Prop} (hf : Fit s.segs.state? used)
    (hu : (∃ ids, o = .segs (.gcFinalize ids)) → ∀ id, used id → 0 < s.segs.refCount id) (hx : exec L s l o = some (s', l', r)) :
    Fit s'.segs.state? used := by
  by_cases ho : ∀ so, o ≠ .segs so
  · rw [exec_segs hx]
    cases o with
    | segs so => exact absurd rfl (ho so)
    | _ => exact hf
  obtain ⟨so, rfl⟩ := not_forall_not.mp ho
  by_cases hg : ∃ ids, so = .gcFinalize ids
  · obtain ⟨ids, rfl⟩ := hg
    have hsame : ∀ id, used id → s'.segs.state? id = s.segs.state? id := by
      intro id hid
      rw [exec_segs hx]
      exact SegmentManager.state?_gcFinalize _ _ ids
        (SegmentManager.not_reclaimable (hu ⟨ids, rfl⟩ id hid))
    have hnone : ∀ {st : Int → Option SegmentState}, (∀ id, st id ≠ none → 0 ≤ id) →
        Fit st fun _ => False := fun hn => ⟨fun _ hid => hid.elim, fun _ hid => hid.elim, hn⟩
    refine ⟨fun id hid => ?_, fun id hid => ?_, ?_⟩
    · rw [hsame id hid]
      exact hf.notFree id hid
    · rw [hsame id hid]
      exact hf.recorded id hid
    · rw [exec_segs hx]
      exact (SegmentManager.fit_gcFinalize h.working (fun _ _ _ hid => hid) (hnone h.memory.nonneg)
        (hnone h.disk.nonneg)).1.nonneg
  · obtain ⟨b, he, -⟩ := exec_segsOp hx
    obtain ⟨hm, -⟩ := SegsOp.evolves he h.memory.nonneg h.pool (h.named_nonneg hp hb)
      fun ids hids => hg ⟨ids, hids⟩
    exact hf.evolve hm

/-! ## 2. Pinned objects -/

/-- The object is on the device, its extent is behind the cursor and apart from all that is open,
and no allocation can come to its segment. -/
structure Pinned (L : Layout) (s : Sys) (ls : List Local) (x : Held) : Prop where
  fits : L.Fits (align4k x.md.size) (x.md.segmentID, x.md.offset)
  stores : ∃ v, x.value = some v ∧ s.dev.Stores L x.md v
  behind : x.md.span.Behind s.cursor.pos
  apart : ∀ l ∈ ls, ∀ a ∈ l.extents, Span.Disjoint x.md.span a
  clear : ∀ id b, Rolling ls id b → ¬ x.md.span.Touches id
  alive : Fit s.segs.state? x.md.span.Touches

/-- `Apply` opens nothing. -/
theorem written_apply_le {ok : Bool} (hx : exec L s l (.pebble .apply) = some (s', l', ok)) :
    l'.written ≤ l.written := by
  obtain ⟨fs, rfl, -⟩ := exec_apply hx
  cases ok with
  | false => exact le_refl _
  | true => exact Multiset.coe_le.mpr (List.filter_sublist.map _).subperm

/-- A block that a thread writes into an extent of its own leaves what is apart from that extent. -/
theorem shows_step {o : Op} {r : o.Reply} (ho : o.Transfers l) (hx : exec L s l o = some (s', l', r))
    {a : Span} {w : Bytes} (hfit : ∀ c ∈ l.extents, c.Fits L.segmentSizeBytes)
    (ha : a.Fits L.segmentSizeBytes) (hap : ∀ c ∈ l.extents, Span.Disjoint a c)
    (hw : (w.length : Int) ≤ a.len) (h : s.dev.Shows L a.region a.start w) :
    s'.dev.Shows L a.region a.start w := by
  by_cases hdev : ∀ seg off block, o ≠ .dev (.write seg off block)
  · exact h.congr fun i _ => by rw [exec_bytes hx hdev]
  obtain ⟨seg, off, block, rfl⟩ : ∃ seg off block, o = .dev (.write seg off block) := by
    simpa using hdev
  have hbytes := exec_devWrite hx
  cases r with
  | false => exact h.congr fun i _ => by rw [hbytes]; rfl
  | true =>
    obtain ⟨-, c, wc, hc, rfl, hoff, hlen⟩ := ho
    have hcin : c ∈ l.extents := by
      rw [← written_spans]
      exact Multiset.mem_map_of_mem Prod.fst hc
    have hwc : (0 : Int) ≤ wc.length := Int.natCast_nonneg _
    refine h.apart (hap c hcin) ha (hfit c hcin) hw hbytes ⟨by omega, ?_⟩
    show off + blockSize ≤ c.start + c.len
    omega

theorem Layout.Fits.span {md : ObjectMeta} (h : L.Fits (align4k md.size) (md.segmentID, md.offset)) :
    md.span.Fits L.segmentSizeBytes := ⟨h.nonneg, h.within⟩

namespace Pinned

/-- The object of a committed mapping is pinned: its extent is in use. -/
theorem of_mapped (h : ExtentsKept s ls) (hp : PlacesKept L s ls) {key : Key} {md : ObjectMeta}
    (hmd : s.db.disk.mapping.find? key = some md) {v : Bytes} (hv : s.value key = some v)
    (hs : s.dev.Stores L md v) : Pinned L s ls ⟨key, md, s.value key⟩ where
  fits := hp.fits md.span (Multiset.mem_add.mpr (Or.inl (Disk.mem_spans hmd)))
  stores := ⟨v, hv, hs⟩
  behind := h.ahead.behind md.span (Multiset.mem_add.mpr (Or.inl (Disk.mem_spans hmd)))
  apart := by
    intro l hl a ha
    refine h.ahead.apart md.span a ?_
    have hle : l.extents ≤ (ls.map Local.extents).sum := List.le_sum_of_mem (List.mem_map_of_mem hl)
    exact add_le_add (Multiset.singleton_le.mpr (Disk.mem_spans hmd))
      ((Multiset.singleton_le.mpr ha).trans hle)
  clear := fun id b hin ht =>
    (h.rolls id b hin).2 ⟨md.span, Multiset.mem_add.mpr (Or.inl (Disk.mem_spans hmd)), ht⟩
  alive := h.memory.mono fun _ ht =>
    Or.inl ⟨md.span, Multiset.mem_add.mpr (Or.inl (Disk.mem_spans hmd)), ht⟩

/-- The threads change: none has more open, and none rolls where none did. -/
theorem regroup (h : Pinned L s ls x) (hext : ∀ l ∈ ls', ∀ a ∈ l.extents, ∃ y ∈ ls, a ∈ y.extents)
    (hroll : ∀ id b, Rolling ls' id b → Rolling ls id b) : Pinned L s ls' x where
  fits := h.fits
  stores := h.stores
  behind := h.behind
  apart := by
    intro l hl a ha
    obtain ⟨y, hy, hay⟩ := hext l hl a ha
    exact h.apart y hy a hay
  clear := fun id b hin => h.clear id b (hroll id b hin)
  alive := h.alive

/-- **The step lemma.** -/
theorem step (h : Pinned L s (l :: rest) x) {o : Op} {r : o.Reply} (hf : Founded s l rest o)
    (hfit : ∀ c ∈ l.extents, c.Fits L.segmentSizeBytes) (ho : o.Transfers l)
    (href : (∃ ids, o = .segs (.gcFinalize ids)) → 0 < s.segs.refCount x.md.segmentID) (hx : exec L s l o = some (s', l', r)) :
    Pinned L s' (l' :: rest) x where
  fits := h.fits
  stores := by
    obtain ⟨v, hv, hlen, hshows⟩ := h.stores
    refine ⟨v, hv, hlen, ?_⟩
    have hle := le_align4k x.md.size
    exact shows_step (a := x.md.span) ho hx hfit h.fits.span (h.apart l List.mem_cons_self)
      (by rw [hlen]; exact hle) hshows
  behind := by
    rcases cursor_cases hf.kept.alloc hf.alloc hx with he | ⟨n, -, hn, he⟩ | ⟨seg, b, hroll, he⟩
    · rw [he]
      exact h.behind
    · rw [he]
      exact h.behind.advance hn
    · rw [he]
      exact Span.behind_of_not_touches (h.clear seg b ⟨l, List.mem_cons_self, hroll⟩)
  apart := by
    intro y hy a ha
    rcases List.mem_cons.mp hy with rfl | hy
    · by_cases htake : ∃ n, o = .alloc (.take n)
      · obtain ⟨n, rfl⟩ := htake
        obtain ⟨-, -, c, hc, -⟩ := hf.alloc
        obtain ⟨hka, -, hcur⟩ := ExtentsKept.cursor_eq hf.kept.alloc hc
        rw [extents_take hx] at ha
        rcases Multiset.mem_cons.mp ha with rfl | ha
        · have hbehind := h.behind
          rw [hcur, ← hka] at hbehind
          obtain ⟨he, -⟩ := exec_allocOp hx
          cases he
          exact hbehind.disjoint.symm
        · exact h.apart l List.mem_cons_self a ha
      · refine h.apart l List.mem_cons_self a (Multiset.mem_of_le ?_ ha)
        by_cases happly : o = .pebble .apply
        · subst happly
          have hle := Multiset.map_le_map (f := Prod.fst) (written_apply_le hx)
          rwa [written_spans, written_spans] at hle
        · exact le_of_eq (extents_same hx happly fun n hn => htake ⟨n, hn⟩)
    · exact h.apart y (List.mem_cons_of_mem _ hy) a ha
  clear := by
    intro id b hin ht
    rw [ExtentsKept.rolling_cons] at hin
    rcases hin with hr | hin
    · rcases roll_cases hf.kept hf.alloc hx hr with ⟨b', hr'⟩ | hfree | ⟨hnone, hne⟩
      · exact h.clear id b' ⟨l, List.mem_cons_self, hr'⟩ ht
      · exact h.alive.notFree id ht hfree
      · exact hne (h.alive.recorded id ht hnone)
    · exact h.clear id b (ExtentsKept.rolling_cons.mpr (Or.inr hin)) ht
  alive := by
    refine referenced_step hf.kept hf.alloc hf.backed h.alive (fun hg id ht => ?_) hx
    obtain rfl : x.md.segmentID = id := ht.1
    exact href hg

end Pinned

/-! ## 3. What a thread holds -/

/-- The thread holds nothing more, and has given up none of the references for what it holds. -/
def Local.Lets (l : Local) (h : Hist) : Prop :=
  h.snaps = l.hist.snaps ∧ ∀ x ∈ h.held, x ∈ l.hist.held ∧ (x.md.segmentID ∈ l.hist.refs →
    x.md.segmentID ∈ h.refs)

/-- A reference has become effective: the mapping is that of pebble, and the value is the current. -/
def Local.Holds (l : Local) (s : Sys) (o : Op) (h : Hist) : Prop :=
  ∃ key md g, h = Hist.hold g key md (s.value key) ∧ s.db.disk.mapping.find? key = some md ∧
    g.held = l.hist.held ∧ g.snaps = l.hist.snaps ∧ l.hist.refs ⊆ g.refs ∧
      (o.Transfers l → md.segmentID ∈ g.refs)

theorem lets_of_same {h : Hist} (hsnaps : h.snaps = l.hist.snaps) (hheld : h.held = l.hist.held)
    (hrefs : l.hist.refs ⊆ h.refs) : l.Lets h :=
  ⟨hsnaps, fun _ hx => ⟨hheld ▸ hx, fun hin => hrefs hin⟩⟩

/-- **What a thread holds after a step** it has held before, or it is what pebble has. -/
theorem hold_cases {o : Op} {r : o.Reply} (hx : exec L s l o = some (s', l', r)) :
    l.Lets l'.hist ∨ l.Holds s o l'.hist := by
  have hh := exec_hist hx
  have hkeep : ∀ {h : Hist}, l'.hist = h → h.snaps = l.hist.snaps → h.held = l.hist.held →
      l.hist.refs ⊆ h.refs → l.Lets l'.hist ∨ l.Holds s o l'.hist := by
    rintro h rfl hsnaps hheld hrefs
    exact Or.inl (lets_of_same hsnaps hheld hrefs)
  have hall := List.Subset.refl l.hist.refs
  cases o with
  | cache o => cases o <;> cases r <;> exact hkeep hh rfl rfl hall
  | dev o => cases o <;> cases r <;> exact hkeep hh rfl rfl hall
  | alloc o =>
    cases o with
    | persist seg off => cases r <;> exact hkeep hh rfl rfl hall
    | _ => exact hkeep hh rfl rfl hall
  | pebble o =>
    cases o with
    | getMapping key site =>
      have hr : r = s.db.disk.mapping.find? key := by
        cases hx
        rfl
      cases site with
      | lookup => cases r <;> exact hkeep hh rfl rfl hall
      | check old =>
        cases r with
        | none => exact hkeep hh rfl rfl hall
        | some cur =>
          simp only [Op.note, PebbleOp.note] at hh
          split at hh <;> exact hkeep hh rfl rfl hall
      | revalidate md =>
        cases r with
        | none => exact hkeep hh rfl rfl hall
        | some cur =>
          simp only [Op.note, PebbleOp.note] at hh
          split at hh
          · rename_i he
            subst he
            exact Or.inr ⟨key, cur, l.hist, hh, hr.symm, rfl, rfl, hall, id⟩
          · exact hkeep hh rfl rfl hall
    | _ => cases r <;> exact hkeep hh rfl rfl hall
  | segs o =>
    cases o with
    | ref id reader =>
      cases reader with
      | none => exact hkeep hh rfl rfl (List.subset_cons_self _ _)
      | some y =>
        obtain ⟨key, md⟩ := y
        simp only [Op.note, SegsOp.note] at hh
        split at hh
        · rename_i hmd
          exact Or.inr ⟨key, md, _, hh, hmd, rfl, rfl, List.subset_cons_self _ _,
            fun ho => List.mem_cons.mpr (Or.inl ho.symm)⟩
        · exact hkeep hh rfl rfl (List.subset_cons_self _ _)
    | unref id =>
      rw [hh]
      refine Or.inl ⟨rfl, fun x hin => ?_⟩
      obtain ⟨hold, hrefs⟩ := List.mem_filter.mp hin
      exact ⟨hold, fun _ => of_decide_eq_true hrefs⟩
    | putObjectLocked key md old v => cases v <;> exact hkeep hh rfl rfl hall
    | canUse id => cases r <;> exact hkeep hh rfl rfl hall
    | markFull id => cases r <;> exact hkeep hh rfl rfl hall
    | popFree => cases r <;> exact hkeep hh rfl rfl hall
    | _ => exact hkeep hh rfl rfl hall

/-- The objects that a thread holds after a step, with the references it has for them. -/
theorem held_step {o : Op} {r : o.Reply} (ho : o.Transfers l)
    (href : ∀ x ∈ l.hist.held, x.md.segmentID ∈ l.hist.refs) (hx : exec L s l o = some (s', l', r)) :
    ∀ x ∈ l'.hist.held, x.md.segmentID ∈ l'.hist.refs ∧ (x ∈ l.hist.held ∨
      (s.db.disk.mapping.find? x.key = some x.md ∧ x.value = s.value x.key)) := by
  intro x hin
  rcases hold_cases hx with ⟨-, hlets⟩ | ⟨key, md, g, hh, hmd, hheld, -, hrefs, hmem⟩
  · exact ⟨(hlets x hin).2 (href x (hlets x hin).1), Or.inl (hlets x hin).1⟩
  · rw [hh] at hin ⊢
    rcases List.mem_cons.mp hin with rfl | hin
    · exact ⟨hmem ho, Or.inr ⟨hmd, rfl⟩⟩
    · rw [hheld] at hin
      exact ⟨hrefs (href x hin), Or.inl hin⟩

/-- The values that a thread has on record after a step. -/
theorem snaps_step {o : Op} {r : o.Reply} (hx : exec L s l o = some (s', l', r)) :
    ∀ x ∈ l'.hist.snaps, x ∈ l.hist.snaps ∨ s.value x.1 = x.2 := by
  intro x hin
  rcases hold_cases hx with ⟨hsnaps, -⟩ | ⟨key, md, g, hh, -, -, hsnaps, -⟩
  · exact Or.inl (hsnaps ▸ hin)
  · rw [hh] at hin
    rcases List.mem_cons.mp hin with rfl | hin
    · exact Or.inr rfl
    · exact Or.inl (hsnaps ▸ hin)

end Taihu
