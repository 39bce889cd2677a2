/-
# The allocator under its lock

`allocOneLocked` and its callers run under `allocator.mu`, but the operations they perform are
separate steps, some of them on the segment manager.  Between two of them the thread relies on
what it knows: the cursor is as it read or set it, the segment it rolls to has been checked, the
segment it rolls off has been marked.  The VIEW of a thread is that knowledge.

Two things are proved.  Every call follows the protocol: each operation of an allocation is
performed only with the view it needs (`code_allocates`).  And the view is right, whatever other
threads do: the lock excludes them (`AllocSound.step`).
-/
import Taihu.Duty

namespace Taihu

open Concur Program

/-! ## 1. The view of a thread -/

/-- What a thread knows about the allocation it is in. -/
structure AllocView where
  inAlloc : Bool
  loaded : Bool
  cur : Option Allocator
  sealed : Bool
  roll : Option (Int × Bool)
  deriving DecidableEq

def AllocView.idle : AllocView := ⟨false, false, none, false, none⟩

def Hist.view (h : Hist) : AllocView := ⟨h.inAlloc, h.loaded, h.cur, h.sealed, h.roll⟩

abbrev Local.view (l : Local) : AllocView := l.hist.view

/-- Operations that have nothing to do with an allocation. -/
def Op.OffAlloc : Op → Prop
  | .segs (.canUse _) => False
  | .segs (.activate _) => False
  | .segs (.markFull _) => False
  | .segs .popFree => False
  | .alloc _ => False
  | _ => True

variable {L : Layout} {s s' : Sys} {l l' : Local} {rest : List Local} {α β : Type}

/-- They leave the view alone. -/
theorem view_note {o : Op} (ho : o.OffAlloc) (b : Batch) (h : Hist) (r : o.Reply) :
    (o.note s b h r).view = h.view := by
  cases o with
  | cache o =>
    cases o with
    | get key => cases r <;> rfl
    | _ => rfl
  | pebble o =>
    cases o with
    | getMapping key site =>
      cases site <;> cases r <;> simp only [Op.note, PebbleOp.note] <;> (try split) <;> rfl
    | _ => cases r <;> rfl
  | segs o =>
    cases o with
    | canUse i => exact absurd ho id
    | activate i => exact absurd ho id
    | markFull i => exact absurd ho id
    | popFree => exact absurd ho id
    | putObjectLocked key md old v => cases v <;> rfl
    | ref id reader => cases reader <;> simp only [Op.note, SegsOp.note] <;> (try split) <;> rfl
    | _ => rfl
  | alloc o => exact absurd ho id
  | dev o => cases o <;> cases r <;> rfl

theorem view_frame {o : Op} {r : o.Reply} (h : exec L s l o = some (s', l', r))
    (ho : o.OffAlloc) : l'.view = l.view := by
  unfold Local.view
  rw [exec_hist h, view_note ho]

/-! ## 2. The protocol -/

/-- The thread may leave the segment under the cursor: it has marked it, or nothing has been
allocated there. -/
def AllocView.MayLeave (v : AllocView) (a : Allocator) : Prop := v.sealed = true ∨ a.curOff ≤ 0

/-- No roll is under way, or the cursor stands in the segment the thread has rolled to. -/
def AllocView.Landed (v : AllocView) : Prop :=
  v.roll = none ∨ ∃ a, v.cur = some a ∧ v.roll = some (a.curSeg, true)

/-- The view each operation of an allocation needs. -/
def Op.allocPre (v : AllocView) : Op → Prop
  | .alloc .lock => True
  | .alloc .unlock => v.inAlloc = true ∧ v.sealed = false ∧ v.Landed
  | .alloc .ensureLoaded => v.inAlloc = true ∧ v.roll = none ∧ v.sealed = false
  | .alloc .read => v.inAlloc = true ∧ v.loaded = true
  | .alloc (.setCursor seg off) =>
    off = 0 ∧ ∃ a b, v.cur = some a ∧ v.roll = some (seg, b) ∧ v.MayLeave a
  | .alloc (.take n) =>
    0 ≤ n ∧ v.sealed = false ∧
      ∃ a, v.cur = some a ∧ (v.roll = none ∨ v.roll = some (a.curSeg, true))
  | .alloc (.persist seg off) =>
    v.roll = none ∧ v.sealed = false ∧ ∃ a, v.cur = some a ∧ seg = a.curSeg ∧ off = a.curOff
  | .segs (.markFull id) => v.roll = none ∧ ∃ a, v.cur = some a ∧ id = a.curSeg
  | .segs (.canUse id) =>
    v.roll = none ∧ ∃ a, v.cur = some a ∧ id = a.curSeg + 1 ∧ v.MayLeave a
  | .segs (.activate id) =>
    v.roll = some (id, false) ∧ v.sealed = false ∧ ∃ a, v.cur = some a ∧ a.curSeg = id
  | .segs .popFree => v.roll = none ∧ ∃ a, v.cur = some a ∧ v.MayLeave a
  | _ => True

/-- What the thread believes of the cursor is so. -/
def Knows (s : Sys) (l : Local) : Prop := ∀ a, l.hist.cur = some a → s.alloc = a

/-- The protocol as a contract. -/
def allocProtocol (L : Layout) : Contract sig Local :=
  (machine L).under (fun o l => Op.allocPre l.view o) (fun s l _ => Knows s l)

theorem Op.OffAlloc.pre {o : Op} (h : o.OffAlloc) (v : AllocView) : o.allocPre v := by
  cases o with
  | segs o => cases o <;> first | exact True.intro | exact absurd h id
  | alloc o => exact absurd h id
  | _ => exact True.intro

/-! What the operations of an allocation do to the view. -/

theorem view_lock {r : Unit} (h : exec L s l (.alloc .lock) = some (s', l', r)) :
    l'.view = { l.view with inAlloc := true } := by
  obtain ⟨-, rfl⟩ := exec_allocOp h
  rfl

theorem view_unlock {r : Unit} (h : exec L s l (.alloc .unlock) = some (s', l', r)) :
    l'.view = .idle := by
  obtain ⟨-, rfl⟩ := exec_allocOp h
  rfl

theorem view_ensureLoaded {r : Unit} (h : exec L s l (.alloc .ensureLoaded) = some (s', l', r)) :
    l'.view = { l.view with loaded := true, cur := none } := by
  obtain ⟨-, rfl⟩ := exec_allocOp h
  rfl

theorem view_read {a : Allocator} (h : exec L s l (.alloc .read) = some (s', l', a)) :
    l'.view = { l.view with cur := some a } ∧ a = s.alloc := by
  obtain ⟨hx, rfl⟩ := exec_allocOp h
  cases hx
  exact ⟨rfl, rfl⟩

theorem view_setCursor {seg off : Int} {r : Unit}
    (h : exec L s l (.alloc (.setCursor seg off)) = some (s', l', r)) :
    l'.view = { l.view with
      cur := l.view.cur.map (fun a => { a with curSeg := seg, curOff := off })
      sealed := false } := by
  obtain ⟨-, rfl⟩ := exec_allocOp h
  rfl

theorem view_take {n : Int} {x : Int × Int}
    (h : exec L s l (.alloc (.take n)) = some (s', l', x)) :
    l'.view = { l.view with
      cur := l.view.cur.map (fun a => { a with curOff := a.curOff + n })
      roll := none } ∧ x = (s.alloc.curSeg, s.alloc.curOff) := by
  obtain ⟨hx, rfl⟩ := exec_allocOp h
  cases hx
  exact ⟨rfl, rfl⟩

theorem view_persist {seg off : Int} {ok : Bool}
    (h : exec L s l (.alloc (.persist seg off)) = some (s', l', ok)) : l'.view = l.view := by
  obtain ⟨-, rfl⟩ := exec_allocOp h
  cases ok <;> rfl

theorem view_markFull {id : Int} {ok : Bool}
    (h : exec L s l (.segs (.markFull id)) = some (s', l', ok)) :
    l'.view = { l.view with sealed := ok || l.view.sealed } := by
  obtain ⟨b, -, rfl⟩ := exec_segsOp h
  cases ok <;> rfl

theorem view_canUse {id : Int} {ok : Bool}
    (h : exec L s l (.segs (.canUse id)) = some (s', l', ok)) :
    l'.view = { l.view with roll := if ok then some (id, false) else l.view.roll } := by
  obtain ⟨b, -, rfl⟩ := exec_segsOp h
  cases ok <;> rfl

theorem view_activate {id : Int} {ok : Bool}
    (h : exec L s l (.segs (.activate id)) = some (s', l', ok)) :
    l'.view = { l.view with roll := some (id, true) } := by
  obtain ⟨b, -, rfl⟩ := exec_segsOp h
  rfl

/-- The view after `popFree`. -/
def AllocView.popped (v : AllocView) : Option Int → AllocView
  | some id => { v with roll := some (id, true) }
  | none => { v with sealed := false }

theorem view_popFree {x : Option Int} (h : exec L s l (.segs .popFree) = some (s', l', x)) :
    l'.view = l.view.popped x := by
  obtain ⟨b, -, rfl⟩ := exec_segsOp h
  cases x <;> rfl

/-! ## 3. Every call follows it -/

/-- Between two allocations of one lock period. -/
def AllocView.Ready (v : AllocView) : Prop :=
  v.inAlloc = true ∧ v.loaded = true ∧ v.sealed = false ∧ v.roll = none

/-- After a failed one. -/
def AllocView.Failed (v : AllocView) : Prop :=
  v.inAlloc = true ∧ v.sealed = false ∧ v.Landed

/-- The rolling branch either fails, or leaves a segment that may be allocated from. -/
theorem allocates_rollSegment {a : Allocator} {useReserve : Bool} (hr : l.view.Ready)
    (hc : l.view.cur = some a) :
    Keeps (allocProtocol L)
      (fun r l' => match r with
        | .error _ => l'.view.Failed
        | .ok _ => l'.view.inAlloc = true ∧ l'.view.loaded = true ∧ l'.view.sealed = false ∧
          ∃ a', l'.view.cur = some a' ∧ l'.view.roll = some (a'.curSeg, true))
      (rollSegment L a useReserve) l := by
  obtain ⟨hin, hload, hseal, hroll⟩ := hr
  -- what marking the segment leaves
  refine Keeps.bind (m := fun marked l1 => l1.view =
      { l.view with sealed := l1.view.sealed } ∧
      (marked = true → l1.view.MayLeave a) ∧ (marked = false → l1.view.sealed = false)) ?_ ?_
  · refine Keeps.ite (fun _ => ?_) (fun hoff => ?_)
    · refine keeps_last ⟨hroll, a, hc, rfl⟩ fun s s' ok l1 _ h1 => ?_
      have hv := view_markFull h1
      rw [hseal, Bool.or_false] at hv
      refine ⟨by rw [hv], fun hm => Or.inl ?_, fun hm => ?_⟩
      · rw [hv]
        exact hm
      · rw [hv]
        exact hm
    · exact ⟨rfl, fun _ => Or.inr (by omega), fun h => absurd h (by simp)⟩
  · rintro marked l1 ⟨hv1, hleave, hfail⟩
    have hin1 : l1.view.inAlloc = true := by rw [hv1]; exact hin
    have hload1 : l1.view.loaded = true := by rw [hv1]; exact hload
    have hc1 : l1.view.cur = some a := by rw [hv1]; exact hc
    have hroll1 : l1.view.roll = none := by rw [hv1]; exact hroll
    cases marked with
    | false =>
      exact ⟨hin1, hfail rfl, Or.inl hroll1⟩
    | true =>
      have hleave1 := hleave rfl
      refine Keeps.bind (m := fun next l2 => l2.view =
        { l1.view with roll := if next then some (a.curSeg + 1, false) else none }) ?_ ?_
      · refine Keeps.ite (fun _ => ?_) (fun _ => ?_)
        · refine keeps_last ⟨hroll1, a, hc1, rfl, hleave1⟩ fun s s' ok l2 _ h2 => ?_
          rw [view_canUse h2, hroll1]
        · show l1.view = _
          rw [if_neg (by simp), ← hroll1]
      · intro next l2 hv2
        have hc2 : l2.view.cur = some a := by rw [hv2]; exact hc1
        have hleave2 : l2.view.MayLeave a := by
          rw [hv2]
          exact hleave1
        cases next with
        | true =>
          have hroll2 : l2.view.roll = some (a.curSeg + 1, false) := by rw [hv2]; rfl
          refine keeps_step ⟨rfl, a, false, hc2, hroll2, hleave2⟩ fun s s' r l3 _ h3 => ?_
          have hv3 := view_setCursor h3
          rw [hc2] at hv3
          have hroll3 : l3.view.roll = some (a.curSeg + 1, false) := by rw [hv3]; exact hroll2
          refine keeps_step ⟨hroll3, by rw [hv3], _, by rw [hv3]; rfl, rfl⟩
            fun s s' ok l4 _ h4 => ?_
          have hv4 := view_activate h4
          have hin4 : l4.view.inAlloc = true := by rw [hv4, hv3, hv2]; exact hin1
          have hseal4 : l4.view.sealed = false := by rw [hv4, hv3]
          cases ok with
          | true =>
            refine ⟨hin4, ?_, hseal4, ⟨a.curSeg + 1, 0, a.cursorLoaded⟩, ?_, ?_⟩
            · rw [hv4, hv3, hv2]
              exact hload1
            · rw [hv4, hv3]
              rfl
            · rw [hv4]
          | false =>
            refine ⟨hin4, hseal4, Or.inr ⟨⟨a.curSeg + 1, 0, a.cursorLoaded⟩, ?_, ?_⟩⟩
            · rw [hv4, hv3]
              rfl
            · rw [hv4]
        | false =>
          have hroll2 : l2.view.roll = none := by rw [hv2]; rfl
          refine keeps_step ⟨hroll2, a, hc2, hleave2⟩ fun s s' x l3 _ h3 => ?_
          have hv3 := view_popFree h3
          cases x with
          | none =>
            refine ⟨?_, ?_, Or.inl ?_⟩
            · rw [hv3, hv2]
              exact hin1
            · rw [hv3]
              rfl
            · rw [hv3]
              exact hroll2
          | some seg =>
            have hc3 : l3.view.cur = some a := by rw [hv3]; exact hc2
            have hleave3 : l3.view.MayLeave a := by
              rw [hv3]
              exact hleave2
            refine keeps_step ⟨rfl, a, true, hc3, by rw [hv3]; rfl, hleave3⟩ fun s s' r l4 _ h4 => ?_
            have hv4 := view_setCursor h4
            rw [hc3] at hv4
            refine ⟨?_, ?_, ?_, ⟨seg, 0, a.cursorLoaded⟩, ?_, ?_⟩
            · rw [hv4, hv3, hv2]
              exact hin1
            · rw [hv4, hv3, hv2]
              exact hload1
            · rw [hv4]
            · rw [hv4]
              rfl
            · rw [hv4, hv3]
              rfl

/-- The state `allocOneLocked` returns in. -/
def AllocView.After (v : AllocView) : Res (Int × Int) → Prop
  | .error _ => v.Failed
  | .ok x => v.Ready ∧ ∃ a, v.cur = some a ∧ a.curSeg = x.1

theorem allocates_allocOneLocked {size : Int} {useReserve : Bool} (hr : l.view.Ready) :
    Keeps (allocProtocol L) (fun r l' => l'.view.After r) (allocOneLocked L size useReserve) l := by
  refine keeps_step ⟨hr.1, hr.2.1⟩ fun s s' a l1 _ h1 => ?_
  obtain ⟨hv1, -⟩ := view_read h1
  have hr1 : l1.view.Ready := by rw [hv1]; exact hr
  have hc1 : l1.view.cur = some a := by rw [hv1]
  refine Keeps.bind (m := fun r l2 => match r with
    | .error _ => l2.view.Failed
    | .ok _ => l2.view.inAlloc = true ∧ l2.view.loaded = true ∧ l2.view.sealed = false ∧
      ∃ a', l2.view.cur = some a' ∧ (l2.view.roll = none ∨ l2.view.roll = some (a'.curSeg, true)))
    ?_ ?_
  · refine Keeps.ite (fun _ => ?_) (fun _ => ?_)
    · refine (allocates_rollSegment hr1 hc1).mono fun r l2 h2 => ?_
      cases r with
      | error e => exact h2
      | ok _ =>
        obtain ⟨hin, hload, hseal, a', hc, hroll⟩ := h2
        exact ⟨hin, hload, hseal, a', hc, Or.inr hroll⟩
    · exact ⟨hr1.1, hr1.2.1, hr1.2.2.1, a, hc1, Or.inl hr1.2.2.2⟩
  · intro r l2 h2
    cases r with
    | error e => exact h2
    | ok _ =>
      obtain ⟨hin, hload, hseal, a', hc, hroll⟩ := h2
      refine keeps_step ⟨align4k_nonneg size, hseal, a', hc, hroll⟩ fun s s' x l3 hk h3 => ?_
      obtain ⟨hv3, hx⟩ := view_take h3
      rw [hc] at hv3
      have hseg : a'.curSeg = x.1 := by rw [hx, hk a' hc]
      exact ⟨by rw [hv3]; exact ⟨hin, hload, hseal, rfl⟩,
        { a' with curOff := a'.curOff + align4k size }, by rw [hv3]; rfl, hseg⟩

theorem allocates_allocBatchLoop (sizes : List Int) : ∀ l : Local, l.view.Ready →
    Keeps (allocProtocol L) (fun r l' => match r with
      | .error _ => l'.view.Failed
      | .ok _ => l'.view.Ready) (allocBatchLoop L sizes) l := by
  induction sizes with
  | nil => exact fun l hl => hl
  | cons size sizes ih =>
    intro l hl
    refine (allocates_allocOneLocked hl).bind fun r l1 h1 => ?_
    cases r with
    | error e => exact h1
    | ok x =>
      refine (ih l1 h1.1).bind fun rs l2 h2 => ?_
      cases rs with
      | error e => exact h2
      | ok xs => exact h2

theorem keeps_unlock_idle {a : α} (hl : l.view.Failed) :
    Keeps (allocProtocol L) (fun _ l' => l'.view = .idle)
      (allocUnlock >>= fun _ => (Pure.pure a : Proc α)) l := by
  refine keeps_step hl fun s s' r l1 _ h1 => ?_
  exact view_unlock h1

theorem AllocView.Ready.failed {v : AllocView} (h : v.Ready) : v.Failed :=
  ⟨h.1, h.2.2.1, Or.inl h.2.2.2⟩

/-- The cursor write at the end of an allocation. -/
theorem allocates_persist {seg : Allocator → Int} {f : Bool → Res α} (hl : l.view.Ready)
    (hseg : ∀ a, l.view.cur = some a → seg a = a.curSeg)
    (hany : l.view.cur = none → ∀ a, seg a = a.curSeg) :
    Keeps (allocProtocol L) (fun _ l' => l'.view = .idle)
      (allocator >>= fun a => persistCursor (seg a) a.curOff >>= fun ok =>
        allocUnlock >>= fun _ => if ok then (Pure.pure (f true) : Proc (Res α))
          else Pure.pure (f false)) l := by
  refine keeps_step ⟨hl.1, hl.2.1⟩ fun s s' a l1 hk h1 => ?_
  obtain ⟨hv1, ha⟩ := view_read h1
  have hr1 : l1.view.Ready := by rw [hv1]; exact hl
  have hsa : seg a = a.curSeg := by
    cases hc : l.view.cur with
    | none => exact hany hc a
    | some b =>
      have hba : b = a := (hk b hc).symm.trans ha.symm
      exact hba ▸ hseg b hc
  refine keeps_step ⟨hr1.2.2.2, hr1.2.2.1, a, by rw [hv1], hsa, rfl⟩ fun s s' ok l2 _ h2 => ?_
  have hr2 : l2.view.Ready := by rw [view_persist h2]; exact hr1
  refine keeps_step hr2.failed fun s s' r l3 _ h3 => ?_
  cases ok <;> exact view_unlock h3

/-- The head of an allocation. -/
theorem allocates_under {p : Proc α} {f : α → Proc β} (hl : l.view = .idle)
    (h : ∀ l', l'.view.Ready → Keeps (allocProtocol L) (fun _ l' => l'.view = .idle) (p >>= f) l') :
    Keeps (allocProtocol L) (fun _ l' => l'.view = .idle)
      (allocLock >>= fun _ => ensureLoaded >>= fun _ => p >>= f) l := by
  refine keeps_step True.intro fun s s' r l1 _ h1 => ?_
  have hv1 := view_lock h1
  rw [hl] at hv1
  refine keeps_step ⟨by rw [hv1], by rw [hv1]; rfl, by rw [hv1]; rfl⟩ fun s s' r l2 _ h2 => ?_
  have hv2 := view_ensureLoaded h2
  rw [hv1] at hv2
  exact h l2 (by rw [hv2]; exact ⟨rfl, rfl, rfl, rfl⟩)

theorem allocates_allocate (size : Int) (useReserve : Bool) (l : Local) (hl : l.view = .idle) :
    Keeps (allocProtocol L) (fun _ l' => l'.view = .idle) (allocate L size useReserve) l := by
  refine allocates_under hl fun l' hr => (allocates_allocOneLocked hr).bind fun r l1 h1 => ?_
  cases r with
  | error e => exact keeps_unlock_idle h1
  | ok x =>
    obtain ⟨hr1, a, hc, hseg⟩ := h1
    refine allocates_persist (f := fun ok => if ok then .ok x else .error .io) hr1 ?_ ?_
    · intro a' hc'
      rw [hc] at hc'
      exact (Option.some.inj hc') ▸ hseg.symm
    · intro hn
      rw [hc] at hn
      exact absurd hn (by simp)

theorem allocates_allocateSegmentBatch (sizes : List Int) (l : Local) (hl : l.view = .idle) :
    Keeps (allocProtocol L) (fun _ l' => l'.view = .idle) (allocateSegmentBatch L sizes) l := by
  refine allocates_under hl fun l' hr => (allocates_allocBatchLoop sizes l' hr).bind
    fun r l1 h1 => ?_
  cases r with
  | error e => exact keeps_unlock_idle h1
  | ok xs =>
    refine Keeps.ite (fun _ => keeps_unlock_idle h1.failed) (fun _ => ?_)
    exact allocates_persist (f := fun ok => if ok then .ok xs else .error .io) h1
      (fun _ _ => rfl) (fun _ _ => rfl)

/-! Commits do not allocate. -/

theorem Op.Plain.offAlloc {o : Op} (h : o.Plain) : o.OffAlloc := by
  cases o with
  | segs o => cases o <;> first | exact True.intro | exact absurd h id
  | alloc o => exact absurd h id
  | _ => exact True.intro

theorem offAlloc_putMapping (key : Key) (md : ObjectMeta) (v : Option Bytes) :
    Uses Op.OffAlloc (putMapping key md v) := by
  refine Uses.bind (.step True.intro fun r => ?_) fun old => ?_
  · cases r with
    | some om => exact True.intro
    | none => exact ⟨True.intro, fun _ => True.intro⟩
  · refine ⟨True.intro, fun _ => ⟨True.intro, fun _ => ⟨True.intro, fun _ => .step True.intro
      fun ok => ?_⟩⟩⟩
    cases ok with
    | true => exact ⟨True.intro, fun _ => True.intro⟩
    | false => exact True.intro

theorem offAlloc_cacheDelAll (keys : List Key) : Uses Op.OffAlloc (cacheDelAll keys) := by
  induction keys with
  | nil => exact True.intro
  | cons key keys ih => exact ⟨True.intro, fun _ => ih⟩

theorem offAlloc_deleteMapping (key : Key) : Uses Op.OffAlloc (deleteMapping key) := by
  refine ((quiet_getMapping key).mono fun _ h => h.plain.offAlloc).bind fun r => ?_
  cases r with
  | error e => exact True.intro
  | ok old =>
    refine ⟨True.intro, fun _ => ⟨True.intro, fun _ => ⟨True.intro, fun _ => .step True.intro
      fun ok => ?_⟩⟩⟩
    cases ok with
    | true => exact ⟨True.intro, fun _ => True.intro⟩
    | false => exact True.intro

theorem offAlloc_batchPutLocked (items : List PutMappingItem) :
    Uses Op.OffAlloc (batchPutLocked items) := by
  induction items with
  | nil => exact True.intro
  | cons it items ih => exact ⟨True.intro, fun _ => ⟨True.intro, fun _ => ih⟩⟩

theorem offAlloc_batchPutMapping (items : List PutMappingItem) :
    Uses Op.OffAlloc (batchPutMapping items) := by
  refine Uses.ite True.intro ⟨True.intro, fun _ => (offAlloc_batchPutLocked items).bind fun _ =>
    ⟨True.intro, fun _ => .step True.intro fun ok => ?_⟩⟩
  cases ok with
  | true => exact ((quiet_cachePutAll _).mono fun _ h => h.plain.offAlloc).bind fun _ => True.intro
  | false => exact True.intro

theorem offAlloc_batchDeleteLocked (dels : List (Key × ObjectMeta)) :
    Uses Op.OffAlloc (batchDeleteLocked dels) := by
  induction dels with
  | nil => exact True.intro
  | cons x dels ih => exact ⟨True.intro, fun _ => ih⟩

theorem offAlloc_batchDeleteMapping (keys : List Key) :
    Uses Op.OffAlloc (batchDeleteMapping keys) := by
  refine ((quiet_batchDeleteLookup keys).mono fun _ h => h.plain.offAlloc).bind fun found => ?_
  refine Uses.ite True.intro ⟨True.intro, fun _ => (offAlloc_batchDeleteLocked _).bind fun _ =>
    ⟨True.intro, fun _ => .step True.intro fun ok => ?_⟩⟩
  cases ok with
  | true => exact (offAlloc_cacheDelAll _).bind fun _ => True.intro
  | false => exact True.intro

theorem offAlloc_moveMapping (key : Key) (old new : ObjectMeta) :
    Uses Op.OffAlloc (moveMapping key old new) := by
  refine ⟨True.intro, fun _ => .step True.intro fun cur => Uses.ite ?_ ?_⟩
  · refine ⟨True.intro, fun _ => .step True.intro fun ok => ?_⟩
    cases ok with
    | true => exact ⟨True.intro, fun _ => ⟨True.intro, fun _ => True.intro⟩⟩
    | false => exact ⟨True.intro, fun _ => True.intro⟩
  · exact ⟨True.intro, fun _ => True.intro⟩

theorem keeps_offAlloc {p : Proc α} (h : Uses Op.OffAlloc p) (l : Local) (hl : l.view = .idle) :
    Keeps (allocProtocol L) (fun _ l' => l'.view = .idle) p l := by
  refine h.keeps (I := fun l : Local => l.view = .idle) hl fun o l' ho hv => ⟨ho.pre _, ?_⟩
  rintro r l'' ⟨s, s', -, hx⟩
  exact (view_frame hx ho).trans hv

/-- A call is in an allocation only while it runs one. -/
theorem restored_idle (L : Layout) : Restored L (allocProtocol L) (fun l => l.view = .idle) where
  plain := by
    refine fun o l ho hl => ⟨ho.offAlloc.pre _, ?_⟩
    rintro r l' ⟨s, s', -, hx⟩
    exact (view_frame hx ho.offAlloc).trans hl
  allocate := allocates_allocate
  allocateSegmentBatch := allocates_allocateSegmentBatch
  putMapping := fun key md v => keeps_offAlloc (offAlloc_putMapping key md v)
  deleteMapping := fun key => keeps_offAlloc (offAlloc_deleteMapping key)
  batchPutMapping := fun items => keeps_offAlloc (offAlloc_batchPutMapping items)
  batchDeleteMapping := fun keys => keeps_offAlloc (offAlloc_batchDeleteMapping keys)
  moveMapping := fun key old new => keeps_offAlloc (offAlloc_moveMapping key old new)

/-- **Every call follows the protocol.** -/
theorem code_allocates (L : Layout) (call : Call) (l : Local) (hl : l.view = .idle) :
    Keeps (allocProtocol L) (fun _ l' => l'.view = .idle) (code L call) l :=
  (code_shaped L call).keeps (restored_idle L) l hl

/-! ## 4. The views are right -/

/-- The lock excludes, and what the threads believe of the cursor is so. -/
structure AllocSound (s : Sys) (ls : List Local) : Prop where
  mutex : Exclusive (fun l : Local => l.hist.inAlloc) s.allocMu ls
  idle : ∀ l ∈ ls, l.hist.inAlloc = false → l.view = .idle
  known : ∀ l ∈ ls, ∀ a, l.hist.cur = some a → s.alloc = a ∧ l.hist.loaded = true
  loaded : ∀ l ∈ ls, l.hist.loaded = true → s.alloc.cursorLoaded = true

namespace AllocSound

theorem perm {ls ls' : List Local} (hp : ls.Perm ls') (h : AllocSound s ls) :
    AllocSound s ls' where
  mutex := h.mutex.perm hp
  idle := fun l hl => h.idle l (hp.mem_iff.mpr hl)
  known := fun l hl => h.known l (hp.mem_iff.mpr hl)
  loaded := fun l hl => h.loaded l (hp.mem_iff.mpr hl)

/-- A thread that is not idle is in an allocation. -/
theorem inAlloc (h : AllocSound s (l :: rest)) (hv : l.view ≠ .idle) : l.hist.inAlloc = true := by
  by_contra hin
  exact hv (h.idle l List.mem_cons_self (Bool.eq_false_iff.mpr hin))

/-- While a thread is in an allocation the others are idle. -/
theorem alone (h : AllocSound s (l :: rest)) (hin : l.hist.inAlloc = true) :
    ∀ x ∈ rest, x.view = .idle := fun x hx =>
  h.idle x (List.mem_cons_of_mem _ hx) (h.mutex.others hin x hx)

theorem knows (h : AllocSound s (l :: rest)) : Knows s l :=
  fun a ha => (h.known l List.mem_cons_self a ha).1

theorem spawn {ls : List Local} (h : AllocSound s ls) (hl : l.view = .idle) :
    AllocSound s (l :: ls) := by
  have hin : l.hist.inAlloc = false := congrArg AllocView.inAlloc hl
  have hc : l.hist.cur = none := congrArg AllocView.cur hl
  have hld : l.hist.loaded = false := congrArg AllocView.loaded hl
  constructor
  · exact h.mutex.cons hin
  · intro x hx
    rcases List.mem_cons.mp hx with rfl | hx
    · exact fun _ => hl
    · exact h.idle x hx
  · intro x hx a ha
    rcases List.mem_cons.mp hx with rfl | hx
    · exact absurd (hc.symm.trans ha) (by simp)
    · exact h.known x hx a ha
  · intro x hx ha
    rcases List.mem_cons.mp hx with rfl | hx
    · exact absurd (hld.symm.trans ha) (by simp)
    · exact h.loaded x hx ha

/-- A step that touches neither the allocator nor the lock; the stepping thread may learn about
the segments it rolls between, if it is in an allocation. -/
theorem frame (h : AllocSound s (l :: rest)) (ha : s'.alloc = s.alloc)
    (hm : s'.allocMu = s.allocMu) (hin : l'.hist.inAlloc = l.hist.inAlloc)
    (hl : l'.hist.loaded = l.hist.loaded) (hc : l'.hist.cur = l.hist.cur)
    (hi : l.hist.inAlloc = false → l'.view = .idle) : AllocSound s' (l' :: rest) where
  mutex := by
    rw [hm]
    exact h.mutex.same hin
  idle := by
    intro x hx
    rcases List.mem_cons.mp hx with rfl | hx
    · rw [hin]
      exact hi
    · exact h.idle x (List.mem_cons_of_mem _ hx)
  known := by
    intro x hx a hca
    rw [ha]
    rcases List.mem_cons.mp hx with rfl | hx
    · rw [hl]
      rw [hc] at hca
      exact h.known l List.mem_cons_self a hca
    · exact h.known x (List.mem_cons_of_mem _ hx) a hca
  loaded := by
    intro x hx hld
    rw [ha]
    rcases List.mem_cons.mp hx with rfl | hx
    · rw [hl] at hld
      exact h.loaded l List.mem_cons_self hld
    · exact h.loaded x (List.mem_cons_of_mem _ hx) hld

/-- The holder of the lock changes the allocator, and its own view accordingly. -/
theorem hold (h : AllocSound s (l :: rest)) (hin : l.hist.inAlloc = true)
    (hm : s'.allocMu = s.allocMu) (hin' : l'.hist.inAlloc = true)
    (hk : ∀ a, l'.hist.cur = some a → s'.alloc = a ∧ l'.hist.loaded = true)
    (hl : l'.hist.loaded = true → s'.alloc.cursorLoaded = true) : AllocSound s' (l' :: rest) := by
  have hrest := h.alone hin
  constructor
  · rw [hm]
    exact h.mutex.same (hin'.trans hin.symm)
  · intro x hx hxin
    rcases List.mem_cons.mp hx with rfl | hx
    · exact absurd (hin'.symm.trans hxin) (by simp)
    · exact hrest x hx
  · intro x hx a ha
    rcases List.mem_cons.mp hx with rfl | hx
    · exact hk a ha
    · have hc : x.hist.cur = none := congrArg AllocView.cur (hrest x hx)
      exact absurd (hc.symm.trans ha) (by simp)
  · intro x hx ha
    rcases List.mem_cons.mp hx with rfl | hx
    · exact hl ha
    · have hld : x.hist.loaded = false := congrArg AllocView.loaded (hrest x hx)
      exact absurd (hld.symm.trans ha) (by simp)

/-- An operation of an allocation on the segment manager. -/
theorem rolling (h : AllocSound s (l :: rest)) {o : SegsOp} {r : o.Reply}
    (hx : exec L s l (.segs o) = some (s', l', r)) (hc : l.hist.cur ≠ none)
    (hv : l'.view.inAlloc = l.view.inAlloc ∧ l'.view.loaded = l.view.loaded ∧
      l'.view.cur = l.view.cur) : AllocSound s' (l' :: rest) := by
  obtain ⟨ha, hm⟩ := exec_alloc hx (by simp)
  refine h.frame ha hm hv.1 hv.2.1 hv.2.2 fun hin => ?_
  have hidle := h.idle l List.mem_cons_self hin
  exact absurd (congrArg AllocView.cur hidle) hc

/-- **The step lemma.**  An operation performed by the protocol keeps every view right. -/
theorem step (h : AllocSound s (l :: rest)) {o : Op} {r : o.Reply} (hp : o.allocPre l.view)
    (hx : exec L s l o = some (s', l', r)) : AllocSound s' (l' :: rest) := by
  have hoff : o.OffAlloc → (∀ a, o ≠ .alloc a) → AllocSound s' (l' :: rest) := by
    intro ho hna
    have hv := view_frame hx ho
    obtain ⟨ha, hm⟩ := exec_alloc hx hna
    exact h.frame ha hm (congrArg AllocView.inAlloc hv) (congrArg AllocView.loaded hv)
      (congrArg AllocView.cur hv) (fun hin => hv.trans (h.idle l List.mem_cons_self hin))
  cases o with
  | cache o => exact hoff True.intro (by simp)
  | pebble o => exact hoff True.intro (by simp)
  | dev o => exact hoff True.intro (by simp)
  | segs o =>
    cases o with
    | markFull id =>
      obtain ⟨-, a, hc, -⟩ := hp
      have hne : l.hist.cur ≠ none := fun hn => absurd (hn.symm.trans hc) (by simp)
      exact h.rolling hx hne (by rw [view_markFull hx]; exact ⟨rfl, rfl, rfl⟩)
    | canUse id =>
      obtain ⟨-, a, hc, -⟩ := hp
      have hne : l.hist.cur ≠ none := fun hn => absurd (hn.symm.trans hc) (by simp)
      exact h.rolling hx hne (by rw [view_canUse hx]; exact ⟨rfl, rfl, rfl⟩)
    | activate id =>
      obtain ⟨-, -, a, hc, -⟩ := hp
      have hne : l.hist.cur ≠ none := fun hn => absurd (hn.symm.trans hc) (by simp)
      exact h.rolling hx hne (by rw [view_activate hx]; exact ⟨rfl, rfl, rfl⟩)
    | popFree =>
      obtain ⟨-, a, hc, -⟩ := hp
      have hne : l.hist.cur ≠ none := fun hn => absurd (hn.symm.trans hc) (by simp)
      refine h.rolling hx hne ?_
      rw [view_popFree hx]
      cases r <;> exact ⟨rfl, rfl, rfl⟩
    | _ => exact hoff True.intro (by simp)
  | alloc o =>
    obtain ⟨he, hl'⟩ := exec_allocOp hx
    cases o with
    | lock =>
      have hv := view_lock hx
      simp only [AllocOp.exec] at he
      split at he
      · cases he
      · rename_i hmu
        cases he
        have hfree : s.allocMu = false := Bool.eq_false_iff.mpr hmu
        have hex : Exclusive (fun l : Local => l.hist.inAlloc) false (l :: rest) := hfree ▸ h.mutex
        have hin' : l'.hist.inAlloc = true := congrArg AllocView.inAlloc hv
        have hin : l.hist.inAlloc = false := by
          by_contra hin
          have hone := hex
          unfold Exclusive at hone
          rw [List.countP_cons_of_pos (by simpa using hin)] at hone
          simp at hone
        have hcur : l'.hist.cur = l.hist.cur := congrArg AllocView.cur hv
        have hload : l'.hist.loaded = l.hist.loaded := congrArg AllocView.loaded hv
        constructor
        · exact hex.lock hin'
        · intro x hx' hxin
          rcases List.mem_cons.mp hx' with rfl | hx'
          · exact absurd (hin'.symm.trans hxin) (by simp)
          · exact h.idle x (List.mem_cons_of_mem _ hx') hxin
        · intro x hx' a ha
          rcases List.mem_cons.mp hx' with rfl | hx'
          · rw [hload]
            exact h.known l List.mem_cons_self a (hcur ▸ ha)
          · exact h.known x (List.mem_cons_of_mem _ hx') a ha
        · intro x hx' ha
          rcases List.mem_cons.mp hx' with rfl | hx'
          · exact h.loaded l List.mem_cons_self (hload ▸ ha)
          · exact h.loaded x (List.mem_cons_of_mem _ hx') ha
    | unlock =>
      cases he
      have hv := view_unlock hx
      have hrest := h.alone hp.1
      constructor
      · exact h.mutex.unlock hp.1 (congrArg AllocView.inAlloc hv)
      · intro x hx' _
        rcases List.mem_cons.mp hx' with rfl | hx'
        · exact hv
        · exact hrest x hx'
      · intro x hx' a ha
        have hnone : x.hist.cur = none := by
          rcases List.mem_cons.mp hx' with rfl | hx'
          · exact congrArg AllocView.cur hv
          · exact congrArg AllocView.cur (hrest x hx')
        exact absurd (hnone.symm.trans ha) (by simp)
      · intro x hx' ha
        have hnone : x.hist.loaded = false := by
          rcases List.mem_cons.mp hx' with rfl | hx'
          · exact congrArg AllocView.loaded hv
          · exact congrArg AllocView.loaded (hrest x hx')
        exact absurd (hnone.symm.trans ha) (by simp)
    | ensureLoaded =>
      cases he
      have hv := view_ensureLoaded hx
      have hcur : l'.hist.cur = none := congrArg AllocView.cur hv
      exact h.hold hp.1 rfl ((congrArg AllocView.inAlloc hv).trans hp.1)
        (fun a ha => absurd (hcur.symm.trans ha) (by simp)) (fun _ => rfl)
    | read =>
      cases he
      have hv := (view_read hx).1
      have hload : l'.hist.loaded = true := (congrArg AllocView.loaded hv).trans hp.2
      refine h.hold hp.1 rfl ((congrArg AllocView.inAlloc hv).trans hp.1) (fun a ha => ?_)
        (fun _ => h.loaded l List.mem_cons_self hp.2)
      have hcur : l'.hist.cur = some s.alloc := congrArg AllocView.cur hv
      exact ⟨Option.some.inj (hcur.symm.trans ha), hload⟩
    | setCursor seg off =>
      cases he
      obtain ⟨-, a, b, hc, -, -⟩ := hp
      have hin := h.inAlloc fun hi => absurd (congrArg AllocView.cur hi) (by rw [hc]; simp [AllocView.idle])
      obtain ⟨hka, hkl⟩ := h.known l List.mem_cons_self a hc
      have hv := view_setCursor hx
      rw [hc] at hv
      have hload : l'.hist.loaded = true := (congrArg AllocView.loaded hv).trans hkl
      refine h.hold hin rfl ((congrArg AllocView.inAlloc hv).trans hin) (fun a' ha => ⟨?_, hload⟩)
        (fun _ => h.loaded l List.mem_cons_self hkl)
      have hcur : l'.hist.cur = some { a with curSeg := seg, curOff := off } :=
        congrArg AllocView.cur hv
      rw [hka]
      exact Option.some.inj (hcur.symm.trans ha)
    | take n =>
      cases he
      obtain ⟨-, -, a, hc, -⟩ := hp
      have hin := h.inAlloc fun hi => absurd (congrArg AllocView.cur hi) (by rw [hc]; simp [AllocView.idle])
      obtain ⟨hka, hkl⟩ := h.known l List.mem_cons_self a hc
      have hv := (view_take hx).1
      rw [hc] at hv
      have hload : l'.hist.loaded = true := (congrArg AllocView.loaded hv).trans hkl
      refine h.hold hin rfl ((congrArg AllocView.inAlloc hv).trans hin) (fun a' ha => ⟨?_, hload⟩)
        (fun _ => h.loaded l List.mem_cons_self hkl)
      have hcur : l'.hist.cur = some { a with curOff := a.curOff + n } := congrArg AllocView.cur hv
      rw [hka]
      exact Option.some.inj (hcur.symm.trans ha)
    | persist seg off =>
      have hv := view_persist hx
      cases he
      have hidle : l.hist.inAlloc = false → l'.view = .idle := fun hin =>
        hv.trans (h.idle l List.mem_cons_self hin)
      exact h.frame rfl rfl (congrArg AllocView.inAlloc hv) (congrArg AllocView.loaded hv)
        (congrArg AllocView.cur hv) hidle

end AllocSound

theorem allocSound_initial {s : Sys} (h : s.allocMu = false) : AllocSound s [] where
  mutex := by rw [h]; rfl
  idle := fun l hl => absurd hl List.not_mem_nil
  known := fun l hl => absurd hl List.not_mem_nil
  loaded := fun l hl => absurd hl List.not_mem_nil

end Taihu
