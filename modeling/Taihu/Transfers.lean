/-
# What a call writes and finds on the device

A put writes its data from the beginning of the extent on that it has allocated, block by block, and
then commits a mapping of that extent.  The history keeps with every open extent the bytes that the
thread has written there, and a thread that keeps this module's contract CARRIES each object it
commits: the bytes of the object are the first that it has written of the object's extent.  Padding
stands behind them.

A move writes what the same thread has read before.  It carries the bytes of the object that it
took its reference for, if the mapping that it compares under the lock is still that object's.

What the threads may rely on is `Shown`: the extents of one thread are apart, so a block grows one
of them, and an object that a thread holds a reference for is on the device where the mapping says.
-/
import Taihu.DeviceBytes
import Taihu.Placing
import Taihu.GetChunks
import Taihu.WriteTasks

namespace Taihu

open Concur
open Program hiding pure

variable {L : Layout} {s s' : Sys} {l l' : Local} {α β : Type}

/-! ## 1. What a thread has written -/

/-- The extents a thread has open, with the bytes it has written of each. -/
def Local.written (l : Local) : Multiset (Span × Bytes) :=
  Multiset.ofList (l.hist.opens.map (fun o => (o.span, o.written)))

theorem written_spans (l : Local) : l.written.map Prod.fst = l.extents := by
  simp [Local.written, Local.extents, Function.comp_def]

/-- An extent after a block has been written: `Opened.extend`. -/
def grown (seg off : Int) (block : Bytes) (x : Span × Bytes) : Span × Bytes :=
  if x.1.region = seg ∧ x.1.start + x.2.length = off ∧ x.2.length < x.1.len then (x.1, x.2 ++ block)
  else x

theorem written_same {o : Op} {r : o.Reply} (h : exec L s l o = some (s', l', r))
    (ha : o ≠ .pebble .apply) (ht : ∀ n, o ≠ .alloc (.take n))
    (hw : ∀ seg off block, o ≠ .dev (.write seg off block)) : l'.written = l.written := by
  unfold Local.written
  rcases opens_cases h with heq | ⟨n, rfl, -⟩ | ⟨seg, off, -, heq⟩ | ⟨seg, off, block, rfl, -⟩ | ⟨rfl, -⟩
  · rw [heq]
  · exact absurd rfl (ht n)
  · rw [heq, List.map_map]
    rfl
  · exact absurd rfl (hw seg off block)
  · exact absurd rfl ha

theorem written_take {n : Int} {x : Int × Int} (h : exec L s l (.alloc (.take n)) = some (s', l', x)) :
    l'.written = (⟨x.1, x.2, n⟩, []) ::ₘ l.written := by
  obtain ⟨-, rfl⟩ := exec_allocOp h
  rfl

theorem written_write {seg off : Int} {block : Bytes} {ok : Bool}
    (h : exec L s l (.dev (.write seg off block)) = some (s', l', ok)) :
    l'.written = if ok then l.written.map (grown seg off block) else l.written := by
  have hl : l' = { l with hist := (DevOp.write seg off block).note l.hist ok } := by
    cases h
    rfl
  subst hl
  cases ok with
  | false => rfl
  | true =>
    simp only [Local.written, DevOp.note, if_true, Multiset.map_coe, List.map_map]
    refine congrArg Multiset.ofList (List.map_congr_left fun o _ => ?_)
    simp only [Function.comp, Opened.extend, grown]
    split <;> rfl

/-- **A block grows one extent.**  The others are apart from it. -/
theorem owned_grown {T W : Multiset (Span × Bytes)} {a : Span} {w block : Bytes} {seg off : Int}
    (hT : (a, w) ::ₘ T ≤ W) (hap : Span.Apart (W.map Prod.fst)) (hseg : a.region = seg)
    (hoff : a.start + w.length = off) (hlen : (w.length : Int) < a.len) :
    (a, w ++ block) ::ₘ T ≤ W.map (grown seg off block) := by
  have hle := Multiset.map_le_map (f := grown seg off block) hT
  have hself : grown seg off block (a, w) = (a, w ++ block) := if_pos ⟨hseg, hoff, hlen⟩
  have hrest : T.map (grown seg off block) = T := by
    refine (Multiset.map_congr rfl fun x hx => ?_).trans (Multiset.map_id T)
    have hpair : a ::ₘ {x.1} ≤ W.map Prod.fst := by
      have hsub : (a, w) ::ₘ {x} ≤ W :=
        ((Multiset.cons_le_cons_iff _).mpr (Multiset.singleton_le.mpr hx)).trans hT
      exact Multiset.map_le_map (f := Prod.fst) hsub
    refine if_neg ?_
    rintro ⟨hr, hpos, hx⟩
    refine hap a x.1 hpair (seg, off) ⟨hseg, ?_, ?_⟩ ⟨hr, ?_, ?_⟩
    · show a.start ≤ off
      omega
    · show off < a.start + a.len
      omega
    · show x.1.start ≤ off
      omega
    · show off < x.1.start + x.1.len
      omega
  rwa [Multiset.map_cons, hself, hrest] at hle

/-! ## 2. The contract -/

/-- The bytes `v` of the object are the first of what `T` has of its extent. -/
def Carried (T : Multiset (Span × Bytes)) (md : ObjectMeta) (v : Bytes) : Prop :=
  (v.length : Int) = md.size ∧ ∃ w, (md.span, w) ∈ T ∧ v <+: w

theorem Carried.mono {T T' : Multiset (Span × Bytes)} {md : ObjectMeta} {v : Bytes} (h : Carried T md v)
    (hle : T ≤ T') : Carried T' md v := by
  obtain ⟨hlen, w, hw, hv⟩ := h
  exact ⟨hlen, w, Multiset.mem_of_le hle hw, hv⟩

/-- What the thread moves to `md` is the object it has taken a reference for, if the mapping it
has compared is that object's. -/
def Local.Copies (l : Local) (key : Key) (md : ObjectMeta) : Prop :=
  ∀ x, l.hist.copy = some x → x.key = key → l.hist.cas = some (key, x.md) →
    ∃ v, x.value = some v ∧ Carried l.written md v

/-- What a thread owes.  A block goes behind what it has written of an extent; an object that is
committed is carried; a reference is for the segment of the object it is taken for. -/
def Op.Transfers (l : Local) : Op → Prop
  | .dev (.write seg off block) => (block.length : Int) = blockSize ∧ ∃ a w, (a, w) ∈ l.written ∧
      a.region = seg ∧ a.start + w.length = off ∧ w.length + blockSize ≤ a.len
  | .segs (.putObjectLocked _ md _ (some v)) => Carried l.written md v
  | .segs (.putObjectLocked key md _ none) => l.batch = [] ∧ l.hist.stage = [] ∧ l.Copies key md
  | .segs (.ref id (some (_, md))) => id = md.segmentID
  | .pebble (.getMapping _ (.revalidate md)) => md.segmentID ∈ l.hist.refs
  | _ => True

/-- The thread has put a move into its batch. -/
def Local.Moving (l : Local) : Prop := ∃ key, (key, Effect.keep) ∈ l.hist.stage

/-- The object a reference is taken for without looking again is the one that is mapped. -/
def Op.Current (s : Sys) : Op → Prop
  | .segs (.ref _ (some (key, md))) => s.db.disk.mapping.find? key = some md
  | _ => True

instance (s : Sys) : ∀ o : Op, Decidable (o.Current s)
  | .segs (.ref _ (some (key, md))) => inferInstanceAs (Decidable (s.db.disk.mapping.find? key = some md))
  | .segs (.ref _ none) => .isTrue True.intro
  | .segs .lock => .isTrue True.intro
  | .segs .unlock => .isTrue True.intro
  | .segs (.putObjectLocked _ _ _ _) => .isTrue True.intro
  | .segs (.delObjectLocked _ _) => .isTrue True.intro
  | .segs (.unref _) => .isTrue True.intro
  | .segs (.canUse _) => .isTrue True.intro
  | .segs (.activate _) => .isTrue True.intro
  | .segs (.markFull _) => .isTrue True.intro
  | .segs (.markCompacting _) => .isTrue True.intro
  | .segs .popFree => .isTrue True.intro
  | .segs (.gcCandidates _) => .isTrue True.intro
  | .segs (.gcFinalize _) => .isTrue True.intro
  | .cache _ => .isTrue True.intro
  | .pebble _ => .isTrue True.intro
  | .alloc _ => .isTrue True.intro
  | .dev _ => .isTrue True.intro

/-- What a thread may rely on. -/
structure Shown (L : Layout) (s : Sys) (l : Local) : Prop where
  apart : Span.Apart l.extents
  mapped : ∀ key md, s.db.disk.mapping.find? key = some md →
    ∃ v, s.value key = some v ∧ (v.length : Int) = md.size ∧
      L.Fits (align4k md.size) (md.segmentID, md.offset)
  held : ∀ x ∈ l.hist.held, ∀ v, x.value = some v →
    s.dev.Shows L x.md.segmentID x.md.offset v

/-- The contract.  Where it is `strict`, references are taken for the current mapping. -/
def transfers (L : Layout) (strict : Bool) : Contract sig Local :=
  (machine L).under (fun o l => o.Transfers l ∧ (l.Moving → o = .pebble .apply))
    (fun s l o => Shown L s l ∧ (strict = true → o.Current s))

/-! ## 3. What a thread owns -/

/-- What the history says of the object last referenced, and of the values that references were
taken for. -/
def Local.look (l : Local) : Option Held × List (Key × Option Bytes) := (l.hist.copy, l.hist.snaps)

/-- Operations that change neither this nor the batch, and write no block. -/
def Op.Idle : Op → Prop
  | .cache (.get _) => False
  | .cache _ => True
  | .pebble (.getMapping _ _) => False
  | .pebble .apply => False
  | .pebble _ => True
  | .segs (.putObjectLocked _ _ _ _) => False
  | .segs (.delObjectLocked _ _) => False
  | .segs (.ref _ (some _)) => False
  | .segs _ => True
  | .alloc _ => True
  | .dev (.write _ _ _) => False
  | .dev _ => True

theorem Op.Idle.batches {o : Op} (h : o.Idle) : o.Batches = false := by
  cases o with
  | pebble o => cases o <;> first | rfl | exact absurd h id
  | segs o => cases o <;> first | rfl | exact absurd h id
  | _ => rfl

/-- Between commits: the thread has, of the extents it has open, at least `T`. -/
structure Owns (T : Multiset (Span × Bytes)) (k : Option Held × List (Key × Option Bytes)) (l : Local) :
    Prop where
  batch : l.batch = []
  stage : l.hist.stage = []
  owned : T ≤ l.written
  look : l.look = k

variable {T : Multiset (Span × Bytes)} {k : Option Held × List (Key × Option Bytes)} {strict : Bool}

theorem stage_same {o : Op} {r : o.Reply} (h : exec L s l o = some (s', l', r))
    (ho : o.Batches = false) : l'.hist.stage = l.hist.stage := by
  rw [exec_hist h]
  cases o with
  | cache o => cases o <;> cases r <;> rfl
  | pebble o =>
    cases o with
    | apply => exact absurd ho (by decide)
    | getMapping key site =>
      cases site <;> cases r <;> simp only [Op.note, PebbleOp.note] <;> (try split) <;> rfl
    | _ => cases r <;> rfl
  | segs o =>
    cases o with
    | putObjectLocked key md old v => exact absurd ho (by simp [Op.Batches])
    | delObjectLocked key md => exact absurd ho (by simp [Op.Batches])
    | ref id reader =>
      cases reader with
      | none => rfl
      | some x =>
        simp only [Op.note, SegsOp.note]
        split <;> rfl
    | canUse id => cases r <;> rfl
    | markFull id => cases r <;> rfl
    | popFree => cases r <;> rfl
    | _ => rfl
  | alloc o =>
    cases o with
    | persist seg off => cases r <;> rfl
    | _ => rfl
  | dev o => cases o <;> cases r <;> rfl

/-- The look changes with a lookup and with a reference only. -/
theorem look_same {o : Op} {r : o.Reply} (h : exec L s l o = some (s', l', r))
    (hg : ∀ key, o ≠ .cache (.get key)) (hm : ∀ key site, o ≠ .pebble (.getMapping key site))
    (hr : ∀ id x, o ≠ .segs (.ref id (some x))) : l'.look = l.look := by
  unfold Local.look
  rw [exec_hist h]
  cases o with
  | cache o =>
    cases o with
    | get key => exact absurd rfl (hg key)
    | _ => rfl
  | pebble o =>
    cases o with
    | getMapping key site => exact absurd rfl (hm key site)
    | _ => cases r <;> rfl
  | segs o =>
    cases o with
    | putObjectLocked key md old v => cases v <;> rfl
    | ref id reader =>
      cases reader with
      | none => rfl
      | some x => exact absurd rfl (hr id x)
    | canUse id => cases r <;> rfl
    | markFull id => cases r <;> rfl
    | popFree => cases r <;> rfl
    | _ => rfl
  | alloc o =>
    cases o with
    | persist seg off => cases r <;> rfl
    | _ => rfl
  | dev o => cases o <;> cases r <;> rfl

theorem written_grows {o : Op} {r : o.Reply} (h : exec L s l o = some (s', l', r))
    (ha : o ≠ .pebble .apply) (hw : ∀ seg off block, o ≠ .dev (.write seg off block)) :
    l.written ≤ l'.written := by
  by_cases ht : ∃ n, o = .alloc (.take n)
  · obtain ⟨n, rfl⟩ := ht
    rw [written_take h]
    exact Multiset.le_cons_self _ _
  · exact le_of_eq (written_same h ha (fun n hn => ht ⟨n, hn⟩) hw).symm

namespace Owns

theorem mono {T' : Multiset (Span × Bytes)} (h : Owns T k l) (hle : T' ≤ T) : Owns T' k l :=
  ⟨h.batch, h.stage, hle.trans h.owned, h.look⟩

theorem not_moving (h : Owns T k l) : ¬ l.Moving := by
  rintro ⟨key, hin⟩
  rw [h.stage] at hin
  exact List.not_mem_nil hin

/-- What the thread owes besides the order of its operations. -/
theorem orderly (h : Owns T k l) {o : Op} (ho : o.Transfers l) :
    o.Transfers l ∧ (l.Moving → o = .pebble .apply) := ⟨ho, fun hm => absurd hm h.not_moving⟩

theorem step (h : Owns T k l) {o : Op} {r : o.Reply} (ho : o.Idle)
    (hx : exec L s l o = some (s', l', r)) : Owns T k l' := by
  have hb := ho.batches
  have hne : ∀ o' : Op, ¬ o'.Idle → o ≠ o' := fun o' hno he => hno (he ▸ ho)
  refine ⟨(exec_batch hx hb).trans h.batch, (stage_same hx hb).trans h.stage,
    h.owned.trans (written_grows hx (hne _ id) fun _ _ _ => hne _ id), ?_⟩
  exact (look_same hx (fun _ => hne _ id) (fun _ _ => hne _ id) fun _ _ => hne _ id).trans h.look

end Owns

theorem Op.Idle.transfers {o : Op} (h : o.Idle) (l : Local) : o.Transfers l := by
  cases o with
  | pebble o =>
    cases o with
    | getMapping key site => exact absurd h id
    | _ => exact True.intro
  | segs o =>
    cases o with
    | putObjectLocked key md old v => exact absurd h id
    | ref i reader =>
      cases reader with
      | none => exact True.intro
      | some x => exact absurd h id
    | _ => exact True.intro
  | dev o =>
    cases o with
    | write seg off block => exact absurd h id
    | read seg off => exact True.intro
  | _ => exact True.intro

/-- One idle operation, and what follows it. -/
theorem owns_step {o : Op} {f : o.Reply → Proc β} {post : β → Local → Prop} (h : Owns T k l)
    (ho : o.Idle) (hf : ∀ s s' r l', Shown L s l → exec L s l o = some (s', l', r) →
      Owns T k l' → Keeps (transfers L strict) post (f r) l') :
    Keeps (transfers L strict) post (perform o >>= f) l :=
  keeps_step (h.orderly (ho.transfers l)) fun s s' r l' ha hx => hf s s' r l' ha.1 hx (h.step ho hx)

theorem keeps_idle {p : Proc α} (hu : Uses Op.Idle p) (h : Owns T k l) :
    Keeps (transfers L strict) (fun _ l' => Owns T k l') p l :=
  hu.keeps h fun _ l1 ho h1 => ⟨h1.orderly (ho.transfers l1), fun _ _ ⟨_, _, _, hx⟩ => h1.step ho hx⟩

theorem Op.IsAllocation.idle {o : Op} (h : o.IsAllocation) : o.Idle := by
  cases o with
  | segs o => cases o <;> first | exact True.intro | exact absurd h id
  | alloc o => exact True.intro
  | _ => exact absurd h id

/-! ## 4. Allocations -/

/-- What a thread owns after an allocation: it has written nothing of what it got. -/
def Got (got : β → Multiset Span) (T : Multiset (Span × Bytes)) (k : Option Held × List (Key × Option Bytes)) :
    Res β → Local → Prop
  | .error _, l => Owns T k l
  | .ok x, l => Owns ((got x).map (fun a => (a, [])) + T) k l

theorem owns_allocOneLocked (size : Int) (useReserve : Bool) (h : Owns T k l) :
    Keeps (transfers L strict) (Got (fun x => {spanOf size x}) T k) (allocOneLocked L size useReserve) l := by
  refine owns_step h True.intro fun _ _ a l1 _ _ h1 => ?_
  have hroll : Uses Op.Idle (if a.curOff + align4k size > L.segmentSizeBytes
      then rollSegment L a useReserve else (Pure.pure (.ok ()) : Proc (Res Unit))) :=
    .ite ((uses_rollSegment a useReserve).mono fun _ ho => ho.idle) True.intro
  refine (keeps_idle hroll h1).bind fun r l2 h2 => ?_
  cases r with
  | error e => exact h2
  | ok u =>
    refine owns_step h2 True.intro fun _ _ x l3 _ hx h3 => ?_
    refine ⟨h3.batch, h3.stage, ?_, h3.look⟩
    rw [written_take hx]
    exact Multiset.cons_le_cons _ h2.owned

theorem owns_allocate (size : Int) (useReserve : Bool) (h : Owns T k l) :
    Keeps (transfers L strict) (Got (fun x => {spanOf size x}) T k) (allocate L size useReserve) l := by
  refine owns_step h True.intro fun _ _ _ l1 _ _ h1 => owns_step h1 True.intro fun _ _ _ l2 _ _ h2 => ?_
  refine (owns_allocOneLocked size useReserve h2).bind fun r l3 h3 => ?_
  cases r with
  | error e => exact owns_step h3 True.intro fun _ _ _ l4 _ _ h4 => h4
  | ok x =>
    refine owns_step h3 True.intro fun _ _ a l4 _ _ h4 => owns_step h4 True.intro fun _ _ ok l5 _ _ h5 =>
      owns_step h5 True.intro fun _ _ _ l6 _ _ h6 => ?_
    cases ok with
    | true => exact h6
    | false => exact Owns.mono h6 (Multiset.le_add_left _ _)

theorem owns_allocBatchLoop (sizes : List Int) : ∀ {l : Local} {T : Multiset (Span × Bytes)}, Owns T k l →
    Keeps (transfers L strict) (Got (spansOf sizes) T k) (allocBatchLoop L sizes) l := by
  induction sizes with
  | nil =>
    intro l T h
    exact h.mono (by simp [spansOf])
  | cons size sizes ih =>
    intro l T h
    refine (owns_allocOneLocked size false h).bind fun r l1 h1 => ?_
    cases r with
    | error e => exact h1
    | ok x =>
      refine (ih h1).bind fun rs l2 h2 => ?_
      cases rs with
      | error e => exact Owns.mono h2 (Multiset.le_add_left _ _)
      | ok xs =>
        refine Owns.mono h2 (le_of_eq ?_)
        have hspans : spansOf (size :: sizes) (x :: xs) = spansOf sizes xs + {spanOf size x} := by
          rw [add_comm]
          rfl
        rw [hspans, Multiset.map_add, add_assoc]

theorem owns_allocateSegmentBatch (sizes : List Int) (h : Owns T k l) :
    Keeps (transfers L strict) (Got (spansOf sizes) T k) (allocateSegmentBatch L sizes) l := by
  refine owns_step h True.intro fun _ _ _ l1 _ _ h1 => owns_step h1 True.intro fun _ _ _ l2 _ _ h2 => ?_
  refine (owns_allocBatchLoop sizes h2).bind fun r l3 h3 => ?_
  cases r with
  | error e => exact owns_step h3 True.intro fun _ _ _ l4 _ _ h4 => h4
  | ok xs =>
    refine Keeps.ite (fun he => ?_) (fun _ => ?_)
    · exact owns_step h3 True.intro fun _ _ _ l4 _ _ h4 => h4
    · refine owns_step h3 True.intro fun _ _ a l4 _ _ h4 => owns_step h4 True.intro
        fun _ _ ok l5 _ _ h5 => owns_step h5 True.intro fun _ _ _ l6 _ _ h6 => ?_
      cases ok with
      | true => exact h6
      | false => exact Owns.mono h6 (Multiset.le_add_left _ _)

theorem owns_putBegin (size : Int) (h : Owns T k l) :
    Keeps (transfers L strict) (fun r l' => Got (fun x => {spanOf size x}) T k r l' ∧
      OkAll (fun _ => 0 ≤ size) r) (putBegin L size) l := by
  unfold putBegin
  split
  · exact ⟨h, True.intro⟩
  · rename_i hsize
    split
    · exact ⟨h, True.intro⟩
    · refine (owns_allocate size false h).mono fun r l' hr => ⟨hr, ?_⟩
      cases r with
      | error e => exact True.intro
      | ok x => exact Int.not_lt.mp hsize

theorem owns_pipelineBegin (items : List PutItem) : ∀ {l : Local} {T : Multiset (Span × Bytes)},
    Owns T k l → Keeps (transfers L strict) (fun r l' =>
      Got (fun xs => Multiset.ofList (xs.map (fun x => spanOf x.1.size x.2))) T k r l' ∧
        OkAll (fun xs => ∀ x ∈ xs, 0 ≤ x.1.size) r) (pipelineBegin L items) l := by
  induction items with
  | nil => exact fun h => ⟨h.mono (by simp), fun _ hx => absurd hx List.not_mem_nil⟩
  | cons it items ih =>
    intro l T h
    refine (owns_putBegin it.size h).bind fun r l1 h1 => ?_
    obtain ⟨hgot, hsize⟩ := h1
    cases r with
    | error e => exact ⟨hgot, True.intro⟩
    | ok x =>
      refine (ih hgot).bind fun rs l2 h2 => ?_
      obtain ⟨hgot2, hsizes⟩ := h2
      cases rs with
      | error e => exact ⟨Owns.mono hgot2 (Multiset.le_add_left _ _), True.intro⟩
      | ok xs =>
        refine ⟨Owns.mono hgot2 (le_of_eq ?_), List.forall_mem_cons.mpr ⟨hsize, hsizes⟩⟩
        have hspans : Multiset.ofList (((it, x) :: xs).map (fun x => spanOf x.1.size x.2))
            = Multiset.ofList (xs.map (fun x => spanOf x.1.size x.2)) + {spanOf it.size x} := by
          rw [add_comm]
          rfl
        dsimp only
        rw [hspans, Multiset.map_add, add_assoc]

/-! ## 5. Device writes -/

/-- What `writeBlocks` writes: the data, each block filled up with zeros. -/
def padBlocks : Nat → Bytes → Bytes
  | 0, _ => []
  | n + 1, data => padBlock (data.take blockSize.toNat) ++ padBlocks n (data.drop blockSize.toNat)

theorem padBlock_take_length (data : Bytes) :
    ((padBlock (data.take blockSize.toNat)).length : Int) = blockSize := by
  refine padBlock_length ?_
  rw [List.length_take]
  unfold blockSize
  omega

theorem prefix_padBlocks (n : Nat) : ∀ data : Bytes, data.length ≤ n * blockSize.toNat →
    data <+: padBlocks n data := by
  induction n with
  | zero =>
    intro data h
    rw [List.length_eq_zero_iff.mp (by omega : data.length = 0)]
    exact List.nil_prefix
  | succ n ih =>
    intro data h
    have hmul : (n + 1) * blockSize.toNat = n * blockSize.toNat + blockSize.toNat := Nat.succ_mul _ _
    by_cases hshort : data.length ≤ blockSize.toNat
    · rw [padBlocks, List.take_of_length_le hshort, padBlock, List.append_assoc]
      exact List.prefix_append _ _
    · have hfull : (data.take blockSize.toNat).length = blockSize.toNat := by
        rw [List.length_take]
        omega
      have hrest := ih (data.drop blockSize.toNat) (by rw [List.length_drop]; omega)
      have hblock : padBlock (data.take blockSize.toNat) = data.take blockSize.toNat := by
        rw [padBlock, hfull, Nat.sub_self, List.replicate_zero, List.append_nil]
      rw [padBlocks, hblock]
      calc data = data.take blockSize.toNat ++ data.drop blockSize.toNat :=
            (List.take_append_drop _ _).symm
        _ <+: data.take blockSize.toNat ++ padBlocks n (data.drop blockSize.toNat) :=
            (List.prefix_append_right_inj _).mpr hrest

/-- What the thread has of an extent grows by what is written behind it. -/
theorem owns_writeBlocks (n : Nat) : ∀ {l : Local} {a : Span} {w : Bytes} (off : Int) (data : Bytes),
    Owns ((a, w) ::ₘ T) k l → a.start + w.length = off → w.length + n * blockSize ≤ a.len →
      Keeps (transfers L strict) (fun ok l' =>
        Owns (if ok then (a, w ++ padBlocks n data) ::ₘ T else T) k l')
        (writeBlocks a.region n off data) l := by
  induction n with
  | zero =>
    intro l a w off data h _ _
    show Owns ((a, w ++ []) ::ₘ T) k l
    rwa [List.append_nil]
  | succ n ih =>
    intro l a w off data h hoff hlen
    have hpos : (0 : Int) < blockSize := by decide
    have hblock := padBlock_take_length data
    have hmul : ((n + 1 : Nat) : Int) * blockSize = n * blockSize + blockSize := by
      rw [Int.natCast_succ, Int.add_mul, Int.one_mul]
    have hn : 0 ≤ (n : Int) * blockSize := Int.mul_nonneg (Int.natCast_nonneg n) (Int.le_of_lt hpos)
    have hmem : (a, w) ∈ l.written := Multiset.mem_of_le h.owned (Multiset.mem_cons_self _ _)
    refine keeps_step (h.orderly ⟨hblock, a, w, hmem, rfl, hoff, by omega⟩)
      fun s s' ok l1 ha hx => ?_
    have hb : l1.batch = [] := (exec_batch hx rfl).trans h.batch
    have hs : l1.hist.stage = [] := (stage_same hx rfl).trans h.stage
    have hk : l1.look = k := (look_same hx (by simp) (by simp) (by simp)).trans h.look
    have hw := written_write hx
    cases ok with
    | false => exact ⟨hb, hs, hw ▸ (Multiset.le_cons_self _ _).trans h.owned, hk⟩
    | true =>
      have hapart : Span.Apart (l.written.map Prod.fst) := by
        rw [written_spans]
        exact ha.1.apart
      have hgrown : (a, w ++ padBlock (data.take blockSize.toNat)) ::ₘ T ≤ _ :=
        owned_grown h.owned hapart rfl hoff (by omega)
      have h1 : Owns ((a, w ++ padBlock (data.take blockSize.toNat)) ::ₘ T) k l1 :=
        ⟨hb, hs, hw ▸ hgrown, hk⟩
      have hnext := ih (off + blockSize) (data.drop blockSize.toNat) h1
        (by rw [List.length_append]; omega) (by rw [List.length_append]; omega)
      rw [List.append_assoc] at hnext
      exact hnext

/-- The extent of a job, before it is written and after. -/
def WriteJob.extent (j : WriteJob) : Span := ⟨j.seg, j.off, align4k j.size⟩

def WriteJob.blank (j : WriteJob) : Span × Bytes := (j.extent, [])

def WriteJob.done (j : WriteJob) : Span × Bytes :=
  (j.extent, padBlocks (blocksOf j.size) (j.data.take j.size.toNat))

theorem owns_writeJob (j : WriteJob) (h : Owns (j.blank ::ₘ T) k l) :
    Keeps (transfers L strict) (fun ok l' => Owns (if ok then j.done ::ₘ T else T) k l')
      (writeBlocks j.seg (blocksOf j.size) j.off (j.data.take j.size.toNat)) l := by
  refine owns_writeBlocks (a := j.extent) (w := []) _ _ _ h ?_ ?_
  · show j.off + ((0 : Nat) : Int) = j.off
    omega
  · rw [blocksOf_mul]
    show ((0 : Nat) : Int) + align4k j.size ≤ align4k j.size
    omega

theorem owns_devAppend (j : WriteJob) (h : Owns (j.blank ::ₘ T) k l) :
    Keeps (transfers L strict) (fun r l' => Owns (if r.isOk then j.done ::ₘ T else T) k l' ∧
      OkAll (fun _ => j.size ≤ j.data.length) r) (devAppend L j.seg j.off j.size j.data) l := by
  unfold devAppend
  split
  · exact ⟨h.mono (Multiset.le_cons_self _ _), True.intro⟩
  · rename_i hcheck
    have hdata : j.size ≤ j.data.length := by
      unfold appendCheck at hcheck
      split at hcheck
      · cases hcheck
      · split at hcheck
        · cases hcheck
        · split at hcheck
          · cases hcheck
          · omega
    refine (owns_writeJob j h).bind fun ok l1 h1 => ?_
    cases ok with
    | true => exact ⟨h1, hdata⟩
    | false => exact ⟨h1, True.intro⟩

/-- Every job is written, and if all have succeeded the thread has what each wrote. -/
theorem owns_writeJobs (js : List WriteJob) : ∀ {l : Local} {T : Multiset (Span × Bytes)},
    Owns (Multiset.ofList (js.map WriteJob.blank) + T) k l →
      Keeps (transfers L strict) (fun ok l' =>
        Owns (if ok then Multiset.ofList (js.map WriteJob.done) + T else T) k l') (writeJobs js) l := by
  induction js with
  | nil => exact fun h => h
  | cons j js ih =>
    intro l T h
    have hcons : ∀ f : WriteJob → Span × Bytes, Multiset.ofList ((j :: js).map f) + T
        = f j ::ₘ (Multiset.ofList (js.map f) + T) := by
      intro f
      rw [List.map_cons, ← Multiset.cons_coe, Multiset.cons_add]
    rw [hcons] at h
    refine (owns_writeJob j h).bind fun ok l1 h1 => ?_
    cases ok with
    | true =>
      have hswap : j.done ::ₘ (Multiset.ofList (js.map WriteJob.blank) + T)
          = Multiset.ofList (js.map WriteJob.blank) + (j.done ::ₘ T) := (Multiset.add_cons _ _ _).symm
      rw [if_pos rfl, hswap] at h1
      refine (ih h1).bind fun oks l2 h2 => ?_
      cases oks with
      | true =>
        rw [if_pos rfl, Multiset.add_cons] at h2
        show Owns (Multiset.ofList ((j :: js).map WriteJob.done) + T) k l2
        rwa [hcons]
      | false => exact Owns.mono h2 (Multiset.le_cons_self _ _)
    | false =>
      refine (ih h1).bind fun oks l2 h2 => ?_
      cases oks with
      | true => exact Owns.mono h2 (Multiset.le_add_left _ _)
      | false => exact h2

theorem owns_devAppendBatch (js : List WriteJob)
    (h : Owns (Multiset.ofList (js.map WriteJob.blank) + T) k l) :
    Keeps (transfers L strict) (fun r l' =>
      Owns (if r.isOk then Multiset.ofList (js.map WriteJob.done) + T else T) k l' ∧
        OkAll (fun _ => ∀ j ∈ js, j.size ≤ j.data.length) r) (devAppendBatch L js) l := by
  unfold devAppendBatch
  split
  · exact ⟨h.mono (Multiset.le_add_left _ _), True.intro⟩
  · rename_i hcheck
    have hdata : ∀ j ∈ js, j.size ≤ j.data.length := by
      intro j hj
      have hc := List.findSome?_eq_none_iff.mp hcheck j hj
      unfold appendBatchCheck at hc
      split at hc
      · cases hc
      · split at hc
        · cases hc
        · omega
    refine (owns_writeJobs js h).bind fun ok l1 h1 => ?_
    cases ok with
    | true => exact ⟨h1, hdata⟩
    | false => exact ⟨h1, True.intro⟩

/-- A job that has been written carries the object it is for. -/
theorem carried_done {j : WriteJob} (hj : j.done ∈ T) (h0 : 0 ≤ j.size) (hdata : j.size ≤ j.data.length) :
    Carried T ⟨j.seg, j.off, j.size⟩ (putValue j.size j.data) := by
  have hlen : ((putValue j.size j.data).length : Int) = j.size := by
    rw [putValue, List.length_take]
    omega
  refine ⟨hlen, _, hj, prefix_padBlocks _ _ ?_⟩
  have hle := le_align4k j.size
  have hmul := blocksOf_mul j.size
  have hb : (blockSize.toNat : Int) = blockSize := rfl
  have hcast : ((blocksOf j.size * blockSize.toNat : Nat) : Int) = align4k j.size := by
    rw [Nat.cast_mul, hb, hmul]
  show (putValue j.size j.data).length ≤ blocksOf j.size * blockSize.toNat
  omega

/-- An object of no bytes needs none. -/
theorem carried_empty {md : ObjectMeta} {w : Bytes} (h : (md.span, w) ∈ T) (hsize : md.size = 0)
    (data : Bytes) : Carried T md (putValue md.size data) := by
  rw [hsize]
  exact ⟨hsize.symm, w, h, List.nil_prefix⟩

/-! ## 6. Commits -/

/-- Operations of which the contract asks nothing. -/
def Op.Undemanding : Op → Prop
  | .cache _ => True
  | .pebble (.getMapping _ (.revalidate _)) => False
  | .pebble _ => True
  | .segs (.putObjectLocked _ _ _ _) => False
  | .segs (.ref _ (some _)) => False
  | .segs _ => True
  | .alloc _ => True
  | .dev (.write _ _ _) => False
  | .dev _ => True

theorem Op.Undemanding.transfers {o : Op} (h : o.Undemanding) (l : Local) : o.Transfers l := by
  cases o with
  | pebble o =>
    cases o with
    | getMapping key site => cases site <;> first | exact True.intro | exact absurd h id
    | _ => exact True.intro
  | segs o =>
    cases o with
    | putObjectLocked key md old v => exact absurd h id
    | ref i reader =>
      cases reader with
      | none => exact True.intro
      | some x => exact absurd h id
    | _ => exact True.intro
  | dev o =>
    cases o with
    | write seg off block => exact absurd h id
    | read seg off => exact True.intro
  | _ => exact True.intro

theorem not_moving_step {o : Op} {r : o.Reply} (h : ¬ l.Moving) (hx : exec L s l o = some (s', l', r))
    (ho : ∀ key md old, o ≠ .segs (.putObjectLocked key md old none)) : ¬ l'.Moving := by
  rintro ⟨key', hin⟩
  by_cases hb : o.Batches = false
  · rw [stage_same hx hb] at hin
    exact h ⟨key', hin⟩
  cases o with
  | pebble o =>
    cases o with
    | apply =>
      rw [exec_hist hx] at hin
      cases r <;> exact absurd hin List.not_mem_nil
    | _ => exact absurd rfl hb
  | segs o =>
    cases o with
    | putObjectLocked key md old v =>
      cases v with
      | none => exact absurd rfl (ho key md old)
      | some v =>
        rw [exec_hist hx] at hin
        rcases List.mem_append.mp hin with hin | hin
        · exact h ⟨key', hin⟩
        · simp at hin
    | delObjectLocked key md =>
      rw [exec_hist hx] at hin
      rcases List.mem_append.mp hin with hin | hin
      · exact h ⟨key', hin⟩
      · simp at hin
    | _ => exact absurd rfl hb
  | _ => exact absurd rfl hb

/-- While it commits a put: the thread moves nothing, and has at least `T` of its extents. -/
structure Ready (T : Multiset (Span × Bytes)) (l : Local) : Prop where
  calm : ¬ l.Moving
  owned : T ≤ l.written

theorem Owns.ready (h : Owns T k l) : Ready T l := ⟨h.not_moving, h.owned⟩

theorem Ready.orderly (h : Ready T l) {o : Op} (ho : o.Transfers l) :
    o.Transfers l ∧ (l.Moving → o = .pebble .apply) := ⟨ho, fun hm => absurd hm h.calm⟩

theorem Ready.step (h : Ready T l) {o : Op} {r : o.Reply} (ho : o.Undemanding)
    (ha : o ≠ .pebble .apply) (hx : exec L s l o = some (s', l', r)) : Ready T l' where
  calm := not_moving_step h.calm hx fun _ _ _ he => by
    subst he
    exact ho
  owned := h.owned.trans <| written_grows hx ha fun _ _ _ he => by
    subst he
    exact ho

theorem keeps_ready {p : Proc α} (hu : Uses (fun o : Op => o.Undemanding ∧ o ≠ .pebble .apply) p)
    (h : Ready T l) : Keeps (transfers L strict) (fun _ l' => Ready T l') p l :=
  hu.keeps h fun _ l1 ho h1 =>
    ⟨h1.orderly (ho.1.transfers l1), fun _ _ ⟨_, _, _, hx⟩ => h1.step ho.1 ho.2 hx⟩

/-- Operations of which nothing is asked, to the end. -/
theorem keeps_undemanding {p : Proc α} (hu : Uses Op.Undemanding p) (h : ¬ l.Moving) :
    Keeps (transfers L strict) (fun _ l' => ¬ l'.Moving) p l :=
  hu.keeps h fun _ l1 ho h1 => ⟨⟨ho.transfers l1, fun hm => absurd hm h1⟩, fun _ _ ⟨_, _, _, hx⟩ =>
    not_moving_step h1 hx fun _ _ _ he => by
      subst he
      exact ho⟩

/-- One operation of which nothing is asked, and what follows it. -/
theorem ready_step {o : Op} {f : o.Reply → Proc β} {post : β → Local → Prop} (h : Ready T l)
    (ho : o.Undemanding) (ha : o ≠ .pebble .apply)
    (hf : ∀ r l', Ready T l' → Keeps (transfers L strict) post (f r) l') :
    Keeps (transfers L strict) post (perform o >>= f) l :=
  keeps_step (h.orderly (ho.transfers l)) fun _ _ r l' _ hx => hf r l' (h.step ho ha hx)

/-- A put is added to the batch. -/
theorem ready_put {key : Key} {md : ObjectMeta} {old : Option ObjectMeta} {v : Bytes}
    {f : Unit → Proc β} {post : β → Local → Prop} (h : Ready T l) (hv : Carried T md v)
    (hf : ∀ l', Ready T l' → Keeps (transfers L strict) post (f ()) l') :
    Keeps (transfers L strict) post (putObjectLocked key md old (some v) >>= f) l := by
  refine keeps_step (h.orderly (hv.mono h.owned)) fun _ _ _ l1 _ hx => hf l1 ⟨?_, ?_⟩
  · exact not_moving_step h.calm hx (by simp)
  · exact h.owned.trans (written_grows hx (by simp) (by simp))

/-- A batch is applied, and what follows asks nothing. -/
theorem ready_apply {f : Bool → Proc β} (h : Ready T l) (hf : ∀ ok, Uses Op.Undemanding (f ok)) :
    Keeps (transfers L strict) (fun _ l' => ¬ l'.Moving) (apply >>= f) l :=
  keeps_undemanding ⟨True.intro, hf⟩ h.calm

theorem ready_putMapping (key : Key) {md : ObjectMeta} {v : Bytes} (h : Ready T l) (hv : Carried T md v) :
    Keeps (transfers L strict) (fun _ l' => ¬ l'.Moving) (putMapping key md (some v)) l := by
  refine Keeps.bind (m := fun _ l1 => Ready T l1) (keeps_ready ?_ h) fun old l1 h1 => ?_
  · refine .step ⟨True.intro, by simp⟩ fun r => ?_
    cases r with
    | some om => exact True.intro
    | none => exact ⟨⟨True.intro, by simp⟩, fun _ => True.intro⟩
  · refine ready_step h1 True.intro (by simp) fun _ l2 h2 => ready_put h2 hv fun l3 h3 =>
      ready_step h3 True.intro (by simp) fun _ l4 h4 => ready_apply h4 fun ok => ?_
    cases ok with
    | true => exact ⟨True.intro, fun _ => True.intro⟩
    | false => exact True.intro

/-- Each item of a batch is carried. -/
def CarriedAll (T : Multiset (Span × Bytes)) (items : List PutMappingItem) : Prop :=
  ∀ it ∈ items, ∃ v, it.value = some v ∧ Carried T it.md v

theorem ready_batchPutLocked (items : List PutMappingItem) : ∀ {l : Local}, Ready T l →
    CarriedAll T items → Keeps (transfers L strict) (fun _ l' => Ready T l') (batchPutLocked items) l := by
  induction items with
  | nil => exact fun h _ => h
  | cons it items ih =>
    intro l h hall
    obtain ⟨⟨v, hv, hcarried⟩, hitems⟩ := List.forall_mem_cons.mp hall
    unfold batchPutLocked
    rw [hv]
    exact ready_step h True.intro (by simp) fun old l1 h1 => ready_put h1 hcarried fun l2 h2 => ih h2 hitems

theorem undemanding_cachePutAll (xs : List (Key × ObjectMeta)) : Uses Op.Undemanding (cachePutAll xs) := by
  induction xs with
  | nil => exact True.intro
  | cons x xs ih => exact ⟨True.intro, fun _ => ih⟩

theorem ready_batchPutMapping (items : List PutMappingItem) (h : Ready T l) (hall : CarriedAll T items) :
    Keeps (transfers L strict) (fun _ l' => ¬ l'.Moving) (batchPutMapping items) l := by
  refine Keeps.ite (fun _ => h.calm) (fun _ => ?_)
  refine ready_step h True.intro (by simp) fun _ l1 h1 => ?_
  refine (ready_batchPutLocked items h1 hall).bind fun _ l2 h2 => ?_
  refine ready_step h2 True.intro (by simp) fun _ l3 h3 => ready_apply h3 fun ok => ?_
  cases ok with
  | true => exact (undemanding_cachePutAll _).bind fun _ => True.intro
  | false => exact True.intro

/-! ## 7. Puts -/

theorem owns_put (key : Key) (size : Int) (data : Bytes) (h : Owns T k l) :
    Keeps (transfers L strict) (fun _ l' => ¬ l'.Moving) (put L key size data) l := by
  refine (owns_putBegin size h).bind fun r l1 h1 => ?_
  obtain ⟨hgot, hsize⟩ := h1
  cases r with
  | error e => exact Owns.not_moving hgot
  | ok x =>
    obtain ⟨j, hj⟩ : ∃ j : WriteJob, j = ⟨x.1, x.2, data, size⟩ := ⟨_, rfl⟩
    have hblank : Owns (j.blank ::ₘ T) k l1 := by
      subst hj
      exact hgot
    -- an object of no bytes is not written
    refine Keeps.bind (m := fun r l2 =>
      (∀ u, r = .ok u → ∃ T', Owns T' k l2 ∧ Carried T' ⟨x.1, x.2, size⟩ (putValue size data)) ∧
      ∀ e, r = .error e → ¬ l2.Moving) ?_ fun r l2 h2 => ?_
    · refine Keeps.ite (fun hpos => ?_) (fun hzero => ?_)
      · unfold putAppend
        refine Keeps.ite (fun _ => ⟨fun _ hu => (by cases hu), fun _ _ => hblank.not_moving⟩) (fun _ => ?_)
        subst hj
        refine (owns_devAppend _ hblank).mono fun r l2 h2 => ?_
        obtain ⟨hown, hdata⟩ := h2
        cases r with
        | error e => exact ⟨fun _ hu => (by cases hu), fun _ _ => hown.not_moving⟩
        | ok u =>
          exact ⟨fun _ _ => ⟨_, hown, carried_done (Multiset.mem_cons_self _ _) hsize hdata⟩,
            fun e he => by cases he⟩
      · have hzero : (ObjectMeta.mk x.1 x.2 size).size = 0 := Int.le_antisymm (Int.not_lt.mp hzero) hsize
        have hmem : (ObjectMeta.span ⟨x.1, x.2, size⟩, ([] : Bytes)) ∈
            ({spanOf size x} : Multiset Span).map (fun a => (a, [])) + T :=
          Multiset.mem_add.mpr (Or.inl (Multiset.mem_singleton_self _))
        exact ⟨fun _ _ => ⟨_, hgot, carried_empty hmem hzero data⟩, fun e he => by cases he⟩
    · cases r with
      | error e => exact h2.2 e rfl
      | ok u =>
        obtain ⟨T', hown, hcarried⟩ := h2.1 u rfl
        exact ready_putMapping key hown.ready hcarried

/-- The extents of a batch of puts, before anything is written. -/
def blanks (xs : List (PutItem × (Int × Int))) : Multiset (Span × Bytes) :=
  Multiset.ofList (xs.map (fun x => (spanOf x.1.size x.2, [])))

/-- The items with bytes are jobs; the others stay blank. -/
theorem blanks_split (xs : List (PutItem × (Int × Int))) : blanks xs =
    Multiset.ofList ((writeJobsOf xs).map WriteJob.blank)
      + blanks (xs.filter (fun x => x.1.size = 0)) := by
  induction xs with
  | nil => rfl
  | cons x xs ih =>
    have hcons : blanks (x :: xs) = (spanOf x.1.size x.2, []) ::ₘ blanks xs := rfl
    by_cases hx : x.1.size = 0
    · have hjobs : writeJobsOf (x :: xs) = writeJobsOf xs := by simp [writeJobsOf, hx]
      rw [hcons, ih, hjobs, List.filter_cons_of_pos (by simp [hx]), ← Multiset.add_cons]
      rfl
    · have hjobs : writeJobsOf (x :: xs) = ⟨x.2.1, x.2.2, x.1.data, x.1.size⟩ :: writeJobsOf xs := by
        simp [writeJobsOf, hx]
      rw [hcons, ih, hjobs, List.filter_cons_of_neg (by simp [hx]), List.map_cons, ← Multiset.cons_coe,
        Multiset.cons_add]
      rfl

theorem owns_writeAndCommit (xs : List (PutItem × (Int × Int))) (h : Owns (blanks xs + T) k l)
    (hsize : ∀ x ∈ xs, 0 ≤ x.1.size) :
    Keeps (transfers L strict) (fun _ l' => ¬ l'.Moving) (writeAndCommit L xs) l := by
  rw [blanks_split, add_assoc] at h
  refine (owns_devAppendBatch _ h).bind fun r l1 h1 => ?_
  obtain ⟨hown, hdata⟩ := h1
  cases r with
  | error e => exact Owns.not_moving hown
  | ok u =>
    refine ready_batchPutMapping _ (Owns.ready hown) fun it hit => ?_
    obtain ⟨x, hx, rfl⟩ := List.mem_map.mp hit
    refine ⟨_, rfl, ?_⟩
    by_cases hz : x.1.size = 0
    · have hmem : (ObjectMeta.span ⟨x.2.1, x.2.2, x.1.size⟩, ([] : Bytes)) ∈
          blanks (xs.filter (fun x => x.1.size = 0)) :=
        Multiset.mem_coe.mpr (List.mem_map.mpr ⟨x, List.mem_filter.mpr ⟨hx, by simp [hz]⟩, rfl⟩)
      exact carried_empty (Multiset.mem_add.mpr (Or.inr (Multiset.mem_add.mpr (Or.inl hmem)))) hz x.1.data
    · have hj : (⟨x.2.1, x.2.2, x.1.data, x.1.size⟩ : WriteJob) ∈ writeJobsOf xs :=
        List.mem_map.mpr ⟨x, List.mem_filter.mpr ⟨hx, by simp [hz]⟩, rfl⟩
      refine carried_done (j := ⟨x.2.1, x.2.2, x.1.data, x.1.size⟩) ?_ (hsize x hx) (hdata _ hj)
      exact Multiset.mem_add.mpr (Or.inl (Multiset.mem_coe.mpr (List.mem_map_of_mem hj)))

theorem size_nonneg_of_checked {items : List PutItem}
    (h : items.findSome? (batchPutCheck L) = none) : ∀ it ∈ items, 0 ≤ it.size := by
  intro it hit
  have hc := List.findSome?_eq_none_iff.mp h it hit
  unfold batchPutCheck at hc
  split at hc
  · cases hc
  · rename_i hlt
    exact Int.not_lt.mp hlt

theorem owns_batchPut (items : List PutItem) (h : Owns T k l) :
    Keeps (transfers L strict) (fun _ l' => ¬ l'.Moving) (batchPut L items) l := by
  refine Keeps.ite (fun _ => h.not_moving) (fun _ => ?_)
  split
  · exact h.not_moving
  · rename_i hchecked
    refine (owns_allocateSegmentBatch _ h).bind fun r l1 h1 => ?_
    cases r with
    | error e => exact Owns.not_moving h1
    | ok exts =>
      refine owns_writeAndCommit (T := T) _ (Owns.mono h1 (le_of_eq ?_)) fun x hx => ?_
      · rw [blanks, spansOf, List.zip_map_left, List.map_map, Multiset.map_coe, List.map_map]
        rfl
      · exact size_nonneg_of_checked hchecked _ (List.of_mem_zip hx).1

theorem owns_pipelinePut (items : List PutItem) (h : Owns T k l) :
    Keeps (transfers L strict) (fun _ l' => ¬ l'.Moving) (pipelinePut L items) l := by
  refine (owns_pipelineBegin items h).bind fun r l1 h1 => ?_
  obtain ⟨hgot, hsize⟩ := h1
  cases r with
  | error e => exact Owns.not_moving hgot
  | ok xs =>
    refine owns_writeAndCommit (T := T) _ (Owns.mono hgot (le_of_eq ?_)) hsize
    dsimp only
    rw [blanks, Multiset.map_coe, List.map_map]
    rfl

end Taihu
