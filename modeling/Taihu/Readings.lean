/-
# What a read returns

A read looks a key up, takes a reference, and reads the blocks around its window.  If its reference
is EFFECTIVE, that is, if the mapping it has was in force when it had the reference, then the object
stays where it is until the reference is given back, and what the read returns is the window of the
value that was committed for the key at that moment: `served`.

`GetMappingRef` makes sure of that by looking the key up again, but not in its last round; the
asynchronous paths do not look again.  `transfers … true` is the contract where such references
are effective as well.

`moveObject` uses what it has read without having checked that it read the object it moves; the
comparison in `MoveMapping` checks that (`reads_moveObject`).
-/
import Taihu.Transfers

namespace Taihu

open Concur
open Program hiding pure

variable {L : Layout} {s s' : Sys} {l l' : Local} {α β : Type}
variable {T : Multiset (Span × Bytes)} {k : Option Held × List (Key × Option Bytes)} {strict : Bool}

/-! ## 1. Windows of a value -/

/-- What a read of at least one byte returns of the value `v`: the window, and whether it came with
`io.EOF`. -/
def served (v : Bytes) (off size : Int) : Bytes × Bool :=
  let data := (v.drop off.toNat).take size.toNat
  (data, decide ((data.length : Int) < size))

/-- The bytes agree with those of `v` from position `i` on. -/
def Shares (v : Bytes) (i : Nat) (b : Bytes) : Prop :=
  ∀ j, j < b.length → i + j < v.length → b[j]? = v[i + j]?

theorem shares_nil (v : Bytes) (i : Nat) : Shares v i [] := fun _ hj => absurd hj (Nat.not_lt_zero _)

theorem Shares.append {v b c : Bytes} {i : Nat} (h : Shares v i b) (hc : Shares v (i + b.length) c) :
    Shares v i (b ++ c) := by
  intro j hj hv
  rw [List.length_append] at hj
  by_cases hb : j < b.length
  · rw [List.getElem?_append_left hb]
    exact h j hb hv
  · rw [List.getElem?_append_right (Nat.not_lt.mp hb), hc (j - b.length) (by omega) (by omega)]
    exact congrArg (v[·]?) (by omega)

/-- A block of the device inside an object that is shown there. -/
theorem shares_of_shows {d : Dev} {seg off : Int} {v : Bytes} (h : d.Shows L seg off v) (n i : Nat) :
    Shares v i (bytesFrom d.bytes n (devPos L seg (off + i))) := by
  intro j hj hv
  rw [length_bytesFrom] at hj
  rw [getElem?_bytesFrom _ _ _ _ hj, Dev.shows_iff.mp h _ hv, ← devPos_add]
  refine congrArg (fun p => some (d.bytes (devPos L seg p))) ?_
  rw [Nat.cast_add]
  omega

/-- The part of the data that is asked for. -/
theorem Shares.window {v data : Bytes} {i skip want : Nat} (h : Shares v i data)
    (hdata : skip + want ≤ data.length) (hv : i + skip + want ≤ v.length) :
    (data.drop skip).take want = (v.drop (i + skip)).take want := by
  refine List.ext_getElem? fun j => ?_
  by_cases hj : j < want
  · rw [List.getElem?_take_of_lt hj, List.getElem?_take_of_lt hj, List.getElem?_drop,
      List.getElem?_drop, h (skip + j) (by omega) (by omega), Nat.add_assoc]
  · rw [List.getElem?_eq_none (by rw [List.length_take]; omega),
      List.getElem?_eq_none (by rw [List.length_take]; omega)]

/-- A window that is cut by nothing but the end of the value. -/
theorem take_window {v : Bytes} {off want size : Int} (hoff : 0 ≤ off) (hwant : 0 < want)
    (hcut : want = size ∨ off + want = v.length) (hle : want ≤ size) :
    (v.drop off.toNat).take want.toNat = (v.drop off.toNat).take size.toNat := by
  rcases hcut with rfl | hcut
  · rfl
  · rw [List.take_of_length_le (by rw [List.length_drop]; omega),
      List.take_of_length_le (by rw [List.length_drop]; omega)]

/-! ## 2. Device reads -/

/-- The data agrees, from `off` on, with every object the thread holds in the segment. -/
def Local.Finds (l : Local) (seg off : Int) (data : Bytes) : Prop :=
  ∀ x ∈ l.hist.held, x.md.segmentID = seg → ∀ v (i : Nat), x.value = some v → off = x.md.offset + i →
    Shares v i data

/-- A read leaves nothing in the history. -/
theorem devRead_local {seg off : Int} {r : Option Bytes}
    (h : exec L s l (.dev (.read seg off)) = some (s', l', r)) : l' = l := by
  cases h
  rfl

theorem finds_block {seg off : Int} {b : Bytes} (hs : Shown L s l)
    (hb : b = bytesFrom s.dev.bytes blockSize.toNat (devPos L seg off)) : l.Finds seg off b := by
  rintro x hx rfl v i hv rfl
  subst hb
  exact shares_of_shows (hs.held x hx v hv) _ _

theorem reads_readBlocks (seg : Int) (n : Nat) : ∀ {l : Local} (off : Int), Owns T k l →
    Keeps (transfers L strict) (fun r l' => l' = l ∧ ∀ bs, r = some bs →
      (bs.length : Int) = n * blockSize ∧ l.Finds seg off bs) (readBlocks seg n off) l := by
  induction n with
  | zero =>
    intro l off h
    refine ⟨rfl, fun bs hbs => ?_⟩
    cases hbs
    exact ⟨by simp, fun _ _ _ v i _ _ => shares_nil v i⟩
  | succ n ih =>
    intro l off h
    refine owns_step h True.intro fun s s' r l1 hs hx h1 => ?_
    obtain rfl := devRead_local hx
    cases r with
    | none => exact ⟨rfl, fun bs hbs => absurd hbs (by simp)⟩
    | some b =>
      have hb := exec_devRead hx rfl
      have hlen : (b.length : Int) = blockSize := by
        rw [hb, length_bytesFrom]
        rfl
      refine (ih (off + blockSize) h1).bind fun r l2 h2 => ?_
      obtain ⟨rfl, hrest⟩ := h2
      cases r with
      | none => exact ⟨rfl, fun bs hbs => absurd hbs (by simp)⟩
      | some bs =>
        refine ⟨rfl, fun bs' hbs' => ?_⟩
        cases hbs'
        obtain ⟨hbslen, hfinds⟩ := hrest bs rfl
        constructor
        · rw [List.length_append, Nat.cast_add, hlen, hbslen, Int.natCast_succ, Int.add_mul, Int.one_mul]
          omega
        · intro x hin hseg v i hv hoff
          refine (finds_block hs hb x hin hseg v i hv hoff).append ?_
          exact hfinds x hin hseg v (i + b.length) hv (by omega)

theorem reads_devReadAt (seg off size : Int) (h : Owns T k l) :
    Keeps (transfers L strict) (fun r l' => l' = l ∧
      OkAll (fun data => (data.length : Int) = size ∧ l.Finds seg off data) r) (devReadAt seg off size) l := by
  refine Keeps.ite (fun _ => ⟨rfl, True.intro⟩) (fun _ => ?_)
  refine Keeps.ite (fun _ => ⟨rfl, True.intro⟩) (fun hsize => ?_)
  refine (reads_readBlocks seg _ off h).bind fun r l1 h1 => ?_
  obtain ⟨rfl, hrest⟩ := h1
  cases r with
  | none => exact ⟨rfl, True.intro⟩
  | some data =>
    obtain ⟨hlen, hfinds⟩ := hrest data rfl
    refine ⟨rfl, ?_, hfinds⟩
    unfold blockSize at *
    omega

/-! ## 3. References -/

/-- The reference that a thread holds for the object `md` of `key` is effective. -/
structure Secured (L : Layout) (key : Key) (md : ObjectMeta) (x : Held) : Prop where
  isKey : x.key = key
  isMd : x.md = md
  value : ∃ v, x.value = some v ∧ (v.length : Int) = md.size
  fits : L.Fits (align4k md.size) (md.segmentID, md.offset)

/-- Lookups by which no reference becomes effective. -/
def Op.LooksUp : Op → Prop
  | .cache (.get _) => True
  | .pebble (.getMapping _ .lookup) => True
  | _ => False

theorem Owns.lookup (h : Owns T k l) {o : Op} {r : o.Reply} (ho : o.LooksUp)
    (hx : exec L s l o = some (s', l', r)) : Owns T (none, k.2) l' := by
  have hgrows : o.Batches = false → o ≠ .pebble .apply →
      (∀ seg off block, o ≠ .dev (.write seg off block)) → l'.look = (none, l.hist.snaps) →
        Owns T (none, k.2) l' := by
    intro hb ha hw hlook
    refine ⟨(exec_batch hx hb).trans h.batch, (stage_same hx hb).trans h.stage,
      h.owned.trans (written_grows hx ha hw), ?_⟩
    rw [hlook]
    exact congrArg (fun y => (none, Prod.snd y)) h.look
  have hhist := exec_hist hx
  cases o with
  | cache o =>
    cases o with
    | get key =>
      refine hgrows rfl (by simp) (by simp) ?_
      unfold Local.look
      rw [hhist]
      cases r <;> rfl
    | _ => exact absurd ho id
  | pebble o =>
    cases o with
    | getMapping key site =>
      cases site with
      | lookup =>
        refine hgrows rfl (by simp) (by simp) ?_
        unfold Local.look
        rw [hhist]
        cases r <;> rfl
      | _ => exact absurd ho id
    | _ => exact absurd ho id
  | _ => exact absurd ho id

/-- One lookup, and what follows it. -/
theorem owns_lookup {o : Op} {f : o.Reply → Proc β} {post : β → Local → Prop} (h : Owns T k l)
    (ho : o.LooksUp) (hf : ∀ r l', Owns T (none, k.2) l' → Keeps (transfers L strict) post (f r) l') :
    Keeps (transfers L strict) post (perform o >>= f) l := by
  have hu : o.Undemanding := by
    cases o with
    | cache o => exact True.intro
    | pebble o =>
      cases o with
      | getMapping key site => cases site <;> first | exact True.intro | exact absurd ho id
      | _ => exact absurd ho id
    | _ => exact absurd ho id
  exact keeps_step (h.orderly (hu.transfers l)) fun _ _ r l' _ hx => hf r l' (h.lookup ho hx)

theorem reads_getMapping (key : Key) (h : Owns T k l) :
    Keeps (transfers L strict) (fun _ l' => Owns T (none, k.2) l') (getMapping key) l := by
  refine owns_lookup h True.intro fun r l1 h1 => ?_
  cases r with
  | some md => exact h1
  | none =>
    refine owns_lookup h1 True.intro fun r l2 h2 => ?_
    cases r with
    | none => exact h2
    | some md => exact owns_step h2 True.intro fun _ _ _ l3 _ _ h3 => h3

/-- A thread has taken a reference; in a strict run it is effective. -/
def Took (L : Layout) (T : Multiset (Span × Bytes)) (k : Option Held × List (Key × Option Bytes))
    (strict : Bool) (key : Key) (md : ObjectMeta) (l : Local) : Prop :=
  (∃ x ∈ l.hist.held, Secured L key md x ∧ Owns T (some x, (key, x.value) :: k.2) l) ∨
    (strict = false ∧ Owns T k l)

/-- The mapping is in force when the thread has its reference. -/
theorem took_hold {key : Key} {md : ObjectMeta} (hs : Shown L s l)
    (hmd : s.db.disk.mapping.find? key = some md) (hb : l'.batch = []) (hst : l'.hist.stage = [])
    (hw : T ≤ l'.written) {h : Hist} (hh : l'.hist = h.hold key md (s.value key))
    (hsnaps : h.snaps = k.2) : Took L T k strict key md l' := by
  obtain ⟨v, hv, hlen, hfit⟩ := hs.mapped key md hmd
  refine Or.inl ⟨⟨key, md, s.value key⟩, ?_, ⟨rfl, rfl, ⟨v, hv, hlen⟩, hfit⟩, hb, hst, hw, ?_⟩
  · rw [hh]
    exact List.mem_cons_self
  · unfold Local.look
    rw [hh, ← hsnaps]
    rfl

/-- A reference for an object, and what follows it. -/
theorem took_ref {key : Key} {md : ObjectMeta} {f : Unit → Proc β} {post : β → Local → Prop}
    (h : Owns T k l)
    (hf : ∀ l', Took L T k strict key md l' → l.hist.held ⊆ l'.hist.held →
      l.hist.snaps ⊆ l'.hist.snaps → Keeps (transfers L strict) post (f ()) l') :
    Keeps (transfers L strict) post (refSegment md.segmentID (some (key, md)) >>= f) l := by
  refine keeps_step (h.orderly rfl) fun s s' r l1 ha hx => ?_
  obtain ⟨hs, hcur⟩ := ha
  have hb : l1.batch = [] := (exec_batch hx rfl).trans h.batch
  have hst : l1.hist.stage = [] := (stage_same hx rfl).trans h.stage
  have hw : T ≤ l1.written := h.owned.trans (written_grows hx (by simp) (by simp))
  have hh := exec_hist hx
  simp only [Op.note, SegsOp.note] at hh
  by_cases hmd : s.db.disk.mapping.find? key = some md
  · rw [if_pos hmd] at hh
    refine hf l1 (took_hold hs hmd hb hst hw hh (congrArg Prod.snd h.look)) ?_ ?_
    · rw [hh]
      exact List.subset_cons_self _ _
    · rw [hh]
      exact List.subset_cons_self _ _
  · rw [if_neg hmd] at hh
    refine hf l1 (Or.inr ⟨?_, hb, hst, hw, ?_⟩) (by rw [hh]; exact List.Subset.refl _)
      (by rw [hh]; exact List.Subset.refl _)
    · cases strict with
      | false => rfl
      | true => exact absurd (hcur rfl) hmd
    · unfold Local.look
      rw [hh]
      exact h.look

/-- What `GetMappingRef` leaves. -/
def Referenced (L : Layout) (T : Multiset (Span × Bytes)) (strict : Bool) (key : Key) :
    Res ObjectMeta → Local → Prop
  | .error _, l => ∃ sn, Owns T (none, sn) l
  | .ok md, l => ∃ sn, Took L T (none, sn) strict key md l

theorem reads_getMappingRefLoop (key : Key) (n : Nat) : ∀ {l : Local} {sn : List (Key × Option Bytes)}
    (md : ObjectMeta), Owns T (none, sn) l →
      Keeps (transfers L strict) (Referenced L T strict key) (getMappingRefLoop key n md) l := by
  induction n with
  | zero => exact fun md h => took_ref h fun l1 h1 _ _ => ⟨_, h1⟩
  | succ n ih =>
    intro l sn md h
    refine owns_step h True.intro fun _ _ _ l1 _ hx1 h1 => ?_
    have hrefs : md.segmentID ∈ l1.hist.refs := by
      rw [exec_hist hx1]
      exact List.mem_cons_self
    refine keeps_step (h1.orderly hrefs) fun s s' r l2 ha hx => ?_
    have hb : l2.batch = [] := (exec_batch hx rfl).trans h1.batch
    have hst : l2.hist.stage = [] := (stage_same hx rfl).trans h1.stage
    have hw : T ≤ l2.written := h1.owned.trans (written_grows hx (by simp) (by simp))
    have hr : r = s.db.disk.mapping.find? key := by
      cases hx
      rfl
    have hh := exec_hist hx
    cases r with
    | none =>
      have hk : l2.look = (none, sn) := by
        unfold Local.look
        rw [hh]
        exact h1.look
      exact owns_step ⟨hb, hst, hw, hk⟩ True.intro fun _ _ _ l3 _ _ h3 => ⟨sn, h3⟩
    | some cur =>
      simp only [Op.note, PebbleOp.note] at hh
      refine Keeps.ite (fun he => ?_) (fun hne => ?_)
      · subst he
        rw [if_pos rfl] at hh
        exact ⟨sn, took_hold ha.1 hr.symm hb hst hw hh (congrArg Prod.snd h1.look)⟩
      · rw [if_neg hne] at hh
        have hk : l2.look = (none, sn) := by
          unfold Local.look
          rw [hh]
          exact h1.look
        exact owns_step ⟨hb, hst, hw, hk⟩ True.intro fun _ _ _ l3 _ _ h3 => ih cur h3

theorem reads_getMappingRef (key : Key) (h : Owns T k l) :
    Keeps (transfers L strict) (Referenced L T strict key) (getMappingRef key) l := by
  refine (reads_getMapping key h).bind fun r l1 h1 => ?_
  cases r with
  | error e => exact ⟨_, h1⟩
  | ok md => exact reads_getMappingRefLoop key _ md h1

/-! ## 4. Windows -/

/-- **The window of an object that is held.**  The blocks of a window agree with the object, and the
window is what is asked for. -/
theorem window_served {key : Key} {md : ObjectMeta} {x : Held} (h : Secured L key md x) {off size : Int}
    {w : Window} (hw : readWindow md off size false = .ok w) (hsize : 0 < size) {data : Bytes}
    (hlen : (data.length : Int) = w.dlen) (hx : x ∈ l.hist.held)
    (hfinds : l.Finds md.segmentID (md.offset + off - w.skip) data) :
    ∃ v, x.value = some v ∧ w.want ≤ data.length ∧
      (data.drop w.skip.toNat).take w.want.toNat = (v.drop off.toNat).take size.toNat := by
  obtain ⟨v, hv, hvlen⟩ := h.value
  have hfit := readWindow_fits hw h.fits.nonneg hsize
  obtain ⟨h0, hwant, hle, hin, hcut, hrel, hskip, hlt, -, hstart, -, -, hcov⟩ := hfit
  have hal := h.fits.aligned
  have hpos : 0 ≤ off - w.skip := by
    rw [hrel] at hstart
    unfold blockSize at *
    dsimp only at hal
    omega
  have hshares : Shares v (off - w.skip).toNat data := by
    refine hfinds x hx (congrArg ObjectMeta.segmentID h.isMd) v _ hv ?_
    rw [h.isMd]
    omega
  refine ⟨v, hv, by omega, ?_⟩
  rw [hshares.window (by omega) (by omega), ← take_window h0 hwant (by omega) hle]
  refine congrArg (fun n => (v.drop n).take w.want.toNat) ?_
  omega

/-- An aligned window of an object that is held begins with the offset itself. -/
theorem aligned_window {key : Key} {md : ObjectMeta} {x : Held} (h : Secured L key md x) {off size : Int}
    {w : Window} (hw : readWindow md off size true = .ok w) (hsize : 0 < size) :
    readWindow md off size false = .ok w ∧ w.Fits md off size ∧ w.skip = 0 := by
  have hoff : off % blockSize = 0 := by
    unfold readWindow at hw
    split at hw
    · cases hw
    · rename_i hno
      by_contra hne
      exact hno (Or.inr (Or.inr ⟨rfl, hne⟩))
  rw [readWindow_aligned h.fits.aligned hoff] at hw
  have hfit := readWindow_fits hw h.fits.nonneg hsize
  refine ⟨hw, hfit, ?_⟩
  have hal := h.fits.aligned
  have hstart := hfit.start_aligned
  have hlt := hfit.skip_lt
  have h0 := hfit.skip_nonneg
  rw [hfit.relStart] at hstart
  unfold blockSize at *
  dsimp only at hal
  omega

theorem windowResult_served {key : Key} {md : ObjectMeta} {x : Held} (h : Secured L key md x)
    {off size : Int} {w : Window} (hw : readWindow md off size true = .ok w) (hsize : 0 < size)
    {data : Bytes} (hlen : (data.length : Int) = w.dlen) (hx : x ∈ l.hist.held)
    (hfinds : l.Finds md.segmentID w.relStart data) :
    ∃ v, x.value = some v ∧ windowResult w size data = served v off size := by
  obtain ⟨hw', hfit, hskip⟩ := aligned_window h hw hsize
  have hrel : w.relStart = md.offset + off - w.skip := by
    rw [hfit.relStart, hskip, Int.sub_zero]
  rw [hrel] at hfinds
  obtain ⟨v, hv, hle, hdata⟩ := window_served h hw' hsize hlen hx hfinds
  rw [hskip] at hdata
  have hpos := hfit.want_pos
  refine ⟨v, hv, ?_⟩
  have htake : data.take w.want.toNat = (v.drop off.toNat).take size.toNat := hdata
  unfold windowResult served
  rw [← htake]
  refine Prod.ext rfl (decide_eq_decide.mpr ?_)
  rw [List.length_take]
  omega

/-! ## 5. Reads -/

theorem reads_readAtMeta (md : ObjectMeta) (off size : Int) (h : Owns T k l) :
    Keeps (transfers L strict) (fun r l' => Owns T k l' ∧ OkAll (fun b => ∀ x ∈ l.hist.held, ∀ key,
      Secured L key md x → 0 < size → ∃ v, x.value = some v ∧ b = served v off size) r)
      (readAtMeta md off size) l := by
  unfold readAtMeta
  split
  · exact ⟨h, True.intro⟩
  · rename_i w hw
    refine owns_step h True.intro fun _ _ _ l1 _ hx1 h1 => ?_
    have hheld : l1.hist.held = l.hist.held := by
      rw [exec_hist hx1]
      rfl
    refine (reads_devReadAt _ _ _ h1).bind fun r l2 h2 => ?_
    obtain ⟨rfl, hdata⟩ := h2
    cases r with
    | error e => exact owns_step h1 True.intro fun _ _ _ l3 _ _ h3 => ⟨h3, True.intro⟩
    | ok data =>
      refine owns_step h1 True.intro fun _ _ _ l3 _ _ h3 => ⟨h3, fun x hx key hsec hsize => ?_⟩
      obtain ⟨v, hv, hle, heq⟩ := window_served hsec hw hsize hdata.1 (hheld ▸ hx) hdata.2
      refine ⟨v, hv, ?_⟩
      have hwant : (if (data.length : Int) < w.want then (data.length : Int) else w.want) = w.want :=
        if_neg (Int.not_lt.mpr hle)
      have hbytes : (if w.skip > 0 ∨ w.want < data.length
          then (data.drop w.skip.toNat).take w.want.toNat else data)
            = (v.drop off.toNat).take size.toNat := by
        rw [← heq]
        split
        · rfl
        · rename_i hno
          have hskip : w.skip.toNat = 0 := by omega
          have hall : data.length ≤ w.want.toNat := by omega
          rw [hskip, List.drop_zero, List.take_of_length_le hall]
      rw [hwant, hbytes]
      rfl

/-- What a read of a window of `key` has returned: in a strict run, a window of a value that it has
seen. -/
def Windowed (T : Multiset (Span × Bytes)) (strict : Bool) (key : Key) (off size : Int)
    (r : Res (Bytes × Bool)) (l : Local) : Prop :=
  ∃ k, Owns T k l ∧ OkAll (fun b => (strict = true → k.1.isSome = true) ∧
    ∀ x, k.1 = some x → (key, x.value) ∈ k.2 ∧ ∃ v, x.value = some v ∧ (v.length : Int) = x.md.size ∧
      (0 < size → b = served v off size)) r

theorem reads_readAt (key : Key) (off size : Int) (h : Owns T k l) :
    Keeps (transfers L strict) (Windowed T strict key off size) (readAt key off size) l := by
  refine (reads_getMappingRef key h).bind fun r l1 h1 => ?_
  cases r with
  | error e =>
    obtain ⟨sn, h1⟩ := h1
    exact ⟨_, h1, True.intro⟩
  | ok md =>
    obtain ⟨sn, ⟨x, hx, hsec, h1⟩ | ⟨hstrict, h1⟩⟩ := h1
    · refine (reads_readAtMeta md off size h1).bind fun r l2 h2 => ?_
      refine owns_step h2.1 True.intro fun _ _ _ l3 _ _ h3 => ⟨_, h3, ?_⟩
      cases r with
      | error e => exact True.intro
      | ok b =>
        refine ⟨fun _ => rfl, fun y hy => ?_⟩
        obtain rfl := Option.some.inj hy
        obtain ⟨v, hv, hlen⟩ := hsec.value
        refine ⟨List.mem_cons_self, v, hv, hsec.isMd ▸ hlen, fun hsize => ?_⟩
        obtain ⟨v', hv', hb⟩ := h2.2 x hx key hsec hsize
        obtain rfl := Option.some.inj (hv.symm.trans hv')
        exact hb
    · refine (reads_readAtMeta md off size h1).bind fun r l2 h2 => ?_
      refine owns_step h2.1 True.intro fun _ _ _ l3 _ _ h3 => ⟨_, h3, ?_⟩
      cases r with
      | error e => exact True.intro
      | ok b => exact ⟨fun hs => absurd hs (by simp [hstrict]), fun y hy => absurd hy (by simp)⟩

/-- The bytes are a window of what was a value of the key. -/
def Seen (was : Key × Option Bytes → Prop) (key : Key) (off size : Int) (b : Bytes × Bool) : Prop :=
  0 < size → ∃ v, was (key, some v) ∧ b = served v off size

theorem Seen.mono {was was' : Key × Option Bytes → Prop} (hw : ∀ x, was x → was' x) {key : Key}
    {off size : Int} {b : Bytes × Bool} (h : Seen was key off size b) : Seen was' key off size b := by
  intro hsize
  obtain ⟨v, hv, hb⟩ := h hsize
  exact ⟨v, hw _ hv, hb⟩

theorem reads_submitReadAtIntoMeta (key : Key) (md : ObjectMeta) (off size dst : Int) (h : Owns T k l) :
    Keeps (transfers L strict) (fun r l' => ∃ k', Owns T k' l' ∧
      OkAll (fun b => strict = true → Seen (· ∈ k'.2) key off size b) r)
      (submitReadAtIntoMeta key md off size dst) l := by
  unfold submitReadAtIntoMeta
  split
  · exact ⟨k, h, True.intro⟩
  · rename_i w hw
    refine Keeps.ite (fun _ => ⟨k, h, True.intro⟩) (fun _ => took_ref h fun l1 h1 _ _ => ?_)
    have hown : ∃ k', Owns T k' l1 := by
      rcases h1 with ⟨x, -, -, h1⟩ | ⟨-, h1⟩ <;> exact ⟨_, h1⟩
    obtain ⟨k', hown⟩ := hown
    refine (reads_devReadAt _ _ _ hown).bind fun r l2 h2 => ?_
    obtain ⟨rfl, hdata⟩ := h2
    refine owns_step hown True.intro fun _ _ _ l3 _ _ h3 => ?_
    cases r with
    | error e => exact ⟨k', h3, True.intro⟩
    | ok data =>
      refine ⟨k', h3, fun hstrict hsize => ?_⟩
      rcases h1 with ⟨x, hx, hsec, h1⟩ | ⟨hno, -⟩
      · obtain ⟨v, hv, hb⟩ := windowResult_served hsec hw hsize hdata.1 hx hdata.2
        refine ⟨v, ?_, hb⟩
        rw [← hown.look, h1.look, ← hv]
        exact List.mem_cons_self
      · exact absurd hstrict (by simp [hno])

theorem reads_asyncGet (key : Key) (off : Int) (h : Owns T k l) :
    Keeps (transfers L strict) (fun r l' => ∃ k', Owns T k' l' ∧ ∀ x, r = some x →
      OkAll (fun b => strict = true → Seen (· ∈ k'.2) key off chunkSize b) x) (asyncGet key off) l := by
  refine Keeps.ite (fun _ => ⟨k, h, fun x hx => absurd hx (by simp)⟩) (fun _ => ?_)
  refine (reads_getMapping key h).bind fun r l1 h1 => ?_
  cases r with
  | error e => exact ⟨_, h1, fun x hx => absurd hx (by simp)⟩
  | ok md =>
    refine Keeps.ite (fun _ => ⟨_, h1, fun x hx => absurd hx (by simp)⟩) (fun _ => ?_)
    refine (reads_submitReadAtIntoMeta key md off chunkSize _ h1).bind fun r l2 h2 => ?_
    obtain ⟨k', hown, hr⟩ := h2
    exact ⟨k', hown, fun x hx => Option.some.inj hx ▸ hr⟩

/-! ### Batches -/

/-- The thread holds an effective reference for the job. -/
def Protected (L : Layout) (j : ReadJob) (l : Local) : Prop :=
  ∃ x ∈ l.hist.held, Secured L j.block.key j.md x ∧ (j.block.key, x.value) ∈ l.hist.snaps

theorem reads_refJobs (js : List ReadJob) : ∀ {l : Local} {k : Option Held × List (Key × Option Bytes)}
    (ps : List ReadJob), Owns T k l → (strict = true → ∀ j ∈ ps, Protected L j l) →
      Keeps (transfers L strict) (fun _ l' => (∃ k', Owns T k' l') ∧
        (strict = true → ∀ j ∈ ps ++ js, Protected L j l')) (refJobs js) l := by
  induction js with
  | nil => exact fun ps h hps => ⟨⟨_, h⟩, by rwa [List.append_nil]⟩
  | cons j js ih =>
    intro l k ps h hps
    refine took_ref h fun l1 h1 hheld hsnaps => ?_
    have hown : ∃ k', Owns T k' l1 := by
      rcases h1 with ⟨x, -, -, h1⟩ | ⟨-, h1⟩ <;> exact ⟨_, h1⟩
    obtain ⟨k', hown⟩ := hown
    have hnext := ih (ps ++ [j]) hown fun hstrict i hi => ?_
    · rwa [List.append_assoc] at hnext
    · rcases List.mem_append.mp hi with hi | hi
      · obtain ⟨x, hx, hsec, hsn⟩ := hps hstrict i hi
        exact ⟨x, hheld hx, hsec, hsnaps hsn⟩
      · rw [List.mem_singleton.mp hi]
        rcases h1 with ⟨x, hx, hsec, h1⟩ | ⟨hno, -⟩
        · refine ⟨x, hx, hsec, ?_⟩
          have hlook : l1.hist.snaps = (j.block.key, x.value) :: k.2 := congrArg Prod.snd h1.look
          rw [hlook]
          exact List.mem_cons_self
        · exact absurd hstrict (by simp [hno])

/-- What the read of a job returns. -/
def JobServed (L : Layout) (l : Local) (j : ReadJob) (b : Bytes × Bool) : Prop :=
  ∀ x ∈ l.hist.held, Secured L j.block.key j.md x →
    readWindow j.md j.block.off j.block.size true = .ok j.window → 0 < j.block.size →
      ∃ v, x.value = some v ∧ b = served v j.block.off j.block.size

theorem reads_readJobs (js : List ReadJob) : ∀ {l : Local}, Owns T k l →
    Keeps (transfers L strict) (fun r l' => l' = l ∧ OkAll (List.Forall₂ (JobServed L l) js) r)
      (readJobs js) l := by
  induction js with
  | nil => exact fun _ => ⟨rfl, List.Forall₂.nil⟩
  | cons j js ih =>
    intro l h
    refine Keeps.bind (m := fun r l1 => l1 = l ∧ OkAll (fun data =>
      JobServed L l j (windowResult j.window j.block.size data)) r) ?_ fun r l1 h1 => ?_
    · refine Keeps.ite (fun hzero => ⟨rfl, fun x hx hsec hw hsize => ?_⟩) (fun _ => ?_)
      · have hfit := (aligned_window hsec hw hsize).2.1
        have hwant := hfit.want_pos
        have hskip := hfit.skip_nonneg
        have hcov := hfit.covers
        omega
      · refine (reads_devReadAt _ _ _ h).mono fun r l1 h1 => ⟨h1.1, ?_⟩
        cases r with
        | error e => exact True.intro
        | ok data =>
          exact fun x hx hsec hw hsize => windowResult_served hsec hw hsize h1.2.1 hx h1.2.2
    · obtain ⟨rfl, hj⟩ := h1
      cases r with
      | error e => exact ⟨rfl, True.intro⟩
      | ok data =>
        refine (ih h).bind fun rs l2 h2 => ?_
        obtain ⟨rfl, hjs⟩ := h2
        cases rs with
        | error e => exact ⟨rfl, True.intro⟩
        | ok rs => exact ⟨rfl, List.Forall₂.cons hj hjs⟩

theorem reads_unrefJobs (js : List ReadJob) (h : Owns T k l) :
    Keeps (transfers L strict) (fun _ l' => Owns T k l') (unrefJobs js) l := by
  induction js generalizing l with
  | nil => exact h
  | cons j js ih => exact owns_step h True.intro fun _ _ _ l1 _ _ h1 => ih h1

/-- The windows of a batch are those of its blocks. -/
theorem batchWindows_ok (z : List (BatchReadBlock × ObjectMeta)) : ∀ {ws : List (Option Window)},
    batchWindows z = .ok ws →
      List.Forall₂ (fun p o => ∀ w, o = some w → readWindow p.2 p.1.off p.1.size true = .ok w) z ws := by
  induction z with
  | nil =>
    intro ws h
    cases h
    exact List.Forall₂.nil
  | cons p z ih =>
    intro ws h
    obtain ⟨b, md⟩ := p
    have hmap : ∀ o : Option Window, (batchWindows z).map (o :: ·) = .ok ws →
        (∀ w, o = some w → readWindow md b.off b.size true = .ok w) →
        List.Forall₂ (fun p o => ∀ w, o = some w → readWindow p.2 p.1.off p.1.size true = .ok w)
          ((b, md) :: z) ws := by
      intro o h ho
      cases hz : batchWindows z with
      | error e => rw [hz] at h; cases h
      | ok ws' =>
        rw [hz] at h
        cases h
        exact List.Forall₂.cons ho (ih hz)
    unfold batchWindows at h
    split at h
    · exact hmap none h fun w hw => absurd hw (by simp)
    · cases h
    · rename_i w hw
      split at h
      · cases h
      · exact hmap (some w) h fun w' hw' => Option.some.inj hw' ▸ hw

/-- **The results are placed at their blocks.** -/
theorem placed_results {R : ReadJob → Bytes × Bool → Prop} {z : List (BatchReadBlock × ObjectMeta)}
    {ws : List (Option Window)}
    (h : List.Forall₂ (fun p o => ∀ w, o = some w → readWindow p.2 p.1.off p.1.size true = .ok w) z ws) :
    ∀ {rs : List (Bytes × Bool)}, List.Forall₂ R (jobsOf z ws) rs →
      List.Forall₂ (fun p r => r = ([], true) ∨ ∃ w, ⟨p.1, p.2, w⟩ ∈ jobsOf z ws ∧
        readWindow p.2 p.1.off p.1.size true = .ok w ∧ R ⟨p.1, p.2, w⟩ r) z (placeResults ws rs) := by
  induction h with
  | nil => exact fun _ => List.Forall₂.nil
  | @cons p o z ws ho _ ih =>
    intro rs hrs
    cases o with
    | none => exact List.Forall₂.cons (Or.inl rfl) (ih hrs)
    | some w =>
      have hjobs : jobsOf (p :: z) (some w :: ws) = ⟨p.1, p.2, w⟩ :: jobsOf z ws := rfl
      rw [hjobs] at hrs
      cases hrs with
      | cons hr hrest =>
        refine List.Forall₂.cons (Or.inr ⟨w, List.mem_cons_self, ho w rfl, hr⟩) ?_
        refine (ih hrest).imp fun p' r' h' => h'.imp_right ?_
        rintro ⟨w', hin, hw', hr'⟩
        exact ⟨w', List.mem_cons_of_mem _ hin, hw', hr'⟩

/-- Each block of a batch has been answered. -/
def BlocksSeen (was : Key × Option Bytes → Prop) (blocks : List BatchReadBlock)
    (rs : List (Bytes × Bool)) : Prop :=
  ∀ (i : Nat) b r, blocks[i]? = some b → rs[i]? = some r → r = ([], true) ∨ Seen was b.key b.off b.size r

/-- Operations of a lookup. -/
def Op.Seeks (o : Op) : Prop := o.LooksUp ∨ o.Idle

theorem keeps_seeks {p : Proc α} (hu : Uses Op.Seeks p) (h : ∃ k, Owns T k l) :
    Keeps (transfers L strict) (fun _ l' => ∃ k, Owns T k l') p l := by
  induction p generalizing l with
  | pure a => exact h
  | request o next ih =>
    obtain ⟨k, h⟩ := h
    rcases hu.1 with ho | ho
    · exact owns_lookup h ho fun r l1 h1 => ih r (hu.2 r) ⟨_, h1⟩
    · exact owns_step h ho fun _ _ r l1 _ _ h1 => ih r (hu.2 r) ⟨_, h1⟩

theorem seeks_cachePutAll (xs : List (Key × ObjectMeta)) : Uses Op.Seeks (cachePutAll xs) := by
  induction xs with
  | nil => exact True.intro
  | cons x xs ih => exact ⟨Or.inr True.intro, fun _ => ih⟩

theorem seeks_batchGetMapping (keys order : List Key) : Uses Op.Seeks (batchGetMapping keys order) := by
  have hcached : ∀ keys, Uses Op.Seeks (batchGetCached keys) := by
    intro keys
    induction keys with
    | nil => exact True.intro
    | cons key keys ih => exact .step (Or.inl True.intro) fun r => ih.bind fun rs => True.intro
  refine (hcached keys).bind fun cached => Uses.ite True.intro (.step (Or.inr True.intro) fun r => ?_)
  cases r with
  | none => exact True.intro
  | some found => exact (seeks_cachePutAll _).bind fun _ => True.intro

theorem reads_batchRead (blocks : List BatchReadBlock) (order : List Key) (h : Owns T k l) :
    Keeps (transfers L strict) (fun r l' => ∃ k', Owns T k' l' ∧
      OkAll (fun rs => strict = true → BlocksSeen (· ∈ k'.2) blocks rs) r) (batchRead blocks order) l := by
  refine Keeps.ite (fun he => ⟨k, h, fun _ i b r hb _ => ?_⟩) (fun _ => ?_)
  · rw [he] at hb
    exact absurd hb (by simp)
  refine (keeps_seeks (seeks_batchGetMapping _ order) ⟨k, h⟩).bind fun r l1 h1 => ?_
  obtain ⟨k1, h1⟩ := h1
  cases r with
  | error e => exact ⟨k1, h1, True.intro⟩
  | ok mds =>
    dsimp only
    split
    · exact ⟨k1, h1, True.intro⟩
    · rename_i windows hwindows
      refine (reads_refJobs _ [] h1 fun _ j hj => absurd hj List.not_mem_nil).bind fun _ l2 h2 => ?_
      obtain ⟨⟨k2, hown⟩, hprot⟩ := h2
      refine (reads_readJobs _ hown).bind fun r l3 h3 => ?_
      obtain ⟨rfl, hserved⟩ := h3
      refine (reads_unrefJobs _ hown).bind fun _ l4 h4 => ?_
      cases r with
      | error e => exact ⟨k2, h4, True.intro⟩
      | ok rs =>
        refine ⟨k2, h4, fun hstrict i b r hb hr => ?_⟩
        have hplaced := placed_results (batchWindows_ok _ hwindows) hserved
        obtain ⟨hi, rfl⟩ := List.getElem?_eq_some_iff.mp hr
        have hz : i < (blocks.zip mds).length := hplaced.length_eq ▸ hi
        have hrel := hplaced.get hz hi
        have hblock : (blocks.zip mds)[i].1 = b := by
          rw [List.getElem_zip]
          exact (List.getElem?_eq_some_iff.mp hb).2
        refine hrel.imp_right ?_
        rintro ⟨w, hin, hw, hjob⟩ hsize
        obtain ⟨x, hx, hsec, hsn⟩ := hprot hstrict _ hin
        have hjob' := hjob x hx hsec hw
        simp only [List.get_eq_getElem, hblock] at hjob' hsn
        obtain ⟨v, hv, heq⟩ := hjob' hsize
        refine ⟨v, ?_, heq⟩
        have hlook : l3.hist.snaps = k2.2 := congrArg Prod.snd hown.look
        rw [← hlook, ← hv]
        exact hsn

/-! ## 6. Compaction -/

/-- A move commits what the thread has copied, if it compares the mapping of that object. -/
theorem owns_moveMapping (key : Key) {old new : ObjectMeta} (h : Owns T k l)
    (hcopy : ∀ x, k.1 = some x → x.md = old → ∃ v, x.value = some v ∧ Carried T new v) :
    Keeps (transfers L strict) (fun _ l' => ∃ k', Owns 0 k' l') (moveMapping key old new) l := by
  refine owns_step h True.intro fun _ _ _ l1 _ _ h1 => ?_
  refine keeps_step (h1.orderly True.intro) fun s s' cur l2 _ hx => ?_
  have hh := exec_hist hx
  have hb : l2.batch = [] := (exec_batch hx rfl).trans h1.batch
  have hst : l2.hist.stage = [] := (stage_same hx rfl).trans h1.stage
  have hw : T ≤ l2.written := h1.owned.trans (written_grows hx (by simp) (by simp))
  have hk : l2.look = k := by
    rw [← h1.look]
    unfold Local.look
    rw [hh]
    cases cur with
    | none => rfl
    | some cur =>
      simp only [Op.note, PebbleOp.note]
      split <;> rfl
  have h2 : Owns T k l2 := ⟨hb, hst, hw, hk⟩
  refine Keeps.ite (fun hcur => ?_) (fun _ => ?_)
  · have hcas : l2.hist.cas = some (key, old) := by
      rw [hh, hcur]
      simp [Op.note, PebbleOp.note]
    refine keeps_step (h2.orderly ⟨hb, hst, fun x hx _ hsame => ?_⟩) fun _ _ _ l3 _ hx3 => ?_
    · have hmd : x.md = old := by
        rw [hcas] at hsame
        exact (congrArg Prod.snd (Option.some.inj hsame)).symm
      obtain ⟨v, hv, hcarried⟩ := hcopy x ((congrArg Prod.fst hk).symm.trans hx) hmd
      exact ⟨v, hv, hcarried.mono hw⟩
    · refine keeps_step ⟨True.intro, fun _ => rfl⟩ fun _ _ ok l4 _ hx4 => ?_
      have h4 : Owns 0 l4.look l4 := by
        obtain ⟨fs, rfl, -⟩ := exec_apply hx4
        exact ⟨rfl, by cases ok <;> rfl, Multiset.zero_le _, rfl⟩
      cases ok with
      | true =>
        exact owns_step h4 True.intro fun _ _ _ l5 _ _ h5 =>
          owns_step h5 True.intro fun _ _ _ l6 _ _ h6 => ⟨_, h6⟩
      | false => exact owns_step h4 True.intro fun _ _ _ l5 _ _ h5 => ⟨_, h5⟩
  · exact owns_step h2 True.intro fun _ _ _ l3 _ _ h3 => ⟨_, h3.mono (Multiset.zero_le _)⟩

/-- **A move writes what it has read.**  If the object it has read is the one it looked up, it has
all of its bytes. -/
theorem reads_moveObject (key : Key) (h : ∃ k, Owns 0 k l) :
    Keeps (transfers L strict) (fun _ l' => ∃ k', Owns 0 k' l') (moveObject L key) l := by
  obtain ⟨k, h⟩ := h
  refine (reads_getMapping key h).bind fun r l1 h1 => ?_
  split
  · exact ⟨_, h1⟩
  · exact ⟨_, h1⟩
  · rename_i md
    refine (reads_readAt key 0 md.size h1).bind fun r l2 h2 => ?_
    obtain ⟨k2, hown, hans⟩ := h2
    split
    · exact ⟨_, hown⟩
    · exact ⟨_, hown⟩
    · rename_i buf eof
      refine Keeps.ite (fun _ => ⟨_, hown⟩) (fun hbuf => ?_)
      refine (owns_allocate _ true hown).bind fun r l3 h3 => ?_
      cases r with
      | error e => exact ⟨_, h3⟩
      | ok x =>
        obtain ⟨j, hj⟩ : ∃ j : WriteJob, j = ⟨x.1, x.2, buf, md.size⟩ := ⟨_, rfl⟩
        have hblank : Owns (j.blank ::ₘ 0) k2 l3 := by
          subst hj
          exact h3
        subst hj
        refine (owns_devAppend _ hblank).bind fun r l4 h4 => ?_
        cases r with
        | error e => exact ⟨_, Owns.mono h4.1 (Multiset.zero_le _)⟩
        | ok u =>
          have hdone : Owns ((WriteJob.mk x.1 x.2 buf md.size).done ::ₘ 0) k2 l4 := h4.1
          refine (owns_moveMapping key hdone fun y hy hmd => ?_).bind fun r l5 h5 => ?_
          · obtain ⟨-, v, hv, hlen, hserved⟩ := hans.2 y hy
            rw [hmd] at hlen
            refine ⟨v, hv, ?_⟩
            by_cases hpos : 0 < md.size
            · have hbytes : putValue md.size buf = v := by
                have hb : buf = (v.drop 0).take md.size.toNat := congrArg Prod.fst (hserved hpos)
                rw [List.drop_zero, List.take_of_length_le (by omega)] at hb
                rw [putValue, hb, List.take_of_length_le (by omega)]
              rw [← hbytes]
              exact carried_done (j := ⟨x.1, x.2, buf, md.size⟩) (Multiset.mem_cons_self _ _)
                (Int.le_of_lt hpos) (Int.not_lt.mp hbuf)
            · have hnil : v = [] := List.length_eq_zero_iff.mp (by omega)
              subst hnil
              exact ⟨hlen, _, Multiset.mem_cons_self _ _, List.nil_prefix⟩
          · cases r <;> exact h5

theorem Op.Scans.idle {o : Op} (h : o.Scans) : o.Idle := by
  cases o with
  | segs o => cases o <;> first | exact True.intro | exact absurd h id
  | pebble o => cases o <;> first | exact True.intro | exact absurd h id
  | _ => exact absurd h id

theorem reads_compactOnce (cfg : CompactorConfig) (order : List Int) (h : ∃ k, Owns 0 k l) :
    Keeps (transfers L strict) (fun _ l' => ∃ k', Owns 0 k' l') (compactOnce L cfg order) l := by
  refine keeps_compactOnce (I := fun l => ∃ k, Owns 0 k l) (fun key _ => reads_moveObject key)
    (fun o l1 ho ⟨k1, h1⟩ => ?_) cfg order h
  exact ⟨h1.orderly (ho.idle.transfers l1), fun _ _ ⟨_, _, _, hx⟩ => ⟨k1, h1.step ho.idle hx⟩⟩

/-! ## 7. The calls -/

theorem undemanding_getMapping (key : Key) : Uses Op.Undemanding (getMapping key) := by
  refine .step True.intro fun r => ?_
  cases r with
  | some md => exact True.intro
  | none =>
    refine .step True.intro fun r => ?_
    cases r with
    | none => exact True.intro
    | some md => exact ⟨True.intro, fun _ => True.intro⟩

theorem undemanding_deleteMapping (key : Key) : Uses Op.Undemanding (deleteMapping key) := by
  refine (undemanding_getMapping key).bind fun r => ?_
  cases r with
  | error e => exact True.intro
  | ok old =>
    refine ⟨True.intro, fun _ => ⟨True.intro, fun _ => ⟨True.intro, fun _ => .step True.intro
      fun ok => ?_⟩⟩⟩
    cases ok with
    | true => exact ⟨True.intro, fun _ => True.intro⟩
    | false => exact True.intro

theorem undemanding_batchDeleteMapping (keys : List Key) :
    Uses Op.Undemanding (batchDeleteMapping keys) := by
  have hlookup : ∀ keys, Uses Op.Undemanding (batchDeleteLookup keys) := by
    intro keys
    induction keys with
    | nil => exact True.intro
    | cons key keys ih => exact (undemanding_getMapping key).bind fun r => ih.bind fun rs => True.intro
  have hlocked : ∀ dels, Uses Op.Undemanding (batchDeleteLocked dels) := by
    intro dels
    induction dels with
    | nil => exact True.intro
    | cons x dels ih => exact ⟨True.intro, fun _ => ih⟩
  have hcache : ∀ keys, Uses Op.Undemanding (cacheDelAll keys) := by
    intro keys
    induction keys with
    | nil => exact True.intro
    | cons key keys ih => exact ⟨True.intro, fun _ => ih⟩
  refine (hlookup keys).bind fun found => Uses.ite True.intro ⟨True.intro, fun _ =>
    (hlocked _).bind fun _ => ⟨True.intro, fun _ => .step True.intro fun ok => ?_⟩⟩
  cases ok with
  | true => exact (hcache _).bind fun _ => True.intro
  | false => exact True.intro

theorem undemanding_reclaimOnce (order : List Int) : Uses Op.Undemanding (reclaimOnce order) := by
  have hdurable : ∀ ids, Uses Op.Undemanding (durableReclaiming ids) := by
    intro ids
    induction ids with
    | nil => exact True.intro
    | cons id ids ih => exact .step True.intro fun _ => ih.bind fun _ => True.intro
  exact .step True.intro fun ids => Uses.ite True.intro ((hdurable ids).bind fun _ =>
    Uses.ite True.intro (uses_perform True.intro))

/-- The reads of a call return windows of what were values of the keys. -/
def Call.Answers (was : Key × Option Bytes → Prop) : Call → Result → Prop
  | .readAt key off size, .ok (.bytes data eof) => Seen was key off size (data, eof)
  | .asyncGet key off, .ok (.bytes data eof) => Seen was key off chunkSize (data, eof)
  | .batchRead blocks _, .ok (.blocks rs) => BlocksSeen was blocks rs
  | _, _ => True

theorem Call.Answers.mono {was was' : Key × Option Bytes → Prop} (hw : ∀ x, was x → was' x) {call : Call}
    {v : Result} (h : call.Answers was v) : call.Answers was' v := by
  unfold Call.Answers at h ⊢
  split
  · exact Seen.mono hw h
  · exact Seen.mono hw h
  · exact fun i b r hb hr => (h i b r hb hr).imp_right (Seen.mono hw)
  · exact True.intro

/-- **What the calls write and read.** -/
theorem code_transfers (L : Layout) (strict : Bool) {call : Call} (hs : call.supplied = false)
    (h : Owns 0 k l) :
    Keeps (transfers L strict) (fun v l' => strict = true → call.Answers (· ∈ l'.hist.snaps) v) (code L call) l := by
  have hmap : ∀ {α : Type} {p : Proc α} {f : α → Result} {post : α → Local → Prop},
      (∀ a (l' : Local), call.Answers (· ∈ l'.hist.snaps) (f a)) → Keeps (transfers L strict) post p l →
        Keeps (transfers L strict) (fun v l' => strict = true → call.Answers (· ∈ l'.hist.snaps) v)
          (p >>= fun a => Pure.pure (f a)) l :=
    fun hcall hp => hp.bind fun a l' _ _ => hcall a l'
  have hidle : ∀ {α : Type} {p : Proc α} {f : α → Result},
      (∀ a (l' : Local), call.Answers (· ∈ l'.hist.snaps) (f a)) → Uses Op.Idle p →
        Keeps (transfers L strict) (fun v l' => strict = true → call.Answers (· ∈ l'.hist.snaps) v)
          (p >>= fun a => Pure.pure (f a)) l :=
    fun hcall hu => hmap hcall (keeps_idle hu h)
  have hlook : ∀ {α : Type} {p : Proc α} {f : α → Result},
      (∀ a (l' : Local), call.Answers (· ∈ l'.hist.snaps) (f a)) → Uses Op.Undemanding p →
        Keeps (transfers L strict) (fun v l' => strict = true → call.Answers (· ∈ l'.hist.snaps) v)
          (p >>= fun a => Pure.pure (f a)) l :=
    fun hcall hu => hmap hcall (keeps_undemanding hu h.not_moving)
  have hsn : ∀ {k' : Option Held × List (Key × Option Bytes)} {l' : Local}, Owns 0 k' l' →
      l'.hist.snaps = k'.2 := fun h' => congrArg Prod.snd h'.look
  cases call with
  | getMapping key => exact hmap (fun _ _ => True.intro) (reads_getMapping key h)
  | getMappingRef key => exact hmap (fun _ _ => True.intro) (reads_getMappingRef key h)
  | putMapping key md => exact absurd hs (by simp [Call.supplied])
  | deleteMapping key => exact hlook (fun _ _ => True.intro) (undemanding_deleteMapping key)
  | moveMapping key old new => exact absurd hs (by simp [Call.supplied])
  | batchGetMapping keys order =>
    exact hmap (fun _ _ => True.intro) (keeps_seeks (seeks_batchGetMapping keys order) ⟨k, h⟩)
  | batchPutMapping items => exact absurd hs (by simp [Call.supplied])
  | batchDeleteMapping keys =>
    exact hlook (fun _ _ => True.intro) (undemanding_batchDeleteMapping keys)
  | loadCache =>
    exact hlook (fun _ _ => True.intro) ⟨True.intro, fun all => undemanding_cachePutAll all⟩
  | allocateSegment size => exact hmap (fun _ _ => True.intro) (owns_allocate size false h)
  | allocateSegmentReserve size => exact hmap (fun _ _ => True.intro) (owns_allocate size true h)
  | allocateSegmentBatch sizes => exact hmap (fun _ _ => True.intro) (owns_allocateSegmentBatch sizes h)
  | markCompacting id =>
    exact hidle (fun _ _ => True.intro) ((scans_markCompacting id).mono fun _ ho => ho.idle)
  | reclaimOnce order => exact hlook (fun _ _ => True.intro) (undemanding_reclaimOnce order)
  | put key size data => exact hmap (fun _ _ => True.intro) (owns_put key size data h)
  | batchPut items => exact hmap (fun _ _ => True.intro) (owns_batchPut items h)
  | pipelinePut items => exact hmap (fun _ _ => True.intro) (owns_pipelinePut items h)
  | stat key =>
    refine hlook (fun _ _ => True.intro) ((undemanding_getMapping key).bind fun r => ?_)
    cases r <;> exact True.intro
  | readAt key off size =>
    refine (reads_readAt key off size h).bind fun r l1 h1 hstrict => ?_
    obtain ⟨k1, hown, hans⟩ := h1
    cases r with
    | error e => exact True.intro
    | ok b =>
      obtain ⟨hsome, hserved⟩ := hans
      obtain ⟨x, hx⟩ := Option.isSome_iff_exists.mp (hsome hstrict)
      obtain ⟨hin, v, hv, -, hb⟩ := hserved x hx
      intro hsize
      rw [hsn hown]
      exact ⟨v, hv ▸ hin, hb hsize⟩
  | asyncGet key off =>
    refine (reads_asyncGet key off h).bind fun r l1 h1 => ?_
    obtain ⟨k1, hown, hans⟩ := h1
    cases r with
    | none => exact fun _ => True.intro
    | some r =>
      cases r with
      | error e => exact fun _ => True.intro
      | ok b =>
        intro hstrict
        show Seen _ _ _ _ _
        rw [hsn hown]
        exact hans _ rfl hstrict
  | batchRead blocks order =>
    refine (reads_batchRead blocks order h).bind fun r l1 h1 hstrict => ?_
    obtain ⟨k1, hown, hans⟩ := h1
    cases r with
    | error e => exact True.intro
    | ok rs =>
      show BlocksSeen _ _ _
      rw [hsn hown]
      exact hans hstrict
  | moveObject key => exact hmap (fun _ _ => True.intro) (reads_moveObject key ⟨k, h⟩)
  | compactOnce cfg order =>
    exact (reads_compactOnce cfg order ⟨k, h⟩).bind fun _ _ _ _ => True.intro

end Taihu
