/-
# Where the event of an IO is

The device of `CompletionPump` beside a ledger that says for every IO the ring has accepted whose
it is and where its event is (`Io`).  What the maps, the lists and the callers say of an IO is
what its entry says (`Glue`), so an event cannot be in two places, be lost, or be with another
caller than the one that has submitted the IO.

Each kind of move of one IO is a lemma about `Glue`: the ring accepts it, the pump takes its
completion, keeps it, takes its channel, sends it; its submitter registers it, finds the event
kept, receives it.
-/
import Taihu.CompletionPump
import Mathlib

namespace Taihu.CompletionPump

/-! ## 1. The ledger -/

/-- Before it is dispatched: the IO is in the ring, or its event is with the pump. -/
inductive Loc where
  | ring
  | pump
  deriving DecidableEq, Repr

/-- An accepted IO, by its submitter and its channel.  `fresh`, `awaited`: not dispatched, and not
yet registered, or registered.  `kept`: the event is in `pending`.  `sending`: the pump is about to
send it.  `arrived`: it is in the channel, or the caller is about to send it there. -/
inductive Io where
  | fresh (i : Nat) (l : Loc)
  | kept (i : Nat)
  | awaited (i ch : Nat) (l : Loc)
  | sending (i ch : Nat)
  | arrived (i ch : Nat)
  | received (i : Nat)
  deriving DecidableEq, Repr

namespace Io

def owner : Io → Nat
  | fresh i _ => i
  | kept i => i
  | awaited i _ _ => i
  | sending i _ => i
  | arrived i _ => i
  | received i => i

/-- The channel through which the event goes. -/
def link : Io → Option Nat
  | awaited _ ch _ => some ch
  | sending _ ch => some ch
  | arrived _ ch => some ch
  | _ => none

end Io

/-- What the device says of a sequence number. -/
structure Sight where
  accepted : Nat
  inflight : Nat
  completed : Nat
  held : Nat
  kept : Bool
  chan : Option Nat
  sends : Option Nat
  deriving DecidableEq, Repr

/-- What a caller says of a sequence number: how often it is to be registered, the channel on which
it waits for it, the channel that has its event, and how often it has been received. -/
structure View where
  todo : Nat
  waits : Option Nat
  holds : Option Nat
  got : Nat
  deriving DecidableEq, Repr

def View.nothing : View := ⟨0, none, none, 0⟩

/-- What the device should say. -/
def sightOf : Option Io → Sight
  | none => ⟨0, 0, 0, 0, false, none, none⟩
  | some (.fresh _ .ring) => ⟨1, 1, 0, 0, false, none, none⟩
  | some (.fresh _ .pump) => ⟨1, 0, 1, 1, false, none, none⟩
  | some (.kept _) => ⟨1, 0, 1, 0, true, none, none⟩
  | some (.awaited _ ch .ring) => ⟨1, 1, 0, 0, false, some ch, none⟩
  | some (.awaited _ ch .pump) => ⟨1, 0, 1, 1, false, some ch, none⟩
  | some (.sending _ ch) => ⟨1, 0, 1, 0, false, none, some ch⟩
  | some (.arrived _ _) => ⟨1, 0, 1, 0, false, none, none⟩
  | some (.received _) => ⟨1, 0, 1, 0, false, none, none⟩

/-- What the submitter should say. -/
def Io.view : Io → View
  | fresh _ _ => ⟨1, none, none, 0⟩
  | kept _ => ⟨1, none, none, 0⟩
  | awaited _ ch _ => ⟨0, some ch, none, 0⟩
  | sending _ ch => ⟨0, some ch, none, 0⟩
  | arrived _ ch => ⟨0, none, some ch, 0⟩
  | received _ => ⟨0, none, none, 1⟩

/-- What caller `i` should say. -/
def viewOf (i : Nat) : Option Io → View
  | none => .nothing
  | some io => if io.owner = i then io.view else .nothing

/-! ## 2. What the state says -/

namespace Pump

/-- The events that are still to be dispatched. -/
def todo : Pump → List Event
  | holding evs => evs
  | sending _ _ rest => rest
  | _ => []

/-- The channel to which the event of `s` is about to be sent. -/
def sends (s : Nat) : Pump → Option Nat
  | sending ch ev _ => if ev.data = s then some ch else none
  | _ => none

/-- The events that the pump has. -/
def events : Pump → List Event
  | holding evs => evs
  | sending _ ev rest => ev :: rest
  | _ => []

end Pump

def Device.sight (d : Device) (s : Nat) : Sight where
  accepted := (d.accepted.map Prod.fst).count s
  inflight := d.inflight.count s
  completed := (d.completed.map Event.data).count s
  held := (d.pump.todo.map Event.data).count s
  kept := (d.pending.find? s).isSome
  chan := d.m.find? s
  sends := d.pump.sends s

namespace Phase

/-- The IOs that are still to be registered. -/
def todo : Phase → List Nat
  | one _ (.accepted s) => [s]
  | batch _ _ _ (.collecting todo _) => todo
  | batch _ _ _ (.waiting _ _ _ todo _) => todo
  | _ => []

/-- The IO that has been registered last, its channel, and what is in it. -/
def slot : Phase → Option (Nat × Nat × Option Event)
  | one _ (.handing s ch ev) => some (s, ch, some ev)
  | one _ (.waiting s ch buf) => some (s, ch, buf)
  | batch _ _ _ (.waiting s ch buf _ _) => some (s, ch, buf)
  | _ => none

end Phase

/-- The channel of `s`, if it is empty. -/
def waitsOn (s : Nat) : Option (Nat × Nat × Option Event) → Option Nat
  | some (s', ch, none) => if s' = s then some ch else none
  | _ => none

/-- The channel of `s`, if it has its event. -/
def holdsOn (s : Nat) : Option (Nat × Nat × Option Event) → Option Nat
  | some (s', ch, some _) => if s' = s then some ch else none
  | _ => none

def Caller.view (c : Caller) (s : Nat) : View where
  todo := c.phase.todo.count s
  waits := waitsOn s c.phase.slot
  holds := holdsOn s c.phase.slot
  got := (c.got.map Event.data).count s

/-- **The state says of every IO what the ledger says.** -/
structure Glue (d : Device) (σ : Nat → Option Io) : Prop where
  sight : ∀ s, d.sight s = sightOf (σ s)
  view : ∀ (i : Nat) (c : Caller), d.callers[i]? = some c → ∀ s, c.view s = viewOf i (σ s)
  owner : ∀ s i, (s, i) ∈ d.accepted → ∃ io, σ s = some io ∧ io.owner = i
  caller : ∀ s io, σ s = some io → io.owner < d.callers.length
  link_lt : ∀ s io ch, σ s = some io → io.link = some ch → ch < d.made
  link_inj : ∀ s s' io io' ch, σ s = some io → σ s' = some io' → io.link = some ch →
    io'.link = some ch → s = s'

/-! ## 3. One IO moves -/

theorem viewOf_of_owner_ne {i : Nat} {io : Io} (h : io.owner ≠ i) : viewOf i (some io) = .nothing :=
  if_neg h

theorem viewOf_owner {i : Nat} {io : Io} (h : io.owner = i) : viewOf i (some io) = io.view :=
  if_pos h

variable {d d' : Device} {σ : Nat → Option Io}

/-- **The move of one IO.**  The device says of it what its new entry says, and of all others what
it said; so does every caller. -/
theorem Glue.move (h : Glue d σ) {s : Nat} {io io' : Io} (hio : σ s = some io)
    (howner : io'.owner = io.owner) (hlink : ∀ ch, io'.link = some ch →
      io.link = some ch ∨ (d.made ≤ ch ∧ ch < d'.made))
    (haccepted : d'.accepted = d.accepted) (hmade : d.made ≤ d'.made)
    (hsight : d'.sight s = sightOf (some io')) (hrest : ∀ s', s' ≠ s → d'.sight s' = d.sight s')
    (hlen : d'.callers.length = d.callers.length)
    (hview : ∀ (i : Nat) (c' : Caller), d'.callers[i]? = some c' → ∃ c, d.callers[i]? = some c ∧
      c'.view s = viewOf i (some io') ∧ ∀ s', s' ≠ s → c'.view s' = c.view s') :
    Glue d' (Function.update σ s (some io')) where
  sight := by
    intro s'
    by_cases hs : s' = s
    · rw [hs, Function.update_self]
      exact hsight
    · rw [Function.update_of_ne hs, hrest s' hs]
      exact h.sight s'
  view := by
    intro i c' hc' s'
    obtain ⟨c, hc, hself, hother⟩ := hview i c' hc'
    by_cases hs : s' = s
    · rw [hs, Function.update_self]
      exact hself
    · rw [Function.update_of_ne hs, hother s' hs]
      exact h.view i c hc s'
  owner := by
    intro s' i hmem
    rw [haccepted] at hmem
    obtain ⟨io₁, hio₁, hi⟩ := h.owner s' i hmem
    by_cases hs : s' = s
    · subst hs
      obtain rfl : io = io₁ := Option.some.inj (hio.symm.trans hio₁)
      exact ⟨io', Function.update_self .., howner.trans hi⟩
    · exact ⟨io₁, by rw [Function.update_of_ne hs, hio₁], hi⟩
  caller := by
    intro s' io₁ hio₁
    rw [hlen]
    by_cases hs : s' = s
    · rw [hs, Function.update_self] at hio₁
      cases hio₁
      rw [howner]
      exact h.caller s io hio
    · rw [Function.update_of_ne hs] at hio₁
      exact h.caller s' io₁ hio₁
  link_lt := by
    intro s' io₁ ch hio₁ hch
    by_cases hs : s' = s
    · rw [hs, Function.update_self] at hio₁
      cases hio₁
      rcases hlink ch hch with hold | ⟨-, hlt⟩
      · exact Nat.lt_of_lt_of_le (h.link_lt s io ch hio hold) hmade
      · exact hlt
    · rw [Function.update_of_ne hs] at hio₁
      exact Nat.lt_of_lt_of_le (h.link_lt s' io₁ ch hio₁ hch) hmade
  link_inj := by
    -- a channel of the moved IO is its old one, or newer than all others
    have hmoved : ∀ s' io₁ ch, s' ≠ s → σ s' = some io₁ → io₁.link = some ch →
        io'.link ≠ some ch := by
      intro s' io₁ ch hs hio₁ hch hch'
      rcases hlink ch hch' with hold | ⟨hge, -⟩
      · exact hs (h.link_inj s' s io₁ io ch hio₁ hio hch hold)
      · exact absurd (h.link_lt s' io₁ ch hio₁ hch) (Nat.not_lt.mpr hge)
    intro s₁ s₂ io₁ io₂ ch hio₁ hio₂ hch₁ hch₂
    by_cases hs₁ : s₁ = s
    · by_cases hs₂ : s₂ = s
      · rw [hs₁, hs₂]
      · rw [hs₁, Function.update_self] at hio₁
        rw [Function.update_of_ne hs₂] at hio₂
        cases hio₁
        exact absurd hch₁ (hmoved s₂ io₂ ch hs₂ hio₂ hch₂)
    · rw [Function.update_of_ne hs₁] at hio₁
      by_cases hs₂ : s₂ = s
      · rw [hs₂, Function.update_self] at hio₂
        cases hio₂
        exact absurd hch₂ (hmoved s₁ io₁ ch hs₁ hio₁ hch₁)
      · rw [Function.update_of_ne hs₂] at hio₂
        exact h.link_inj s₁ s₂ io₁ io₂ ch hio₁ hio₂ hch₁ hch₂

/-- A step of caller `i` that moves no IO. -/
theorem Glue.stay (h : Glue d σ) {i : Nat} {c c' : Caller} (hc : d.callers[i]? = some c)
    (hsight : ∀ s, d'.sight s = d.sight s) (haccepted : d'.accepted = d.accepted)
    (hmade : d'.made = d.made) (hcallers : d'.callers = d.callers.set i c')
    (hview : ∀ s, c'.view s = c.view s) : Glue d' σ where
  sight := fun s => (hsight s).trans (h.sight s)
  view := by
    intro j cj hcj s
    rw [hcallers, List.getElem?_set] at hcj
    split at hcj
    · rename_i hij
      subst hij
      split at hcj
      · cases hcj
        exact (hview s).trans (h.view i c hc s)
      · cases hcj
    · exact h.view j cj hcj s
  owner := fun s j hmem => h.owner s j (haccepted ▸ hmem)
  caller := fun s io hio => by
    rw [hcallers, List.length_set]
    exact h.caller s io hio
  link_lt := fun s io ch hio hch => hmade ▸ h.link_lt s io ch hio hch
  link_inj := h.link_inj

/-- What the callers say after the submitter has taken its IO further. -/
theorem Glue.view_set (h : Glue d σ) {i s : Nat} {c c' : Caller} {io io' : Io}
    (hc : d.callers[i]? = some c) (hio : σ s = some io) (hi : io.owner = i)
    (hi' : io'.owner = i) (hself : c'.view s = io'.view)
    (hother : ∀ s', s' ≠ s → c'.view s' = c.view s') (j : Nat) (cj : Caller)
    (hcj : (d.callers.set i c')[j]? = some cj) : ∃ c, d.callers[j]? = some c ∧
      cj.view s = viewOf j (some io') ∧ ∀ s', s' ≠ s → cj.view s' = c.view s' := by
  rw [List.getElem?_set] at hcj
  split at hcj
  · rename_i hij
    subst hij
    split at hcj
    · cases hcj
      exact ⟨c, hc, hself.trans (viewOf_owner hi').symm, hother⟩
    · cases hcj
  · rename_i hij
    refine ⟨cj, hcj, ?_, fun s' _ => rfl⟩
    rw [viewOf_of_owner_ne (by rwa [hi']), h.view j cj hcj s, hio, viewOf_of_owner_ne (by rwa [hi])]

/-! ## 4. What a caller knows of its IOs -/

section Knowledge

variable {i s : Nat} {c : Caller}

theorem Glue.view_owner (h : Glue d σ) (hc : d.callers[i]? = some c) {io : Io}
    (hio : σ s = some io) (howner : io.owner = i) : c.view s = io.view := by
  rw [h.view i c hc s, hio, viewOf_owner howner]

/-- A caller speaks of its own IOs only. -/
theorem Glue.of_view (h : Glue d σ) (hc : d.callers[i]? = some c) (hne : c.view s ≠ .nothing) :
    ∃ io, σ s = some io ∧ io.owner = i ∧ c.view s = io.view := by
  have hview := h.view i c hc s
  cases hio : σ s with
  | none => exact absurd (hview.trans (by rw [hio]; rfl)) hne
  | some io =>
    rw [hio] at hview
    by_cases howner : io.owner = i
    · exact ⟨io, rfl, howner, hview.trans (viewOf_owner howner)⟩
    · exact absurd (hview.trans (viewOf_of_owner_ne howner)) hne

/-- An IO that is still to be registered has no channel. -/
theorem Glue.io_of_todo (h : Glue d σ) (hc : d.callers[i]? = some c) (hs : s ∈ c.phase.todo) :
    (∃ l, σ s = some (.fresh i l)) ∨ σ s = some (.kept i) := by
  have hpos : (c.view s).todo ≠ 0 := Nat.pos_iff_ne_zero.mp (List.count_pos_iff.mpr hs)
  obtain ⟨io, hio, rfl, hview⟩ := h.of_view hc fun hnone => hpos (by rw [hnone]; rfl)
  rw [hview] at hpos
  cases io with
  | fresh j l => exact .inl ⟨l, hio⟩
  | kept j => exact .inr hio
  | awaited j ch l => exact absurd rfl hpos
  | sending j ch => exact absurd rfl hpos
  | arrived j ch => exact absurd rfl hpos
  | received j => exact absurd rfl hpos

theorem Glue.count_todo (h : Glue d σ) (hc : d.callers[i]? = some c) (hs : s ∈ c.phase.todo) :
    c.phase.todo.count s = 1 := by
  rcases h.io_of_todo hc hs with ⟨l, hio⟩ | hio
  · exact congrArg View.todo (h.view_owner hc hio rfl)
  · exact congrArg View.todo (h.view_owner hc hio rfl)

/-- The IO a caller turns to is not one it turns to again. -/
theorem Glue.count_later (h : Glue d σ) (hc : d.callers[i]? = some c) {later : List Nat}
    (htodo : c.phase.todo = s :: later) : later.count s = 0 := by
  have hone := h.count_todo hc (htodo ▸ List.mem_cons_self)
  rw [htodo, List.count_cons_self] at hone
  omega

/-- Whether the event of such an IO is kept. -/
theorem Glue.kept_iff (h : Glue d σ) (hc : d.callers[i]? = some c) (hs : s ∈ c.phase.todo) :
    (d.pending.find? s).isSome ↔ σ s = some (.kept i) := by
  have hkept : (d.pending.find? s).isSome = (sightOf (σ s)).kept := congrArg Sight.kept (h.sight s)
  rw [hkept]
  rcases h.io_of_todo hc hs with ⟨l, hio⟩ | hio
  · rw [hio]
    cases l <;> simp [sightOf]
  · rw [hio]
    exact ⟨fun _ => rfl, fun _ => rfl⟩

/-- The IO whose event is in the channel. -/
theorem Glue.io_of_holds (h : Glue d σ) (hc : d.callers[i]? = some c) {ch : Nat} {ev : Event}
    (hslot : c.phase.slot = some (s, ch, some ev)) : σ s = some (.arrived i ch) := by
  have hholds : (c.view s).holds = some ch := by
    show holdsOn s c.phase.slot = some ch
    rw [hslot]
    exact if_pos rfl
  obtain ⟨io, hio, rfl, hview⟩ := h.of_view hc fun hnone => by
    rw [hnone] at hholds
    cases hholds
  rw [hview] at hholds
  cases io with
  | arrived j ch' =>
    cases hholds
    exact hio
  | fresh j l => cases hholds
  | kept j => cases hholds
  | awaited j ch' l => cases hholds
  | sending j ch' => cases hholds
  | received j => cases hholds

/-- The IO for which a caller waits at an empty channel. -/
theorem Glue.io_of_waits (h : Glue d σ) (hc : d.callers[i]? = some c) {ch : Nat}
    (hslot : c.phase.slot = some (s, ch, none)) :
    (∃ l, σ s = some (.awaited i ch l)) ∨ σ s = some (.sending i ch) := by
  have hwaits : (c.view s).waits = some ch := by
    show waitsOn s c.phase.slot = some ch
    rw [hslot]
    exact if_pos rfl
  obtain ⟨io, hio, rfl, hview⟩ := h.of_view hc fun hnone => by
    rw [hnone] at hwaits
    cases hwaits
  rw [hview] at hwaits
  cases io with
  | awaited j ch' l =>
    cases hwaits
    exact .inl ⟨l, hio⟩
  | sending j ch' =>
    cases hwaits
    exact .inr hio
  | fresh j l => cases hwaits
  | kept j => cases hwaits
  | arrived j ch' => cases hwaits
  | received j => cases hwaits

/-- What a caller has received. -/
theorem Glue.io_of_got (h : Glue d σ) (hc : d.callers[i]? = some c)
    (hs : s ∈ c.got.map Event.data) : σ s = some (.received i) := by
  have hpos : (c.view s).got ≠ 0 := Nat.pos_iff_ne_zero.mp (List.count_pos_iff.mpr hs)
  obtain ⟨io, hio, rfl, hview⟩ := h.of_view hc fun hnone => hpos (by rw [hnone]; rfl)
  rw [hview] at hpos
  cases io with
  | received j => exact hio
  | fresh j l => exact absurd rfl hpos
  | kept j => exact absurd rfl hpos
  | awaited j ch l => exact absurd rfl hpos
  | sending j ch => exact absurd rfl hpos
  | arrived j ch => exact absurd rfl hpos

end Knowledge

/-! ## 5. The moves of a caller -/

section Moves

variable {i s : Nat} {c c' : Caller}

/-- The caller registers a channel for an IO whose event is not kept. -/
theorem Glue.register (h : Glue d σ) (hc : d.callers[i]? = some c)
    (hkept : d.pending.find? s = none) (htodo : c.phase.todo = s :: c'.phase.todo)
    (hslot : c.phase.slot = none) (hslot' : c'.phase.slot = some (s, d.made, none))
    (hgot : c'.got = c.got) (x : Int) :
    ∃ σ', Glue { d with
      inSubmit := x
      m := d.m.insert s d.made
      made := d.made + 1
      callers := d.callers.set i c' } σ' := by
  have hs : s ∈ c.phase.todo := htodo ▸ List.mem_cons_self
  obtain ⟨l, hio⟩ : ∃ l, σ s = some (.fresh i l) := by
    rcases h.io_of_todo hc hs with hfresh | hio
    · exact hfresh
    · have := (h.kept_iff hc hs).mpr hio
      rw [hkept] at this
      cases this
  have hcount : c'.phase.todo.count s = 0 := h.count_later hc htodo
  have hsight := h.sight s
  rw [hio] at hsight
  refine ⟨_, h.move hio (show (Io.awaited i d.made l).owner = _ from rfl) ?_ rfl
    (Nat.le_succ d.made) ?_ ?_ List.length_set
    (h.view_set hc hio rfl rfl ?_ ?_)⟩
  · intro ch hch
    cases hch
    exact .inr ⟨Nat.le_refl _, Nat.lt_succ_self _⟩
  · show Sight.mk _ _ _ _ _ ((d.m.insert s d.made).find? s) _ = _
    rw [SortedMap.find?_insert_self]
    cases l with
    | ring => exact congrArg (fun x => { x with chan := some d.made }) hsight
    | pump => exact congrArg (fun x => { x with chan := some d.made }) hsight
  · intro s' hs'
    show Sight.mk _ _ _ _ _ ((d.m.insert s d.made).find? s') _ = _
    rw [SortedMap.find?_insert, if_neg hs']
    rfl
  · have hold : (c.got.map Event.data).count s = 0 :=
      congrArg View.got (h.view_owner hc hio rfl)
    unfold Caller.view
    rw [hslot', hgot, hcount, hold]
    show View.mk 0 (if s = s then _ else _) none 0 = _
    rw [if_pos rfl]
    rfl
  · intro s' hs'
    unfold Caller.view
    rw [hslot, hslot', hgot, htodo, List.count_cons_of_ne (Ne.symm hs')]
    show View.mk _ (if s = s' then _ else _) none _ = _
    rw [if_neg (Ne.symm hs')]
    rfl

/-- The caller takes a kept event, and sends it to a new channel. -/
theorem Glue.hand (h : Glue d σ) (hc : d.callers[i]? = some c) {ev : Event}
    (hkept : d.pending.find? s = some ev) (htodo : c.phase.todo = s :: c'.phase.todo)
    (hslot : c.phase.slot = none) (hslot' : c'.phase.slot = some (s, d.made, some ev))
    (hgot : c'.got = c.got) (x : Int) :
    ∃ σ', Glue { d with
      inSubmit := x
      pending := d.pending.erase s
      made := d.made + 1
      callers := d.callers.set i c' } σ' := by
  have hs : s ∈ c.phase.todo := htodo ▸ List.mem_cons_self
  have hio : σ s = some (.kept i) := (h.kept_iff hc hs).mp (by rw [hkept]; rfl)
  have hcount : c'.phase.todo.count s = 0 := h.count_later hc htodo
  have hsight := h.sight s
  rw [hio] at hsight
  refine ⟨_, h.move hio (show (Io.arrived i d.made).owner = _ from rfl) ?_ rfl
    (Nat.le_succ d.made) ?_ ?_ List.length_set (h.view_set hc hio rfl rfl ?_ ?_)⟩
  · intro ch hch
    cases hch
    exact .inr ⟨Nat.le_refl _, Nat.lt_succ_self _⟩
  · show Sight.mk _ _ _ _ ((d.pending.erase s).find? s).isSome _ _ = _
    rw [SortedMap.find?_erase, if_pos rfl]
    exact congrArg (fun x => { x with kept := false }) hsight
  · intro s' hs'
    show Sight.mk _ _ _ _ ((d.pending.erase s).find? s').isSome _ _ = _
    rw [SortedMap.find?_erase, if_neg hs']
    rfl
  · have hold : (c.got.map Event.data).count s = 0 :=
      congrArg View.got (h.view_owner hc hio rfl)
    unfold Caller.view
    rw [hslot', hgot, hcount, hold]
    show View.mk 0 none (if s = s then _ else _) 0 = _
    rw [if_pos rfl]
    rfl
  · intro s' hs'
    unfold Caller.view
    rw [hslot, hslot', hgot, htodo, List.count_cons_of_ne (Ne.symm hs')]
    show View.mk _ none (if s = s' then _ else _) _ = _
    rw [if_neg (Ne.symm hs')]
    rfl

/-- The caller takes a kept event as it is. -/
theorem Glue.take (h : Glue d σ) (hc : d.callers[i]? = some c) {ev : Event}
    (hkept : d.pending.find? s = some ev) (hdata : ev.data = s)
    (htodo : c.phase.todo = s :: c'.phase.todo) (hslot : c.phase.slot = none)
    (hslot' : c'.phase.slot = none) (hgot : c'.got = c.got ++ [ev]) :
    ∃ σ', Glue { d with
      pending := d.pending.erase s
      made := d.made + 1
      callers := d.callers.set i c' } σ' := by
  have hs : s ∈ c.phase.todo := htodo ▸ List.mem_cons_self
  have hio : σ s = some (.kept i) := (h.kept_iff hc hs).mp (by rw [hkept]; rfl)
  have hcount : c'.phase.todo.count s = 0 := h.count_later hc htodo
  have hsight := h.sight s
  rw [hio] at hsight
  refine ⟨_, h.move hio (show (Io.received i).owner = _ from rfl) ?_ rfl
    (Nat.le_succ d.made) ?_ ?_ List.length_set (h.view_set hc hio rfl rfl ?_ ?_)⟩
  · intro ch hch
    cases hch
  · show Sight.mk _ _ _ _ ((d.pending.erase s).find? s).isSome _ _ = _
    rw [SortedMap.find?_erase, if_pos rfl]
    exact congrArg (fun x => { x with kept := false }) hsight
  · intro s' hs'
    show Sight.mk _ _ _ _ ((d.pending.erase s).find? s').isSome _ _ = _
    rw [SortedMap.find?_erase, if_neg hs']
    rfl
  · have hold : (c.got.map Event.data).count s = 0 :=
      congrArg View.got (h.view_owner hc hio rfl)
    unfold Caller.view
    rw [hslot', hgot, hcount, List.map_append, List.count_append, hold]
    show View.mk 0 none none (0 + [ev.data].count s) = _
    rw [hdata, List.count_singleton_self]
    rfl
  · intro s' hs'
    unfold Caller.view
    rw [hslot, hslot', hgot, htodo, List.count_cons_of_ne (Ne.symm hs'), List.map_append,
      List.count_append]
    show View.mk _ none none (_ + [ev.data].count s') = _
    rw [hdata, List.count_singleton, if_neg (by simpa using Ne.symm hs')]
    rfl

/-- The caller receives from its channel. -/
theorem Glue.receive (h : Glue d σ) (hc : d.callers[i]? = some c) {ch : Nat} {ev : Event}
    (hdata : ev.data = s) (htodo : c'.phase.todo = c.phase.todo)
    (hslot : c.phase.slot = some (s, ch, some ev)) (hslot' : c'.phase.slot = none)
    (hgot : c'.got = c.got ++ [ev]) :
    ∃ σ', Glue { d with callers := d.callers.set i c' } σ' := by
  have hio : σ s = some (.arrived i ch) := h.io_of_holds hc hslot
  have hsight := h.sight s
  rw [hio] at hsight
  refine ⟨_, h.move hio (show (Io.received i).owner = _ from rfl) ?_ rfl
    (Nat.le_refl d.made) ?_ ?_ List.length_set (h.view_set hc hio rfl rfl ?_ ?_)⟩
  · intro ch hch
    cases hch
  · exact hsight
  · exact fun s' _ => rfl
  · have hold : (c.got.map Event.data).count s = 0 :=
      congrArg View.got (h.view_owner hc hio rfl)
    have hnone : c.phase.todo.count s = 0 := congrArg View.todo (h.view_owner hc hio rfl)
    unfold Caller.view
    rw [hslot', hgot, htodo, hnone, List.map_append, List.count_append, hold]
    show View.mk 0 none none (0 + [ev.data].count s) = _
    rw [hdata, List.count_singleton_self]
    rfl
  · intro s' hs'
    unfold Caller.view
    rw [hslot, hslot', hgot, htodo, List.map_append, List.count_append]
    show View.mk _ none none (_ + [ev.data].count s') =
      View.mk _ none (if s = s' then _ else _) _
    rw [hdata, List.count_singleton, if_neg (by simpa using Ne.symm hs'), if_neg (Ne.symm hs')]
    rfl

end Moves

/-! ## 6. The moves of the ring and of the pump -/

/-- **The ring accepts IOs**: their numbers were not in the ledger. -/
theorem Glue.accept (h : Glue d σ) {i first n : Nat} {c c' : Caller}
    (hc : d.callers[i]? = some c)
    (hfresh : ∀ s ∈ List.range' first n, s ∉ d.accepted.map Prod.fst)
    (htodo : c.phase.todo = []) (htodo' : c'.phase.todo = List.range' first n)
    (hslot : c'.phase.slot = c.phase.slot) (hgot : c'.got = c.got) :
    ∃ σ', Glue { d with
      inflight := d.inflight ++ List.range' first n
      accepted := d.accepted ++ (List.range' first n).map (fun s => (s, i))
      callers := d.callers.set i c' } σ' := by
  have hnew : ∀ s ∈ List.range' first n, σ s = none := by
    intro s hs
    have hacc : (d.accepted.map Prod.fst).count s = (sightOf (σ s)).accepted :=
      congrArg Sight.accepted (h.sight s)
    rw [List.count_eq_zero_of_not_mem (hfresh s hs)] at hacc
    cases hio : σ s with
    | none => rfl
    | some io =>
      rw [hio] at hacc
      cases io with
      | fresh j l => cases l <;> cases hacc
      | awaited j ch l => cases l <;> cases hacc
      | kept j => cases hacc
      | sending j ch => cases hacc
      | arrived j ch => cases hacc
      | received j => cases hacc
  have hone : ∀ s ∈ List.range' first n, (List.range' first n).count s = 1 := fun s hs =>
    List.count_eq_one_of_mem List.nodup_range' hs
  have hfst : ((List.range' first n).map (fun s => (s, i))).map Prod.fst = List.range' first n := by
    rw [List.map_map]
    exact List.map_id _
  refine ⟨fun s => if s ∈ List.range' first n then some (.fresh i .ring) else σ s, ?_, ?_, ?_, ?_,
    ?_, ?_⟩
  · intro s
    have hsight := h.sight s
    show Sight.mk ((d.accepted ++ _).map Prod.fst |>.count s) ((d.inflight ++ _).count s) _ _ _ _ _
      = _
    rw [List.map_append, hfst, List.count_append, List.count_append]
    by_cases hs : s ∈ List.range' first n
    · rw [if_pos hs, hone s hs]
      rw [hnew s hs] at hsight
      exact congrArg (fun x => { x with
        accepted := x.accepted + 1
        inflight := x.inflight + 1 }) hsight
    · rw [if_neg hs, List.count_eq_zero_of_not_mem hs]
      exact hsight
  · intro j cj hcj s
    rw [List.getElem?_set] at hcj
    split at hcj
    · rename_i hij
      subst hij
      split at hcj
      · cases hcj
        have hview := h.view i c hc s
        unfold Caller.view at hview ⊢
        rw [htodo] at hview
        rw [htodo', hslot, hgot]
        by_cases hs : s ∈ List.range' first n
        · rw [hnew s hs] at hview
          rw [if_pos hs, hone s hs, viewOf_owner (show (Io.fresh i .ring).owner = i from rfl)]
          exact congrArg (fun x => { x with todo := 1 }) hview
        · rw [if_neg hs, List.count_eq_zero_of_not_mem hs]
          exact hview
      · cases hcj
    · rename_i hij
      by_cases hs : s ∈ List.range' first n
      · rw [if_pos hs, viewOf_of_owner_ne (show (Io.fresh i .ring).owner ≠ j from hij),
          h.view j cj hcj s, hnew s hs]
        rfl
      · rw [if_neg hs]
        exact h.view j cj hcj s
  · intro s j hmem
    rcases List.mem_append.mp hmem with hmem | hmem
    · obtain ⟨io, hio, howner⟩ := h.owner s j hmem
      have hs : s ∉ List.range' first n := fun hs =>
        hfresh s hs (List.mem_map.mpr ⟨(s, j), hmem, rfl⟩)
      exact ⟨io, by rw [if_neg hs, hio], howner⟩
    · obtain ⟨s', hs', heq⟩ := List.mem_map.mp hmem
      cases heq
      exact ⟨.fresh i .ring, if_pos hs', rfl⟩
  · intro s io hio
    rw [List.length_set]
    split at hio
    · cases hio
      exact (List.getElem?_eq_some_iff.mp hc).1
    · exact h.caller s io hio
  · intro s io ch hio hch
    split at hio
    · cases hio
      cases hch
    · exact h.link_lt s io ch hio hch
  · intro s s' io io' ch hio hio' hch hch'
    split at hio
    · cases hio
      cases hch
    split at hio'
    · cases hio'
      cases hch'
    · exact h.link_inj s s' io io' ch hio hio' hch hch'

/-- From the ring to the pump. -/
def Io.taken : Io → Io
  | .fresh i _ => .fresh i .pump
  | .awaited i ch _ => .awaited i ch .pump
  | io => io

@[simp] theorem Io.owner_taken (io : Io) : io.taken.owner = io.owner := by cases io <;> rfl

@[simp] theorem Io.link_taken (io : Io) : io.taken.link = io.link := by cases io <;> rfl

@[simp] theorem Io.view_taken (io : Io) : io.taken.view = io.view := by cases io <;> rfl

theorem viewOf_taken (i : Nat) (io? : Option Io) : viewOf i (io?.map Io.taken) = viewOf i io? := by
  cases io? with
  | none => rfl
  | some io =>
    unfold viewOf
    simp only [Option.map_some, Io.owner_taken, Io.view_taken]

/-- An IO in the ring, and after its completion has been taken. -/
theorem sightOf_taken {io? : Option Io} (h : (sightOf io?).inflight ≠ 0) :
    sightOf (io?.map Io.taken) =
      { sightOf io? with inflight := 0, completed := 1, held := 1 } ∧
      (sightOf io?).completed = 0 ∧ (sightOf io?).held = 0 := by
  cases io? with
  | none => exact absurd rfl h
  | some io =>
    cases io with
    | fresh i l =>
      cases l with
      | ring => exact ⟨rfl, rfl, rfl⟩
      | pump => exact absurd rfl h
    | awaited i ch l =>
      cases l with
      | ring => exact ⟨rfl, rfl, rfl⟩
      | pump => exact absurd rfl h
    | kept i => exact absurd rfl h
    | sending i ch => exact absurd rfl h
    | arrived i ch => exact absurd rfl h
    | received i => exact absurd rfl h

/-- **The pump takes completions.** -/
theorem Glue.wait (h : Glue d σ) {evs : List Event} (hidle : d.pump = .idle)
    (hnodup : (evs.map Event.data).Nodup) (hin : ∀ ev ∈ evs, ev.data ∈ d.inflight) :
    ∃ σ', Glue { d with
      pump := .holding evs
      inflight := d.inflight.filter (fun s => s ∉ evs.map Event.data)
      completed := d.completed ++ evs } σ' := by
  have hring : ∀ s ∈ evs.map Event.data, (sightOf (σ s)).inflight ≠ 0 := by
    intro s hs
    obtain ⟨ev, hev, rfl⟩ := List.mem_map.mp hs
    have hcount : d.inflight.count ev.data = (sightOf (σ ev.data)).inflight :=
      congrArg Sight.inflight (h.sight ev.data)
    rw [← hcount]
    exact Nat.pos_iff_ne_zero.mp (List.count_pos_iff.mpr (hin ev hev))
  -- whose an IO is, and its channel, do not change
  have hback : ∀ s io, (if s ∈ evs.map Event.data then (σ s).map Io.taken else σ s) = some io →
      ∃ io₀, σ s = some io₀ ∧ io.owner = io₀.owner ∧ io.link = io₀.link := by
    intro s io hio
    split at hio
    · obtain ⟨io₀, hio₀, rfl⟩ := Option.map_eq_some_iff.mp hio
      exact ⟨io₀, hio₀, io₀.owner_taken, io₀.link_taken⟩
    · exact ⟨io, hio, rfl, rfl⟩
  refine ⟨fun s => if s ∈ evs.map Event.data then (σ s).map Io.taken else σ s, ?_, ?_, ?_, ?_,
    ?_, ?_⟩
  · intro s
    have hsight := h.sight s
    show Sight.mk _ ((d.inflight.filter _).count s) (((d.completed ++ evs).map Event.data).count s)
      ((evs.map Event.data).count s) _ _ _ = _
    rw [List.map_append, List.count_append]
    by_cases hs : s ∈ evs.map Event.data
    · obtain ⟨htaken, hcompleted, -⟩ := sightOf_taken (hring s hs)
      have hzero : (d.completed.map Event.data).count s = 0 := by
        rw [← hcompleted, ← hsight]
        rfl
      have hfilter : (d.inflight.filter (fun s => s ∉ evs.map Event.data)).count s = 0 := by
        refine List.count_eq_zero_of_not_mem fun hmem => ?_
        exact absurd hs (of_decide_eq_true (List.mem_filter.mp hmem).2)
      rw [if_pos hs, htaken, List.count_eq_one_of_mem hnodup hs, hzero, hfilter, ← hsight]
      unfold Device.sight
      rw [hidle]
      rfl
    · have hfilter : (d.inflight.filter (fun s => s ∉ evs.map Event.data)).count s =
          d.inflight.count s := List.count_filter (decide_eq_true hs)
      rw [if_neg hs, List.count_eq_zero_of_not_mem hs, hfilter, ← hsight]
      unfold Device.sight
      rw [hidle]
      rfl
  · intro i c hc s
    rw [h.view i c hc s]
    split
    · exact (viewOf_taken i (σ s)).symm
    · rfl
  · intro s i hmem
    obtain ⟨io, hio, howner⟩ := h.owner s i hmem
    rw [hio]
    split
    · exact ⟨io.taken, rfl, io.owner_taken.trans howner⟩
    · exact ⟨io, rfl, howner⟩
  · intro s io hio
    obtain ⟨io₀, hio₀, howner, -⟩ := hback s io hio
    rw [howner]
    exact h.caller s io₀ hio₀
  · intro s io ch hio hch
    obtain ⟨io₀, hio₀, -, hlink⟩ := hback s io hio
    exact h.link_lt s io₀ ch hio₀ (hlink ▸ hch)
  · intro s s' io io' ch hio hio' hch hch'
    obtain ⟨io₀, hio₀, -, hlink⟩ := hback s io hio
    obtain ⟨io₁, hio₁, -, hlink'⟩ := hback s' io' hio'
    exact h.link_inj s s' io₀ io₁ ch hio₀ hio₁ (hlink ▸ hch) (hlink' ▸ hch')

/-- What the callers say while the pump takes an IO further. -/
theorem Glue.view_same (h : Glue d σ) {s : Nat} {io io' : Io} (hio : σ s = some io)
    (howner : io'.owner = io.owner) (hview : io'.view = io.view) (i : Nat) (c : Caller)
    (hc : d.callers[i]? = some c) : ∃ c', d.callers[i]? = some c' ∧
      c.view s = viewOf i (some io') ∧ ∀ s', s' ≠ s → c.view s' = c'.view s' := by
  refine ⟨c, hc, ?_, fun s' _ => rfl⟩
  rw [h.view i c hc s, hio]
  unfold viewOf
  simp only [howner, hview]

/-- The IO of an event that the pump has to dispatch. -/
theorem Glue.io_of_held (h : Glue d σ) {ev : Event} {rest : List Event}
    (hpump : d.pump = .holding (ev :: rest)) :
    (∃ i, σ ev.data = some (.fresh i .pump)) ∨ ∃ i ch, σ ev.data = some (.awaited i ch .pump) := by
  have hheld : (d.pump.todo.map Event.data).count ev.data = (sightOf (σ ev.data)).held :=
    congrArg Sight.held (h.sight ev.data)
  rw [hpump] at hheld
  have hpos : (sightOf (σ ev.data)).held ≠ 0 := by
    rw [← hheld]
    exact Nat.pos_iff_ne_zero.mp (List.count_pos_iff.mpr List.mem_cons_self)
  cases hio : σ ev.data with
  | none =>
    rw [hio] at hpos
    exact absurd rfl hpos
  | some io =>
    rw [hio] at hpos
    cases io with
    | fresh i l =>
      cases l with
      | ring => exact absurd rfl hpos
      | pump => exact .inl ⟨i, rfl⟩
    | awaited i ch l =>
      cases l with
      | ring => exact absurd rfl hpos
      | pump => exact .inr ⟨i, ch, rfl⟩
    | kept i => exact absurd rfl hpos
    | sending i ch => exact absurd rfl hpos
    | arrived i ch => exact absurd rfl hpos
    | received i => exact absurd rfl hpos

/-- The pump has each event once. -/
theorem Glue.count_rest (h : Glue d σ) {ev : Event} {rest : List Event}
    (hpump : d.pump = .holding (ev :: rest)) : (rest.map Event.data).count ev.data = 0 := by
  have hheld : (d.pump.todo.map Event.data).count ev.data = (sightOf (σ ev.data)).held :=
    congrArg Sight.held (h.sight ev.data)
  rw [hpump] at hheld
  have hone : (sightOf (σ ev.data)).held = 1 := by
    rcases h.io_of_held hpump with ⟨i, hio⟩ | ⟨i, ch, hio⟩
    · rw [hio]
      rfl
    · rw [hio]
      rfl
  rw [hone] at hheld
  have hcons : ((ev :: rest).map Event.data).count ev.data = (rest.map Event.data).count ev.data + 1 :=
    List.count_cons_self
  have : ((ev :: rest).map Event.data).count ev.data = 1 := hheld
  omega

/-- **The pump keeps an event** for which no channel is registered. -/
theorem Glue.store (h : Glue d σ) {ev : Event} {rest : List Event}
    (hpump : d.pump = .holding (ev :: rest)) (hm : d.m.find? ev.data = none) :
    ∃ σ', Glue { d with
      pending := d.pending.insert ev.data ev
      pump := .holding rest } σ' := by
  have hchan : d.m.find? ev.data = (sightOf (σ ev.data)).chan :=
    congrArg Sight.chan (h.sight ev.data)
  obtain ⟨i, hio⟩ : ∃ i, σ ev.data = some (.fresh i .pump) := by
    rcases h.io_of_held hpump with hfresh | ⟨i, ch, hio⟩
    · exact hfresh
    · rw [hm, hio] at hchan
      cases hchan
  have hsight := h.sight ev.data
  rw [hio] at hsight
  refine ⟨_, h.move hio (show (Io.kept i).owner = _ from rfl) (fun ch hch => (nomatch hch)) rfl
    (Nat.le_refl d.made) ?_ ?_ rfl (h.view_same hio rfl rfl)⟩
  · show Sight.mk _ _ _ ((rest.map Event.data).count ev.data)
      ((d.pending.insert ev.data ev).find? ev.data).isSome _ none = _
    rw [SortedMap.find?_insert_self, h.count_rest hpump]
    exact congrArg (fun x => { x with held := 0, kept := true, sends := none }) hsight
  · intro s hs
    show Sight.mk _ _ _ ((rest.map Event.data).count s)
      ((d.pending.insert ev.data ev).find? s).isSome _ none = _
    rw [SortedMap.find?_insert, if_neg hs]
    unfold Device.sight
    rw [hpump]
    show _ = Sight.mk _ _ _ (((ev :: rest).map Event.data).count s) _ _ none
    rw [List.map_cons, List.count_cons_of_ne (Ne.symm hs)]

/-- **The pump takes the channel of an event.** -/
theorem Glue.matched (h : Glue d σ) {ev : Event} {rest : List Event} {ch : Nat}
    (hpump : d.pump = .holding (ev :: rest)) (hm : d.m.find? ev.data = some ch) :
    ∃ σ', Glue { d with m := d.m.erase ev.data, pump := .sending ch ev rest } σ' := by
  have hchan : d.m.find? ev.data = (sightOf (σ ev.data)).chan :=
    congrArg Sight.chan (h.sight ev.data)
  obtain ⟨i, hio⟩ : ∃ i, σ ev.data = some (.awaited i ch .pump) := by
    rcases h.io_of_held hpump with ⟨i, hio⟩ | ⟨i, ch', hio⟩
    · rw [hm, hio] at hchan
      cases hchan
    · rw [hm, hio] at hchan
      cases hchan
      exact ⟨i, hio⟩
  have hsight := h.sight ev.data
  rw [hio] at hsight
  refine ⟨_, h.move hio (show (Io.sending i ch).owner = _ from rfl) (fun ch' hch' => .inl hch') rfl
    (Nat.le_refl d.made) ?_ ?_ rfl (h.view_same hio rfl rfl)⟩
  · show Sight.mk _ _ _ ((rest.map Event.data).count ev.data) _
      ((d.m.erase ev.data).find? ev.data) (if ev.data = ev.data then some ch else none) = _
    rw [SortedMap.find?_erase, if_pos rfl, if_pos rfl, h.count_rest hpump]
    exact congrArg (fun x => { x with held := 0, chan := none, sends := some ch }) hsight
  · intro s hs
    show Sight.mk _ _ _ ((rest.map Event.data).count s) _
      ((d.m.erase ev.data).find? s) (if ev.data = s then some ch else none) = _
    rw [SortedMap.find?_erase, if_neg hs, if_neg (Ne.symm hs)]
    unfold Device.sight
    rw [hpump]
    show _ = Sight.mk _ _ _ (((ev :: rest).map Event.data).count s) _ _ none
    rw [List.map_cons, List.count_cons_of_ne (Ne.symm hs)]

/-! ## 7. A send -/

/-- A caller that waits on another channel, or on none, is not concerned. -/
theorem deliver_of_ne {c : Caller} {ch : Nat} (ev : Event)
    (h : ∀ s, c.phase.slot ≠ some (s, ch, none)) : c.deliver ch ev = c := by
  obtain ⟨phase, got⟩ := c
  unfold Caller.deliver
  split
  · rename_i k s ch' hphase
    split
    · rename_i hch
      subst hch
      simp only at hphase
      exact absurd (by rw [hphase]; rfl) (h s)
    · rfl
  · rename_i len retry k s ch' todo evs hphase
    split
    · rename_i hch
      subst hch
      simp only at hphase
      exact absurd (by rw [hphase]; rfl) (h s)
    · rfl
  · rfl

/-- The event is in the channel after the send, and nothing else has changed. -/
theorem deliver_of_slot {c : Caller} {s ch : Nat} (ev : Event)
    (h : c.phase.slot = some (s, ch, none)) :
    (c.deliver ch ev).phase.slot = some (s, ch, some ev) ∧
      (c.deliver ch ev).phase.todo = c.phase.todo ∧ (c.deliver ch ev).got = c.got := by
  obtain ⟨phase, got⟩ := c
  cases phase with
  | ready p => cases h
  | one k ph =>
    cases ph with
    | waiting s' ch' buf =>
      cases h
      simp [Caller.deliver, Phase.slot, Phase.todo]
    | submitting => cases h
    | refused full => cases h
    | accepted s' => cases h
    | handing s' ch' ev' => cases h
  | batch len retry k ph =>
    cases ph with
    | waiting s' ch' buf todo evs =>
      cases h
      simp [Caller.deliver, Phase.slot, Phase.todo]
    | submitting => cases h
    | refused => cases h
    | collecting todo evs => cases h
    | abandoned => cases h

/-- The IO whose event is about to be sent. -/
theorem Glue.io_of_sending (h : Glue d σ) {ch : Nat} {ev : Event} {rest : List Event}
    (hpump : d.pump = .sending ch ev rest) : ∃ i, σ ev.data = some (.sending i ch) := by
  have hsends : d.pump.sends ev.data = (sightOf (σ ev.data)).sends :=
    congrArg Sight.sends (h.sight ev.data)
  rw [hpump] at hsends
  have hsome : (sightOf (σ ev.data)).sends = some ch := by
    rw [← hsends]
    exact if_pos rfl
  cases hio : σ ev.data with
  | none =>
    rw [hio] at hsome
    cases hsome
  | some io =>
    rw [hio] at hsome
    cases io with
    | sending i ch' =>
      cases hsome
      exact ⟨i, rfl⟩
    | fresh i l => cases l <;> cases hsome
    | awaited i ch' l => cases l <;> cases hsome
    | kept i => cases hsome
    | arrived i ch' => cases hsome
    | received i => cases hsome

theorem slot_of_waitsOn {s ch : Nat} {slot : Option (Nat × Nat × Option Event)}
    (h : waitsOn s slot = some ch) : slot = some (s, ch, none) := by
  rcases slot with _ | ⟨s', ch', _ | ev⟩
  · cases h
  · unfold waitsOn at h
    simp only at h
    split at h
    · rename_i hs
      cases h
      rw [hs]
    · cases h
  · cases h

/-- Only the submitter waits on the channel, and for this IO. -/
theorem Glue.slot_of_sending (h : Glue d σ) {i j s ch : Nat} {ev : Event} {c : Caller}
    (hio : σ ev.data = some (.sending i ch)) (hc : d.callers[j]? = some c)
    (hslot : c.phase.slot = some (s, ch, none)) : s = ev.data ∧ j = i := by
  rcases h.io_of_waits hc hslot with ⟨l, hs⟩ | hs
  · obtain rfl := h.link_inj s ev.data _ _ ch hs hio rfl rfl
    rw [hio] at hs
    cases hs
  · obtain rfl := h.link_inj s ev.data _ _ ch hs hio rfl rfl
    rw [hio] at hs
    cases hs
    exact ⟨rfl, rfl⟩

/-- **The pump sends an event to its channel**: the submitter has it. -/
theorem Glue.send (h : Glue d σ) {ch : Nat} {ev : Event} {rest : List Event}
    (hpump : d.pump = .sending ch ev rest) :
    ∃ σ', Glue { d with
      callers := d.callers.map (Caller.deliver ch ev)
      pump := .holding rest } σ' := by
  obtain ⟨i, hio⟩ := h.io_of_sending hpump
  have hsight := h.sight ev.data
  rw [hio] at hsight
  unfold Device.sight at hsight
  rw [hpump] at hsight
  refine ⟨_, h.move hio (show (Io.arrived i ch).owner = _ from rfl) (fun ch' hch' => .inl hch') rfl
    (Nat.le_refl d.made) ?_ ?_ (List.length_map _) ?_⟩
  · exact congrArg (fun x => { x with sends := none }) hsight
  · intro s hs
    show Sight.mk _ _ _ _ _ _ none = _
    unfold Device.sight
    rw [hpump]
    show _ = Sight.mk _ _ _ _ _ _ (if ev.data = s then some ch else none)
    rw [if_neg (Ne.symm hs)]
    rfl
  · intro j c' hc'
    rw [List.getElem?_map] at hc'
    obtain ⟨c, hc, rfl⟩ := Option.map_eq_some_iff.mp hc'
    refine ⟨c, hc, ?_⟩
    by_cases hslot : ∃ s, c.phase.slot = some (s, ch, none)
    · obtain ⟨s, hslot⟩ := hslot
      obtain ⟨rfl, rfl⟩ := h.slot_of_sending hio hc hslot
      obtain ⟨hslot', htodo, hgot⟩ := deliver_of_slot ev hslot
      have hview := h.view_owner hc hio rfl
      constructor
      · rw [viewOf_owner (show (Io.arrived j ch).owner = j from rfl)]
        unfold Caller.view at hview ⊢
        rw [hslot', htodo, hgot]
        show View.mk _ none (if ev.data = ev.data then some ch else none) _ = _
        rw [if_pos rfl]
        exact congrArg (fun x => { x with waits := none, holds := some ch }) hview
      · intro s' hs'
        unfold Caller.view
        rw [hslot', htodo, hgot, hslot]
        show View.mk _ none (if ev.data = s' then some ch else none) _ =
          View.mk _ (if ev.data = s' then some ch else none) none _
        rw [if_neg (Ne.symm hs')]
    · -- no other caller waits on this channel
      rw [deliver_of_ne ev (fun s hs => hslot ⟨s, hs⟩)]
      refine ⟨?_, fun s' _ => rfl⟩
      have hview := h.view j c hc ev.data
      by_cases hji : j = i
      · subst hji
        have hwaits := congrArg View.waits (h.view_owner hc hio rfl)
        exact absurd ⟨ev.data, slot_of_waitsOn hwaits⟩ hslot
      · rw [hview, hio, viewOf_of_owner_ne (show (Io.sending i ch).owner ≠ j from Ne.symm hji),
          viewOf_of_owner_ne (show (Io.arrived i ch).owner ≠ j from Ne.symm hji)]

end Taihu.CompletionPump
