/-
# Every completion reaches its submitter

The pump ends only when the device is closed, no channel is registered and `inSubmit` is zero.
`inSubmit` is the sum of what the callers have raised it by and not yet lowered
(`Inv.count`), and a caller lowers it only when its IO is registered, or its batch complete: with
the sum zero and no channel registered, every IO has been received, or its event is in the
channel.

The invariant says this beside the ledger of `PumpLedger`; every step keeps it, and what is asked
of the device in every state (`Device.Delivers`) is read off it.
-/
import Taihu.PumpLedger
import Taihu.Lib.Machine
import Mathlib

namespace Taihu.CompletionPump

/-! ## 1. The invariant -/

namespace Phase

/-- By how much the caller has raised `inSubmit`. -/
def weight : Phase → Int
  | ready _ => 0
  | one _ .submitting => 1
  | one _ (.refused _) => 1
  | one _ (.accepted _) => 1
  | one _ _ => 0
  | batch len _ _ _ => len

/-- A batch of which something has been accepted is not empty. -/
def Sized : Phase → Prop
  | batch len _ _ (.collecting _ _) => 0 < len
  | batch len _ _ (.waiting _ _ _ _ _) => 0 < len
  | batch len _ _ .abandoned => 0 < len
  | _ => True

end Phase

/-- Every event around is one of the ring's, and is kept and received under its own number. -/
structure Genuine (d : Device) : Prop where
  pump : ∀ ev ∈ d.pump.events, ev ∈ d.completed
  pending : ∀ s ev, d.pending.find? s = some ev → ev.data = s ∧ ev ∈ d.completed
  slot : ∀ (i : Nat) (c : Caller), d.callers[i]? = some c → ∀ s ch ev, c.phase.slot = some (s, ch, some ev) →
    ev.data = s ∧ ev ∈ d.completed
  got : ∀ (i : Nat) (c : Caller), d.callers[i]? = some c → ∀ ev ∈ c.got, ev ∈ d.completed

structure Inv (d : Device) (σ : Nat → Option Io) : Prop where
  glue : Glue d σ
  genuine : Genuine d
  count : d.inSubmit = (d.callers.map (fun c => c.phase.weight)).sum
  sized : ∀ (i : Nat) (c : Caller), d.callers[i]? = some c → c.phase.Sized
  exited : d.pump = .exited → d.closed = true ∧ d.m.keys = [] ∧ d.inSubmit = 0
  destroyed : d.destroyed = true → d.pump = .exited

variable {d d' : Device} {σ : Nat → Option Io}

/-! ## 2. Steps -/

theorem Genuine.set (h : Genuine d) {i : Nat} {c' : Caller}
    (hcallers : d'.callers = d.callers.set i c') (hpump : d'.pump = d.pump)
    (hcompleted : d'.completed = d.completed)
    (hpending : ∀ s ev, d'.pending.find? s = some ev → d.pending.find? s = some ev)
    (hslot : ∀ s ch ev, c'.phase.slot = some (s, ch, some ev) → ev.data = s ∧ ev ∈ d.completed)
    (hgot : ∀ ev ∈ c'.got, ev ∈ d.completed) : Genuine d' where
  pump := fun ev hev => hcompleted ▸ h.pump ev (hpump ▸ hev)
  pending := fun s ev hev => hcompleted ▸ h.pending s ev (hpending s ev hev)
  slot := by
    intro j cj hcj s ch ev hs
    rw [hcompleted]
    rw [hcallers, List.getElem?_set] at hcj
    split at hcj
    · split at hcj
      · cases hcj
        exact hslot s ch ev hs
      · cases hcj
    · exact h.slot j cj hcj s ch ev hs
  got := by
    intro j cj hcj ev hev
    rw [hcompleted]
    rw [hcallers, List.getElem?_set] at hcj
    split at hcj
    · split at hcj
      · cases hcj
        exact hgot ev hev
      · cases hcj
    · exact h.got j cj hcj ev hev

theorem weight_nonneg (ph : Phase) : 0 ≤ ph.weight := by
  cases ph with
  | ready p => exact Int.le_refl 0
  | one k ph => cases ph <;> simp [Phase.weight]
  | batch len retry k ph => exact Int.natCast_nonneg len

theorem Inv.weight_le (h : Inv d σ) {i : Nat} {c : Caller} (hc : d.callers[i]? = some c) :
    c.phase.weight ≤ d.inSubmit := by
  rw [h.count]
  refine List.single_le_sum ?_ _ (List.mem_map.mpr ⟨c, List.mem_of_getElem? hc, rfl⟩)
  intro x hx
  obtain ⟨c', -, rfl⟩ := List.mem_map.mp hx
  exact weight_nonneg c'.phase

/-- A caller that has raised `inSubmit` keeps the pump going. -/
theorem Inv.not_exited (h : Inv d σ) {i : Nat} {c : Caller} (hc : d.callers[i]? = some c)
    (hpos : 0 < c.phase.weight) : d.pump ≠ .exited := by
  intro hexited
  have hle := h.weight_le hc
  rw [(h.exited hexited).2.2] at hle
  exact absurd hpos (not_lt.mpr hle)

/-- **A step of caller `i`**, from what it does to its IO, to its events and to `inSubmit`. -/
theorem Inv.set {σ' : Nat → Option Io} (h : Inv d σ) {i : Nat} {c c' : Caller}
    (hc : d.callers[i]? = some c) (hcallers : d'.callers = d.callers.set i c')
    (hglue : Glue d' σ') (hgen : Genuine d')
    (hcount : d'.inSubmit = d.inSubmit + c'.phase.weight - c.phase.weight)
    (hsized : c'.phase.Sized) (hpump : d'.pump = d.pump) (hclosed : d'.closed = d.closed)
    (hdestroyed : d'.destroyed = d.destroyed)
    (hquiet : d.pump = .exited → d'.m.keys = [] ∧ d'.inSubmit = 0) : Inv d' σ' where
  glue := hglue
  genuine := hgen
  count := by
    have hold : (d.callers.map (fun c => c.phase.weight)).sum =
        c.phase.weight + ((d.callers.eraseIdx i).map (fun c => c.phase.weight)).sum :=
      ((Concur.perm_cons_eraseIdx hc).map _).sum_eq
    have hnew : ((d.callers.set i c').map (fun c => c.phase.weight)).sum =
        c'.phase.weight + ((d.callers.eraseIdx i).map (fun c => c.phase.weight)).sum :=
      ((Concur.set_perm_cons hc c').map _).sum_eq
    have hsum := h.count
    rw [hcallers, hnew]
    omega
  sized := by
    intro j cj hcj
    rw [hcallers, List.getElem?_set] at hcj
    split at hcj
    · split at hcj
      · cases hcj
        exact hsized
      · cases hcj
    · exact h.sized j cj hcj
  exited := by
    intro hexited
    rw [hpump] at hexited
    exact ⟨hclosed.trans (h.exited hexited).1, hquiet hexited⟩
  destroyed := by
    intro hd
    rw [hpump]
    exact h.destroyed (hdestroyed ▸ hd)

/-- A step that moves no IO: the caller says the same of every number, and has the same events. -/
theorem Inv.stay (h : Inv d σ) {i : Nat} {c c' : Caller} (hc : d.callers[i]? = some c) (x : Int)
    (htodo : c'.phase.todo = c.phase.todo)
    (hwaits : ∀ s, waitsOn s c'.phase.slot = waitsOn s c.phase.slot)
    (hholds : ∀ s, holdsOn s c'.phase.slot = holdsOn s c.phase.slot)
    (hslot : ∀ s ch ev, c'.phase.slot = some (s, ch, some ev) →
      c.phase.slot = some (s, ch, some ev)) (hgot : c'.got = c.got)
    (hcount : x = d.inSubmit + c'.phase.weight - c.phase.weight) (hsized : c'.phase.Sized)
    (hquiet : d.pump = .exited → x = 0) :
    Inv { d with inSubmit := x, callers := d.callers.set i c' } σ := by
  have hview : ∀ s, c'.view s = c.view s := by
    intro s
    unfold Caller.view
    rw [htodo, hwaits, hholds, hgot]
  refine h.set hc rfl (h.glue.stay hc (fun s => rfl) rfl rfl rfl hview) ?_ hcount hsized rfl rfl rfl
    (fun hexited => ⟨(h.exited hexited).2.1, hquiet hexited⟩)
  refine h.genuine.set rfl rfl rfl (fun _ _ hev => hev) ?_ ?_
  · exact fun s ch ev hs => h.genuine.slot i c hc s ch ev (hslot s ch ev hs)
  · intro ev hev
    exact h.genuine.got i c hc ev (hgot ▸ hev)

section CallerSteps

variable {i : Nat} {c c' : Caller} {d₁ : Device}

/-- The caller whose IO is `s` registers it. -/
theorem Inv.register (h : Inv d σ) (hc : d.callers[i]? = some c) {s : Nat}
    (hkept : d.pending.find? s = none) (htodo : c.phase.todo = s :: c'.phase.todo)
    (hslot : c.phase.slot = none) (hslot' : c'.phase.slot = some (s, d.made, none))
    (hgot : c'.got = c.got) (x : Int) (hcount : x = d.inSubmit + c'.phase.weight - c.phase.weight)
    (hsized : c'.phase.Sized) (hpos : 0 < c.phase.weight) :
    ∃ σ', Inv { d with
      inSubmit := x
      m := d.m.insert s d.made
      made := d.made + 1
      callers := d.callers.set i c' } σ' := by
  obtain ⟨σ', hglue⟩ := h.glue.register hc hkept htodo hslot hslot' hgot x
  refine ⟨σ', h.set hc rfl hglue ?_ hcount hsized rfl rfl rfl
    (fun hexited => absurd hexited (h.not_exited hc hpos))⟩
  refine h.genuine.set rfl rfl rfl (fun _ _ hev => hev) ?_ ?_
  · intro s' ch ev hs
    rw [hslot'] at hs
    cases hs
  · intro ev hev
    exact h.genuine.got i c hc ev (hgot ▸ hev)

/-- The map without a number. -/
theorem find?_of_erase {m : SortedMap Nat Event} {s s' : Nat} {ev : Event}
    (h : (m.erase s).find? s' = some ev) : m.find? s' = some ev := by
  rw [SortedMap.find?_erase] at h
  split at h
  · cases h
  · exact h

/-- The caller whose IO is `s` finds its event kept. -/
theorem Inv.hand (h : Inv d σ) (hc : d.callers[i]? = some c) {s : Nat} {ev : Event}
    (hkept : d.pending.find? s = some ev) (htodo : c.phase.todo = s :: c'.phase.todo)
    (hslot : c.phase.slot = none) (hslot' : c'.phase.slot = some (s, d.made, some ev))
    (hgot : c'.got = c.got) (x : Int) (hcount : x = d.inSubmit + c'.phase.weight - c.phase.weight)
    (hsized : c'.phase.Sized) (hpos : 0 < c.phase.weight) :
    ∃ σ', Inv { d with
      inSubmit := x
      pending := d.pending.erase s
      made := d.made + 1
      callers := d.callers.set i c' } σ' := by
  obtain ⟨σ', hglue⟩ := h.glue.hand hc hkept htodo hslot hslot' hgot x
  refine ⟨σ', h.set hc rfl hglue ?_ hcount hsized rfl rfl rfl
    (fun hexited => absurd hexited (h.not_exited hc hpos))⟩
  refine h.genuine.set rfl rfl rfl (fun _ _ hev => find?_of_erase hev) ?_ ?_
  · intro s' ch ev' hs
    rw [hslot'] at hs
    cases hs
    exact h.genuine.pending s ev hkept
  · intro ev' hev
    exact h.genuine.got i c hc ev' (hgot ▸ hev)

/-- A batch finds the event of its next IO kept. -/
theorem Inv.take (h : Inv d σ) (hc : d.callers[i]? = some c) {s : Nat} {ev : Event}
    (hkept : d.pending.find? s = some ev) (htodo : c.phase.todo = s :: c'.phase.todo)
    (hslot : c.phase.slot = none) (hslot' : c'.phase.slot = none) (hgot : c'.got = c.got ++ [ev])
    (hweight : c'.phase.weight = c.phase.weight) (hsized : c'.phase.Sized)
    (hpos : 0 < c.phase.weight) :
    ∃ σ', Inv { d with
      pending := d.pending.erase s
      made := d.made + 1
      callers := d.callers.set i c' } σ' := by
  obtain ⟨hdata, hmem⟩ := h.genuine.pending s ev hkept
  obtain ⟨σ', hglue⟩ := h.glue.take hc hkept hdata htodo hslot hslot' hgot
  refine ⟨σ', h.set hc rfl hglue ?_ ?_ hsized rfl rfl rfl
    (fun hexited => absurd hexited (h.not_exited hc hpos))⟩
  · refine h.genuine.set rfl rfl rfl (fun _ _ hev => find?_of_erase hev) ?_ ?_
    · intro s' ch ev' hs
      rw [hslot'] at hs
      cases hs
    · intro ev' hev
      rw [hgot] at hev
      rcases List.mem_append.mp hev with hev | hev
      · exact h.genuine.got i c hc ev' hev
      · rwa [List.mem_singleton.mp hev]
  · show d.inSubmit = _
    rw [hweight]
    omega

/-- A caller receives from its channel. -/
theorem Inv.receive (h : Inv d σ) (hc : d.callers[i]? = some c) {s ch : Nat} {ev : Event}
    (htodo : c'.phase.todo = c.phase.todo) (hslot : c.phase.slot = some (s, ch, some ev))
    (hslot' : c'.phase.slot = none) (hgot : c'.got = c.got ++ [ev])
    (hweight : c'.phase.weight = c.phase.weight) (hsized : c'.phase.Sized) :
    ∃ σ', Inv { d with callers := d.callers.set i c' } σ' := by
  obtain ⟨hdata, hmem⟩ := h.genuine.slot i c hc s ch ev hslot
  obtain ⟨σ', hglue⟩ := h.glue.receive hc hdata htodo hslot hslot' hgot
  refine ⟨σ', h.set hc rfl hglue ?_ ?_ hsized rfl rfl rfl
    (fun hexited => ⟨(h.exited hexited).2.1, (h.exited hexited).2.2⟩)⟩
  · refine h.genuine.set rfl rfl rfl (fun _ _ hev => hev) ?_ ?_
    · intro s' ch' ev' hs
      rw [hslot'] at hs
      cases hs
    · intro ev' hev
      rw [hgot] at hev
      rcases List.mem_append.mp hev with hev | hev
      · exact h.genuine.got i c hc ev' hev
      · rwa [List.mem_singleton.mp hev]
  · show d.inSubmit = _
    rw [hweight]
    omega

/-- A caller lowers `inSubmit` by what it had raised it, and goes on. -/
theorem Inv.leave (h : Inv d σ) (hc : d.callers[i]? = some c) (p : Prog)
    (htodo : c.phase.todo = []) (hslot : c.phase.slot = none) (x : Int)
    (hcount : x = d.inSubmit - c.phase.weight) :
    Inv { d with inSubmit := x, callers := d.callers.set i ⟨.ready p, c.got⟩ } σ := by
  refine h.stay hc x htodo.symm (fun s => by rw [hslot]; rfl) (fun s => by rw [hslot]; rfl)
    (fun s ch ev hs => (nomatch hs)) rfl ?_ trivial ?_
  · rw [hcount]
    show _ = _ + 0 - _
    omega
  · intro hexited
    have hzero := (h.exited hexited).2.2
    have hle := h.weight_le hc
    have hnonneg := weight_nonneg c.phase
    omega

/-- A caller raises `inSubmit`; the device is open. -/
theorem Inv.enter (h : Inv d σ) {p : Prog} (hc : d.callers[i]? = some c)
    (hphase : c.phase = .ready p) {ph : Phase} (hopen : d.closed = false) (htodo : ph.todo = [])
    (hslot : ph.slot = none) (hsized : ph.Sized) (x : Int) (hcount : x = d.inSubmit + ph.weight) :
    Inv { d with inSubmit := x, callers := d.callers.set i ⟨ph, c.got⟩ } σ := by
  refine h.stay hc x (by rw [hphase]; exact htodo) (fun s => by rw [hphase, hslot]; rfl)
    (fun s => by rw [hphase, hslot]; rfl) (fun s ch ev hs => ?_) rfl ?_ hsized ?_
  · rw [hslot] at hs
    cases hs
  · rw [hphase, hcount]
    show d.inSubmit + ph.weight = d.inSubmit + ph.weight - 0
    omega
  · intro hexited
    have hclosed := (h.exited hexited).1
    rw [hopen] at hclosed
    cases hclosed

theorem Inv.go (h : Inv d σ) (hc : d.callers[i]? = some c) (hgo : d.go c = some (d₁, c')) :
    ∃ σ', Inv { d₁ with callers := d₁.callers.set i c' } σ' := by
  obtain ⟨phase, got⟩ := c
  have hsized := h.sized i _ hc
  unfold Device.go at hgo
  simp only at hgo
  cases phase with
  | ready p =>
    cases p with
    | done => cases hgo
    | one k =>
      simp only at hgo
      split at hgo
      · cases hgo
        exact ⟨σ, h.leave hc _ rfl rfl d.inSubmit (Int.sub_zero _).symm⟩
      · rename_i hopen
        cases hgo
        refine ⟨σ, h.enter hc rfl (Bool.eq_false_iff.mpr hopen) ?_ ?_ ?_ _ ?_⟩
        exacts [rfl, rfl, trivial, rfl]
    | batch len retry k =>
      simp only at hgo
      split at hgo
      · cases hgo
        exact ⟨σ, h.leave hc _ rfl rfl d.inSubmit (Int.sub_zero _).symm⟩
      · rename_i hopen
        cases hgo
        refine ⟨σ, h.enter hc rfl (Bool.eq_false_iff.mpr hopen) ?_ ?_ ?_ _ ?_⟩
        exacts [rfl, rfl, trivial, rfl]
  | one k ph =>
    cases ph with
    | submitting => cases hgo
    | refused full =>
      cases hgo
      exact ⟨σ, h.leave hc _ rfl rfl _ rfl⟩
    | accepted s =>
      simp only at hgo
      split at hgo
      · rename_i ev hkept
        cases hgo
        refine h.hand hc hkept ?_ rfl ?_ ?_ _ ?_ ?_ Int.one_pos
        exacts [rfl, rfl, rfl, congrArg (· - 1) (Int.add_zero d.inSubmit).symm, trivial]
      · rename_i hkept
        cases hgo
        refine h.register hc hkept ?_ rfl ?_ ?_ _ ?_ ?_ Int.one_pos
        exacts [rfl, rfl, rfl, congrArg (· - 1) (Int.add_zero d.inSubmit).symm, trivial]
    | handing s ch ev =>
      cases hgo
      exact ⟨σ, h.stay hc d.inSubmit rfl (fun _ => rfl) (fun _ => rfl) (fun _ _ _ hs => hs) rfl
        (by show _ = _ + 0 - 0; omega) trivial (fun hexited => (h.exited hexited).2.2)⟩
    | waiting s ch buf =>
      cases buf with
      | none => cases hgo
      | some ev =>
        cases hgo
        exact h.receive hc rfl rfl rfl rfl rfl trivial
  | batch len retry k ph =>
    cases ph with
    | submitting => cases hgo
    | refused =>
      cases hgo
      exact ⟨σ, h.leave hc _ rfl rfl _ rfl⟩
    | collecting todo evs =>
      have hpos : (0 : Int) < len := Int.natCast_pos.mpr hsized
      cases todo with
      | nil =>
        cases hgo
        exact ⟨σ, h.leave hc _ rfl rfl _ rfl⟩
      | cons s todo =>
        simp only at hgo
        split at hgo
        · rename_i ev hkept
          cases hgo
          exact h.take hc hkept rfl rfl rfl rfl rfl hsized hpos
        · rename_i hkept
          cases hgo
          refine h.register hc hkept ?_ rfl ?_ ?_ d.inSubmit ?_ ?_ hpos
          exacts [rfl, rfl, rfl, by show _ = _ + (len : Int) - len; omega, hsized]
    | waiting s ch buf todo evs =>
      cases buf with
      | none => cases hgo
      | some ev =>
        cases hgo
        exact h.receive hc rfl rfl rfl rfl rfl hsized
    | abandoned =>
      cases hgo
      exact ⟨σ, h.leave hc _ rfl rfl _ rfl⟩

/-- The ring accepts IOs of caller `i`. -/
theorem Inv.accept (h : Inv d σ) (hc : d.callers[i]? = some c) {first n : Nat}
    (haccept : d.accept i first n = some d₁) (htodo : c.phase.todo = [])
    (htodo' : c'.phase.todo = List.range' first n) (hslot : c.phase.slot = none)
    (hslot' : c'.phase.slot = none) (hgot : c'.got = c.got)
    (hweight : c'.phase.weight = c.phase.weight) (hsized : c'.phase.Sized)
    (hpos : 0 < c.phase.weight) :
    ∃ σ', Inv { d₁ with callers := d₁.callers.set i c' } σ' := by
  unfold Device.accept at haccept
  split at haccept
  · rename_i hfresh
    cases haccept
    obtain ⟨σ', hglue⟩ := h.glue.accept hc hfresh htodo htodo' (hslot'.trans hslot.symm) hgot
    refine ⟨σ', h.set hc rfl hglue ?_ ?_ hsized rfl rfl rfl
      (fun hexited => absurd hexited (h.not_exited hc hpos))⟩
    · refine h.genuine.set rfl rfl rfl (fun _ _ hev => hev) ?_ ?_
      · intro s ch ev hs
        rw [hslot'] at hs
        cases hs
      · intro ev hev
        exact h.genuine.got i c hc ev (hgot ▸ hev)
    · show d.inSubmit = _
      rw [hweight]
      omega
  · cases haccept

theorem Inv.answer (h : Inv d σ) (hc : d.callers[i]? = some c) {r : Answer}
    (hanswer : d.answer i c r = some (d₁, c')) :
    ∃ σ', Inv { d₁ with callers := d₁.callers.set i c' } σ' := by
  obtain ⟨phase, got⟩ := c
  unfold Device.answer at hanswer
  simp only at hanswer
  split at hanswer
  · -- one IO is accepted
    rename_i k first n
    split at hanswer
    · obtain ⟨d₂, hd₂, heq⟩ := Option.map_eq_some_iff.mp hanswer
      cases heq
      refine h.accept hc hd₂ rfl ?_ rfl ?_ ?_ ?_ ?_ Int.one_pos
      exacts [rfl, rfl, rfl, rfl, trivial]
    · cases hanswer
  · cases hanswer
    exact ⟨σ, h.stay hc d.inSubmit rfl (fun _ => rfl) (fun _ => rfl) (fun _ _ _ hs => hs) rfl
      (by show _ = _ + (1 : Int) - 1; omega) trivial (fun hexited => (h.exited hexited).2.2)⟩
  · -- the first `n` IOs of a batch are accepted
    rename_i len retry k first n
    split at hanswer
    · rename_i hn
      have hlen : 0 < len := Nat.lt_of_lt_of_le hn.1 hn.2
      obtain ⟨d₂, hd₂, heq⟩ := Option.map_eq_some_iff.mp hanswer
      cases heq
      refine h.accept hc hd₂ rfl ?_ rfl ?_ ?_ ?_ ?_ (Int.natCast_pos.mpr hlen)
      exacts [rfl, rfl, rfl, rfl, hlen]
    · cases hanswer
  · rename_i len retry k full
    cases hanswer
    exact ⟨σ, h.stay hc d.inSubmit rfl (fun _ => rfl) (fun _ => rfl) (fun _ _ _ hs => hs) rfl
      (by show _ = _ + (len : Int) - len; omega) trivial (fun hexited => (h.exited hexited).2.2)⟩
  · cases hanswer

/-- A batch never finds the pump gone. -/
theorem Inv.giveUp (h : Inv d σ) (hc : d.callers[i]? = some c) : d.giveUp c = none := by
  obtain ⟨phase, got⟩ := c
  have hsized := h.sized i _ hc
  unfold Device.giveUp
  simp only
  split
  · rename_i len retry k s ch buf todo evs
    have hpos : (0 : Int) < len := Int.natCast_pos.mpr hsized
    rw [if_neg (h.not_exited hc hpos)]
  · rfl

end CallerSteps

theorem weight_deliver (ch : Nat) (ev : Event) (c : Caller) :
    (c.deliver ch ev).phase.weight = c.phase.weight ∧
      ((c.deliver ch ev).phase.Sized ↔ c.phase.Sized) := by
  obtain ⟨phase, got⟩ := c
  unfold Caller.deliver
  split
  · rename_i hphase
    simp only at hphase
    subst hphase
    split
    · exact ⟨rfl, Iff.rfl⟩
    · exact ⟨rfl, Iff.rfl⟩
  · rename_i hphase
    simp only at hphase
    subst hphase
    split
    · exact ⟨rfl, Iff.rfl⟩
    · exact ⟨rfl, Iff.rfl⟩
  · exact ⟨rfl, Iff.rfl⟩

/-- The pump goes on to a state in which it has nothing. -/
theorem Glue.pump_empty (h : Glue d σ) {pump : Pump} (hold : d.pump = .holding [])
    (htodo : pump.todo = []) (hsends : ∀ s, pump.sends s = none) :
    Glue { d with pump := pump } σ where
  sight := by
    intro s
    rw [← h.sight s]
    unfold Device.sight
    rw [hold]
    show Sight.mk _ _ _ ((pump.todo.map Event.data).count s) _ _ (pump.sends s) = _
    rw [htodo, hsends]
    rfl
  view := h.view
  owner := h.owner
  caller := h.caller
  link_lt := h.link_lt
  link_inj := h.link_inj

theorem Inv.pumpStep (h : Inv d σ) (hstep : d.pumpStep = some d') : ∃ σ', Inv d' σ' := by
  have hdestroyed : d.pump ≠ .exited → d.destroyed ≠ true := fun hne hd => hne (h.destroyed hd)
  unfold Device.pumpStep at hstep
  split at hstep
  · cases hstep
  · rename_i hpump
    have hempty : d.destroyed ≠ true := hdestroyed (by rw [hpump]; exact fun hne => (nomatch hne))
    split at hstep
    · rename_i hdone
      cases hstep
      exact ⟨σ, {
        glue := h.glue.pump_empty hpump rfl (fun _ => rfl)
        genuine := ⟨fun ev hev => absurd hev List.not_mem_nil, h.genuine.pending, h.genuine.slot,
          h.genuine.got⟩
        count := h.count
        sized := h.sized
        exited := fun _ => hdone
        destroyed := fun _ => rfl }⟩
    · cases hstep
      exact ⟨σ, {
        glue := h.glue.pump_empty hpump rfl (fun _ => rfl)
        genuine := ⟨fun ev hev => absurd hev List.not_mem_nil, h.genuine.pending, h.genuine.slot,
          h.genuine.got⟩
        count := h.count
        sized := h.sized
        exited := fun hne => (nomatch hne)
        destroyed := fun hd => absurd hd hempty }⟩
  · rename_i ev rest hpump
    have hempty : d.destroyed ≠ true := hdestroyed (by rw [hpump]; exact fun hne => (nomatch hne))
    have hevents : ∀ ev' ∈ ev :: rest, ev' ∈ d.completed := by
      have := h.genuine.pump
      rwa [hpump] at this
    split at hstep
    · rename_i ch hm
      cases hstep
      obtain ⟨σ', hglue⟩ := h.glue.matched hpump hm
      exact ⟨σ', {
        glue := hglue
        genuine := ⟨hevents, h.genuine.pending, h.genuine.slot, h.genuine.got⟩
        count := h.count
        sized := h.sized
        exited := fun hne => (nomatch hne)
        destroyed := fun hd => absurd hd hempty }⟩
    · rename_i hm
      cases hstep
      obtain ⟨σ', hglue⟩ := h.glue.store hpump hm
      refine ⟨σ', {
        glue := hglue
        genuine := ⟨fun ev' hev => hevents ev' (List.mem_cons_of_mem ev hev), ?_, h.genuine.slot,
          h.genuine.got⟩
        count := h.count
        sized := h.sized
        exited := fun hne => (nomatch hne)
        destroyed := fun hd => absurd hd hempty }⟩
      intro s ev' hev
      replace hev : (d.pending.insert ev.data ev).find? s = some ev' := hev
      rw [SortedMap.find?_insert] at hev
      split at hev
      · rename_i hs
        cases hev
        exact ⟨hs.symm, hevents ev List.mem_cons_self⟩
      · exact h.genuine.pending s ev' hev
  · rename_i ch ev rest hpump
    have hempty : d.destroyed ≠ true := hdestroyed (by rw [hpump]; exact fun hne => (nomatch hne))
    have hevents : ∀ ev' ∈ ev :: rest, ev' ∈ d.completed := by
      have := h.genuine.pump
      rwa [hpump] at this
    cases hstep
    obtain ⟨σ', hglue⟩ := h.glue.send hpump
    have hback : ∀ (i : Nat) (c : Caller), (d.callers.map (Caller.deliver ch ev))[i]? = some c →
        ∃ c₀, d.callers[i]? = some c₀ ∧ c = c₀.deliver ch ev := by
      intro i c hc
      rw [List.getElem?_map] at hc
      obtain ⟨c₀, hc₀, rfl⟩ := Option.map_eq_some_iff.mp hc
      exact ⟨c₀, hc₀, rfl⟩
    obtain ⟨io, hio⟩ := h.glue.io_of_sending hpump
    refine ⟨σ', {
      glue := hglue
      genuine := ⟨fun ev' hev => hevents ev' (List.mem_cons_of_mem ev hev), h.genuine.pending,
        ?_, ?_⟩
      count := ?_
      sized := ?_
      exited := fun hne => (nomatch hne)
      destroyed := fun hd => absurd hd hempty }⟩
    · intro i c hc s ch' ev' hs
      obtain ⟨c₀, hc₀, rfl⟩ := hback i c hc
      by_cases hslot : ∃ s, c₀.phase.slot = some (s, ch, none)
      · obtain ⟨s₀, hslot⟩ := hslot
        obtain ⟨rfl, -⟩ := h.glue.slot_of_sending hio hc₀ hslot
        rw [(deliver_of_slot ev hslot).1] at hs
        cases hs
        exact ⟨rfl, hevents ev List.mem_cons_self⟩
      · rw [deliver_of_ne ev (fun s hs => hslot ⟨s, hs⟩)] at hs
        exact h.genuine.slot i c₀ hc₀ s ch' ev' hs
    · intro i c hc ev' hev
      obtain ⟨c₀, hc₀, rfl⟩ := hback i c hc
      by_cases hslot : ∃ s, c₀.phase.slot = some (s, ch, none)
      · obtain ⟨s₀, hslot⟩ := hslot
        rw [(deliver_of_slot ev hslot).2.2] at hev
        exact h.genuine.got i c₀ hc₀ ev' hev
      · rw [deliver_of_ne ev (fun s hs => hslot ⟨s, hs⟩)] at hev
        exact h.genuine.got i c₀ hc₀ ev' hev
    · show d.inSubmit = ((d.callers.map (Caller.deliver ch ev)).map (fun c => c.phase.weight)).sum
      rw [h.count, List.map_map]
      congr 1
      exact List.map_congr_left fun c _ => (weight_deliver ch ev c).1.symm
    · intro i c hc
      obtain ⟨c₀, hc₀, rfl⟩ := hback i c hc
      exact (weight_deliver ch ev c₀).2.mpr (h.sized i c₀ hc₀)
  · cases hstep

theorem Inv.wait (h : Inv d σ) {evs : List Event} (hwait : d.wait evs = some d') :
    ∃ σ', Inv d' σ' := by
  unfold Device.wait at hwait
  split at hwait
  · rename_i hguard
    obtain ⟨hidle, -, hnodup, hin⟩ := hguard
    cases hwait
    obtain ⟨σ', hglue⟩ := h.glue.wait hidle hnodup hin
    exact ⟨σ', {
      glue := hglue
      genuine := ⟨fun ev hev => List.mem_append_right _ hev,
        fun s ev hev => ⟨(h.genuine.pending s ev hev).1,
          List.mem_append_left _ (h.genuine.pending s ev hev).2⟩,
        fun i c hc s ch ev hs => ⟨(h.genuine.slot i c hc s ch ev hs).1,
          List.mem_append_left _ (h.genuine.slot i c hc s ch ev hs).2⟩,
        fun i c hc ev hev => List.mem_append_left _ (h.genuine.got i c hc ev hev)⟩
      count := h.count
      sized := h.sized
      exited := fun hne => (nomatch hne)
      destroyed := fun hd => by
        have := h.destroyed hd
        rw [hidle] at this
        cases this }⟩
  · cases hwait

/-- Every step keeps the invariant. -/
theorem Inv.step (h : Inv d σ) {a : Action} (hstep : d.step a = some d') : ∃ σ', Inv d' σ' := by
  have hcaller : ∀ (i : Nat) (f : Caller → Option (Device × Caller)),
      (∀ c d₁ c', d.callers[i]? = some c → f c = some (d₁, c') →
        ∃ σ', Inv { d₁ with callers := d₁.callers.set i c' } σ') →
      d.atCaller i f = some d' → ∃ σ', Inv d' σ' := by
    intro i f hf hat
    obtain ⟨⟨d₁, c'⟩, hbind, rfl⟩ := Option.map_eq_some_iff.mp hat
    obtain ⟨c, hc, hfc⟩ := Option.bind_eq_some_iff.mp hbind
    exact hf c d₁ c' hc hfc
  cases a with
  | go i => exact hcaller i d.go (fun c d₁ c' hc hgo => h.go hc hgo) hstep
  | answer i r =>
    exact hcaller i (fun c => d.answer i c r) (fun c d₁ c' hc hanswer => h.answer hc hanswer) hstep
  | giveUp i =>
    refine hcaller i d.giveUp (fun c d₁ c' hc hgive => ?_) hstep
    rw [h.giveUp hc] at hgive
    cases hgive
  | wait evs => exact h.wait hstep
  | pump => exact h.pumpStep hstep
  | close =>
    unfold Device.step at hstep
    simp only at hstep
    split at hstep
    · cases hstep
    · cases hstep
      exact ⟨σ, {
        glue := ⟨h.glue.sight, h.glue.view, h.glue.owner, h.glue.caller, h.glue.link_lt,
          h.glue.link_inj⟩
        genuine := ⟨h.genuine.pump, h.genuine.pending, h.genuine.slot, h.genuine.got⟩
        count := h.count
        sized := h.sized
        exited := fun hexited => ⟨rfl, (h.exited hexited).2⟩
        destroyed := h.destroyed }⟩
  | destroy =>
    unfold Device.step at hstep
    simp only at hstep
    split at hstep
    · rename_i hguard
      cases hstep
      exact ⟨σ, {
        glue := ⟨h.glue.sight, h.glue.view, h.glue.owner, h.glue.caller, h.glue.link_lt,
          h.glue.link_inj⟩
        genuine := ⟨h.genuine.pump, h.genuine.pending, h.genuine.slot, h.genuine.got⟩
        count := h.count
        sized := h.sized
        exited := h.exited
        destroyed := fun _ => hguard.2.1 }⟩
    · cases hstep

theorem inv_start (calls : List Call) : Inv (Device.start calls) (fun _ => none) where
  glue := by
    refine ⟨fun s => rfl, ?_, fun s i hmem => absurd hmem List.not_mem_nil,
      fun s io hio => (nomatch hio), fun s io ch hio => (nomatch hio),
      fun s s' io io' ch hio => (nomatch hio)⟩
    intro i c hc s
    obtain ⟨call, -, rfl⟩ := List.mem_map.mp (List.mem_of_getElem? hc)
    rfl
  genuine := by
    refine ⟨fun ev hev => absurd hev List.not_mem_nil, fun s ev hev => (nomatch hev), ?_, ?_⟩
    · intro i c hc s ch ev hs
      obtain ⟨call, -, rfl⟩ := List.mem_map.mp (List.mem_of_getElem? hc)
      cases hs
    · intro i c hc ev hev
      obtain ⟨call, -, rfl⟩ := List.mem_map.mp (List.mem_of_getElem? hc)
      cases hev
  count := by
    show (0 : Int) = ((calls.map fun c => (⟨.ready c.prog, []⟩ : Caller)).map
      (fun c => c.phase.weight)).sum
    rw [List.map_map]
    exact (List.sum_eq_zero fun x hx => by
      obtain ⟨call, -, rfl⟩ := List.mem_map.mp hx
      rfl).symm
  sized := by
    intro i c hc
    obtain ⟨call, -, rfl⟩ := List.mem_map.mp (List.mem_of_getElem? hc)
    trivial
  exited := fun hne => (nomatch hne)
  destroyed := fun hd => (nomatch hd)

theorem inv_run {calls : List Call} {as : List Action}
    (hrun : Transition.run Device.step (Device.start calls) as = some d) : ∃ σ, Inv d σ := by
  have hstep : ∀ (d₀ : Device) (a : Action) (d₁ : Device), (∃ σ, Inv d₀ σ) → True →
      d₀.step a = some d₁ → ∃ σ, Inv d₁ σ := by
    rintro d₀ a d₁ ⟨σ, h⟩ - hstep
    exact h.step hstep
  exact Transition.run_invariant hstep ⟨_, inv_start calls⟩
    (Transition.along_of_forall_mem (fun _ _ => trivial) _) hrun

/-! ## 3. What holds in every state -/

/-- How often a caller has the event of `s`: in its channel, and received. -/
def Caller.copies (s : Nat) (c : Caller) : Nat :=
  (if (holdsOn s c.phase.slot).isSome then 1 else 0) + (c.got.map Event.data).count s

/-- How often there is an IO `s`, or its event: in the ring, with the pump, kept, with a caller. -/
def Device.copies (d : Device) (s : Nat) : Nat :=
  d.inflight.count s + (d.pump.events.map Event.data).count s +
    (if (d.pending.find? s).isSome then 1 else 0) + (d.callers.map (Caller.copies s)).sum

/-- Nothing is left to do but to submit: the ring and the pump have nothing, and no caller has a
step of its own, but to begin its next operation. -/
def Device.Rest (d : Device) : Prop :=
  d.inflight = [] ∧ d.pump.events = [] ∧ ∀ (i : Nat) (c : Caller), d.callers[i]? = some c →
    (∃ p, c.phase = .ready p) ∨ d.go c = none

/-- **The completions reach their submitters.**

* An accepted IO is in one place: the ring, the pump, `pending`, the channel of a caller, or among
  what a caller has received.
* What a caller has received are completions of IOs of its own, each once.
* A number that its submitter has registered is not in `pending`.
* The channel to which the pump sends is that of a receiver, and empty.
* When the pump has exited no IO is in the ring, none is to be registered, no caller waits at an
  empty channel, and every IO has been received or is in the channel of its submitter; only then
  the ring is destroyed.
* At rest every accepted IO has been received by its submitter. -/
structure Device.Delivers (d : Device) : Prop where
  submitter : (d.accepted.map Prod.fst).Nodup
  completed : (d.completed.map Event.data).Nodup
  copies : ∀ s ∈ d.accepted.map Prod.fst, d.copies s = 1
  received : ∀ (i : Nat) (c : Caller), d.callers[i]? = some c → (c.got.map Event.data).Nodup ∧
    ∀ ev ∈ c.got, (ev.data, i) ∈ d.accepted ∧ ev ∈ d.completed
  registered : ∀ s i, (s, i) ∈ d.accepted → ∃ c, d.callers[i]? = some c ∧
    (s ∉ c.phase.todo → d.pending.find? s = none)
  sends : ∀ ch ev rest, d.pump = .sending ch ev rest → ∃ (i : Nat) (c : Caller),
    d.callers[i]? = some c ∧ c.phase.slot = some (ev.data, ch, none)
  waiting : d.pump = .exited → ∀ (i : Nat) (c : Caller), d.callers[i]? = some c →
    c.phase.todo = [] ∧ ∀ s ch, c.phase.slot ≠ some (s, ch, none)
  exited : d.pump = .exited → d.inflight = [] ∧ d.pending.keys = [] ∧
    ∀ s i, (s, i) ∈ d.accepted → ∃ c, d.callers[i]? = some c ∧
      (s ∈ c.got.map Event.data ∨ ∃ ch ev, c.phase.slot = some (s, ch, some ev) ∧ ev.data = s)
  destroyed : d.destroyed = true → d.pump = .exited
  rest : d.Rest → ∀ s i, (s, i) ∈ d.accepted → ∃ c, d.callers[i]? = some c ∧
    s ∈ c.got.map Event.data

theorem slot_of_holdsOn {s ch : Nat} {slot : Option (Nat × Nat × Option Event)}
    (h : holdsOn s slot = some ch) : ∃ ev, slot = some (s, ch, some ev) := by
  rcases slot with _ | ⟨s', ch', _ | ev⟩
  · cases h
  · cases h
  · unfold holdsOn at h
    simp only at h
    split at h
    · rename_i hs
      cases h
      exact ⟨ev, by rw [hs]⟩
    · cases h

theorem Caller.copies_eq (s : Nat) (c : Caller) :
    c.copies s = (if (c.view s).holds.isSome then 1 else 0) + (c.view s).got := rfl

theorem count_events (pump : Pump) (s : Nat) : (pump.events.map Event.data).count s =
    (pump.todo.map Event.data).count s + if (pump.sends s).isSome then 1 else 0 := by
  cases pump with
  | idle => rfl
  | holding evs => rfl
  | exited => rfl
  | sending ch ev rest =>
    show ((ev :: rest).map Event.data).count s = (rest.map Event.data).count s +
      if (if ev.data = s then some ch else none).isSome then 1 else 0
    rw [List.map_cons, List.count_cons]
    by_cases hs : ev.data = s
    · simp [hs]
    · simp [hs]

section Facts

variable {s i : Nat}

/-- The ledger has exactly the accepted IOs. -/
theorem Glue.exists_of_accepted (h : Glue d σ) (hacc : (s, i) ∈ d.accepted) :
    ∃ io c, σ s = some io ∧ io.owner = i ∧ d.callers[i]? = some c ∧ c.view s = io.view := by
  obtain ⟨io, hio, howner⟩ := h.owner s i hacc
  have hlt := h.caller s io hio
  rw [howner] at hlt
  have hc : d.callers[i]? = some d.callers[i] := List.getElem?_eq_getElem hlt
  exact ⟨io, _, hio, howner, hc, h.view_owner hc hio howner⟩

theorem Glue.accepted_of_some (h : Glue d σ) {io : Io} (hio : σ s = some io) :
    (s, io.owner) ∈ d.accepted := by
  have hcount : (d.accepted.map Prod.fst).count s = (sightOf (σ s)).accepted :=
    congrArg Sight.accepted (h.sight s)
  have hone : (sightOf (σ s)).accepted = 1 := by
    rw [hio]
    cases io with
    | fresh i l => cases l <;> rfl
    | awaited i ch l => cases l <;> rfl
    | kept i => rfl
    | sending i ch => rfl
    | arrived i ch => rfl
    | received i => rfl
  have hmem : s ∈ d.accepted.map Prod.fst := by
    rw [← List.count_pos_iff, hcount, hone]
    exact Nat.one_pos
  obtain ⟨⟨s', j⟩, hpair, rfl⟩ := List.mem_map.mp hmem
  obtain ⟨io', hio', howner⟩ := h.owner s' j hpair
  obtain rfl : io = io' := Option.some.inj (hio.symm.trans hio')
  rwa [howner]

/-- Only the submitter has copies. -/
theorem Glue.sum_copies (h : Glue d σ) {io : Io} {c : Caller} (hio : σ s = some io)
    (hc : d.callers[io.owner]? = some c) : (d.callers.map (Caller.copies s)).sum =
      (if io.view.holds.isSome then 1 else 0) + io.view.got := by
  have hsum : (d.callers.map (Caller.copies s)).sum =
      c.copies s + ((d.callers.eraseIdx io.owner).map (Caller.copies s)).sum :=
    ((Concur.perm_cons_eraseIdx hc).map _).sum_eq
  have hrest : ((d.callers.eraseIdx io.owner).map (Caller.copies s)).sum = 0 := by
    refine List.sum_eq_zero fun x hx => ?_
    obtain ⟨c', hc', rfl⟩ := List.mem_map.mp hx
    obtain ⟨j, hj, hcj⟩ := List.mem_eraseIdx_iff_getElem?.mp hc'
    rw [Caller.copies_eq, h.view j c' hcj s, hio, viewOf_of_owner_ne (Ne.symm hj)]
    rfl
  rw [hsum, hrest, Caller.copies_eq, h.view_owner hc hio rfl]
  rfl

theorem Glue.copies (h : Glue d σ) (hacc : s ∈ d.accepted.map Prod.fst) : d.copies s = 1 := by
  obtain ⟨⟨s', i⟩, hpair, rfl⟩ := List.mem_map.mp hacc
  obtain ⟨io, c, hio, rfl, hc, -⟩ := h.exists_of_accepted hpair
  have hsight := h.sight s'
  rw [hio] at hsight
  have hinflight : d.inflight.count s' = _ := congrArg Sight.inflight hsight
  have hheld : (d.pump.todo.map Event.data).count s' = _ := congrArg Sight.held hsight
  have hkept : (d.pending.find? s').isSome = _ := congrArg Sight.kept hsight
  have hsends : d.pump.sends s' = _ := congrArg Sight.sends hsight
  unfold Device.copies
  rw [count_events, hinflight, hheld, hkept, hsends, h.sum_copies hio hc]
  cases io with
  | fresh i l => cases l <;> rfl
  | awaited i ch l => cases l <;> rfl
  | kept i => rfl
  | sending i ch => rfl
  | arrived i ch => rfl
  | received i => rfl

theorem count_le_one_of_sight (h : Glue d σ) (s : Nat) :
    (d.accepted.map Prod.fst).count s ≤ 1 ∧ (d.completed.map Event.data).count s ≤ 1 := by
  have hacc : (d.accepted.map Prod.fst).count s = _ := congrArg Sight.accepted (h.sight s)
  have hcomp : (d.completed.map Event.data).count s = _ := congrArg Sight.completed (h.sight s)
  rw [hacc, hcomp]
  cases σ s with
  | none => exact ⟨Nat.zero_le 1, Nat.zero_le 1⟩
  | some io =>
    cases io with
    | fresh i l => cases l <;> simp [sightOf]
    | awaited i ch l => cases l <;> simp [sightOf]
    | kept i => simp [sightOf]
    | sending i ch => simp [sightOf]
    | arrived i ch => simp [sightOf]
    | received i => simp [sightOf]

/-- Where an IO is that the ring and the pump do not have. -/
theorem Glue.settled (h : Glue d σ) (hring : d.inflight = []) (hpump : d.pump.events = [])
    {io : Io} (hio : σ s = some io) :
    io = .kept io.owner ∨ (∃ ch, io = .arrived io.owner ch) ∨ io = .received io.owner := by
  have hsight := h.sight s
  rw [hio] at hsight
  have hinflight : d.inflight.count s = _ := congrArg Sight.inflight hsight
  have hheld : (d.pump.todo.map Event.data).count s = _ := congrArg Sight.held hsight
  have hsends : d.pump.sends s = _ := congrArg Sight.sends hsight
  have hevents := count_events d.pump s
  rw [hpump, hheld, hsends] at hevents
  rw [hring] at hinflight
  cases io with
  | fresh i l =>
    cases l with
    | ring => exact absurd hinflight (by simp [sightOf])
    | pump => exact absurd hevents (by simp [sightOf])
  | awaited i ch l =>
    cases l with
    | ring => exact absurd hinflight (by simp [sightOf])
    | pump => exact absurd hevents (by simp [sightOf])
  | sending i ch => exact absurd hevents (by simp [sightOf])
  | kept i => exact .inl rfl
  | arrived i ch => exact .inr (.inl ⟨ch, rfl⟩)
  | received i => exact .inr (.inr rfl)

/-- An IO whose event is kept is still to be registered, by its submitter. -/
theorem Glue.mem_todo_of_kept (h : Glue d σ) {c : Caller} (hc : d.callers[i]? = some c)
    (hio : σ s = some (.kept i)) : s ∈ c.phase.todo := by
  have hone : c.phase.todo.count s = 1 := congrArg View.todo (h.view_owner hc hio rfl)
  rw [← List.count_pos_iff, hone]
  exact Nat.one_pos

theorem Glue.slot_of_arrived (h : Glue d σ) {c : Caller} {ch : Nat}
    (hc : d.callers[i]? = some c) (hio : σ s = some (.arrived i ch)) :
    ∃ ev, c.phase.slot = some (s, ch, some ev) :=
  slot_of_holdsOn (congrArg View.holds (h.view_owner hc hio rfl))

theorem Glue.mem_got_of_received (h : Glue d σ) {c : Caller} (hc : d.callers[i]? = some c)
    (hio : σ s = some (.received i)) : s ∈ c.got.map Event.data := by
  have hone : (c.got.map Event.data).count s = 1 := congrArg View.got (h.view_owner hc hio rfl)
  rw [← List.count_pos_iff, hone]
  exact Nat.one_pos

/-- A kept event is one of an IO that is still to be registered. -/
theorem Glue.io_of_kept (h : Glue d σ) (hkept : (d.pending.find? s).isSome) :
    ∃ i, σ s = some (.kept i) := by
  have hsight : (d.pending.find? s).isSome = (sightOf (σ s)).kept := congrArg Sight.kept (h.sight s)
  rw [hsight] at hkept
  cases hio : σ s with
  | none =>
    rw [hio] at hkept
    cases hkept
  | some io =>
    rw [hio] at hkept
    cases io with
    | kept i => exact ⟨i, rfl⟩
    | fresh i l => cases l <;> cases hkept
    | awaited i ch l => cases l <;> cases hkept
    | sending i ch => cases hkept
    | arrived i ch => cases hkept
    | received i => cases hkept

theorem weight_pos_of_todo {ph : Phase} (hsized : ph.Sized) (h : ph.todo ≠ []) :
    0 < ph.weight := by
  cases ph with
  | ready p => exact absurd rfl h
  | one k ph =>
    cases ph with
    | accepted s => exact Int.one_pos
    | submitting => exact absurd rfl h
    | refused full => exact absurd rfl h
    | handing s ch ev => exact absurd rfl h
    | waiting s ch buf => exact absurd rfl h
  | batch len retry k ph =>
    cases ph with
    | collecting todo evs => exact Int.natCast_pos.mpr hsized
    | waiting s ch buf todo evs => exact Int.natCast_pos.mpr hsized
    | submitting => exact absurd rfl h
    | refused => exact absurd rfl h
    | abandoned => exact absurd rfl h

end Facts

/-- When the pump has exited, nothing is to be registered and no caller waits. -/
theorem Inv.waiting (h : Inv d σ) (hexited : d.pump = .exited) {i : Nat} {c : Caller}
    (hc : d.callers[i]? = some c) : c.phase.todo = [] ∧ ∀ s ch, c.phase.slot ≠ some (s, ch, none) := by
  constructor
  · by_contra htodo
    exact h.not_exited hc (weight_pos_of_todo (h.sized i c hc) htodo) hexited
  · intro s ch hslot
    rcases h.glue.io_of_waits hc hslot with ⟨l, hio⟩ | hio
    · -- its channel would be registered
      have hchan : d.m.find? s = (sightOf (σ s)).chan := congrArg Sight.chan (h.glue.sight s)
      have hsome : (sightOf (σ s)).chan = some ch := by
        rw [hio]
        cases l <;> rfl
      have hmem : s ∈ d.m.keys := SortedMap.mem_keys.mpr ⟨ch, hchan.trans hsome⟩
      rw [(h.exited hexited).2.1] at hmem
      cases hmem
    · have hsends : d.pump.sends s = (sightOf (σ s)).sends :=
        congrArg Sight.sends (h.glue.sight s)
      rw [hexited, hio] at hsends
      cases hsends

theorem Inv.exited_inflight (h : Inv d σ) (hexited : d.pump = .exited) : d.inflight = [] := by
  by_contra hne
  obtain ⟨s, hs⟩ := List.exists_mem_of_ne_nil d.inflight hne
  have hcount : d.inflight.count s = (sightOf (σ s)).inflight :=
    congrArg Sight.inflight (h.glue.sight s)
  have hpos : (sightOf (σ s)).inflight ≠ 0 := by
    rw [← hcount]
    exact Nat.pos_iff_ne_zero.mp (List.count_pos_iff.mpr hs)
  cases hio : σ s with
  | none =>
    rw [hio] at hpos
    exact absurd rfl hpos
  | some io =>
    obtain ⟨io', c, hio', howner, hc, hview⟩ :=
      h.glue.exists_of_accepted (h.glue.accepted_of_some hio)
    obtain rfl : io = io' := Option.some.inj (hio.symm.trans hio')
    obtain ⟨htodo, hslot⟩ := h.waiting hexited hc
    cases io with
    | fresh i l =>
      have hone : c.phase.todo.count s = 1 := congrArg View.todo hview
      rw [htodo] at hone
      cases hone
    | awaited i ch l => exact hslot s ch (slot_of_waitsOn (congrArg View.waits hview))
    | kept i => exact hpos (by rw [hio]; rfl)
    | sending i ch => exact hpos (by rw [hio]; rfl)
    | arrived i ch => exact hpos (by rw [hio]; rfl)
    | received i => exact hpos (by rw [hio]; rfl)

/-- At rest no caller has anything to register, or an event in its channel. -/
theorem Inv.rest_caller (h : Inv d σ) (hrest : d.Rest) {i : Nat} {c : Caller}
    (hc : d.callers[i]? = some c) :
    c.phase.todo = [] ∧ ∀ s ch ev, c.phase.slot ≠ some (s, ch, some ev) := by
  obtain ⟨hring, hpump, hcallers⟩ := hrest
  rcases hcallers i c hc with ⟨p, hphase⟩ | hgo
  · rw [hphase]
    exact ⟨rfl, fun s ch ev hslot => (nomatch hslot)⟩
  · -- it waits, and nobody has the event
    have hwaits : ∀ s ch, c.phase.slot ≠ some (s, ch, none) := by
      intro s ch hslot
      rcases h.glue.io_of_waits hc hslot with ⟨l, hio⟩ | hio
      · rcases h.glue.settled hring hpump hio with heq | ⟨ch', heq⟩ | heq <;> cases heq
      · rcases h.glue.settled hring hpump hio with heq | ⟨ch', heq⟩ | heq <;> cases heq
    obtain ⟨phase, got⟩ := c
    unfold Device.go at hgo
    simp only at hgo hwaits ⊢
    cases phase with
    | ready p => exact ⟨rfl, fun s ch ev hslot => (nomatch hslot)⟩
    | one k ph =>
      cases ph with
      | submitting => exact ⟨rfl, fun s ch ev hslot => (nomatch hslot)⟩
      | refused full => cases hgo
      | accepted s =>
        simp only at hgo
        split at hgo <;> cases hgo
      | handing s ch ev => cases hgo
      | waiting s ch buf =>
        cases buf with
        | none => exact absurd rfl (hwaits s ch)
        | some ev => cases hgo
    | batch len retry k ph =>
      cases ph with
      | submitting => exact ⟨rfl, fun s ch ev hslot => (nomatch hslot)⟩
      | refused => cases hgo
      | collecting todo evs =>
        cases todo with
        | nil => cases hgo
        | cons s todo =>
          simp only at hgo
          split at hgo <;> cases hgo
      | waiting s ch buf todo evs =>
        cases buf with
        | none => exact absurd rfl (hwaits s ch)
        | some ev => cases hgo
      | abandoned => cases hgo

theorem Inv.delivers (h : Inv d σ) : d.Delivers where
  submitter := List.nodup_iff_count_le_one.mpr fun s => (count_le_one_of_sight h.glue s).1
  completed := List.nodup_iff_count_le_one.mpr fun s => (count_le_one_of_sight h.glue s).2
  copies := fun s hs => h.glue.copies hs
  received := by
    intro i c hc
    refine ⟨List.nodup_iff_count_le_one.mpr fun s => ?_, fun ev hev => ?_⟩
    · by_cases hs : s ∈ c.got.map Event.data
      · exact Nat.le_of_eq (congrArg View.got (h.glue.view_owner hc (h.glue.io_of_got hc hs) rfl))
      · rw [List.count_eq_zero_of_not_mem hs]
        exact Nat.zero_le 1
    · have hio := h.glue.io_of_got hc (List.mem_map.mpr ⟨ev, hev, rfl⟩)
      exact ⟨h.glue.accepted_of_some hio, h.genuine.got i c hc ev hev⟩
  registered := by
    intro s i hacc
    obtain ⟨io, c, hio, rfl, hc, -⟩ := h.glue.exists_of_accepted hacc
    refine ⟨c, hc, fun hs => ?_⟩
    by_contra hkept
    obtain ⟨i, hkeptio⟩ := h.glue.io_of_kept (Option.isSome_iff_ne_none.mpr hkept)
    obtain rfl : io = .kept i := Option.some.inj (hio.symm.trans hkeptio)
    exact hs (h.glue.mem_todo_of_kept hc hkeptio)
  sends := by
    intro ch ev rest hpump
    obtain ⟨i, hio⟩ := h.glue.io_of_sending hpump
    obtain ⟨io, c, hio', -, hc, hview⟩ :=
      h.glue.exists_of_accepted (h.glue.accepted_of_some hio)
    obtain rfl : io = .sending i ch := Option.some.inj (hio'.symm.trans hio)
    exact ⟨i, c, hc, slot_of_waitsOn (congrArg View.waits hview)⟩
  waiting := fun hexited i c hc => h.waiting hexited hc
  exited := by
    intro hexited
    have hring := h.exited_inflight hexited
    refine ⟨hring, ?_, fun s i hacc => ?_⟩
    · by_contra hne
      obtain ⟨s, hs⟩ := List.exists_mem_of_ne_nil _ hne
      obtain ⟨ev, hev⟩ := SortedMap.mem_keys.mp hs
      obtain ⟨i, hio⟩ := h.glue.io_of_kept (s := s) (by rw [hev]; rfl)
      obtain ⟨io, c, hio', -, hc, -⟩ := h.glue.exists_of_accepted (h.glue.accepted_of_some hio)
      have hmem := h.glue.mem_todo_of_kept hc hio
      rw [(h.waiting hexited hc).1] at hmem
      cases hmem
    · obtain ⟨io, c, hio, rfl, hc, -⟩ := h.glue.exists_of_accepted hacc
      refine ⟨c, hc, ?_⟩
      rcases h.glue.settled hring (by rw [hexited]; rfl) hio with heq | ⟨ch, heq⟩ | heq
      · rw [heq] at hio
        have hmem := h.glue.mem_todo_of_kept hc hio
        rw [(h.waiting hexited hc).1] at hmem
        cases hmem
      · rw [heq] at hio
        obtain ⟨ev, hslot⟩ := h.glue.slot_of_arrived hc hio
        exact .inr ⟨ch, ev, hslot, (h.genuine.slot _ c hc s ch ev hslot).1⟩
      · rw [heq] at hio
        exact .inl (h.glue.mem_got_of_received hc hio)
  destroyed := h.destroyed
  rest := by
    intro hrest s i hacc
    obtain ⟨io, c, hio, rfl, hc, -⟩ := h.glue.exists_of_accepted hacc
    obtain ⟨htodo, hslot⟩ := h.rest_caller hrest hc
    refine ⟨c, hc, ?_⟩
    rcases h.glue.settled hrest.1 hrest.2.1 hio with heq | ⟨ch, heq⟩ | heq
    · rw [heq] at hio
      have hmem := h.glue.mem_todo_of_kept hc hio
      rw [htodo] at hmem
      cases hmem
    · rw [heq] at hio
      obtain ⟨ev, hev⟩ := h.glue.slot_of_arrived hc hio
      exact absurd hev (hslot s ch ev)
    · rw [heq] at hio
      exact h.glue.mem_got_of_received hc hio

/-! ## 4. The way to rest -/

/-- The steps that the pump has before it. -/
def Pump.work : Pump → Nat
  | idle => 0
  | holding evs => 1 + 2 * evs.length
  | sending _ _ rest => 2 + 2 * rest.length
  | exited => 0

/-- The steps that a caller has before it, in its present operation. -/
def Phase.work : Phase → Nat
  | ready _ => 0
  | one _ .submitting => 0
  | one _ (.refused _) => 1
  | one _ (.accepted _) => 3
  | one _ (.handing _ _ _) => 2
  | one _ (.waiting _ _ _) => 1
  | batch _ _ _ .submitting => 0
  | batch _ _ _ .refused => 1
  | batch _ _ _ (.collecting todo _) => 1 + 3 * todo.length
  | batch _ _ _ (.waiting _ _ _ todo _) => 3 + 3 * todo.length
  | batch _ _ _ .abandoned => 1

def Device.work (d : Device) : Nat :=
  4 * d.inflight.length + d.pump.work + (d.callers.map (fun c => c.phase.work)).sum

/-- A step of a caller inside an operation. -/
theorem go_work {c c' : Caller} {d₁ : Device} (hgo : d.go c = some (d₁, c'))
    (hphase : ∀ p, c.phase ≠ .ready p) : c'.phase.work < c.phase.work ∧
      d₁.inflight = d.inflight ∧ d₁.pump = d.pump ∧ d₁.accepted = d.accepted ∧
      d₁.callers = d.callers := by
  obtain ⟨phase, got⟩ := c
  unfold Device.go at hgo
  simp only at hgo hphase ⊢
  cases phase with
  | ready p => exact absurd rfl (hphase p)
  | one k ph =>
    cases ph with
    | submitting => cases hgo
    | refused full =>
      cases hgo
      exact ⟨Nat.one_pos, rfl, rfl, rfl, rfl⟩
    | accepted s =>
      simp only at hgo
      split at hgo
      · cases hgo
        exact ⟨Nat.lt_succ_self 2, rfl, rfl, rfl, rfl⟩
      · cases hgo
        exact ⟨Nat.lt_of_sub_eq_succ (n := 1) rfl, rfl, rfl, rfl, rfl⟩
    | handing s ch ev =>
      cases hgo
      exact ⟨Nat.lt_succ_self 1, rfl, rfl, rfl, rfl⟩
    | waiting s ch buf =>
      cases buf with
      | none => cases hgo
      | some ev =>
        cases hgo
        exact ⟨Nat.one_pos, rfl, rfl, rfl, rfl⟩
  | batch len retry k ph =>
    cases ph with
    | submitting => cases hgo
    | refused =>
      cases hgo
      exact ⟨Nat.one_pos, rfl, rfl, rfl, rfl⟩
    | collecting todo evs =>
      cases todo with
      | nil =>
        cases hgo
        exact ⟨Nat.one_pos, rfl, rfl, rfl, rfl⟩
      | cons s todo =>
        simp only at hgo
        split at hgo
        · cases hgo
          refine ⟨?_, rfl, rfl, rfl, rfl⟩
          show 1 + 3 * todo.length < 1 + 3 * (todo.length + 1)
          omega
        · cases hgo
          refine ⟨?_, rfl, rfl, rfl, rfl⟩
          show 3 + 3 * todo.length < 1 + 3 * (todo.length + 1)
          omega
    | waiting s ch buf todo evs =>
      cases buf with
      | none => cases hgo
      | some ev =>
        cases hgo
        refine ⟨?_, rfl, rfl, rfl, rfl⟩
        show 1 + 3 * todo.length < 3 + 3 * todo.length
        omega
    | abandoned =>
      cases hgo
      exact ⟨Nat.one_pos, rfl, rfl, rfl, rfl⟩

theorem work_deliver (ch : Nat) (ev : Event) (c : Caller) :
    (c.deliver ch ev).phase.work = c.phase.work := by
  obtain ⟨phase, got⟩ := c
  unfold Caller.deliver
  split
  · rename_i hphase
    simp only at hphase
    subst hphase
    split <;> rfl
  · rename_i hphase
    simp only at hphase
    subst hphase
    split <;> rfl
  · rfl

theorem work_lt (hring : d'.inflight = d.inflight)
    (hcallers : d'.callers.map (fun c => c.phase.work) = d.callers.map (fun c => c.phase.work))
    (hpump : d'.pump.work < d.pump.work) : d'.work < d.work := by
  unfold Device.work
  rw [hring, hcallers]
  omega

/-- The pump with something to do has a step, which brings it nearer to its end. -/
theorem pumpStep_work (hidle : d.pump ≠ .idle) (hexited : d.pump ≠ .exited) :
    ∃ d', d.pumpStep = some d' ∧ d'.accepted = d.accepted ∧ d'.work < d.work := by
  unfold Device.pumpStep
  split
  · rename_i hpump
    exact absurd hpump hidle
  · rename_i hpump
    have hpos : 0 < d.pump.work := by rw [hpump]; exact Nat.one_pos
    split
    · exact ⟨_, rfl, rfl, work_lt rfl rfl hpos⟩
    · exact ⟨_, rfl, rfl, work_lt rfl rfl hpos⟩
  · rename_i ev rest hpump
    have hwork : d.pump.work = 1 + 2 * (rest.length + 1) := by rw [hpump]; rfl
    split
    · refine ⟨_, rfl, rfl, work_lt rfl rfl ?_⟩
      rw [hwork]
      show 2 + 2 * rest.length < _
      omega
    · refine ⟨_, rfl, rfl, work_lt rfl rfl ?_⟩
      rw [hwork]
      show 1 + 2 * rest.length < _
      omega
  · rename_i ch ev rest hpump
    refine ⟨_, rfl, rfl, work_lt rfl ?_ ?_⟩
    · show (d.callers.map (Caller.deliver ch ev)).map (fun c => c.phase.work) = _
      rw [List.map_map]
      exact List.map_congr_left fun c _ => work_deliver ch ev c
    · rw [hpump]
      show 1 + 2 * rest.length < 2 + 2 * rest.length
      omega
  · rename_i hpump
    exact absurd hpump hexited

theorem progress_caller {i : Nat} {c c' : Caller} {d₁ : Device} (hc : d.callers[i]? = some c)
    (hphase : ∀ p, c.phase ≠ .ready p) (hgo : d.go c = some (d₁, c')) :
    ∃ a d', d.step a = some d' ∧ d'.accepted = d.accepted ∧ d'.work < d.work := by
  obtain ⟨hlt, hring, hpump, hacc, hcallers⟩ := go_work hgo hphase
  have hstep : d.step (.go i) = some { d₁ with callers := d₁.callers.set i c' } := by
    show d.atCaller i d.go = _
    unfold Device.atCaller
    rw [hc, Option.bind_some, hgo]
    rfl
  refine ⟨.go i, _, hstep, hacc, ?_⟩
  have hold : (d.callers.map (fun c => c.phase.work)).sum =
      c.phase.work + ((d.callers.eraseIdx i).map (fun c => c.phase.work)).sum :=
    ((Concur.perm_cons_eraseIdx hc).map _).sum_eq
  have hnew : ((d.callers.set i c').map (fun c => c.phase.work)).sum =
      c'.phase.work + ((d.callers.eraseIdx i).map (fun c => c.phase.work)).sum :=
    ((Concur.set_perm_cons hc c').map _).sum_eq
  unfold Device.work
  simp only
  rw [hring, hpump, hcallers, hnew, hold]
  omega

/-- **Where the system is not at rest, the ring, the pump or a caller has a step inside what has
been submitted.** -/
theorem Inv.progress (h : Inv d σ) (hrest : ¬ d.Rest) :
    ∃ a d', d.step a = some d' ∧ d'.accepted = d.accepted ∧ d'.work < d.work := by
  by_cases hquiet : d.inflight = [] ∧ d.pump.events = []
  · obtain ⟨i, c, hc, hphase, hgo⟩ : ∃ (i : Nat) (c : Caller), d.callers[i]? = some c ∧
        (∀ p, c.phase ≠ .ready p) ∧ d.go c ≠ none := by
      by_contra hnone
      refine hrest ⟨hquiet.1, hquiet.2, fun i c hc => ?_⟩
      by_contra hboth
      exact hnone ⟨i, c, hc, fun p hp => hboth (.inl ⟨p, hp⟩), fun hg => hboth (.inr hg)⟩
    obtain ⟨⟨d₁, c'⟩, hgo⟩ := Option.ne_none_iff_exists'.mp hgo
    exact progress_caller hc hphase hgo
  by_cases hidle : d.pump = .idle
  · -- one IO completes
    have hring : d.inflight ≠ [] := fun hnil => hquiet ⟨hnil, by rw [hidle]; rfl⟩
    obtain ⟨s, hs⟩ := List.exists_mem_of_ne_nil _ hring
    have hwait : d.step (.wait [⟨s, 0⟩]) = some { d with
        pump := .holding [⟨s, 0⟩]
        inflight := d.inflight.filter (fun s' => s' ∉ [(⟨s, 0⟩ : Event)].map Event.data)
        completed := d.completed ++ [⟨s, 0⟩] } := by
      refine if_pos ⟨hidle, show 1 ≤ 64 by decide, List.nodup_singleton _, fun ev hev => ?_⟩
      rw [List.mem_singleton.mp hev]
      exact hs
    refine ⟨_, _, hwait, rfl, ?_⟩
    have hlt : (d.inflight.filter (fun s' => s' ∉ [(⟨s, 0⟩ : Event)].map Event.data)).length <
        d.inflight.length := by
      rw [List.length_filter_lt_length_iff_exists]
      exact ⟨s, hs, by simp⟩
    unfold Device.work
    rw [hidle]
    show 4 * (d.inflight.filter _).length + 3 + (d.callers.map fun c => c.phase.work).sum <
      4 * d.inflight.length + 0 + (d.callers.map fun c => c.phase.work).sum
    omega
  · have hrunning : d.pump ≠ .exited := fun hexited =>
      hquiet ⟨h.exited_inflight hexited, by rw [hexited]; rfl⟩
    obtain ⟨d', hstep, hacc, hwork⟩ := pumpStep_work hidle hrunning
    exact ⟨.pump, d', hstep, hacc, hwork⟩

/-- **From every state the system comes to rest without a further submission.** -/
theorem Inv.comes_to_rest (h : Inv d σ) : ∃ as d', Transition.run Device.step d as = some d' ∧
    d'.accepted = d.accepted ∧ d'.Rest := by
  induction hn : d.work using Nat.strong_induction_on generalizing d σ with
  | _ n ih =>
    by_cases hrest : d.Rest
    · exact ⟨[], d, rfl, rfl, hrest⟩
    · obtain ⟨a, d', hstep, hacc, hwork⟩ := h.progress hrest
      obtain ⟨σ', h'⟩ := h.step hstep
      obtain ⟨as, d'', hrun, hacc', hrest'⟩ := ih d'.work (hn ▸ hwork) h' rfl
      exact ⟨a :: as, d'', by rw [Transition.run_cons_of hstep, hrun], hacc'.trans hacc, hrest'⟩

/-- **In every state of every run, every completion is with its submitter or on its way to it**:
any callers, any order of their steps with those of the ring, of the pump and of `Close`; and from
there, without a further submission, there is a way to a state in which all have been received. -/
theorem completions_delivered {calls : List Call} {as : List Action}
    (hrun : Transition.run Device.step (Device.start calls) as = some d) : d.Delivers ∧
      ∃ as' d', Transition.run Device.step d as' = some d' ∧ d'.accepted = d.accepted ∧ d'.Rest ∧
        d'.Delivers := by
  obtain ⟨σ, h⟩ := inv_run hrun
  obtain ⟨as', d', hrun', hacc, hrest⟩ := h.comes_to_rest
  have hall : Transition.run Device.step (Device.start calls) (as ++ as') = some d' := by
    rw [Transition.run_append, hrun]
    exact hrun'
  obtain ⟨σ', h'⟩ := inv_run hall
  exact ⟨h.delivers, as', d', hrun', hacc, hrest, h'.delivers⟩

/-- A read whose event comes before its registration, and the end of the device. -/
theorem completions_delivered_one : ∃ d, Transition.run Device.step (Device.start [.submitOp])
    [.go 0, .answer 0 (.accept 7 1), .wait [⟨7, 4096⟩], .close, .pump, .pump, .go 0, .go 0, .go 0,
      .wait [], .pump, .destroy] = some d ∧ d.destroyed = true ∧ d.Delivers := by
  obtain ⟨d, hrun, hdestroyed⟩ := Option.map_eq_some_iff.mp
    (show (Transition.run Device.step (Device.start [.submitOp])
      [.go 0, .answer 0 (.accept 7 1), .wait [⟨7, 4096⟩], .close, .pump, .pump, .go 0, .go 0, .go 0,
        .wait [], .pump, .destroy]).map Device.destroyed = some true by decide +kernel)
  exact ⟨d, hrun, hdestroyed, (completions_delivered hrun).1⟩

end Taihu.CompletionPump
