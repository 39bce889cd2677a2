/-
# A pooled stream answers the call that holds it

Over the machine of `ShmPool.lean`.  A call that returns, or that returns a code of the server,
has read the whole response to each of its requests, in every run in which

* the server writes frames for the oldest request of a stream that is not answered;
* a call that ends early gives back no stream on which something can still arrive.

The invariant says what the server has written for a call (`Tracks`: whole responses, and the
beginning of one), which requests are still due on its stream, and, while the call holds the
stream, that nothing on it is for another call.  So the next frame that arrives is the next one
of the response the call is reading (`Tracks.next`).
-/
import Taihu.ShmPool

namespace Taihu

open Framing

namespace ShmPool

/-! ## 1. What a call makes of a frame -/

theorem not_last_of_more {k : CallKind} {cur : List ShmFrame} {f : ShmFrame}
    (h : k.judge cur f = .more) : ¬ f.Last := by
  have hresp : judgeResp f ≠ .more := by
    cases f <;> simp only [judgeResp] <;> (try split) <;> simp
  have hstat : judgeStat f ≠ .more := by
    cases f <;> simp only [judgeStat] <;> (try split) <;> simp
  have hget : ∀ {size got}, judgeGet size got f = .more → ¬ f.Last := by
    intro size got h
    cases f with
    | get f =>
      cases f with
      | data p => exact id
      | final p =>
        simp only [judgeGet] at h
        split at h
        · cases h
        · split at h <;> cases h
      | err c => cases h
    | placeholder => cases h
    | resp c => cases h
    | statResp n => cases h
  cases k <;> first | exact hget h | exact absurd h hresp | exact absurd h hstat

theorem last_of_done {k : CallKind} {cur : List ShmFrame} {f : ShmFrame}
    (h : k.judge cur f = .done) : f.Last := by
  cases f with
  | get f =>
    cases f with
    | data p =>
      have hget : ∀ {size got}, judgeGet size got (.get (.data p)) ≠ .done := by
        intro size got
        simp only [judgeGet]
        split <;> simp
      cases k <;> first | exact absurd h hget | cases h
    | final p => trivial
    | err c => trivial
  | placeholder => trivial
  | resp c => trivial
  | statResp n => trivial

theorem last_of_code {k : CallKind} {cur : List ShmFrame} {f : ShmFrame} {e : ErrCode}
    (h : k.judge cur f = .code e) : f.Last ∧ f.code? = some e := by
  have hresp : ∀ {c}, (if c = ErrCode.ok then Verdict.done else .code c) = .code e → c = e := by
    intro c h
    split at h
    · cases h
    · cases h
      rfl
  cases f with
  | get f =>
    cases f with
    | data p =>
      have hget : ∀ {size got}, judgeGet size got (.get (.data p)) ≠ .code e := by
        intro size got
        simp only [judgeGet]
        split <;> simp
      cases k <;> first | exact absurd h hget | cases h
    | final p =>
      have hget : ∀ {size got}, judgeGet size got (.get (.final p)) ≠ .code e := by
        intro size got
        simp only [judgeGet]
        split
        · simp
        · split <;> simp
      cases k <;> first | exact absurd h hget | cases h
    | err c =>
      cases k <;> cases h
      all_goals exact ⟨trivial, rfl⟩
  | placeholder =>
    cases k <;> cases h
    all_goals exact ⟨trivial, rfl⟩
  | resp c =>
    refine ⟨trivial, congrArg some ?_⟩
    cases k <;> first | exact hresp h | cases h
  | statResp n => cases k <;> cases h

/-! ## 2. The requests of a call -/

section Opening

variable {α β : Type}

theorem opening_append (fs gs : List (α × ReqOp)) :
    opening (fs ++ gs) = opening fs ++ opening gs := List.filterMap_append

theorem opening_cons (x : α × ReqOp) (fs : List (α × ReqOp)) :
    opening (x :: fs) = (if x.2.Opens then [x.1] else []) ++ opening fs := by
  by_cases h : x.2.Opens
  · simp [opening, h]
  · simp [opening, h]

/-- A request begins with the first of its frames, and with no other. -/
theorem opening_ops (k : CallKind) (i : α) : opening (k.ops.map (fun op => (i, op))) = [i] := by
  have hdata : ∀ n, opening ((List.replicate n ReqOp.putData).map (fun op => (i, op))) = [] := by
    intro n
    induction n with
    | zero => rfl
    | succ n ih => exact ih
  have hput : ∀ n, opening ((putOps n).map (fun op => (i, op))) = [i] := by
    intro n
    rw [putOps, List.map_append, opening_append, List.map_cons, opening_cons, hdata]
    rfl
  cases k <;> first | exact hput _ | rfl

theorem opening_frames (k : CallKind) : opening k.frames = List.range' 0 k.requests := by
  unfold CallKind.frames
  induction List.range' 0 k.requests with
  | nil => rfl
  | cons i l ih => rw [List.flatMap_cons, opening_append, opening_ops, ih, List.singleton_append]

end Opening

/-! ## 3. The invariant -/

/-- What the server has written for call `c` (`rs` in full, and `part`), and, unless the stream has
been given back, what is due on it.  While the call holds the stream, it has read a beginning of
that, and the rest is all that is on the stream. -/
structure Tracks (c : Nat) (call : Call) (l : Link) (p : List (Nat × ShmFrame))
    (rs : List (List ShmFrame)) (part : List ShmFrame) : Prop where
  produced : p = tagged 0 rs ++ tag rs.length part
  whole : ∀ r ∈ rs, Terminated ShmFrame.Last r
  begun : ∀ f ∈ part, ¬ f.Last
  le : rs.length ≤ call.kind.requests
  full : rs.length = call.kind.requests → part = []
  got : call.outcome ≠ .failed → call.got <+: rs
  returned : call.outcome = .returned → call.got.length = call.kind.requests
  coded : ∀ e, call.outcome = .code e →
    ∃ r f, call.got.getLast? = some r ∧ r.getLast? = some f ∧ f.code? = some e
  due : call.lease ≠ .back → l.serving = true →
    l.todo ++ opening l.c2s ++ (opening call.unsent).map (fun i => (c, i)) =
      (List.range' rs.length (call.kind.requests - rs.length)).map (fun i => (c, i))
  pending : call.outcome = .pending → call.lease = .held
  reading : call.lease = .held → call.outcome ≠ .failed ∧ (∀ f ∈ call.cur, ¬ f.Last) ∧
    ∃ X, l.arrived ++ l.s2c = X.map (fun x => ((c, x.1), x.2)) ∧
      p = tagged 0 call.got ++ tag call.got.length call.cur ++ X

/-- The stream of the call is not given back. -/
def Client.Uses (st : Client) (c s : Nat) : Prop :=
  ∃ call, st.calls c = some call ∧ call.stream = s ∧ call.lease ≠ .back

/-- Nothing is on the stream, and nothing can still arrive. -/
def Link.Clean (l : Link) : Prop := l.Idle ∧ l.arrived = []

/-- **The invariant.** -/
structure Client.Inv (st : Client) : Prop where
  calls : ∀ c call, st.calls c = some call →
    ∃ rs part, Tracks c call (st.links call.stream) (st.produced c) rs part
  blank : ∀ c, st.calls c = none → st.produced c = []
  clean : ∀ s, (∀ c, ¬ st.Uses c s) → (st.links s).Clean
  apart : ∀ s c c', st.Uses c s → st.Uses c' s → c = c'
  pooled : ∀ s ∈ st.pool, s < st.opened ∧ ∀ c, ¬ st.Uses c s
  nodup : st.pool.Nodup
  below : ∀ c call, st.calls c = some call → call.stream < st.opened

theorem Tracks.of_back {c : Nat} {call : Call} {l : Link} {p : List (Nat × ShmFrame)}
    {rs : List (List ShmFrame)} {part : List ShmFrame} (h : Tracks c call l p rs part)
    (hback : call.lease = .back) (l' : Link) : Tracks c call l' p rs part :=
  { h with
    due := fun hne => absurd hback hne
    reading := fun hheld => by rw [hback] at hheld; cases hheld }

section Change

variable {st : Client} {c : Nat} {call call' : Call} {l' : Link} {p' : List (Nat × ShmFrame)}
  {rs : List (List ShmFrame)} {part : List ShmFrame}

/-- The state with another record for call `c`, another state of its stream, and more written for
the call. -/
def Client.change (st : Client) (c : Nat) (call' : Call) (l' : Link) (p' : List (Nat × ShmFrame)) :
    Client where
  links := Function.update st.links call'.stream l'
  opened := st.opened
  pool := if call'.lease = .back then st.pool ++ [call'.stream] else st.pool
  calls := Function.update st.calls c (some call')
  produced := Function.update st.produced c p'

theorem Client.change_calls_of_ne {d : Nat} (hne : d ≠ c) :
    (st.change c call' l' p').calls d = st.calls d := Function.update_of_ne hne ..

theorem Client.change_calls_self : (st.change c call' l' p').calls c = some call' :=
  Function.update_self ..

/-- **A step of one call on the stream it uses** keeps the invariant when the call still tracks
what is written for it, and a stream that is given back is clean. -/
theorem Client.Inv.change (hi : st.Inv) (hc : st.calls c = some call) (huse : call.lease ≠ .back)
    (hstream : call'.stream = call.stream) (ht : Tracks c call' l' p' rs part)
    (hclean : call'.lease = .back → l'.Clean) : (st.change c call' l' p').Inv := by
  have hused : st.Uses c call.stream := ⟨call, hc, rfl, huse⟩
  -- who uses a stream afterwards did so before
  have huses : ∀ {d s}, (st.change c call' l' p').Uses d s → st.Uses d s ∧
      (d = c → call'.lease ≠ .back ∧ s = call.stream) := by
    rintro d s ⟨call₂, hcall₂, hs₂, hl₂⟩
    by_cases hd : d = c
    · subst hd
      rw [change_calls_self] at hcall₂
      cases hcall₂
      rw [← hs₂, hstream]
      exact ⟨hused, fun _ => ⟨hl₂, rfl⟩⟩
    · rw [change_calls_of_ne hd] at hcall₂
      exact ⟨⟨call₂, hcall₂, hs₂, hl₂⟩, fun h => absurd h hd⟩
  have hkeeps : ∀ {d s}, d ≠ c → st.Uses d s → (st.change c call' l' p').Uses d s := by
    rintro d s hd ⟨call₂, hcall₂, hs₂, hl₂⟩
    exact ⟨call₂, by rwa [change_calls_of_ne hd], hs₂, hl₂⟩
  have hlinks : ∀ {s}, s ≠ call.stream → (st.change c call' l' p').links s = st.links s := by
    intro s hs
    exact Function.update_of_ne (hstream ▸ hs) ..
  constructor
  case calls =>
    intro d call₂ hcall₂
    by_cases hd : d = c
    · subst hd
      rw [change_calls_self] at hcall₂
      cases hcall₂
      refine ⟨rs, part, ?_⟩
      rw [show (st.change d call' l' p').links call'.stream = l' from Function.update_self ..,
        show (st.change d call' l' p').produced d = p' from Function.update_self ..]
      exact ht
    · rw [change_calls_of_ne hd] at hcall₂
      obtain ⟨rs₂, part₂, ht₂⟩ := hi.calls d call₂ hcall₂
      refine ⟨rs₂, part₂, ?_⟩
      rw [show (st.change c call' l' p').produced d = st.produced d from Function.update_of_ne hd ..]
      by_cases hs : call₂.stream = call.stream
      · refine ht₂.of_back (by_contra fun hl => hd ?_) _
        exact hi.apart call.stream d c ⟨call₂, hcall₂, hs, hl⟩ hused
      · rw [hlinks hs]
        exact ht₂
  case blank =>
    intro d hd
    have hne : d ≠ c := by
      rintro rfl
      rw [change_calls_self] at hd
      cases hd
    rw [change_calls_of_ne hne] at hd
    exact (Function.update_of_ne hne ..).trans (hi.blank d hd)
  case clean =>
    intro s hs
    by_cases hsame : s = call.stream
    · subst hsame
      rw [show (st.change c call' l' p').links call.stream = l' by
        rw [← hstream]
        exact Function.update_self ..]
      refine hclean (by_contra fun hl => hs c ?_)
      exact ⟨call', change_calls_self, hstream, hl⟩
    · rw [hlinks hsame]
      refine hi.clean s (fun d hd => ?_)
      by_cases hdc : d = c
      · subst hdc
        obtain ⟨call₂, hcall₂, hs₂, -⟩ := hd
        rw [hc] at hcall₂
        cases hcall₂
        exact hsame hs₂.symm
      · exact hs d (hkeeps hdc hd)
  case apart => exact fun s d d' hd hd' => hi.apart s d d' (huses hd).1 (huses hd').1
  case pooled =>
    intro s hs
    have hold : s ∈ st.pool → s < st.opened ∧ ∀ d, ¬ (st.change c call' l' p').Uses d s :=
      fun hs => ⟨(hi.pooled s hs).1, fun d hd => (hi.pooled s hs).2 d (huses hd).1⟩
    unfold Client.change at hs
    simp only at hs
    split at hs
    · rename_i hback
      rcases List.mem_append.mp hs with hs | hs
      · exact hold hs
      · obtain rfl := List.mem_singleton.mp hs
        refine ⟨hstream ▸ hi.below c call hc, fun d hd => ?_⟩
        obtain ⟨hd', hdc⟩ := huses hd
        have hdc' := hi.apart _ d c hd' (hstream ▸ hused)
        exact (hdc hdc').1 hback
    · exact hold hs
  case nodup =>
    unfold Client.change
    simp only
    split
    · refine List.nodup_append.mpr ⟨hi.nodup, List.nodup_singleton _, ?_⟩
      intro a ha b hb hab
      rw [List.mem_singleton] at hb
      subst hab hb
      exact (hi.pooled _ ha).2 c (hstream ▸ hused)
    · exact hi.nodup
  case below =>
    intro d call₂ hcall₂
    by_cases hd : d = c
    · subst hd
      rw [change_calls_self] at hcall₂
      cases hcall₂
      rw [hstream]
      exact hi.below d call hc
    · rw [change_calls_of_ne hd] at hcall₂
      exact hi.below d call₂ hcall₂

end Change

/-- A step on a stream that no call uses. -/
theorem Client.Inv.relink {st : Client} (hi : st.Inv) {s : Nat} (hs : ∀ c, ¬ st.Uses c s) {l' : Link}
    (hl : l'.Clean) : (st.setLink s l').Inv := by
  have hlinks : ∀ {s'}, s' ≠ s → (st.setLink s l').links s' = st.links s' := fun h =>
    Function.update_of_ne h ..
  refine ⟨?_, hi.blank, ?_, hi.apart, hi.pooled, hi.nodup, hi.below⟩
  · intro c call hc
    obtain ⟨rs, part, ht⟩ := hi.calls c call hc
    refine ⟨rs, part, ?_⟩
    by_cases hsame : call.stream = s
    · exact ht.of_back (by_contra fun hl => hs c ⟨call, hc, hsame, hl⟩) _
    · rw [hlinks hsame]
      exact ht
  · intro s' hs'
    by_cases hsame : s' = s
    · subst hsame
      rw [show (st.setLink s' l').links s' = l' from Function.update_self ..]
      exact hl
    · rw [hlinks hsame]
      exact hi.clean s' hs'

/-! ## 4. The steps -/

/-- A stream that would be pooled has nothing more to come. -/
def Link.LeftClean (l : Link) : Prop := l.isOpen = true → l.arrived = [] → l.Idle

instance (l : Link) : Decidable l.LeftClean := inferInstanceAs (Decidable (_ → _ → _))

/-- Why a call ends early in this step, if it does, and how it leaves its stream. -/
def Call.stops (call : Call) (l : Link) : CallAct → Option (Stop × Link)
  | .abandon => some (.write, l)
  | .expire => some (.read, l)
  | .read =>
    match l.arrived with
    | [] => none
    | x :: rest =>
      match call.kind.judge call.cur x.2 with
      | .code _ => some (.code, { l with arrived := rest })
      | .bad => some (.read, { l with arrived := rest })
      | _ => none
  | _ => none

/-- **The condition on a step**: a call that ends early and gives its stream back leaves nothing to
come on it; and the server answers the oldest request. -/
def Action.Fits (st : Client) : Action → Prop
  | .start _ _ _ => True
  | .call c a => ∀ d ∈ st.calls c, ∀ x ∈ d.stops (st.links d.stream) a,
    d.kind.putsBack x.1 = true → x.2.LeftClean
  | .link s (.emit tag _) => (st.links s).todo.head? = some tag
  | .link _ _ => True

instance (st : Client) : DecidablePred (Action.Fits st)
  | .start _ _ _ => inferInstanceAs (Decidable True)
  | .call _ _ => inferInstanceAs (Decidable (∀ d ∈ _, ∀ x ∈ _, _ → _))
  | .link _ .deliver => inferInstanceAs (Decidable True)
  | .link _ .closed => inferInstanceAs (Decidable True)
  | .link _ .take => inferInstanceAs (Decidable True)
  | .link _ (.emit _ _) => inferInstanceAs (Decidable (_ = _))
  | .link _ .hangUp => inferInstanceAs (Decidable True)

section Link

variable {c : Nat} {call : Call} {l l' : Link} {p : List (Nat × ShmFrame)}
  {rs : List (List ShmFrame)} {part : List ShmFrame}

/-- A step on the stream at which the server writes nothing. -/
theorem Tracks.relink (ht : Tracks c call l p rs part) {a : LinkAct} (hstep : l.step a = some l')
    (ha : ∀ tag f, a ≠ .emit tag f) : Tracks c call l' p rs part := by
  have hkeep : l'.arrived ++ l'.s2c = l.arrived ++ l.s2c ∧
      (l'.serving = true → l.serving = true ∧
        l'.todo ++ opening l'.c2s = l.todo ++ opening l.c2s) := by
    cases a with
    | deliver =>
      unfold Link.step at hstep
      cases hs2c : l.s2c with
      | nil =>
        rw [hs2c] at hstep
        cases hstep
      | cons x rest =>
        rw [hs2c] at hstep
        cases hstep
        exact ⟨List.append_assoc .., fun h => ⟨h, rfl⟩⟩
    | closed =>
      unfold Link.step at hstep
      simp only at hstep
      split at hstep
      · cases hstep
        exact ⟨rfl, fun h => ⟨h, rfl⟩⟩
      · cases hstep
    | take =>
      unfold Link.step at hstep
      cases hc2s : l.c2s with
      | nil =>
        rw [hc2s] at hstep
        cases hstep
      | cons x rest =>
        rw [hc2s] at hstep
        simp only at hstep
        split at hstep
        · rename_i hserving
          cases hstep
          refine ⟨rfl, fun _ => ⟨hserving, ?_⟩⟩
          rw [opening_cons]
          by_cases hx : x.2.Opens
          · simp only [if_pos hx, List.append_assoc]
          · simp only [if_neg hx, List.nil_append]
        · cases hstep
    | emit tag f => exact absurd rfl (ha tag f)
    | hangUp =>
      cases hstep
      exact ⟨rfl, fun h => nomatch h⟩
  obtain ⟨hframes, hdue⟩ := hkeep
  refine { ht with due := fun hne hs => ?_, reading := fun hheld => ?_ }
  · rw [(hdue hs).2]
    exact ht.due hne (hdue hs).1
  · rw [hframes]
    exact ht.reading hheld

/-- The next frame of the oldest request that is not answered. -/
theorem Tracks.emit (ht : Tracks c call l p rs part) (huse : call.lease ≠ .back) {tag : Tag}
    {f : ShmFrame} (hhead : l.todo.head? = some tag) (hstep : l.step (.emit tag f) = some l') :
    tag.1 = c ∧ ∃ rs' part', Tracks c call l' (p ++ [(tag.2, f)]) rs' part' := by
  unfold Link.step at hstep
  simp only at hstep
  split at hstep
  swap
  · cases hstep
  rename_i hserving
  cases hstep
  obtain ⟨todo, htodo⟩ : ∃ todo, l.todo = tag :: todo := by
    cases h : l.todo with
    | nil =>
      rw [h] at hhead
      cases hhead
    | cons x todo =>
      rw [h] at hhead
      cases hhead
      exact ⟨todo, rfl⟩
  -- the oldest request is the first that has no whole response
  have hdue := ht.due huse hserving
  have hlt : rs.length < call.kind.requests := by
    by_contra hge
    rw [Nat.sub_eq_zero_of_le (Nat.le_of_not_lt hge), htodo] at hdue
    cases hdue
  rw [show call.kind.requests - rs.length = call.kind.requests - (rs.length + 1) + 1 by omega,
    List.range'_succ, htodo] at hdue
  obtain ⟨rfl, hrest⟩ := List.cons.inj hdue
  refine ⟨rfl, ?_⟩
  have hframes : ∀ {cur : List ShmFrame} {X}, p = tagged 0 call.got ++ tag call.got.length cur ++ X →
      p ++ [(rs.length, f)] = tagged 0 call.got ++ tag call.got.length cur ++ (X ++ [(rs.length, f)]) :=
    fun h => by rw [h, List.append_assoc]
  have hreading : call.lease = .held → call.outcome ≠ .failed ∧ (∀ f ∈ call.cur, ¬ f.Last) ∧
      ∃ X, l.arrived ++ (l.s2c ++ [((c, rs.length), f)]) = X.map (fun x => ((c, x.1), x.2)) ∧
        p ++ [(rs.length, f)] = tagged 0 call.got ++ tag call.got.length call.cur ++ X := by
    intro hheld
    obtain ⟨hok, hcur, X, hX, hp⟩ := ht.reading hheld
    refine ⟨hok, hcur, X ++ [(rs.length, f)], ?_, hframes hp⟩
    rw [← List.append_assoc, hX, List.map_append]
    rfl
  by_cases hlast : f.Last
  · refine ⟨rs ++ [part ++ [f]], [], ?_⟩
    have hlen : (rs ++ [part ++ [f]]).length = rs.length + 1 := by simp
    exact
      { produced := by
          rw [ht.produced, tagged_append, tag_nil, List.append_nil, Nat.zero_add, tagged,
            tagged_nil, List.append_nil, tag_append, List.append_assoc]
          rfl
        whole := by
          intro r hr
          rcases List.mem_append.mp hr with hr | hr
          · exact ht.whole r hr
          · rw [List.mem_singleton.mp hr]
            exact terminated_append_last ht.begun hlast
        begun := fun g hg => absurd hg List.not_mem_nil
        le := by rw [hlen]; exact hlt
        full := fun _ => rfl
        got := fun hok => (ht.got hok).trans (List.prefix_append _ _)
        returned := ht.returned
        coded := ht.coded
        due := by
          intro _ _
          rw [hlen, if_pos hlast, htodo, List.erase_cons_head]
          exact hrest
        pending := ht.pending
        reading := hreading }
  · refine ⟨rs, part ++ [f], ?_⟩
    exact
      { produced := by
          rw [ht.produced, tag_append, List.append_assoc]
          rfl
        whole := ht.whole
        begun := by
          intro g hg
          rcases List.mem_append.mp hg with hg | hg
          · exact ht.begun g hg
          · rw [List.mem_singleton.mp hg]
            exact hlast
        le := ht.le
        full := fun h => absurd h hlt.ne
        got := ht.got
        returned := ht.returned
        coded := ht.coded
        due := by
          intro hne _
          rw [if_neg hlast]
          exact ht.due hne hserving
        pending := ht.pending
        reading := hreading }

/-- A step on a stream with nothing to come. -/
theorem Link.Clean.step (hl : l.Clean) {a : LinkAct} (hstep : l.step a = some l')
    (hhead : ∀ tag f, a = .emit tag f → l.todo.head? = some tag) : l'.Clean := by
  obtain ⟨⟨hs2c, hserving⟩, harr⟩ := hl
  cases a with
  | deliver =>
    unfold Link.step at hstep
    rw [hs2c] at hstep
    cases hstep
  | closed =>
    unfold Link.step at hstep
    simp only at hstep
    split at hstep
    · cases hstep
      exact ⟨⟨hs2c, hserving⟩, harr⟩
    · cases hstep
  | take =>
    unfold Link.step at hstep
    cases hc2s : l.c2s with
    | nil =>
      rw [hc2s] at hstep
      cases hstep
    | cons x rest =>
      rw [hc2s] at hstep
      simp only at hstep
      split at hstep
      · rename_i hs
        cases hstep
        obtain ⟨htodo, hopening⟩ := hserving hs
        rw [hc2s, opening_cons] at hopening
        obtain ⟨hx, hrest⟩ := List.append_eq_nil_iff.mp hopening
        refine ⟨⟨hs2c, fun _ => ⟨?_, hrest⟩⟩, harr⟩
        have hnot : ¬ x.2.Opens := by
          intro h
          rw [if_pos h] at hx
          cases hx
        simp only [if_neg hnot]
        exact htodo
      · cases hstep
  | emit tag f =>
    have hhead := hhead tag f rfl
    unfold Link.step at hstep
    simp only at hstep
    split at hstep
    · rename_i hs
      rw [(hserving hs).1] at hhead
      cases hhead
    · cases hstep
  | hangUp =>
    cases hstep
    exact ⟨⟨hs2c, fun h => nomatch h⟩, harr⟩

end Link

variable {st st' : Client}

/-- **A step on a stream** keeps the invariant. -/
theorem Client.Inv.link (hi : st.Inv) {s : Nat} {a : LinkAct} {l' : Link}
    (hstep : (st.links s).step a = some l')
    (hhead : ∀ tag f, a = .emit tag f → (st.links s).todo.head? = some tag) :
    Client.Inv { st.setLink s l' with produced := a.produces st.produced } := by
  by_cases hs : ∀ c, ¬ st.Uses c s
  · have hclean := (hi.clean s hs).step hstep hhead
    cases a with
    | emit tag f =>
      have hhead := hhead tag f rfl
      unfold Link.step at hstep
      simp only at hstep
      split at hstep
      · rename_i hserving
        rw [((hi.clean s hs).1.2 hserving).1] at hhead
        cases hhead
      · cases hstep
    | deliver => exact hi.relink hs hclean
    | closed => exact hi.relink hs hclean
    | take => exact hi.relink hs hclean
    | hangUp => exact hi.relink hs hclean
  · rw [not_forall] at hs
    obtain ⟨c, hc⟩ := hs
    obtain ⟨call, hcall, rfl, huse⟩ := not_not.mp hc
    obtain ⟨rs, part, ht⟩ := hi.calls c call hcall
    -- the call keeps its record
    have hchange : ∀ {p' rs' part'}, Tracks c call l' p' rs' part' →
        Client.Inv { st.setLink call.stream l' with
          produced := Function.update st.produced c p' } := by
      intro p' rs' part' ht'
      have := hi.change hcall huse rfl ht' (fun h => absurd h huse)
      unfold Client.change at this
      rwa [if_neg huse, ← hcall, Function.update_eq_self] at this
    have hquiet : (∀ tag f, a ≠ .emit tag f) → a.produces st.produced = st.produced →
        Client.Inv { st.setLink call.stream l' with produced := a.produces st.produced } := by
      intro ha hp
      have := hchange (ht.relink hstep ha)
      rw [Function.update_eq_self] at this
      rwa [hp]
    cases a with
    | emit tag f =>
      obtain ⟨rfl, rs', part', ht'⟩ := ht.emit huse (hhead tag f rfl) hstep
      exact hchange ht'
    | deliver => exact hquiet (fun _ _ h => nomatch h) rfl
    | closed => exact hquiet (fun _ _ h => nomatch h) rfl
    | take => exact hquiet (fun _ _ h => nomatch h) rfl
    | hangUp => exact hquiet (fun _ _ h => nomatch h) rfl

/-! ## 5. The steps of a call -/

section Read

variable {c : Nat} {call : Call} {l : Link} {p : List (Nat × ShmFrame)}
  {rs : List (List ShmFrame)} {part : List ShmFrame}

/-- **The next frame** belongs to the response the call is reading; if it ends that, the call has
read one more response in full. -/
theorem Tracks.next (ht : Tracks c call l p rs part) (hheld : call.lease = .held)
    {x : Tag × ShmFrame} {rest : List (Tag × ShmFrame)} (harr : l.arrived = x :: rest) :
    (∃ X, rest ++ l.s2c = X.map (fun x => ((c, x.1), x.2)) ∧
      p = tagged 0 call.got ++ tag call.got.length (call.cur ++ [x.2]) ++ X) ∧
    (x.2.Last → call.got ++ [call.cur ++ [x.2]] <+: rs) := by
  obtain ⟨hok, hcur, X, hX, hp⟩ := ht.reading hheld
  have hgot := ht.got hok
  have hle := hgot.length_le
  rw [harr, List.cons_append] at hX
  cases X with
  | nil => cases hX
  | cons y X =>
    rw [List.map_cons] at hX
    obtain ⟨rfl, hrest⟩ := List.cons.inj hX
    -- the response that the call is reading
    have hbs : p = tagged 0 (rs ++ [part]) := by
      rw [ht.produced, tagged_concat, Nat.zero_add]
    obtain ⟨b, hb⟩ : ∃ b, (rs ++ [part])[call.got.length]? = some b :=
      ⟨_, List.getElem?_eq_getElem (by simp; omega)⟩
    have hcurb : call.cur <+: b := by
      refine ⟨itemsOf call.got.length (y :: X), ?_⟩
      have hitems := itemsOf_tagged (n := 0) hb
      rw [← hbs, hp, Nat.zero_add, itemsOf_append, itemsOf_append, itemsOf_tag_self,
        itemsOf_tagged_of_le (by omega), List.nil_append] at hitems
      exact hitems
    have htake : (rs ++ [part]).take call.got.length = call.got := by
      rw [List.take_append_of_le_length hle]
      exact (List.prefix_iff_eq_take.mp hgot).symm
    have hmore : tagged 0 ((rs ++ [part]).take call.got.length) ++ tag call.got.length call.cur ++
        [y] <+: tagged 0 (rs ++ [part]) := by
      rw [htake, ← hbs, hp]
      exact ⟨X, by simp⟩
    obtain ⟨b', hb', hcases⟩ := next_of_tagged (by simp; omega) (by rwa [hb, Option.getD_some]) hmore
    obtain rfl : b = b' := Option.some.inj (hb.symm.trans hb')
    have hwhich : (call.got.length < rs.length ∧ rs[call.got.length]? = some b) ∨
        (call.got.length = rs.length ∧ b = part) := by
      rcases Nat.lt_or_ge call.got.length rs.length with hlt | hge
      · rw [List.getElem?_append_left hlt] at hb
        exact .inl ⟨hlt, hb⟩
      · have heq : call.got.length = rs.length := Nat.le_antisymm hle hge
        rw [heq, List.getElem?_concat_length] at hb
        exact .inr ⟨heq, (Option.some.inj hb).symm⟩
    rcases hcases with ⟨hy, hpre⟩ | ⟨rfl, hy⟩
    · refine ⟨⟨X, hrest, ?_⟩, fun hlast => ?_⟩
      · rw [hp, tag_append, ← hy]
        simp only [List.append_assoc]
        rfl
      · rcases hwhich with ⟨hlt, hb⟩ | ⟨-, rfl⟩
        · have hwhole := ht.whole b (List.mem_of_getElem? hb)
          obtain ⟨r, rfl⟩ := hpre
          have hterm := terminated_append_last hcur hlast
          have heq : call.cur ++ [y.2] ++ r = call.cur ++ [y.2] :=
            hwhole.upTo_eq.symm.trans (hterm.upTo_append r)
          rw [heq] at hb
          rw [show call.got ++ [call.cur ++ [y.2]] = rs.take (call.got.length + 1) by
            rw [List.take_add_one, hb, ← List.prefix_iff_eq_take.mp hgot]
            rfl]
          exact List.take_prefix _ _
        · exact absurd hlast (ht.begun _ (hpre.subset (by simp)))
    · rcases hwhich with ⟨-, hb⟩ | ⟨heq, rfl⟩
      · obtain ⟨f, hf, hlast⟩ := (ht.whole _ (List.mem_of_getElem? hb)).exists_mem
        exact absurd hlast (hcur f hf)
      · rw [List.drop_of_length_le (by simp; omega)] at hy
        exact absurd hy List.not_mem_nil

/-- A call that has read all its responses leaves nothing on its stream. -/
theorem Tracks.idle (ht : Tracks c call l p rs part) (hheld : call.lease = .held)
    (hret : call.outcome = .returned) : l.Idle ∧ l.arrived = [] := by
  obtain ⟨hok, -, X, hX, hp⟩ := ht.reading hheld
  have hlen := ht.returned hret
  have hrs : call.got = rs :=
    (ht.got hok).eq_of_length (Nat.le_antisymm (ht.got hok).length_le (hlen ▸ ht.le))
  rw [hrs] at hlen
  have hX' : X = [] := by
    have hpp := hp.symm.trans ht.produced
    rw [hrs, ht.full hlen, List.append_assoc, List.append_cancel_left_eq, tag_nil] at hpp
    exact (List.append_eq_nil_iff.mp hpp).2
  rw [hX', List.map_nil] at hX
  obtain ⟨harr, hs2c⟩ := List.append_eq_nil_iff.mp hX
  refine ⟨⟨hs2c, fun hs => ?_⟩, harr⟩
  have hdue := ht.due (by rw [hheld]; decide) hs
  rw [hlen, Nat.sub_self] at hdue
  exact List.append_eq_nil_iff.mp (List.append_eq_nil_iff.mp hdue).1

end Read

section Leave

variable {st : Client} {c : Nat} {call : Call} {l' : Link} {rs : List (List ShmFrame)}
  {part : List ShmFrame}

/-- A call that keeps its stream. -/
theorem Client.Inv.record (hi : st.Inv) (hc : st.calls c = some call) (hlease : call.lease ≠ .back)
    (whole : Call) (huse : whole.lease ≠ .back) (hstream : whole.stream = call.stream)
    (ht : Tracks c whole l' (st.produced c) rs part) :
    ((st.setLink call.stream l').setCall c whole).Inv := by
  have := hi.change hc hlease hstream ht (fun h => absurd h huse)
  unfold Client.change at this
  rwa [if_neg huse, Function.update_eq_self, hstream] at this

/-- A call that gives its stream back, or closes it. -/
theorem Client.Inv.leave (hi : st.Inv) (hc : st.calls c = some call) (huse : call.lease ≠ .back)
    (whole : Call) (l' : Link) (hstream : whole.stream = call.stream) {back : Bool}
    (ht : ∀ lease isOpen, lease ≠ .held →
      Tracks c { whole with lease := lease } { l' with isOpen := isOpen } (st.produced c) rs part)
    (hclean : back = true → l'.LeftClean) :
    ((st.setLink call.stream l').leave c whole back).Inv := by
  have hl : (st.setLink call.stream l').links whole.stream = l' := by
    rw [hstream]
    exact Function.update_self ..
  unfold Client.leave
  simp only [hl]
  split
  · rename_i hback
    have : (st.change c { whole with lease := .back } l' (st.produced c)).Inv :=
      hi.change hc huse hstream (ht .back l'.isOpen (by decide))
        (fun _ => ⟨hclean hback.1 hback.2.1 hback.2.2, hback.2.2⟩)
    unfold Client.change at this
    rw [if_pos rfl, Function.update_eq_self, hstream] at this
    rw [hstream]
    exact this
  · have : (st.change c { whole with lease := .closed } { l' with isOpen := false }
        (st.produced c)).Inv :=
      hi.change hc huse hstream (ht .closed false (by decide)) (fun h => nomatch h)
    unfold Client.change at this
    rw [if_neg (fun h => nomatch h), Function.update_eq_self] at this
    unfold Client.setLink Client.setCall
    simp only [← hstream, Function.update_idem]
    exact this

end Leave

variable {st : Client} {c : Nat} {call : Call}

/-- **A frame that arrives** is read by the call it is for. -/
theorem Client.Inv.receive (hi : st.Inv) (hc : st.calls c = some call)
    (hpending : call.outcome = .pending) {x : Tag × ShmFrame} {rest : List (Tag × ShmFrame)}
    (harr : (st.links call.stream).arrived = x :: rest)
    (hleaves : ∀ x ∈ call.stops (st.links call.stream) .read,
      call.kind.putsBack x.1 = true → x.2.LeftClean) :
    ((st.setLink call.stream { st.links call.stream with arrived := rest }).receive c call
      x.2).Inv := by
  obtain ⟨rs, part, ht⟩ := hi.calls c call hc
  have hheld := ht.pending hpending
  have huse : call.lease ≠ .back := by
    rw [hheld]
    decide
  have hok : call.outcome ≠ .failed := by
    rw [hpending]
    decide
  obtain ⟨⟨X, hX, hp⟩, hread⟩ := ht.next hheld harr
  obtain ⟨l', hl'⟩ : ∃ l', l' = { st.links call.stream with arrived := rest } := ⟨_, rfl⟩
  simp only [Call.stops, harr, ← hl'] at hleaves ⊢
  -- what holds of any further record of the call
  have hbase : ∀ {got cur outcome lease isOpen}, (outcome ≠ .failed → got <+: rs) →
      (outcome = .returned → got.length = call.kind.requests) →
      (∀ e, outcome = .code e →
        ∃ r f, got.getLast? = some r ∧ r.getLast? = some f ∧ f.code? = some e) →
      (outcome = .pending → lease = .held) →
      (lease = .held → outcome ≠ .failed ∧ (∀ f ∈ cur, ¬ f.Last) ∧
        tagged 0 got ++ tag got.length cur =
          tagged 0 call.got ++ tag call.got.length (call.cur ++ [x.2])) →
      Tracks c { call with got := got, cur := cur, outcome := outcome, lease := lease }
        { l' with isOpen := isOpen } (st.produced c) rs part := by
    intro got cur outcome lease isOpen hgot hret hcoded hpend hreading
    refine { ht with
      got := hgot, returned := hret, coded := hcoded, pending := hpend
      due := fun _ hs => ?_
      reading := fun h => ?_ }
    · subst hl'
      exact ht.due huse hs
    · obtain ⟨h1, h2, h3⟩ := hreading h
      refine ⟨h1, h2, X, ?_, ?_⟩
      · subst hl'
        exact hX
      · rw [h3]
        exact hp
  have hend : x.2.Last → ∀ {outcome lease isOpen}, outcome ≠ .failed →
      (outcome = .returned → call.got.length + 1 = call.kind.requests) →
      (∀ e, outcome = .code e → x.2.code? = some e) → (outcome = .pending → lease = .held) →
      Tracks c { call with
        got := call.got ++ [call.cur ++ [x.2]], cur := [], outcome := outcome, lease := lease }
        { l' with isOpen := isOpen } (st.produced c) rs part := by
    intro hlast outcome lease isOpen hne hret hcoded hpend
    refine hbase (fun _ => hread hlast) (fun h => ?_) (fun e h => ?_) hpend (fun _ => ⟨hne, ?_, ?_⟩)
    · rw [List.length_append]
      exact hret h
    · exact ⟨_, x.2, List.getLast?_concat, List.getLast?_concat, hcoded e h⟩
    · exact fun f hf => absurd hf List.not_mem_nil
    · rw [tag_nil, List.append_nil, tagged_concat, Nat.zero_add]
  unfold Client.receive
  simp only
  cases hjudge : call.kind.judge call.cur x.2 with
  | more =>
    simp only
    have ht' : Tracks c { call with cur := call.cur ++ [x.2] } l' (st.produced c) rs part :=
      hbase (fun _ => ht.got hok) ht.returned ht.coded ht.pending (fun _ => ⟨hok, fun f hf => by
        rcases List.mem_append.mp hf with hf | hf
        · exact (ht.reading hheld).2.1 f hf
        · rw [List.mem_singleton.mp hf]
          exact not_last_of_more hjudge, rfl⟩)
    exact hi.record hc huse _ huse rfl ht'
  | done =>
    simp only
    have hlast := last_of_done hjudge
    split
    · rename_i hlen
      rw [List.length_append] at hlen
      have ht' : ∀ lease isOpen, Tracks c { call with
          got := call.got ++ [call.cur ++ [x.2]], cur := [], outcome := .returned, lease := lease }
          { l' with isOpen := isOpen } (st.produced c) rs part := fun lease isOpen =>
        hend hlast (by decide) (fun _ => hlen) (fun e h => nomatch h) (fun h => nomatch h)
      split
      · exact hi.record hc huse _ huse rfl (ht' call.lease l'.isOpen)
      · exact hi.leave hc huse { call with
            got := call.got ++ [call.cur ++ [x.2]], cur := [], outcome := .returned } l' rfl
          (fun lease isOpen _ => ht' lease isOpen) (fun _ _ _ => ((ht' .held l'.isOpen).idle rfl rfl).1)
    · have ht' : Tracks c { call with got := call.got ++ [call.cur ++ [x.2]], cur := [] } l'
          (st.produced c) rs part :=
        hend hlast hok (fun h => by rw [hpending] at h; cases h)
          (fun e h => by rw [hpending] at h; cases h) (fun _ => hheld)
      exact hi.record hc huse _ huse rfl ht'
  | code e =>
    simp only [hjudge] at hleaves ⊢
    obtain ⟨hlast, hcode⟩ := last_of_code hjudge
    have ht' : ∀ lease isOpen, lease ≠ .held → Tracks c { call with
        got := call.got ++ [call.cur ++ [x.2]], cur := [], outcome := .code e, lease := lease }
        { l' with isOpen := isOpen } (st.produced c) rs part := fun lease isOpen _ =>
      hend hlast (fun h => nomatch h) (fun h => nomatch h) (fun e' h => by cases h; exact hcode)
        (fun h => nomatch h)
    exact hi.leave hc huse { call with
      got := call.got ++ [call.cur ++ [x.2]], cur := [], outcome := .code e } l' rfl ht'
      (hleaves _ rfl)
  | bad =>
    simp only [hjudge] at hleaves ⊢
    have ht' : ∀ lease isOpen, lease ≠ .held → Tracks c { call with
        cur := call.cur ++ [x.2], outcome := .failed, lease := lease }
        { l' with isOpen := isOpen } (st.produced c) rs part := fun lease isOpen hne =>
      hbase (fun h => absurd rfl h) (fun h => nomatch h) (fun e h => nomatch h)
        (fun h => nomatch h) (fun h => absurd h hne)
    exact hi.leave hc huse { call with cur := call.cur ++ [x.2], outcome := .failed } l' rfl ht'
      (hleaves _ rfl)

/-- A call that fails. -/
theorem Client.Inv.fail (hi : st.Inv) (hc : st.calls c = some call)
    (hpending : call.outcome = .pending) {back : Bool}
    (hclean : back = true → (st.links call.stream).LeftClean) :
    (st.leave c { call with outcome := .failed } back).Inv := by
  obtain ⟨rs, part, ht⟩ := hi.calls c call hc
  have huse : call.lease ≠ .back := by
    rw [ht.pending hpending]
    decide
  have hsame : st.setLink call.stream (st.links call.stream) = st := by
    unfold Client.setLink
    rw [Function.update_eq_self]
  have := hi.leave hc huse { call with outcome := .failed } (st.links call.stream) rfl
    (fun lease isOpen hne => { ht with
      got := fun h => absurd rfl h
      returned := fun h => nomatch h
      coded := fun e h => nomatch h
      pending := fun h => nomatch h
      due := fun _ hs => ht.due huse hs
      reading := fun h => absurd h hne }) hclean
  rwa [hsame] at this

/-- **A step of a call** keeps the invariant. -/
theorem Client.Inv.act (hi : st.Inv) (hc : st.calls c = some call) {a : CallAct}
    (hleaves : ∀ x ∈ call.stops (st.links call.stream) a,
      call.kind.putsBack x.1 = true → x.2.LeftClean) {st' : Client}
    (hstep : st.callStep c call a = some st') : st'.Inv := by
  obtain ⟨rs, part, ht⟩ := hi.calls c call hc
  cases a with
  | send =>
    unfold Client.callStep at hstep
    simp only at hstep
    cases hunsent : call.unsent with
    | nil =>
      rw [hunsent] at hstep
      cases hstep
    | cons x rest =>
      rw [hunsent] at hstep
      simp only at hstep
      split at hstep
      · rename_i hpending
        cases hstep
        have hheld := ht.pending hpending
        have huse : call.lease ≠ .back := by
          rw [hheld]
          decide
        refine hi.record hc huse { call with unsent := rest } huse rfl { ht with
          due := fun _ hs => ?_ }
        rw [← ht.due huse hs, hunsent, opening_cons x rest, opening_append, opening_cons]
        by_cases hx : x.2.Opens
        · simp [if_pos hx, opening]
        · simp [if_neg hx, opening]
      · cases hstep
  | abandon =>
    unfold Client.callStep at hstep
    simp only at hstep
    split at hstep
    · rename_i hcan
      cases hstep
      exact hi.fail hc hcan.1 (hleaves _ rfl)
    · cases hstep
  | read =>
    unfold Client.callStep at hstep
    simp only at hstep
    cases harr : (st.links call.stream).arrived with
    | nil =>
      rw [harr] at hstep
      cases hstep
    | cons x rest =>
      rw [harr] at hstep
      simp only at hstep
      split at hstep
      · rename_i hcan
        cases hstep
        exact hi.receive hc hcan.1 harr hleaves
      · cases hstep
  | expire =>
    unfold Client.callStep at hstep
    simp only at hstep
    split at hstep
    · rename_i hcan
      cases hstep
      exact hi.fail hc hcan.1 (hleaves _ rfl)
    · cases hstep
  | release =>
    unfold Client.callStep at hstep
    simp only at hstep
    split at hstep
    · rename_i hcan
      cases hstep
      have huse : call.lease ≠ .back := by
        rw [hcan.2]
        decide
      have hsame : st.setLink call.stream (st.links call.stream) = st := by
        unfold Client.setLink
        rw [Function.update_eq_self]
      have : ((st.setLink call.stream (st.links call.stream)).leave c call true).Inv :=
        hi.leave hc huse call (st.links call.stream) rfl
          (fun lease isOpen hne => { ht with
            pending := fun h => by rw [hcan.1] at h; cases h
            due := fun _ hs => ht.due huse hs
            reading := fun h => absurd h hne })
          (fun _ _ _ => (ht.idle hcan.2 hcan.1).1)
      rwa [hsame] at this
    · cases hstep

/-! ## 6. Isolation -/

variable {st st' : Client}

/-- A call that begins on a clean stream. -/
theorem Client.Inv.begins (hi : st.Inv) {c : Nat} (hc : st.calls c = none) {s opened : Nat}
    {pool : List Nat} (kind : CallKind) (hs : ∀ d, ¬ st.Uses d s) (hlt : s < opened)
    (hle : st.opened ≤ opened) (hpool : ∀ t ∈ pool, t ∈ st.pool ∧ t ≠ s) (hnodup : pool.Nodup) :
    Client.Inv { st.setCall c (.start kind s) with pool := pool, opened := opened } := by
  obtain ⟨⟨hs2c, hidle⟩, harr⟩ := hi.clean s hs
  have hself : (st.setCall c (.start kind s)).calls c = some (.start kind s) :=
    Function.update_self ..
  have hother : ∀ {d}, d ≠ c → (st.setCall c (.start kind s)).calls d = st.calls d := fun h =>
    Function.update_of_ne h ..
  have huses : ∀ {d t}, Client.Uses { st.setCall c (.start kind s) with
      pool := pool, opened := opened } d t → (d = c ∧ t = s) ∨ (d ≠ c ∧ st.Uses d t) := by
    rintro d t ⟨call, hcall, ht, hl⟩
    by_cases hd : d = c
    · subst hd
      cases hself.symm.trans hcall
      exact .inl ⟨rfl, ht.symm⟩
    · exact .inr ⟨hd, call, (hother hd).symm.trans hcall, ht, hl⟩
  constructor
  case calls =>
    intro d call hcall
    by_cases hd : d = c
    · subst hd
      cases hself.symm.trans hcall
      exact ⟨[], [],
        { produced := hi.blank d hc
          whole := fun r hr => absurd hr List.not_mem_nil
          begun := fun f hf => absurd hf List.not_mem_nil
          le := Nat.zero_le _
          full := fun _ => rfl
          got := fun _ => List.nil_prefix
          returned := fun h => nomatch h
          coded := fun e h => nomatch h
          due := by
            intro _ hserving
            obtain ⟨htodo, hopening⟩ := hidle hserving
            show (st.links s).todo ++ opening (st.links s).c2s ++ _ = _
            rw [htodo, hopening, show (Call.start kind s).unsent = kind.frames from rfl,
              opening_frames]
            rfl
          pending := fun _ => rfl
          reading := by
            refine fun _ => ⟨(fun h => nomatch h), fun f hf => absurd hf List.not_mem_nil, [], ?_, ?_⟩
            · show (st.links s).arrived ++ (st.links s).s2c = []
              rw [harr, hs2c, List.append_nil]
            · exact hi.blank d hc }⟩
    · exact hi.calls d call ((hother hd).symm.trans hcall)
  case blank =>
    intro d hd
    have hne : d ≠ c := by
      rintro rfl
      cases hself.symm.trans hd
    exact hi.blank d ((hother hne).symm.trans hd)
  case clean =>
    intro t ht
    refine hi.clean t (fun d hd => ht d ?_)
    obtain ⟨call, hcall, hst, hl⟩ := hd
    have hne : d ≠ c := by
      rintro rfl
      cases hc.symm.trans hcall
    exact ⟨call, (hother hne).trans hcall, hst, hl⟩
  case apart =>
    intro t d d' hd hd'
    rcases huses hd with ⟨rfl, rfl⟩ | ⟨-, hold⟩
    · rcases huses hd' with ⟨rfl, -⟩ | ⟨-, hold'⟩
      · rfl
      · exact absurd hold' (hs d')
    · rcases huses hd' with ⟨rfl, rfl⟩ | ⟨-, hold'⟩
      · exact absurd hold (hs d)
      · exact hi.apart t d d' hold hold'
  case pooled =>
    intro t ht
    obtain ⟨hmem, hne⟩ := hpool t ht
    refine ⟨Nat.lt_of_lt_of_le (hi.pooled t hmem).1 hle, fun d hd => ?_⟩
    rcases huses hd with ⟨-, h⟩ | ⟨-, hd⟩
    · exact hne h
    · exact (hi.pooled t hmem).2 d hd
  case nodup => exact hnodup
  case below =>
    intro d call hcall
    by_cases hd : d = c
    · subst hd
      cases hself.symm.trans hcall
      exact hlt
    · exact Nat.lt_of_lt_of_le (hi.below d call ((hother hd).symm.trans hcall)) hle

theorem Client.Inv.start : Client.start.Inv where
  calls := fun _ _ h => nomatch h
  blank := fun _ _ => rfl
  clean := fun _ _ => ⟨⟨rfl, fun _ => ⟨rfl, rfl⟩⟩, rfl⟩
  apart := by
    rintro s c c' ⟨call, h, -⟩
    cases h
  pooled := fun _ h => absurd h List.not_mem_nil
  nodup := List.nodup_nil
  below := fun _ _ h => nomatch h

/-- **Every step that fits keeps the invariant.** -/
theorem Client.Inv.step (hi : st.Inv) {a : Action} (hfit : a.Fits st) (hstep : st.step a = some st') :
    st'.Inv := by
  cases a with
  | start c kind stream =>
    unfold Client.step Client.begin at hstep
    simp only at hstep
    split at hstep
    · cases hstep
    rename_i hc
    replace hc : st.calls c = none := Option.not_isSome_iff_eq_none.mp hc
    cases stream with
    | none =>
      cases hstep
      refine hi.begins hc kind (fun d hd => ?_) (Nat.lt_succ_self _) (Nat.le_succ _)
        (fun t ht => ⟨ht, (hi.pooled t ht).1.ne⟩) hi.nodup
      obtain ⟨call, hcall, hs, -⟩ := hd
      exact absurd hs (hi.below d call hcall).ne
    | some s =>
      simp only at hstep
      split at hstep
      · rename_i hs
        cases hstep
        refine hi.begins hc kind (hi.pooled s hs.1).2 (hi.pooled s hs.1).1 (Nat.le_refl _)
          (fun t ht => ?_) (hi.nodup.erase s)
        obtain ⟨hne, hmem⟩ := hi.nodup.mem_erase_iff.mp ht
        exact ⟨hmem, hne⟩
      · cases hstep
  | call c a =>
    obtain ⟨call, hc, hstep⟩ := Option.bind_eq_some_iff.mp hstep
    exact hi.act hc (hfit call hc) hstep
  | link s a =>
    obtain ⟨l', hl, rfl⟩ := Option.map_eq_some_iff.mp hstep
    refine hi.link hl ?_
    rintro tag f rfl
    exact hfit

/-- A call that returns, or returns a code of the server, has read the whole response to each of
its requests, or to those up to the one that is refused. -/
structure Call.Own (call : Call) (p : List (Nat × ShmFrame)) : Prop where
  own : call.outcome = .returned ∨ (∃ e, call.outcome = .code e) →
    ∀ (k : Nat) (r : List ShmFrame), call.got[k]? = some r →
      r = itemsOf k p ∧ Terminated ShmFrame.Last r
  returned : call.outcome = .returned → call.got.length = call.kind.requests
  coded : ∀ e, call.outcome = .code e →
    ∃ r f, call.got.getLast? = some r ∧ r.getLast? = some f ∧ f.code? = some e

theorem Tracks.own {c : Nat} {call : Call} {l : Link} {p : List (Nat × ShmFrame)}
    {rs : List (List ShmFrame)} {part : List ShmFrame} (ht : Tracks c call l p rs part) :
    call.Own p := by
  refine ⟨fun hend k r hk => ?_, ht.returned, ht.coded⟩
  have hok : call.outcome ≠ .failed := by
    rcases hend with h | ⟨e, h⟩ <;> rw [h] <;> simp
  obtain ⟨more, hmore⟩ := ht.got hok
  have hr : rs[k]? = some r := by
    rw [← hmore, List.getElem?_append_left (List.getElem?_eq_some_iff.mp hk).1, hk]
  have hbs : (rs ++ [part])[k]? = some r := by
    rw [List.getElem?_append_left (List.getElem?_eq_some_iff.mp hr).1, hr]
  have hitems := itemsOf_tagged (n := 0) hbs
  rw [tagged_concat, Nat.zero_add, Nat.zero_add, ← ht.produced] at hitems
  exact ⟨hitems.symm, ht.whole r (List.mem_of_getElem? hr)⟩

/-- **Isolation**, in every run whose steps fit: each call that returns has read what the server
wrote for its own requests. -/
theorem isolated_of_run {as : List Action}
    (hfits : Transition.Along Client.step (fun st a => a.Fits st) Client.start as)
    (hrun : Transition.run Client.step Client.start as = some st) (c : Nat) (call : Call)
    (hc : st.calls c = some call) : call.Own (st.produced c) := by
  have hi : st.Inv := Transition.run_invariant (fun _ _ _ hi hfit hstep => hi.step hfit hstep)
    Client.Inv.start hfits hrun
  obtain ⟨rs, part, ht⟩ := hi.calls c call hc
  exact ht.own

/-- A run in which a batch of Puts fails at its first key and closes its stream, a Stat that has
expired does the same by chance (its answer has arrived), and the calls behind them are
answered. -/
def mixedRun : List Action :=
  [.start 0 .stat none, .call 0 .send, .link 0 .take, .link 0 (.emit (0, 0) (.statResp 7)),
    .link 0 .deliver, .call 0 .expire,
    .start 1 (.putBatch 2 0) none, .call 1 .send, .call 1 .send, .call 1 .send, .call 1 .send,
    .link 1 .take, .link 1 .take, .link 1 .take, .link 1 (.emit (1, 0) (.resp .noSpace)),
    .link 1 .deliver, .call 1 .read,
    .start 2 .delete none, .call 2 .send, .link 2 .take, .link 2 (.emit (2, 0) (.resp .notFound)),
    .link 2 .deliver, .call 2 .read,
    .start 3 (.get 1) (some 2), .call 3 .send, .link 2 .take,
    .link 2 (.emit (3, 0) (.get (.final [7]))), .link 2 .deliver, .call 3 .read]

theorem isolated_of_mixedRun : ∃ st call, Transition.run Client.step Client.start mixedRun = some st ∧
    st.calls 3 = some call ∧ call.outcome = .returned ∧ call.Own (st.produced 3) := by
  obtain ⟨st, hst, hview⟩ := Option.map_eq_some_iff.mp
    (show (Transition.run Client.step Client.start mixedRun).map
      (fun st => (st.calls 3).map Call.outcome) = some (some .returned) by decide +kernel)
  obtain ⟨call, hc, hret⟩ := Option.map_eq_some_iff.mp hview
  exact ⟨st, call, hst, hc, hret, isolated_of_run (by decide +kernel) hst 3 call hc⟩

/-- A Delete expires before it is answered, and its stream is pooled; a Put on that stream then
returns without an error, on the answer to the Delete. -/
theorem put_returns_answer_of_delete : ∃ as st call,
    Transition.run Client.step Client.start as = some st ∧ st.calls 1 = some call ∧
      call.outcome = .returned ∧ ¬ call.Own (st.produced 1) := by
  obtain ⟨st, hst, hview⟩ := Option.map_eq_some_iff.mp
    (show (Transition.run Client.step Client.start
        [.start 0 .delete none, .call 0 .send, .link 0 .take, .call 0 .expire,
          .start 1 (.put 0) (some 0), .call 1 .send, .call 1 .send,
          .link 0 (.emit (0, 0) (.resp .ok)), .link 0 .deliver, .call 1 .read]).map
      (fun st => ((st.calls 1).map (fun call => (call.outcome, call.got)), st.produced 1)) =
        some (some (.returned, [[.resp .ok]]), []) by decide +kernel)
  obtain ⟨hcall, hproduced⟩ := Prod.mk.inj hview
  obtain ⟨call, hc, heq⟩ := Option.map_eq_some_iff.mp hcall
  obtain ⟨hret, hgot⟩ := Prod.mk.inj heq
  refine ⟨_, st, call, hst, hc, hret, fun hown => ?_⟩
  have := (hown.own (.inl hret) 0 [.resp .ok] (by rw [hgot]; rfl)).1
  rw [hproduced] at this
  cases this

end ShmPool

end Taihu
