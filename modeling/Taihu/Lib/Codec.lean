/-
# Writers and the parsers that undo them

A parser reads a slice of symbols from a position on, and may fail; a reader never moves back,
and never behind the end (`Reader.next`).  `Undoes p put P` says that the parser `p` reads
exactly what the writer `put` writes for the values in `P`: it returns the value and stops
behind it, and where it succeeds the symbols it has read are what `put` writes.  Such pairs
compose.  Nothing here depends on a format.
-/
import Mathlib

namespace Codec

variable {β ε α γ : Type}

/-! ## 1. Readers -/

/-- A slice, and the position of the next symbol. -/
structure Reader (β : Type) where
  b : List β
  pos : Nat

namespace Reader

/-- The symbols that have not been read. -/
def unread (r : Reader β) : List β := r.b.drop r.pos

/-- The position lies in the slice. -/
def Fits (r : Reader β) : Prop := r.pos ≤ r.b.length

/-- `r'` reads on where `r` was: the same slice, and no symbol behind its end. -/
def LeadsTo (r r' : Reader β) : Prop := r'.b = r.b ∧ r.pos ≤ r'.pos ∧ r'.Fits

theorem LeadsTo.refl {r : Reader β} (h : r.Fits) : r.LeadsTo r := ⟨rfl, Nat.le_refl _, h⟩

theorem LeadsTo.trans {r r' r'' : Reader β} (h : r.LeadsTo r') (h' : r'.LeadsTo r'') :
    r.LeadsTo r'' := ⟨h'.1.trans h.1, Nat.le_trans h.2.1 h'.2.1, h'.2.2⟩

end Reader

/-- A parser: it keeps the reader also where it fails. -/
abbrev Parser (β ε α : Type) := ExceptT ε (StateM (Reader β)) α

/-- What a parser does with a reader. -/
def Parser.on (p : Parser β ε α) (r : Reader β) : Except ε α × Reader β := p.run.run r

/-- The next `n` symbols; `short` where there are fewer. -/
def next (short : ε) (n : Nat) : Parser β ε (List β) :=
  ExceptT.mk (fun r => if r.pos + n > r.b.length then (.error short, r)
    else (.ok (r.unread.take n), { r with pos := r.pos + n }))

section Run

variable (r : Reader β)

@[simp] theorem on_pure (a : α) : (pure a : Parser β ε α).on r = (.ok a, r) := rfl

@[simp] theorem on_throw (e : ε) : (throw e : Parser β ε α).on r = (.error e, r) := rfl

theorem on_bind (p : Parser β ε α) (q : α → Parser β ε γ) :
    (p >>= q).on r = match p.on r with
      | (.ok a, r') => (q a).on r'
      | (.error e, r') => (.error e, r') := by
  unfold Parser.on
  show (ExceptT.bindCont q _ _ : Except ε γ × Reader β) = _
  rcases h : p.run.run r with ⟨x, r'⟩
  have h' : (p : StateM (Reader β) (Except ε α)) r = (x, r') := h
  rw [h']
  cases x <;> rfl

theorem on_next (short : ε) (n : Nat) : (next short n : Parser β ε (List β)).on r =
    if r.pos + n > r.b.length then (.error short, r)
    else (.ok (r.unread.take n), { r with pos := r.pos + n }) := rfl

end Run

/-! ## 2. Parsers that undo a writer -/

/-- The parser moves forward inside the slice, also where it fails. -/
def Stays (p : Parser β ε α) : Prop := ∀ r : Reader β, r.Fits → r.LeadsTo (p.on r).2

/-- Where `l` comes next, the parser returns `a` and stops behind `l`. -/
def Reads (p : Parser β ε α) (a : α) (l : List β) : Prop :=
  ∀ (r : Reader β) rest, r.Fits → r.unread = l ++ rest →
    p.on r = (.ok a, { r with pos := r.pos + l.length })

/-- The value tells how many symbols were read. -/
def Advances (p : Parser β ε α) (size : α → Nat) : Prop :=
  ∀ (r : Reader β) a r', p.on r = (.ok a, r') → r'.pos = r.pos + size a

/-- **`p` undoes `put`** on the values in `P`. -/
structure Undoes (p : Parser β ε α) (put : α → List β) (P : α → Prop) : Prop where
  stays : Stays p
  reads : ∀ a, P a → Reads p a (put a)
  wrote : ∀ (r : Reader β) a r', r.Fits → p.on r = (.ok a, r') →
    P a ∧ r.unread = put a ++ r'.unread

section Laws

variable {p : Parser β ε α} {put : α → List β} {P : α → Prop}

theorem unread_skip {r : Reader β} {l rest : List β} (h : r.unread = l ++ rest) :
    ({ r with pos := r.pos + l.length } : Reader β).unread = rest := by
  have : ({ r with pos := r.pos + l.length } : Reader β).unread = r.unread.drop l.length := by
    simp [Reader.unread, List.drop_drop]
  rw [this, h, List.drop_left]

theorem fits_skip {r : Reader β} (hr : r.Fits) {l rest : List β} (h : r.unread = l ++ rest) :
    ({ r with pos := r.pos + l.length } : Reader β).Fits := by
  have hlen := congrArg List.length h
  rw [Reader.unread, List.length_drop, List.length_append] at hlen
  show r.pos + l.length ≤ r.b.length
  have : r.pos ≤ r.b.length := hr
  omega

theorem Reads.bind {a : α} {l : List β} (hp : Reads p a l) {q : α → Parser β ε γ} {c : γ}
    {l' : List β} (hq : Reads (q a) c l') : Reads (p >>= q) c (l ++ l') := by
  intro r rest hr hun
  rw [List.append_assoc] at hun
  rw [on_bind, hp r _ hr hun]
  simp only
  rw [hq _ rest (fits_skip hr hun) (unread_skip hun), List.length_append, Nat.add_assoc]

theorem Reads.pure (c : γ) : Reads (pure c : Parser β ε γ) c [] := fun _ _ _ _ => rfl

/-- A bind that succeeds. -/
theorem on_bind_ok {q : α → Parser β ε γ} {r r'' : Reader β} {c : γ}
    (h : (p >>= q).on r = (.ok c, r'')) :
    ∃ a r', p.on r = (.ok a, r') ∧ (q a).on r' = (.ok c, r'') := by
  rw [on_bind] at h
  rcases hx : p.on r with ⟨x, r'⟩
  rw [hx] at h
  cases x with
  | error e => cases h
  | ok a => exact ⟨a, r', rfl, h⟩

theorem next_ok {short : ε} {n : Nat} {r r' : Reader β} {l : List β}
    (h : (next short n : Parser β ε (List β)).on r = (.ok l, r')) :
    l.length = n ∧ r'.pos = r.pos + n := by
  rw [on_next] at h
  split at h
  · cases h
  · rename_i hfits
    cases h
    refine ⟨?_, rfl⟩
    rw [List.length_take, Reader.unread, List.length_drop]
    omega

/-- Another writer, and other values, that amount to the same. -/
theorem Undoes.congr (h : Undoes p put P) {put' : α → List β} {Q : α → Prop}
    (hP : ∀ a, Q a ↔ P a) (hput : ∀ a, P a → put' a = put a) : Undoes p put' Q where
  stays := h.stays
  reads := by
    intro a ha r rest hr hun
    rw [hput a ((hP a).mp ha)] at hun ⊢
    exact h.reads a ((hP a).mp ha) r rest hr hun
  wrote := by
    intro r a r' hr hp
    obtain ⟨ha, hun⟩ := h.wrote r a r' hr hp
    exact ⟨(hP a).mpr ha, by rw [hput a ha]; exact hun⟩

theorem stays_next (short : ε) (n : Nat) : Stays (next short n : Parser β ε (List β)) := by
  intro r hr
  rw [on_next]
  split
  · exact .refl hr
  · rename_i h
    exact ⟨rfl, Nat.le_add_right _ _, Nat.le_of_not_gt h⟩

/-- The next `n` symbols, as they are. -/
theorem undoes_next (short : ε) (n : Nat) :
    Undoes (next short n : Parser β ε (List β)) id (fun l => l.length = n) where
  stays := stays_next short n
  reads := by
    rintro l rfl r rest hr hun
    have hfits : ¬ r.pos + l.length > r.b.length := Nat.not_lt_of_ge (fits_skip hr hun)
    rw [on_next, if_neg hfits, hun]
    simp
  wrote := by
    intro r l r' hr hp
    rw [on_next] at hp
    split at hp
    · cases hp
    · rename_i h
      cases hp
      refine ⟨?_, ?_⟩
      · rw [List.length_take, Reader.unread, List.length_drop]
        omega
      · have : ({ r with pos := r.pos + n } : Reader β).unread = r.unread.drop n := by
          simp [Reader.unread, List.drop_drop]
        rw [this]
        exact (List.take_append_drop n r.unread).symm

/-- A value that takes no symbols. -/
theorem undoes_pure (c : γ) : Undoes (pure c : Parser β ε γ) (fun _ => []) (fun d => d = c) where
  stays := fun _ hr => .refl hr
  reads := by
    rintro _ rfl r rest _ _
    rfl
  wrote := by
    intro r d r' _ hp
    rw [on_pure] at hp
    cases hp
    exact ⟨rfl, rfl⟩

/-- **One after another**; `f` is what the first parser has read of the value. -/
theorem Undoes.bind (hp : Undoes p put P) (q : α → Parser β ε γ) {putq : γ → List β}
    (Q : γ → Prop) (f : γ → α) (hq : ∀ a, P a → Undoes (q a) putq (fun c => Q c ∧ f c = a)) :
    Undoes (p >>= q) (fun c => put (f c) ++ putq c) (fun c => P (f c) ∧ Q c) where
  stays := by
    intro r hr
    have hlead := hp.stays r hr
    rw [on_bind]
    rcases h : p.on r with ⟨x, r'⟩
    rw [h] at hlead
    cases x with
    | error e => exact hlead
    | ok a => exact hlead.trans ((hq a (hp.wrote r a r' hr h).1).stays r' hlead.2.2)
  reads := by
    intro c hc
    exact (hp.reads (f c) hc.1).bind ((hq (f c) hc.1).reads c ⟨hc.2, rfl⟩)
  wrote := by
    intro r c r'' hr hpq
    rw [on_bind] at hpq
    rcases h : p.on r with ⟨x, r'⟩
    rw [h] at hpq
    cases x with
    | error e => cases hpq
    | ok a =>
      obtain ⟨ha, hun⟩ := hp.wrote r a r' hr h
      have hlead := hp.stays r hr
      rw [h] at hlead
      obtain ⟨⟨hQ, rfl⟩, hun'⟩ := (hq a ha).wrote r' c r'' hlead.2.2 hpq
      exact ⟨⟨ha, hQ⟩, by rw [hun, hun', List.append_assoc]⟩

/-- The first field `f` of the values in `Q`. -/
theorem Undoes.field (hp : Undoes p put P) (f : γ → α) {q : α → Parser β ε γ}
    {putq : γ → List β} {Q : γ → Prop} (hQ : ∀ c, Q c → P (f c))
    (hq : ∀ a, P a → Undoes (q a) putq (fun c => Q c ∧ f c = a)) :
    Undoes (p >>= q) (fun c => put (f c) ++ putq c) Q :=
  (hp.bind q Q f hq).congr (fun c => ⟨fun hc => ⟨hQ c hc, hc⟩, And.right⟩) (fun _ _ => rfl)

/-- Another form of the value; `g` leads back. -/
theorem Undoes.map (hp : Undoes p put P) (f : α → γ) (g : γ → α) (Q : γ → Prop)
    (hf : ∀ a, P a → Q (f a) ∧ g (f a) = a) (hg : ∀ c, Q c → f (g c) = c ∧ P (g c)) :
    Undoes (p >>= fun a => pure (f a)) (fun c => put (g c)) Q := by
  have hbind := hp.bind (fun a => pure (f a)) Q g (fun a ha => (undoes_pure (f a)).congr
    (fun c => ⟨fun hc => by rw [← hc.2, (hg c hc.1).1], fun hc => hc ▸ hf a ha⟩) (fun _ _ => rfl))
  exact hbind.congr (fun c => ⟨fun hc => ⟨(hg c hc).2, hc⟩, And.right⟩)
    (fun c _ => (List.append_nil _).symm)

/-- A check before a parser. -/
theorem Undoes.guard (hp : Undoes p put P) (bad : Prop) [Decidable bad] (e : ε) :
    Undoes (if bad then throw e else p) put (fun a => ¬ bad ∧ P a) := by
  by_cases h : bad
  · rw [if_pos h]
    exact
      { stays := fun r hr => .refl hr
        reads := fun a ha => absurd h ha.1
        wrote := by
          intro r a r' _ hp
          rw [on_throw] at hp
          cases hp }
  · rw [if_neg h]
    exact hp.congr (fun a => ⟨And.right, fun ha => ⟨h, ha⟩⟩) (fun _ _ => rfl)

/-- What is written is read back, to its end. -/
theorem Undoes.round_trip (hp : Undoes p put P) {a : α} (ha : P a) :
    p.on ⟨put a, 0⟩ = (.ok a, ⟨put a, (put a).length⟩) := by
  have := hp.reads a ha ⟨put a, 0⟩ [] (Nat.zero_le _) (List.append_nil _).symm
  rwa [Nat.zero_add] at this

/-- What is read is what would have been written. -/
theorem Undoes.exact (hp : Undoes p put P) {b : List β} {a : α} {r' : Reader β}
    (h : p.on ⟨b, 0⟩ = (.ok a, r')) : put a = b.take r'.pos := by
  obtain ⟨-, hun⟩ := hp.wrote ⟨b, 0⟩ a r' (Nat.zero_le _) h
  have hlead := hp.stays ⟨b, 0⟩ (Nat.zero_le _)
  rw [h] at hlead
  obtain ⟨hb, -, hfits⟩ := hlead
  have hb' : r'.b = b := hb
  have hfits' : r'.pos ≤ r'.b.length := hfits
  have hunread : b = put a ++ b.drop r'.pos := by
    have := hun
    rw [Reader.unread, Reader.unread, List.drop_zero, hb'] at this
    exact this
  have hlen := congrArg List.length hunread
  rw [List.length_append, List.length_drop] at hlen
  rw [hb'] at hfits'
  have hput : (put a).length = r'.pos := by omega
  calc put a = (put a ++ b.drop r'.pos).take (put a).length := List.take_left.symm
    _ = b.take r'.pos := by rw [← hunread, hput]

end Laws

/-! ## 3. Lists -/

/-- A parser that adds to a list, and keeps what it has added where it fails. -/
abbrev ListParser (β ε α : Type) := List α → StateM (Reader β) (List α × Option ε)

/-- The list, when it is read in full. -/
def ListParser.parser (p : ListParser β ε α) : Parser β ε (List α) :=
  ExceptT.mk (fun r => match (p []).run r with
    | ((out, none), r') => (.ok out, r')
    | ((_, some e), r') => (.error e, r'))

/-- `n` items, one after another. -/
def many (p : Parser β ε α) : Nat → ListParser β ε α
  | 0, out => pure (out, none)
  | n + 1, out => fun r => match p.on r with
    | (.ok x, r') => (many p n (out ++ [x])).run r'
    | (.error e, r') => ((out, some e), r')

/-- A number, and as many items. -/
def counted (count : Parser β ε Nat) (p : Parser β ε α) : ListParser β ε α :=
  fun out r => match count.on r with
    | (.ok n, r') => (many p n out).run r'
    | (.error e, r') => ((out, some e), r')

section Lists

variable {p : Parser β ε α} {put : α → List β} {P : α → Prop}

theorem many_succ (n : Nat) (out : List α) (r : Reader β) :
    (many p (n + 1) out).run r = match p.on r with
      | (.ok x, r') => (many p n (out ++ [x])).run r'
      | (.error e, r') => ((out, some e), r') := rfl

theorem many_stays (hp : Undoes p put P) (n : Nat) (out : List α) (r : Reader β) (hr : r.Fits) :
    r.LeadsTo ((many p n out).run r).2 := by
  induction n generalizing out r with
  | zero => exact .refl hr
  | succ n ih =>
    have hlead := hp.stays r hr
    rw [many_succ]
    rcases h : p.on r with ⟨x, r'⟩
    rw [h] at hlead
    cases x with
    | error e => exact hlead
    | ok a => exact hlead.trans (ih (out ++ [a]) r' hlead.2.2)

/-- Items that come next, one behind another. -/
theorem many_reads {xs : List α} {ls : List (List β)} (h : List.Forall₂ (Reads p) xs ls)
    (out : List α) (r : Reader β) (rest : List β) (hr : r.Fits)
    (hun : r.unread = ls.flatten ++ rest) :
    (many p xs.length out).run r =
      ((out ++ xs, none), { r with pos := r.pos + ls.flatten.length }) := by
  induction h generalizing out r with
  | nil =>
    rw [List.append_nil]
    rfl
  | cons hx _ ih =>
    rw [List.flatten_cons, List.append_assoc] at hun
    rw [List.length_cons, many_succ, hx r _ hr hun]
    simp only
    rw [ih _ _ (fits_skip hr hun) (unread_skip hun), List.append_assoc, List.singleton_append,
      List.flatten_cons, List.length_append, Nat.add_assoc]

/-- How far the reader has come when all items are read. -/
theorem many_advances {size : α → Nat} (hp : Advances p size) (n : Nat) (out : List α)
    (r : Reader β) {out' : List α} {r' : Reader β}
    (h : (many p n out).run r = ((out', none), r')) :
    ∃ xs, out' = out ++ xs ∧ r'.pos = r.pos + (xs.map size).sum := by
  induction n generalizing out r with
  | zero =>
    cases h
    exact ⟨[], (List.append_nil _).symm, rfl⟩
  | succ n ih =>
    rw [many_succ] at h
    rcases hx : p.on r with ⟨x, r₁⟩
    rw [hx] at h
    cases x with
    | error e => cases h
    | ok a =>
      obtain ⟨xs, rfl, hpos⟩ := ih (out ++ [a]) r₁ h
      refine ⟨a :: xs, List.append_assoc .., ?_⟩
      rw [hpos, hp r a r₁ hx, List.map_cons, List.sum_cons, Nat.add_assoc]

theorem many_wrote (hp : Undoes p put P) (n : Nat) (out : List α) (r : Reader β) (hr : r.Fits)
    {out' : List α} {r' : Reader β} (h : (many p n out).run r = ((out', none), r')) :
    ∃ xs, out' = out ++ xs ∧ xs.length = n ∧ (∀ x ∈ xs, P x) ∧
      r.unread = xs.flatMap put ++ r'.unread := by
  induction n generalizing out r with
  | zero =>
    cases h
    exact ⟨[], (List.append_nil _).symm, rfl, fun x hx => absurd hx List.not_mem_nil, rfl⟩
  | succ n ih =>
    rw [many_succ] at h
    rcases hx : p.on r with ⟨x, r₁⟩
    rw [hx] at h
    cases x with
    | error e => cases h
    | ok a =>
      obtain ⟨ha, hun⟩ := hp.wrote r a r₁ hr hx
      have hlead := hp.stays r hr
      rw [hx] at hlead
      obtain ⟨xs, rfl, hlen, hxs, hun'⟩ := ih (out ++ [a]) r₁ hlead.2.2 h
      refine ⟨a :: xs, List.append_assoc .., congrArg Nat.succ hlen, ?_, ?_⟩
      · intro x hx
        rcases List.mem_cons.mp hx with rfl | hx
        · exact ha
        · exact hxs x hx
      · rw [hun, hun', List.flatMap_cons, List.append_assoc]

/-- What is in the list before stays in front. -/
theorem many_from (n : Nat) (out : List α) (r : Reader β) :
    (many p n out).run r = ((out ++ ((many p n []).run r).1.1, ((many p n []).run r).1.2),
      ((many p n []).run r).2) := by
  induction n generalizing out r with
  | zero =>
    show ((out, none), r) = ((out ++ [], none), r)
    rw [List.append_nil]
  | succ n ih =>
    rw [many_succ, many_succ]
    rcases p.on r with ⟨x, r'⟩
    cases x with
    | error e => simp only [List.append_nil]
    | ok a =>
      simp only
      rw [ih (out ++ [a]), ih ([] ++ [a]), List.nil_append, List.append_assoc]

theorem counted_run (count : Parser β ε Nat) (out : List α) (r : Reader β) :
    (counted count p out).run r = match count.on r with
      | (.ok n, r') => (many p n out).run r'
      | (.error e, r') => ((out, some e), r') := rfl

theorem counted_from (count : Parser β ε Nat) (out : List α) (r : Reader β) :
    (counted count p out).run r =
      ((out ++ ((counted count p []).run r).1.1, ((counted count p []).run r).1.2),
        ((counted count p []).run r).2) := by
  rw [counted_run, counted_run]
  rcases count.on r with ⟨x, r'⟩
  cases x with
  | error e => simp only [List.append_nil]
  | ok n => exact many_from n out r'

theorem parser_on (q : ListParser β ε α) (r : Reader β) :
    q.parser.on r = match (q []).run r with
      | ((out, none), r') => (.ok out, r')
      | ((_, some e), r') => (.error e, r') := rfl

theorem parser_ok_iff (q : ListParser β ε α) (r r' : Reader β) (xs : List α) :
    q.parser.on r = (.ok xs, r') ↔ (q []).run r = ((xs, none), r') := by
  rw [parser_on]
  rcases (q []).run r with ⟨⟨out, e⟩, r₁⟩
  cases e with
  | none =>
    constructor
    all_goals
      intro h
      cases h
      rfl
  | some e =>
    constructor
    all_goals
      intro h
      cases h

theorem parser_on_reader (q : ListParser β ε α) (r : Reader β) :
    (q.parser.on r).2 = ((q []).run r).2 := by
  rw [parser_on]
  rcases (q []).run r with ⟨⟨out, e⟩, r₁⟩
  cases e <;> rfl

theorem counted_on (count : Parser β ε Nat) (r : Reader β) :
    (counted count p).parser.on r = match count.on r with
      | (.ok n, r') => (many p n).parser.on r'
      | (.error e, r') => (.error e, r') := by
  rw [parser_on, counted_run]
  rcases count.on r with ⟨x, r'⟩
  cases x <;> rfl

/-- `n` items. -/
theorem undoes_many (hp : Undoes p put P) (n : Nat) :
    Undoes (many p n).parser (fun xs => xs.flatMap put)
      (fun xs => xs.length = n ∧ ∀ x ∈ xs, P x) where
  stays := by
    intro r hr
    have hlead := many_stays hp n [] r hr
    rw [parser_on]
    rcases h : (many p n []).run r with ⟨⟨out, e⟩, r'⟩
    rw [h] at hlead
    cases e <;> exact hlead
  reads := by
    rintro xs ⟨rfl, hxs⟩ r rest hr hun
    have hall : List.Forall₂ (Reads p) xs (xs.map put) :=
      List.forall₂_map_right_iff.mpr (List.forall₂_same.mpr (fun x hx => hp.reads x (hxs x hx)))
    rw [List.flatMap_def] at hun ⊢
    rw [parser_on, many_reads hall [] r rest hr hun]
    rfl
  wrote := by
    intro r xs r' hr h
    rw [parser_on] at h
    rcases hm : (many p n []).run r with ⟨⟨out, e⟩, r₁⟩
    rw [hm] at h
    cases e with
    | some e => cases h
    | none =>
      cases h
      obtain ⟨ys, rfl, hlen, hys, hun⟩ := many_wrote hp n [] r hr hm
      exact ⟨⟨hlen, hys⟩, hun⟩

/-- **A counted list.** -/
theorem undoes_counted (hp : Undoes p put P) {count : Parser β ε Nat} {putc : Nat → List β}
    {Pc : Nat → Prop} (hc : Undoes count putc Pc) :
    Undoes (counted count p).parser (fun xs => putc xs.length ++ xs.flatMap put)
      (fun xs => Pc xs.length ∧ ∀ x ∈ xs, P x) := by
  have hbind := hc.bind (fun n => (many p n).parser) (fun xs => ∀ x ∈ xs, P x) List.length
    (fun n _ => (undoes_many hp n).congr (fun _ => and_comm) (fun _ _ => rfl))
  have hsame : ∀ r, (counted count p).parser.on r =
      (count >>= fun n => (many p n).parser : Parser β ε (List α)).on r := by
    intro r
    rw [counted_on, on_bind]
    rcases count.on r with ⟨x, r'⟩
    cases x <;> rfl
  exact
    { stays := fun r hr => hsame r ▸ hbind.stays r hr
      reads := fun a ha r rest hr hun => (hsame r).trans (hbind.reads a ha r rest hr hun)
      wrote := fun r a r' hr h => hbind.wrote r a r' hr ((hsame r).symm.trans h) }

end Lists

/-! ## 4. Numbers -/

section Digits

variable {B : Nat} [NeZero B]

/-- The `n` low digits of a number in base `B`, most significant first. -/
def digits : Nat → Nat → List (Fin B)
  | 0, _ => []
  | n + 1, x => digits n (x / B) ++ [Fin.ofNat B x]

/-- The number that digits spell. -/
def ofDigits (l : List (Fin B)) : Nat := l.foldl (fun x d => x * B + d.val) 0

@[simp] theorem digits_length (n x : Nat) : (digits n x : List (Fin B)).length = n := by
  induction n generalizing x with
  | zero => rfl
  | succ n ih => rw [digits, List.length_append, ih, List.length_singleton]

omit [NeZero B] in
theorem ofDigits_concat (l : List (Fin B)) (d : Fin B) :
    ofDigits (l ++ [d]) = ofDigits l * B + d.val := by
  rw [ofDigits, List.foldl_append]
  rfl

theorem ofDigits_digits (n x : Nat) : ofDigits (digits n x : List (Fin B)) = x % B ^ n := by
  induction n generalizing x with
  | zero => rw [Nat.pow_zero, Nat.mod_one]; rfl
  | succ n ih =>
    have hd : (Fin.ofNat B x).val = x % B := rfl
    rw [digits, ofDigits_concat, ih, hd, Nat.pow_succ, Nat.mul_comm (B ^ n), Nat.mod_mul,
      Nat.mul_comm B, Nat.add_comm]

omit [NeZero B] in
theorem ofDigits_lt (l : List (Fin B)) : ofDigits l < B ^ l.length := by
  induction l using List.reverseRecOn with
  | nil => rw [List.length_nil, Nat.pow_zero]; exact Nat.zero_lt_one
  | append_singleton l d ih =>
    rw [ofDigits_concat, List.length_append, List.length_singleton, Nat.pow_succ]
    calc ofDigits l * B + d.val < ofDigits l * B + B := Nat.add_lt_add_left d.isLt _
      _ = (ofDigits l + 1) * B := (Nat.succ_mul _ _).symm
      _ ≤ B ^ l.length * B := Nat.mul_le_mul_right B ih

theorem digits_ofDigits (l : List (Fin B)) : digits l.length (ofDigits l) = l := by
  induction l using List.reverseRecOn with
  | nil => rfl
  | append_singleton l d ih =>
    have hB : 0 < B := Nat.pos_of_ne_zero (NeZero.ne B)
    have hdiv : (ofDigits l * B + d.val) / B = ofDigits l := by
      rw [Nat.mul_comm, Nat.mul_add_div hB, Nat.div_eq_of_lt d.isLt, Nat.add_zero]
    have hmod : Fin.ofNat B (ofDigits l * B + d.val) = d := by
      apply Fin.ext
      show (ofDigits l * B + d.val) % B = d.val
      rw [Nat.mul_comm, Nat.mul_add_mod, Nat.mod_eq_of_lt d.isLt]
    rw [List.length_append, List.length_singleton, digits, ofDigits_concat, hdiv, ih, hmod]

/-- A number of `n` digits. -/
theorem undoes_digits (short : ε) (n : Nat) :
    Undoes (next short n >>= fun l => pure (ofDigits l) : Parser (Fin B) ε Nat) (digits n)
      (fun x => x < B ^ n) := by
  refine (undoes_next short n).map ofDigits (digits n) (fun x => x < B ^ n) ?_ ?_
  · rintro l rfl
    exact ⟨ofDigits_lt l, digits_ofDigits l⟩
  · intro x hx
    exact ⟨(ofDigits_digits n x).trans (Nat.mod_eq_of_lt hx), digits_length n x⟩

end Digits

end Codec
