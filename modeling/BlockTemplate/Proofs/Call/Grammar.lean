import BlockTemplate.Call.Arguments
import Mathlib.Tactic.SplitIfs

/-!
# The grammar of arguments

`Derives` says, without any reader, which texts are the arguments of a call up to the closing
parenthesis and what their values are. The reader accepts exactly these texts, whatever follows
them, and where it fails it stops at the first character that no derivation has in its place.

What a reader does with one character is a `Move`. `Completes` says what the rest of the arguments
may be in each phase of the reader, and each move takes one character off it.
-/

namespace BlockTemplate.Arguments

def IsQuote (q : Char) : Prop := q = '\'' ∨ q = '"'

def AllBlank (t : Text) : Prop := ∀ c ∈ t, Text.isBlank c = true

/-- The text between two quotes `q` and its value: a backslash makes the next character plain. -/
inductive Quoted (q : Char) : Text → Text → Prop
  | nil : Quoted q [] []
  | escape {t v : Text} (c : Char) : Quoted q t v → Quoted q ('\\' :: c :: t) (c :: v)
  | plain {c : Char} {t v : Text} : c ≠ '\\' → c ≠ q → Quoted q t v → Quoted q (c :: t) (c :: v)

/-- What may follow the first character of a bare item. A quote runs verbatim to the same quote. -/
inductive Bare : Text → Prop
  | nil : Bare []
  | plain {c : Char} {t : Text} : c ≠ ')' → c ≠ ',' → ¬ IsQuote c → Bare t → Bare (c :: t)
  | quotes {q : Char} {s t : Text} : IsQuote q → q ∉ s → Bare t → Bare (q :: (s ++ q :: t))

inductive Item : Text → Text → Prop
  | quoted {before after t v : Text} {q : Char} :
    AllBlank before → IsQuote q → Quoted q t v → AllBlank after →
      Item (before ++ q :: (t ++ q :: after)) v
  | bare {before t : Text} {c : Char} :
    AllBlank before → Text.isBlank c = false → c ≠ ')' → c ≠ ',' → ¬ IsQuote c → Bare t →
      Item (before ++ c :: t) (Text.trimEnd Text.isBlank (c :: t))

/-- One or more items, separated by commas and ended by a parenthesis. -/
inductive Items : Text → List Text → Prop
  | last {t v : Text} : Item t v → Items (t ++ [')']) [v]
  | more {t v rest : Text} {vs : List Text} :
    Item t v → Items rest vs → Items (t ++ ',' :: rest) (v :: vs)

/-- The arguments of a call behind its opening parenthesis, and their values. -/
inductive Derives : Text → List Text → Prop
  | none {before : Text} : AllBlank before → Derives (before ++ [')']) []
  | some {t : Text} {vs : List Text} : Items t vs → Derives t vs

inductive Ending : Text → List Text → Prop
  | close : Ending [')'] []
  | comma {t : Text} {vs : List Text} : Items t vs → Ending (',' :: t) vs

theorem items_iff {u : Text} {vs : List Text} :
    Items u vs ↔ ∃ t v e ws, Item t v ∧ Ending e ws ∧ u = t ++ e ∧ vs = v :: ws := by
  constructor
  · intro h
    cases h with
    | last hi => exact ⟨_, _, _, _, hi, .close, rfl, rfl⟩
    | more hi hr => exact ⟨_, _, _, _, hi, .comma hr, rfl, rfl⟩
  · rintro ⟨t, v, e, ws, hi, he, rfl, rfl⟩
    cases he with
    | close => exact .last hi
    | comma hr => exact .more hi hr

theorem ending_cons_iff {c : Char} {u : Text} {vs : List Text} :
    Ending (c :: u) vs ↔ c = ')' ∧ u = [] ∧ vs = [] ∨ c = ',' ∧ Items u vs := by
  constructor
  · intro h
    cases h with
    | close => exact .inl ⟨rfl, rfl, rfl⟩
    | comma hi => exact .inr ⟨rfl, hi⟩
  · rintro (⟨rfl, rfl, rfl⟩ | ⟨rfl, hi⟩)
    · exact .close
    · exact .comma hi

theorem Ending.ne_nil {e : Text} {vs : List Text} (h : Ending e vs) : e ≠ [] := by
  cases h <;> simp

/--
The texts that finish the arguments for a reader in a phase with `arg` read of the current
argument, last character first, and the values that they bring.
-/
def Completes : Phase → (arg : Text) → Text → List Text → Prop
  | .first, _, u, vs => Derives u vs
  | .next, _, u, vs => Items u vs
  | .bare, arg, u, vs => ∃ t e ws, Bare t ∧ Ending e ws ∧ u = t ++ e ∧
      vs = Text.trimEnd Text.isBlank (arg.reverse ++ t) :: ws
  | .bareQuoted q, arg, u, vs => ∃ s t e ws, q ∉ s ∧ Bare t ∧ Ending e ws ∧
      u = s ++ q :: (t ++ e) ∧
      vs = Text.trimEnd Text.isBlank (arg.reverse ++ (s ++ q :: t)) :: ws
  | .quoted q, arg, u, vs => ∃ t v after e ws, Quoted q t v ∧ AllBlank after ∧ Ending e ws ∧
      u = t ++ q :: (after ++ e) ∧ vs = (arg.reverse ++ v) :: ws
  | .escaped q, arg, u, vs => ∃ c t v after e ws, Quoted q t v ∧ AllBlank after ∧ Ending e ws ∧
      u = c :: (t ++ q :: (after ++ e)) ∧ vs = (arg.reverse ++ c :: v) :: ws
  | .afterQuote, arg, u, vs => ∃ after e ws, AllBlank after ∧ Ending e ws ∧ u = after ++ e ∧
      vs = arg.reverse :: ws

inductive Move where
  | refuse (fault : CallFault)
  | finish (values : List Text)
  | go (phase : Phase) (values : List Text) (arg : Text)

def Phase.move (arg : Text) (c : Char) : Phase → Move
  | .first =>
    if c = ')' then .finish []
    else if c = ',' then .refuse (.unexpected c)
    else if c = '\'' ∨ c = '"' then .go (.quoted c) [] arg
    else if Text.isBlank c then .go .first [] arg
    else .go .bare [] (c :: arg)
  | .next =>
    if c = ')' ∨ c = ',' then .refuse (.unexpected c)
    else if c = '\'' ∨ c = '"' then .go (.quoted c) [] arg
    else if Text.isBlank c then .go .next [] arg
    else .go .bare [] (c :: arg)
  | .bare =>
    if c = ')' then .finish [(arg.dropWhile Text.isBlank).reverse]
    else if c = ',' then .go .next [(arg.dropWhile Text.isBlank).reverse] []
    else if c = '\'' ∨ c = '"' then .go (.bareQuoted c) [] (c :: arg)
    else .go .bare [] (c :: arg)
  | .bareQuoted q => if c = q then .go .bare [] (c :: arg) else .go (.bareQuoted q) [] (c :: arg)
  | .quoted q =>
    if c = '\\' then .go (.escaped q) [] arg
    else if c = q then .go .afterQuote [] arg
    else .go (.quoted q) [] (c :: arg)
  | .escaped q => .go (.quoted q) [] (c :: arg)
  | .afterQuote =>
    if c = ')' then .finish [arg.reverse]
    else if c = ',' then .go .next [arg.reverse] []
    else if Text.isBlank c then .go .afterQuote [] arg
    else .refuse (.unexpectedAfterQuote c)

def Phase.Fits (arg : Text) : Phase → Prop
  | .first | .next => arg = []
  | .quoted q | .escaped q => IsQuote q
  | _ => True

theorem readFrom_cons (ph : Phase) (done : List Text) (arg : Text) (c : Char) (t : Text) :
    readFrom ph done arg (c :: t) =
      match ph.move arg c with
      | .refuse fault => .error ⟨fault, t⟩
      | .finish vs => .ok (done ++ vs, t)
      | .go ph' vs arg' => readFrom ph' (done ++ vs) arg' t := by
  cases ph with
  | escaped q => simp [readFrom, Phase.move]
  | _ =>
    simp only [readFrom, Phase.move]
    split_ifs <;> simp

theorem fits_of_move {ph ph' : Phase} {arg arg' : Text} {c : Char} {vs : List Text}
    (hf : ph.Fits arg) (h : ph.move arg c = .go ph' vs arg') : ph'.Fits arg' := by
  cases ph with
  | escaped q =>
    cases h
    exact hf
  | _ =>
    simp only [Phase.move] at h
    split_ifs at h <;> cases h <;> trivial

def Move.Completes (m : Move) (u : Text) (vs : List Text) : Prop :=
  match m with
  | .refuse _ => False
  | .finish ws => u = [] ∧ vs = ws
  | .go ph ws arg => ∃ us, vs = ws ++ us ∧ Arguments.Completes ph arg u us

theorem not_isBlank_of_isQuote {q : Char} (h : IsQuote q) : Text.isBlank q = false := by
  rcases h with rfl | rfl <;> decide

theorem allBlank_nil : AllBlank [] := by simp [AllBlank]

theorem allBlank_cons {c : Char} {t : Text} :
    AllBlank (c :: t) ↔ Text.isBlank c = true ∧ AllBlank t := by
  simp [AllBlank]

theorem item_cons_iff {c : Char} {t v : Text} :
    Item (c :: t) v ↔
      Text.isBlank c = true ∧ Item t v ∨
      IsQuote c ∧ (∃ s after, Quoted c s v ∧ AllBlank after ∧ t = s ++ c :: after) ∨
      Text.isBlank c = false ∧ c ≠ ')' ∧ c ≠ ',' ∧ ¬ IsQuote c ∧ Bare t ∧
        v = Text.trimEnd Text.isBlank (c :: t) := by
  constructor
  · generalize hu : c :: t = u
    intro h
    cases h with
    | @quoted before after s v q hb hq hs ha =>
      cases before with
      | nil =>
        obtain ⟨rfl, rfl⟩ := List.cons.inj hu
        exact .inr (.inl ⟨hq, s, after, hs, ha, rfl⟩)
      | cons b before =>
        obtain ⟨rfl, rfl⟩ := List.cons.inj hu
        obtain ⟨hc, hb⟩ := allBlank_cons.mp hb
        exact .inl ⟨hc, .quoted hb hq hs ha⟩
    | @bare before s d hb hd hp hm hq hs =>
      cases before with
      | nil =>
        obtain ⟨rfl, rfl⟩ := List.cons.inj hu
        exact .inr (.inr ⟨hd, hp, hm, hq, hs, rfl⟩)
      | cons b before =>
        obtain ⟨rfl, rfl⟩ := List.cons.inj hu
        obtain ⟨hc, hb⟩ := allBlank_cons.mp hb
        exact .inl ⟨hc, .bare hb hd hp hm hq hs⟩
  · rintro (⟨hc, h⟩ | ⟨hq, s, after, hs, ha, rfl⟩ | ⟨hd, hp, hm, hq, hs, rfl⟩)
    · cases h with
      | quoted hb hq hs ha => exact .quoted (allBlank_cons.mpr ⟨hc, hb⟩) hq hs ha
      | bare hb hd hp hm hq hs => exact .bare (allBlank_cons.mpr ⟨hc, hb⟩) hd hp hm hq hs
    · exact @Item.quoted [] after s v c allBlank_nil hq hs ha
    · exact @Item.bare [] t c allBlank_nil hd hp hm hq hs

theorem item_nil {v : Text} : ¬ Item [] v := by
  generalize hu : ([] : Text) = u
  intro h
  cases h <;> simp at hu

theorem items_cons_iff {c : Char} {u : Text} {vs : List Text} :
    Items (c :: u) vs ↔
      Text.isBlank c = true ∧ Items u vs ∨
      IsQuote c ∧ Completes (.quoted c) [] u vs ∨
      Text.isBlank c = false ∧ c ≠ ')' ∧ c ≠ ',' ∧ ¬ IsQuote c ∧ Completes .bare [c] u vs := by
  rw [items_iff]
  constructor
  · rintro ⟨t, v, e, ws, hi, he, hu, rfl⟩
    cases t with
    | nil => exact absurd hi item_nil
    | cons d t =>
      obtain ⟨rfl, rfl⟩ := List.cons.inj hu
      rcases item_cons_iff.mp hi with ⟨hc, h⟩ | ⟨hq, s, after, hs, ha, rfl⟩ |
        ⟨hd, hp, hm, hq, hs, rfl⟩
      · exact .inl ⟨hc, items_iff.mpr ⟨t, v, e, ws, h, he, rfl, rfl⟩⟩
      · exact .inr (.inl ⟨hq, s, v, after, e, ws, hs, ha, he, by simp, rfl⟩)
      · exact .inr (.inr ⟨hd, hp, hm, hq, t, e, ws, hs, he, rfl, rfl⟩)
  · rintro (⟨hc, h⟩ | ⟨hq, s, v, after, e, ws, hs, ha, he, rfl, rfl⟩ |
      ⟨hd, hp, hm, hq, t, e, ws, hs, he, rfl, rfl⟩)
    · obtain ⟨t, v, e, ws, hi, he, rfl, rfl⟩ := items_iff.mp h
      exact ⟨c :: t, v, e, ws, item_cons_iff.mpr (.inl ⟨hc, hi⟩), he, rfl, rfl⟩
    · exact ⟨c :: (s ++ c :: after), v, e, ws,
        item_cons_iff.mpr (.inr (.inl ⟨hq, s, after, hs, ha, rfl⟩)), he, by simp, rfl⟩
    · exact ⟨c :: t, _, e, ws,
        item_cons_iff.mpr (.inr (.inr ⟨hd, hp, hm, hq, hs, rfl⟩)), he, rfl, rfl⟩

theorem derives_cons_iff {c : Char} {u : Text} {vs : List Text} :
    Derives (c :: u) vs ↔
      c = ')' ∧ u = [] ∧ vs = [] ∨
      Text.isBlank c = true ∧ Derives u vs ∨
      IsQuote c ∧ Completes (.quoted c) [] u vs ∨
      Text.isBlank c = false ∧ c ≠ ')' ∧ c ≠ ',' ∧ ¬ IsQuote c ∧ Completes .bare [c] u vs := by
  constructor
  · generalize ht : c :: u = t
    intro h
    cases h with
    | @none before hb =>
      cases before with
      | nil =>
        obtain ⟨rfl, rfl⟩ := List.cons.inj ht
        exact .inl ⟨rfl, rfl, rfl⟩
      | cons b before =>
        obtain ⟨rfl, rfl⟩ := List.cons.inj ht
        obtain ⟨hc, hb⟩ := allBlank_cons.mp hb
        exact .inr (.inl ⟨hc, .none hb⟩)
    | some h =>
      subst ht
      rcases items_cons_iff.mp h with ⟨hc, h⟩ | h
      · exact .inr (.inl ⟨hc, .some h⟩)
      · exact .inr (.inr h)
  · rintro (⟨rfl, rfl, rfl⟩ | ⟨hc, h⟩ | h)
    · exact @Derives.none [] allBlank_nil
    · cases h with
      | none hb => exact @Derives.none (c :: _) (allBlank_cons.mpr ⟨hc, hb⟩)
      | some h => exact .some (items_cons_iff.mpr (.inl ⟨hc, h⟩))
    · exact .some (items_cons_iff.mpr (.inr h))

theorem bare_cons_iff {arg : Text} {c : Char} {u : Text} {vs : List Text} :
    Completes .bare arg (c :: u) vs ↔
      (∃ ws, Ending (c :: u) ws ∧ vs = Text.trimEnd Text.isBlank arg.reverse :: ws) ∨
      c ≠ ')' ∧ c ≠ ',' ∧ ¬ IsQuote c ∧ Completes .bare (c :: arg) u vs ∨
      IsQuote c ∧ Completes (.bareQuoted c) (c :: arg) u vs := by
  constructor
  · rintro ⟨t, e, ws, ht, he, hu, rfl⟩
    cases ht with
    | nil => exact .inl ⟨ws, hu ▸ he, by simp⟩
    | plain hp hm hq ht =>
      obtain ⟨rfl, rfl⟩ := List.cons.inj hu
      exact .inr (.inl ⟨hp, hm, hq, _, e, ws, ht, he, rfl, by simp⟩)
    | quotes hq hs ht =>
      obtain ⟨rfl, rfl⟩ := List.cons.inj hu
      exact .inr (.inr ⟨hq, _, _, e, ws, hs, ht, he, by simp, by simp⟩)
  · rintro (⟨ws, he, rfl⟩ | ⟨hp, hm, hq, t, e, ws, ht, he, rfl, rfl⟩ |
      ⟨hq, s, t, e, ws, hs, ht, he, rfl, rfl⟩)
    · exact ⟨[], c :: u, ws, .nil, he, rfl, by simp⟩
    · exact ⟨c :: t, e, ws, .plain hp hm hq ht, he, rfl, by simp⟩
    · exact ⟨c :: (s ++ c :: t), e, ws, .quotes hq hs ht, he, by simp, by simp⟩

theorem bareQuoted_cons_iff {q : Char} {arg : Text} {c : Char} {u : Text} {vs : List Text} :
    Completes (.bareQuoted q) arg (c :: u) vs ↔
      c = q ∧ Completes .bare (c :: arg) u vs ∨
      c ≠ q ∧ Completes (.bareQuoted q) (c :: arg) u vs := by
  constructor
  · rintro ⟨s, t, e, ws, hs, ht, he, hu, rfl⟩
    cases s with
    | nil =>
      obtain ⟨rfl, rfl⟩ := List.cons.inj hu
      exact .inl ⟨rfl, t, e, ws, ht, he, rfl, by simp⟩
    | cons d s =>
      obtain ⟨rfl, rfl⟩ := List.cons.inj hu
      rw [List.mem_cons, not_or] at hs
      exact .inr ⟨Ne.symm hs.1, s, t, e, ws, hs.2, ht, he, rfl, by simp⟩
  · rintro (⟨rfl, t, e, ws, ht, he, rfl, rfl⟩ | ⟨hc, s, t, e, ws, hs, ht, he, rfl, rfl⟩)
    · exact ⟨[], t, e, ws, by simp, ht, he, rfl, by simp⟩
    · exact ⟨c :: s, t, e, ws, by simp [Ne.symm hc, hs], ht, he, rfl, by simp⟩

theorem quoted_cons_iff {q : Char} {arg : Text} {c : Char} {u : Text} {vs : List Text} :
    Completes (.quoted q) arg (c :: u) vs ↔
      c = '\\' ∧ Completes (.escaped q) arg u vs ∨
      c = q ∧ Completes .afterQuote arg u vs ∨
      c ≠ '\\' ∧ c ≠ q ∧ Completes (.quoted q) (c :: arg) u vs := by
  constructor
  · rintro ⟨t, v, after, e, ws, ht, ha, he, hu, rfl⟩
    cases ht with
    | nil =>
      obtain ⟨rfl, rfl⟩ := List.cons.inj hu
      exact .inr (.inl ⟨rfl, after, e, ws, ha, he, rfl, by simp⟩)
    | @escape s v d hs =>
      obtain ⟨rfl, rfl⟩ := List.cons.inj hu
      exact .inl ⟨rfl, d, s, v, after, e, ws, hs, ha, he, rfl, rfl⟩
    | @plain d s v hb hd hs =>
      obtain ⟨rfl, rfl⟩ := List.cons.inj hu
      exact .inr (.inr ⟨hb, hd, s, v, after, e, ws, hs, ha, he, rfl, by simp⟩)
  · rintro (⟨rfl, d, s, v, after, e, ws, hs, ha, he, rfl, rfl⟩ |
      ⟨rfl, after, e, ws, ha, he, rfl, rfl⟩ | ⟨hb, hc, s, v, after, e, ws, hs, ha, he, rfl, rfl⟩)
    · exact ⟨_, _, after, e, ws, .escape d hs, ha, he, rfl, rfl⟩
    · exact ⟨[], [], after, e, ws, .nil, ha, he, rfl, by simp⟩
    · exact ⟨_, _, after, e, ws, .plain hb hc hs, ha, he, rfl, by simp⟩

theorem escaped_cons_iff {q : Char} {arg : Text} {c : Char} {u : Text} {vs : List Text} :
    Completes (.escaped q) arg (c :: u) vs ↔ Completes (.quoted q) (c :: arg) u vs := by
  constructor
  · rintro ⟨d, s, v, after, e, ws, hs, ha, he, hu, rfl⟩
    obtain ⟨rfl, rfl⟩ := List.cons.inj hu
    exact ⟨s, v, after, e, ws, hs, ha, he, rfl, by simp⟩
  · rintro ⟨s, v, after, e, ws, hs, ha, he, rfl, rfl⟩
    exact ⟨c, s, v, after, e, ws, hs, ha, he, rfl, by simp⟩

theorem afterQuote_cons_iff {arg : Text} {c : Char} {u : Text} {vs : List Text} :
    Completes .afterQuote arg (c :: u) vs ↔
      (∃ ws, Ending (c :: u) ws ∧ vs = arg.reverse :: ws) ∨
      Text.isBlank c = true ∧ Completes .afterQuote arg u vs := by
  constructor
  · rintro ⟨after, e, ws, ha, he, hu, rfl⟩
    cases after with
    | nil => exact .inl ⟨ws, hu ▸ he, rfl⟩
    | cons d after =>
      obtain ⟨rfl, rfl⟩ := List.cons.inj hu
      obtain ⟨hc, ha⟩ := allBlank_cons.mp ha
      exact .inr ⟨hc, after, e, ws, ha, he, rfl, rfl⟩
  · rintro (⟨ws, he, rfl⟩ | ⟨hc, after, e, ws, ha, he, rfl, rfl⟩)
    · exact ⟨[], c :: u, ws, allBlank_nil, he, rfl, rfl⟩
    · exact ⟨c :: after, e, ws, allBlank_cons.mpr ⟨hc, ha⟩, he, rfl, rfl⟩

theorem completes_cons_iff {ph : Phase} {arg : Text} (hf : ph.Fits arg) {c : Char} {u : Text}
    {vs : List Text} : Completes ph arg (c :: u) vs ↔ (ph.move arg c).Completes u vs := by
  -- A parenthesis and a comma are no blanks, so they end the blanks around an item.
  have hparen : Text.isBlank ')' = false := by decide
  have hcomma : Text.isBlank ',' = false := by decide
  cases ph with
  | first =>
    cases hf
    rw [Completes, derives_cons_iff, Phase.move]
    split_ifs with h₁ h₂ h₃ h₄
    · subst h₁
      simp [Move.Completes, hparen, IsQuote]
    · subst h₂
      simp [Move.Completes, hcomma, IsQuote]
    · simp [Move.Completes, h₁, not_isBlank_of_isQuote h₃, show IsQuote c from h₃]
    · have hq : ¬ IsQuote c := h₃
      simp [Move.Completes, h₁, hq, h₄, Completes]
    · have hq : ¬ IsQuote c := h₃
      simp [Move.Completes, h₁, h₂, hq, h₄]
  | next =>
    cases hf
    rw [Completes, items_cons_iff, Phase.move]
    split_ifs with h₁ h₂ h₃
    · rcases h₁ with rfl | rfl
      · simp [Move.Completes, hparen, IsQuote]
      · simp [Move.Completes, hcomma, IsQuote]
    · simp [Move.Completes, not_isBlank_of_isQuote h₂, show IsQuote c from h₂]
    · have hq : ¬ IsQuote c := h₂
      simp [Move.Completes, hq, h₃, Completes]
    · have hq : ¬ IsQuote c := h₂
      rw [not_or] at h₁
      simp [Move.Completes, h₁, hq, h₃]
  | bare =>
    have hv : (arg.dropWhile Text.isBlank).reverse = Text.trimEnd Text.isBlank arg.reverse := by
      simp [Text.trimEnd]
    rw [bare_cons_iff, Phase.move, hv]
    split_ifs with h₁ h₂ h₃
    · subst h₁
      simp [Move.Completes, ending_cons_iff, IsQuote, and_assoc]
    · subst h₂
      simp [Move.Completes, ending_cons_iff, IsQuote, Completes, and_comm]
    · simp [Move.Completes, ending_cons_iff, h₁, h₂, show IsQuote c from h₃]
    · have hq : ¬ IsQuote c := h₃
      simp [Move.Completes, ending_cons_iff, h₁, h₂, hq]
  | bareQuoted q =>
    rw [bareQuoted_cons_iff, Phase.move]
    split_ifs with h <;> simp [Move.Completes, h]
  | quoted q =>
    have hq : q ≠ '\\' := by rcases hf with rfl | rfl <;> decide
    rw [quoted_cons_iff, Phase.move]
    split_ifs with h₁ h₂
    · subst h₁
      simp [Move.Completes, hq.symm]
    · subst h₂
      simp [Move.Completes, hq]
    · simp [Move.Completes, h₁, h₂]
  | escaped q =>
    rw [escaped_cons_iff, Phase.move]
    simp [Move.Completes]
  | afterQuote =>
    rw [afterQuote_cons_iff, Phase.move]
    split_ifs with h₁ h₂ h₃
    · subst h₁
      simp [Move.Completes, ending_cons_iff, hparen, and_assoc]
    · subst h₂
      simp [Move.Completes, ending_cons_iff, hcomma, Completes, and_comm]
    · simp [Move.Completes, ending_cons_iff, h₁, h₂, h₃]
    · simp [Move.Completes, ending_cons_iff, h₁, h₂, h₃]

theorem not_items_nil {vs : List Text} : ¬ Items [] vs := by
  rw [items_iff]
  rintro ⟨t, v, e, ws, -, he, hu, -⟩
  exact he.ne_nil (List.append_eq_nil_iff.mp hu.symm).2

theorem not_completes_nil {ph : Phase} {arg : Text} {vs : List Text} :
    ¬ Completes ph arg [] vs := by
  cases ph with
  | first =>
    rw [Completes]
    generalize ht : ([] : Text) = t
    intro h
    cases h with
    | none hb => simp at ht
    | some h => exact not_items_nil (ht ▸ h)
  | next => exact not_items_nil
  | bare =>
    rintro ⟨t, e, ws, -, he, hu, -⟩
    exact he.ne_nil (List.append_eq_nil_iff.mp hu.symm).2
  | bareQuoted q =>
    rintro ⟨s, t, e, ws, -, -, -, hu, -⟩
    simp at hu
  | quoted q =>
    rintro ⟨t, v, after, e, ws, -, -, -, hu, -⟩
    simp at hu
  | escaped q =>
    rintro ⟨c, t, v, after, e, ws, -, -, -, hu, -⟩
    cases hu
  | afterQuote =>
    rintro ⟨after, e, ws, -, he, hu, -⟩
    exact he.ne_nil (List.append_eq_nil_iff.mp hu.symm).2

theorem exists_completes (ph : Phase) (arg : Text) : ∃ u vs, Completes ph arg u vs := by
  cases ph with
  | first => exact ⟨_, _, .none allBlank_nil⟩
  | next => exact ⟨_, _, .last (.quoted allBlank_nil (.inl rfl) .nil allBlank_nil)⟩
  | bare => exact ⟨_, _, [], _, _, .nil, .close, rfl, rfl⟩
  | bareQuoted q => exact ⟨_, _, [], [], _, _, by simp, .nil, .close, rfl, rfl⟩
  | quoted q => exact ⟨_, _, _, _, [], _, _, .nil, allBlank_nil, .close, rfl, rfl⟩
  | escaped q => exact ⟨_, _, q, _, _, [], _, _, .nil, allBlank_nil, .close, rfl, rfl⟩
  | afterQuote => exact ⟨_, _, [], _, _, allBlank_nil, .close, rfl, rfl⟩

theorem readFrom_eq_ok_iff {ph : Phase} {done : List Text} {arg t : Text} (hf : ph.Fits arg)
    {args : List Text} {rest : Text} :
    readFrom ph done arg t = .ok (args, rest) ↔
      ∃ used vs, t = used ++ rest ∧ args = done ++ vs ∧ Completes ph arg used vs := by
  induction t generalizing ph done arg with
  | nil =>
    constructor
    · intro h
      cases ph <;> cases h
    · rintro ⟨used, vs, hu, -, hc⟩
      rw [(List.append_eq_nil_iff.mp hu.symm).1] at hc
      exact absurd hc not_completes_nil
  | cons c t ih =>
    -- The text used is not empty, so its first character is the one that is read.
    have hstep : (∃ used vs, c :: t = used ++ rest ∧ args = done ++ vs ∧ Completes ph arg used vs) ↔
        ∃ u vs, t = u ++ rest ∧ args = done ++ vs ∧ (ph.move arg c).Completes u vs := by
      constructor
      · rintro ⟨used, vs, hu, ha, hc⟩
        cases used with
        | nil => exact absurd hc not_completes_nil
        | cons d u =>
          obtain ⟨rfl, rfl⟩ := List.cons.inj hu
          exact ⟨u, vs, rfl, ha, (completes_cons_iff hf).mp hc⟩
      · rintro ⟨u, vs, rfl, ha, hc⟩
        exact ⟨c :: u, vs, rfl, ha, (completes_cons_iff hf).mpr hc⟩
    rw [hstep, readFrom_cons]
    cases hm : ph.move arg c with
    | refuse fault => simp [Move.Completes]
    | finish ws =>
      simp only [Move.Completes]
      constructor
      · intro h
        cases h
        exact ⟨[], ws, rfl, rfl, rfl, rfl⟩
      · rintro ⟨_, _, rfl, rfl, rfl, rfl⟩
        rfl
    | go ph' ws arg' =>
      simp only [ih (fits_of_move hf hm), Move.Completes]
      constructor
      · rintro ⟨u, us, ht, ha, hc⟩
        exact ⟨u, ws ++ us, ht, by rw [ha, List.append_assoc], us, rfl, hc⟩
      · rintro ⟨u, _, ht, ha, us, rfl, hc⟩
        exact ⟨u, us, ht, by rw [ha, List.append_assoc], hc⟩

def Phase.Allows (ph : Phase) (arg p : Text) : Prop := ∃ more vs, Completes ph arg (p ++ more) vs

theorem allows_nil (ph : Phase) (arg : Text) : ph.Allows arg [] := exists_completes ph arg

theorem not_allows_of_refuse {ph : Phase} {arg p : Text} {c : Char} {fault : CallFault}
    (hf : ph.Fits arg) (hm : ph.move arg c = .refuse fault) : ¬ ph.Allows arg (c :: p) := by
  rintro ⟨more, vs, hc⟩
  have h := (completes_cons_iff hf).mp hc
  rwa [hm] at h

theorem allows_cons_of_go {ph ph' : Phase} {arg arg' p : Text} {c : Char} {ws : List Text}
    (hf : ph.Fits arg) (hm : ph.move arg c = .go ph' ws arg') :
    ph.Allows arg (c :: p) ↔ ph'.Allows arg' p := by
  simp only [Phase.Allows, List.cons_append, completes_cons_iff hf, hm, Move.Completes]
  constructor
  · rintro ⟨more, _, us, -, hc⟩
    exact ⟨more, us, hc⟩
  · rintro ⟨more, us, hc⟩
    exact ⟨more, _, us, rfl, hc⟩

theorem refuse_of_move {ph : Phase} {arg : Text} {c : Char} {fault : CallFault}
    (hm : ph.move arg c = .refuse fault) :
    fault = .unexpected c ∨ fault = .unexpectedAfterQuote c := by
  cases ph with
  | escaped q => cases hm
  | _ =>
    simp only [Phase.move] at hm
    split_ifs at hm <;> cases hm <;> simp

/--
Where a reader fails that may go on as `allows` says: behind the first character that is not
allowed, which the fault names, or at the end of a text that something could follow.
-/
def Failure.StopsAt (allows : Text → Prop) (t : Text) (e : Failure) : Prop :=
  (∃ p c, t = p ++ c :: e.rest ∧ allows p ∧ ¬ allows (p ++ [c]) ∧
    (e.fault = .unexpected c ∨ e.fault = .unexpectedAfterQuote c)) ∨
  e.fault = .unexpectedEnd ∧ e.rest = [] ∧ allows t

theorem stopsAt_of_readFrom {ph : Phase} {done : List Text} {arg t : Text} (hf : ph.Fits arg)
    {e : Failure} (h : readFrom ph done arg t = .error e) : e.StopsAt (ph.Allows arg) t := by
  induction t generalizing ph done arg with
  | nil =>
    have he : e = ⟨.unexpectedEnd, []⟩ := by cases ph <;> cases h <;> rfl
    subst he
    exact .inr ⟨rfl, rfl, allows_nil ph arg⟩
  | cons c t ih =>
    rw [readFrom_cons] at h
    cases hm : ph.move arg c with
    | refuse fault =>
      simp only [hm] at h
      cases h
      exact .inl ⟨[], c, rfl, allows_nil ph arg, not_allows_of_refuse hf hm, refuse_of_move hm⟩
    | finish ws =>
      simp only [hm] at h
      cases h
    | go ph' ws arg' =>
      simp only [hm] at h
      rcases ih (fits_of_move hf hm) h with ⟨p, d, ht, hp, hd, he⟩ | ⟨he, hr, ht⟩
      · refine .inl ⟨c :: p, d, by rw [ht]; rfl, (allows_cons_of_go hf hm).mpr hp, ?_, he⟩
        rw [List.cons_append, allows_cons_of_go hf hm]
        exact hd
      · exact .inr ⟨he, hr, (allows_cons_of_go hf hm).mpr ht⟩

def Begins (p : Text) : Prop := ∃ more args, Derives (p ++ more) args

theorem read_eq_ok_iff_derives {s : Text} {args : List Text} {rest : Text} :
    read s = .ok (args, rest) ↔ ∃ used, s = used ++ rest ∧ Derives used args := by
  rw [read, readFrom_eq_ok_iff (show Phase.Fits [] .first from rfl)]
  constructor
  · rintro ⟨used, vs, hs, rfl, hc⟩
    exact ⟨used, hs, hc⟩
  · rintro ⟨used, hs, hd⟩
    exact ⟨used, args, hs, rfl, hd⟩

theorem read_of_derives {used : Text} {args : List Text} (h : Derives used args) (rest : Text) :
    read (used ++ rest) = .ok (args, rest) :=
  read_eq_ok_iff_derives.mpr ⟨used, rfl, h⟩

theorem Derives.unique {s used used' rest rest' : Text} {args args' : List Text}
    (h : Derives used args) (h' : Derives used' args') (hs : s = used ++ rest)
    (hs' : s = used' ++ rest') : used = used' ∧ args = args' := by
  have hr := read_of_derives h rest
  rw [← hs, hs', read_of_derives h' rest'] at hr
  cases hr
  exact ⟨List.append_cancel_right (hs.symm.trans hs'), rfl⟩

/--
The reader of arguments accepts exactly the texts of the grammar. What follows the closing
parenthesis does not matter, at most one start of a text fits, and where none does the reader fails
behind the first character that no arguments have in this place, or at the end of the text.
-/
theorem read_accepts_grammar (s : Text) :
    (∀ args rest, read s = .ok (args, rest) ↔ ∃ used, s = used ++ rest ∧ Derives used args) ∧
    (∀ used rest args, s = used ++ rest → Derives used args →
      (∀ other, read (used ++ other) = .ok (args, other)) ∧
      ∀ used' rest' args', s = used' ++ rest' → Derives used' args' →
        used = used' ∧ args = args') ∧
    ((∀ used rest args, s = used ++ rest → ¬ Derives used args) ↔ ∃ e, read s = .error e) ∧
    ∀ e, read s = .error e → e.StopsAt Begins s := by
  refine ⟨fun args rest => read_eq_ok_iff_derives, ?_, ?_, ?_⟩
  · intro used rest args hs hd
    exact ⟨read_of_derives hd, fun used' rest' args' hs' hd' => hd.unique hd' hs hs'⟩
  · constructor
    · intro hno
      cases hr : read s with
      | error e => exact ⟨e, rfl⟩
      | ok r =>
        obtain ⟨used, hs, hd⟩ := read_eq_ok_iff_derives.mp hr
        exact absurd hd (hno used r.2 r.1 hs)
    · rintro ⟨e, he⟩ used rest args rfl hd
      rw [read_of_derives hd] at he
      cases he
  · intro e he
    exact stopsAt_of_readFrom (show Phase.Fits [] .first from rfl) he

/-- An escaped quote, a comma within quotes of a bare argument, and text behind the call. -/
theorem read_accepts_grammar_quotes :
    ∃ used, "'a\\'b', c'd,e' )!".toList = used ++ ['!'] ∧
      Derives used ["a'b".toList, "c'd,e'".toList] :=
  ((read_accepts_grammar _).1 _ _).mp (by rfl)

end BlockTemplate.Arguments
