import BlockTemplate.Proofs.Render.Ink
import BlockTemplate.Proofs.Render.OnePass
import Mathlib.Logic.Function.Iterate

/-!
# What is left of stripped texts

A text is stripped of its placeholders in one pass. What stood on both sides of a placeholder is
joined, so the text behind it may close a brace before it. No placeholder is left exactly if a second
pass would change nothing, and no text needs more passes than it has braces.
-/

namespace BlockTemplate

namespace Page

open Dialect (standard)
open Placeholder (readLoose)

variable {a p s t : Text} {c : Char}

def IsLoose (p : Text) : Prop :=
  ∃ left name right : Text, (∀ c ∈ left, Text.isBlank c = true) ∧ isVariableName name = true ∧
    (∀ c ∈ right, Text.isBlank c = true) ∧ p = '\x7b' :: (left ++ (name ++ (right ++ ['\x7d'])))

theorem isLoose_token {name : Text} (hn : isVariableName name = true) :
    IsLoose (Markup.token name) :=
  ⟨[], name, [], fun _ hc => absurd hc List.not_mem_nil, hn,
    fun _ hc => absurd hc List.not_mem_nil, rfl⟩

def HasLoose (t : Text) : Prop := ∃ p, IsLoose p ∧ p <:+: t

theorem readLoose_eq_some {name rest : Text} (h : readLoose standard s = some (name, rest)) :
    ∃ p, IsLoose ('\x7b' :: p) ∧ s = p ++ rest := by
  simp only [readLoose, Option.bind_eq_bind, Option.bind_eq_some_iff, Option.pure_def,
    Option.some.injEq, Prod.mk.injEq, Prod.exists] at h
  obtain ⟨name', s', hs, rest', hrest, rfl, rfl⟩ := h
  obtain ⟨hname, hne, hall, -⟩ := Tag.readSome_eq_some hs
  have hleft : s = s.takeWhile Text.isBlank ++ (name' ++ s') := by
    rw [← hname, List.takeWhile_append_dropWhile]
  have hright : s' = s'.takeWhile Text.isBlank ++ '\x7d' :: rest' := by
    have hclose : s'.dropWhile Text.isBlank = '\x7d' :: rest' := Text.expect_eq_some.mp hrest
    rw [← hclose, List.takeWhile_append_dropWhile]
  have hvalid : isVariableName name' = true := by
    rw [isVariableName, Bool.and_eq_true, decide_eq_true_eq, List.all_eq_true]
    exact ⟨hne, hall⟩
  refine ⟨_, ⟨s.takeWhile Text.isBlank, name', s'.takeWhile Text.isBlank,
    fun c hc => List.mem_takeWhile_imp hc, hvalid, fun c hc => List.mem_takeWhile_imp hc, rfl⟩, ?_⟩
  rw [List.append_assoc, List.append_assoc, List.append_assoc, List.singleton_append, ← hright]
  exact hleft

theorem readLoose_append (h : IsLoose ('\x7b' :: p)) (rest : Text) :
    ∃ name, readLoose standard (p ++ rest) = some (name, rest) := by
  obtain ⟨left, name, right, hleft, hname, hright, hp⟩ := h
  cases hp
  have hspec := Markup.variableName_spec hname
  obtain ⟨c, cs, rfl⟩ := List.exists_cons_of_ne_nil hspec.1
  have hblank : Text.isBlank c = false :=
    Text.isBlank_of_isVariableChar (hspec.2 c List.mem_cons_self)
  have hstart : ((left ++ (c :: cs ++ (right ++ ['\x7d']))) ++ rest).dropWhile Text.isBlank =
      c :: cs ++ (right ++ '\x7d' :: rest) := by
    rw [List.append_assoc, List.dropWhile_append_of_pos hleft, List.append_assoc,
      List.append_assoc, List.cons_append, List.dropWhile_cons_of_neg (by rw [hblank]; decide)]
    rfl
  have hnext : ∀ x ∈ (right ++ '\x7d' :: rest).head?, Text.isVariableChar x = false := by
    intro x hx
    cases right with
    | nil =>
      cases hx
      decide
    | cons y right =>
      obtain rfl : y = x := Option.some.inj hx
      have hy := hright y List.mem_cons_self
      cases hv : Text.isVariableChar y with
      | false => rfl
      | true =>
        rw [Text.isBlank_of_isVariableChar hv] at hy
        cases hy
  refine ⟨c :: cs, ?_⟩
  have hread := Text.readSome_append hspec.1 hspec.2 hnext
  have hclose : (right ++ '\x7d' :: rest).dropWhile Text.isBlank = '\x7d' :: rest := by
    rw [List.dropWhile_append_of_pos hright]
    exact List.dropWhile_cons_of_neg (by decide)
  simp only [readLoose, hstart, hread, Option.bind_eq_bind, Option.bind_some, hclose]
  rfl

theorem hasLoose_cons_iff : HasLoose ('\x7b' :: s) ↔
    (readLoose standard s).isSome = true ∨ HasLoose s := by
  constructor
  · rintro ⟨p, hp, hinfix⟩
    rcases List.infix_cons_iff.mp hinfix with ⟨rest, hpre⟩ | hinfix
    · have ⟨_, _, _, _, _, _, he⟩ := hp
      subst he
      obtain ⟨name, hread⟩ := readLoose_append hp rest
      cases hpre
      exact .inl (Option.isSome_of_eq_some hread)
    · exact .inr ⟨p, hp, hinfix⟩
  · rintro (hread | ⟨p, hp, hinfix⟩)
    · obtain ⟨⟨name, rest⟩, hsome⟩ := Option.isSome_iff_exists.mp hread
      obtain ⟨p, hp, rfl⟩ := readLoose_eq_some hsome
      exact ⟨_, hp, (List.prefix_append ('\x7b' :: p) rest).isInfix⟩
    · exact ⟨p, hp, hinfix.trans (List.infix_cons List.infix_rfl)⟩

theorem hasLoose_cons_iff_of_ne (hc : c ≠ '\x7b') : HasLoose (c :: s) ↔ HasLoose s := by
  constructor
  · rintro ⟨p, hp, hinfix⟩
    rcases List.infix_cons_iff.mp hinfix with ⟨rest, hpre⟩ | hinfix
    · obtain ⟨_, _, _, _, _, _, rfl⟩ := hp
      cases hpre
      exact absurd rfl hc
    · exact ⟨p, hp, hinfix⟩
  · rintro ⟨p, hp, hinfix⟩
    exact ⟨p, hp, hinfix.trans (List.infix_cons List.infix_rfl)⟩

theorem strip_stray (h : readLoose standard s = none) :
    standard.strip ('\x7b' :: s) = '\x7b' :: standard.strip s := by
  have hpieces := Text.pieces_of_read_none standard.opener_ne h
  rw [Dialect.strip]
  exact congrArg (Piece.fill fun _ => some []) hpieces

theorem strip_loose (h : IsLoose p) (t : Text) : standard.strip (p ++ t) = standard.strip t := by
  have ⟨_, _, _, _, _, _, he⟩ := h
  subst he
  obtain ⟨name, hread⟩ := readLoose_append h t
  have hpieces := Text.pieces_of_read standard.opener_ne hread
  rw [Dialect.strip]
  refine (congrArg (Piece.fill fun _ => some []) hpieces).trans ?_
  rfl

theorem loose_induction {motive : Text → Prop} (nil : motive [])
    (char : ∀ c t, c ≠ '\x7b' → motive t → motive (c :: t))
    (stray : ∀ t, readLoose standard t = none → motive t → motive ('\x7b' :: t))
    (loose : ∀ p t, IsLoose p → motive t → motive (p ++ t)) (t : Text) : motive t := by
  induction hn : t.length using Nat.strongRecOn generalizing t with
  | _ n ih =>
    cases t with
    | nil => exact nil
    | cons c t =>
      have htail : motive t := ih t.length (by simp [← hn]) t rfl
      by_cases hc : c = '\x7b'
      · subst hc
        cases hread : readLoose standard t with
        | none => exact stray t hread htail
        | some run =>
          obtain ⟨p, hp, rfl⟩ := readLoose_eq_some hread
          have hlen : run.2.length < n := by
            rw [← hn, List.length_cons, List.length_append]
            omega
          exact loose _ run.2 hp (ih run.2.length hlen run.2 rfl)
      · exact char c t hc htail

theorem count_strip_le (t : Text) : (standard.strip t).count '\x7b' ≤ t.count '\x7b' := by
  refine loose_induction (motive := fun t =>
    (standard.strip t).count '\x7b' ≤ t.count '\x7b') (Nat.le_refl _) ?_ ?_ ?_ t
  · intro c t hc ih
    rw [Dialect.strip_cons hc, List.count_cons_of_ne hc, List.count_cons_of_ne hc]
    exact ih
  · intro t hnone ih
    rw [strip_stray hnone, List.count_cons_self, List.count_cons_self]
    exact Nat.succ_le_succ ih
  · intro p t hp ih
    rw [strip_loose hp, List.count_append]
    exact Nat.le_add_left_of_le ih

theorem count_strip_lt (h : HasLoose t) : (standard.strip t).count '\x7b' < t.count '\x7b' := by
  refine loose_induction (motive := fun t => HasLoose t →
    (standard.strip t).count '\x7b' < t.count '\x7b') ?_ ?_ ?_ ?_ t h
  · rintro ⟨p, ⟨_, _, _, _, _, _, rfl⟩, hinfix⟩
    cases List.eq_nil_of_infix_nil hinfix
  · intro c t hc ih ht
    rw [Dialect.strip_cons hc, List.count_cons_of_ne hc, List.count_cons_of_ne hc]
    exact ih ((hasLoose_cons_iff_of_ne hc).mp ht)
  · intro t hnone ih ht
    have hrest : HasLoose t := (hasLoose_cons_iff.mp ht).resolve_left (by rw [hnone]; decide)
    rw [strip_stray hnone, List.count_cons_self, List.count_cons_self]
    exact Nat.succ_lt_succ (ih hrest)
  · intro p t hp _ _
    rw [strip_loose hp, List.count_append]
    obtain ⟨_, _, _, _, _, _, rfl⟩ := hp
    have hle := count_strip_le t
    rw [List.count_cons_self]
    omega

theorem strip_of_not_hasLoose (h : ¬ HasLoose t) : standard.strip t = t := by
  refine loose_induction (motive := fun t => ¬ HasLoose t → standard.strip t = t) ?_ ?_ ?_ ?_ t h
  · exact fun _ => rfl
  · intro c t hc ih ht
    rw [Dialect.strip_cons hc, ih fun hl => ht ((hasLoose_cons_iff_of_ne hc).mpr hl)]
  · intro t hnone ih ht
    rw [strip_stray hnone, ih fun hl => ht (hasLoose_cons_iff.mpr (.inr hl))]
  · intro p t hp _ ht
    exact absurd ⟨p, hp, (List.prefix_append p t).isInfix⟩ ht

/--
Stripping changes exactly the texts that a placeholder stands in. So one pass is enough exactly where
a second one changes nothing.
-/
theorem strip_eq_self_iff : standard.strip t = t ↔ ¬ HasLoose t := by
  refine ⟨fun he ht => ?_, strip_of_not_hasLoose⟩
  have hlt := count_strip_lt ht
  rw [he] at hlt
  exact Nat.lt_irrefl _ hlt

theorem not_hasLoose_iterate (n : Nat) (h : t.count '\x7b' ≤ n) :
    ¬ HasLoose (standard.strip^[n] t) := by
  induction n generalizing t with
  | zero =>
    rintro ⟨p, ⟨_, _, _, _, _, _, rfl⟩, hinfix⟩
    have hmem : '\x7b' ∈ t := hinfix.subset List.mem_cons_self
    exact absurd (List.count_pos_iff.mpr hmem) (by omega)
  | succ n ih =>
    rw [Function.iterate_succ_apply]
    by_cases ht : HasLoose t
    · exact ih (Nat.le_of_lt_succ (Nat.lt_of_lt_of_le (count_strip_lt ht) h))
    · have hfix := strip_of_not_hasLoose ht
      rw [hfix, Function.iterate_fixed hfix]
      exact ht

def breakOff (s : Text) : Text :=
  ((s.dropWhile Text.isBlank).dropWhile Text.isVariableChar).dropWhile Text.isBlank

/-- Where an unfinished placeholder breaks off, no other placeholder begins. -/
def Apart (t : Text) : Prop :=
  ∀ s s', '\x7b' :: s <:+ t → readLoose standard s = none → breakOff s = '\x7b' :: s' →
    readLoose standard s' = none

theorem dropWhile_swap {q : Char → Bool} {b u : Text} (v : Text)
    (h : (a ++ c :: u).dropWhile q = b ++ c :: u) : (a ++ c :: v).dropWhile q = b ++ c :: v := by
  induction a generalizing b with
  | nil =>
    by_cases hc : q c = true
    · have hlen := (List.dropWhile_sublist q (l := u)).length_le
      rw [List.nil_append, List.dropWhile_cons_of_pos hc] at h
      rw [h, List.length_append, List.length_cons] at hlen
      omega
    · rw [List.nil_append, List.dropWhile_cons_of_neg hc] at h
      rw [List.nil_append, List.dropWhile_cons_of_neg hc]
      rw [List.self_eq_append_left.mp h]
      rfl
  | cons x a ih =>
    by_cases hx : q x = true
    · rw [List.cons_append, List.dropWhile_cons_of_pos hx] at h ⊢
      exact ih h
    · rw [List.cons_append, List.dropWhile_cons_of_neg hx] at h ⊢
      rw [← List.cons_append] at h ⊢
      rw [List.append_cancel_right h]

theorem readLoose_of_dropWhile {name u v : Text} (hname : s.dropWhile Text.isBlank = name ++ u)
    (hu : (name ++ u).dropWhile Text.isVariableChar = u) (hv : u.dropWhile Text.isBlank = v) :
    readLoose standard s =
      if name = [] then none else (Text.expect ['\x7d'] v).map (name, ·) := by
  have htake : (name ++ u).takeWhile Text.isVariableChar = name := by
    have hsplit := List.takeWhile_append_dropWhile (p := Text.isVariableChar) (l := name ++ u)
    rw [hu] at hsplit
    exact List.append_cancel_right hsplit
  cases name with
  | nil =>
    have hrun : Text.readSome Text.isVariableChar ([] ++ u) = none := by
      rw [Text.readSome, htake]
    rw [readLoose, hname, hrun]
    rfl
  | cons x xs =>
    have hrun : Text.readSome Text.isVariableChar (x :: xs ++ u) = some (x :: xs, u) := by
      rw [Text.readSome, htake, hu]
    simp only [readLoose, hname, hrun, Option.bind_eq_bind, Option.bind_some, hv]
    rw [if_neg (List.cons_ne_nil x xs)]
    exact (Option.map_eq_bind ..).symm

theorem readLoose_swap {u : Text} (v : Text) (h : breakOff (a ++ c :: u) = c :: u)
    (hnone : readLoose standard (a ++ c :: u) = none) :
    readLoose standard (a ++ c :: v) = none := by
  rw [breakOff] at h
  obtain ⟨right, hright⟩ : c :: u <:+
      ((a ++ c :: u).dropWhile Text.isBlank).dropWhile Text.isVariableChar := by
    have hsuffix := List.dropWhile_suffix (l :=
      ((a ++ c :: u).dropWhile Text.isBlank).dropWhile Text.isVariableChar) Text.isBlank
    rw [h] at hsuffix
    exact hsuffix
  obtain ⟨name, hname⟩ : right ++ c :: u <:+ (a ++ c :: u).dropWhile Text.isBlank :=
    hright ▸ List.dropWhile_suffix _
  rw [← hright] at h
  rw [← hname] at hright
  have hread := readLoose_of_dropWhile hname.symm hright.symm h
  rw [← List.append_assoc] at hname hright
  have hname' := dropWhile_swap v hname.symm
  have hright' := dropWhile_swap v hright.symm
  rw [List.append_assoc] at hname' hright'
  have hread' := readLoose_of_dropWhile hname' hright' (dropWhile_swap (b := []) v h)
  rw [hread] at hnone
  rw [hread']
  by_cases hn : name = []
  · rw [if_pos hn]
  · rw [if_neg hn, Option.map_eq_none_iff] at hnone ⊢
    by_cases hc : '\x7d' = c
    · subst hc
      rw [show Text.expect ['\x7d'] ('\x7d' :: u) = some u from Text.expect_eq_some.mpr rfl] at hnone
      cases hnone
    · rw [List.nil_append, Text.expect, if_neg hc]

theorem exists_breakOff (s : Text) : ∃ a, s = a ++ breakOff s ∧ '\x7b' ∉ a ∧ '\x7d' ∉ a := by
  have hplain : ∀ q : Char → Bool, q '\x7b' = false → q '\x7d' = false → ∀ u : Text,
      '\x7b' ∉ u.takeWhile q ∧ '\x7d' ∉ u.takeWhile q := by
    intro q hopen hclose u
    constructor
    · intro hm
      rw [List.mem_takeWhile_imp hm] at hopen
      cases hopen
    · intro hm
      rw [List.mem_takeWhile_imp hm] at hclose
      cases hclose
  have hblank := hplain Text.isBlank (by decide) (by decide)
  have hname := hplain Text.isVariableChar (by decide) (by decide)
  refine ⟨s.takeWhile Text.isBlank ++
    ((s.dropWhile Text.isBlank).takeWhile Text.isVariableChar ++
      ((s.dropWhile Text.isBlank).dropWhile Text.isVariableChar).takeWhile Text.isBlank), ?_, ?_, ?_⟩
  · rw [breakOff, List.append_assoc, List.append_assoc, List.takeWhile_append_dropWhile,
      List.takeWhile_append_dropWhile, List.takeWhile_append_dropWhile]
  · simp only [List.mem_append, not_or]
    exact ⟨(hblank s).1, (hname _).1, (hblank _).1⟩
  · simp only [List.mem_append, not_or]
    exact ⟨(hblank s).2, (hname _).2, (hblank _).2⟩

theorem strip_append (ha : '\x7b' ∉ a) (t : Text) :
    standard.strip (a ++ t) = a ++ standard.strip t := by
  induction a with
  | nil => rfl
  | cons c a ih =>
    rw [List.mem_cons, not_or] at ha
    rw [List.cons_append, Dialect.strip_cons (Ne.symm ha.1), ih ha.2, List.cons_append]

theorem readLoose_strip (h : Apart ('\x7b' :: s)) (hnone : readLoose standard s = none) :
    readLoose standard (standard.strip s) = none := by
  obtain ⟨a, hs, hopen, hclose⟩ := exists_breakOff s
  have hswap : ∀ c u, breakOff s = c :: u → ∀ v, readLoose standard (a ++ c :: v) = none := by
    intro c u hb v
    rw [hb] at hs
    rw [hs] at hb hnone
    exact readLoose_swap v hb hnone
  rw [hs, strip_append hopen]
  cases hb : breakOff s with
  | nil =>
    rw [hb, List.append_nil] at hs
    rw [hs] at hnone
    exact (List.append_nil a).symm ▸ hnone
  | cons c u =>
    by_cases hc : c = '\x7b'
    · subst hc
      rw [strip_stray (h s u List.suffix_rfl hnone hb)]
      exact hswap _ u hb _
    · rw [Dialect.strip_cons hc]
      exact hswap c u hb _

theorem not_hasLoose_strip (h : Apart t) : ¬ HasLoose (standard.strip t) := by
  refine loose_induction (motive := fun t => Apart t → ¬ HasLoose (standard.strip t))
    ?_ ?_ ?_ ?_ t h
  · rintro _ ⟨p, ⟨_, _, _, _, _, _, rfl⟩, hinfix⟩
    cases List.eq_nil_of_infix_nil hinfix
  · intro c t hc ih ht
    rw [Dialect.strip_cons hc, hasLoose_cons_iff_of_ne hc]
    exact ih fun s s' hs => ht s s' (hs.trans (List.suffix_cons c t))
  · intro t hnone ih ht
    rw [strip_stray hnone, hasLoose_cons_iff, readLoose_strip ht hnone]
    rintro (hread | hrest)
    · cases hread
    · exact ih (fun s s' hs => ht s s' (hs.trans (List.suffix_cons _ t))) hrest
  · intro p t hp ih ht
    rw [strip_loose hp]
    exact ih fun s s' hs => ht s s' (hs.trans (List.suffix_append p t))

def Unnested (t : Text) : Prop :=
  ∀ s u v, '\x7b' :: s <:+ t → s = u ++ '\x7b' :: v → '\x7d' ∈ u

theorem Unnested.apart (h : Unnested t) : Apart t := by
  intro s s' hs _ hb
  obtain ⟨a, hsplit, -, hclose⟩ := exists_breakOff s
  rw [hb] at hsplit
  exact absurd (h s a s' hs hsplit) hclose

theorem brace_not_mem_strip_splice {f : Text → Option Text} (ha : Braced a)
    (hf : ∀ x v, f x = some v → '\x7b' ∉ v) : '\x7b' ∉ standard.strip (standard.splice f a) := by
  refine braced_induction (motive := fun a => '\x7b' ∉ standard.strip (standard.splice f a))
    List.not_mem_nil ?_ ?_ ha
  · intro c t hc ih
    rw [splice_cons hc, Dialect.strip_cons hc, List.mem_cons, not_or]
    exact ⟨Ne.symm hc, ih⟩
  · intro name t hn ih
    rw [splice_token hn]
    cases hv : f name with
    | none =>
      exact (congrArg ('\x7b' ∉ ·) (strip_loose (isLoose_token hn) _)).mpr ih
    | some v =>
      refine (congrArg ('\x7b' ∉ ·) (strip_append (hf name v hv) _)).mpr ?_
      rw [List.mem_append, not_or]
      exact ⟨hf name v hv, ih⟩

end Page

namespace Template

open Page (HasLoose Apart)

variable {e : Engine} {t : Template} {log : CallLog}

theorem outputAt_eq_strip (hd : e.dialect = .standard) (hr : e.options.removeUnknown = true)
    (hp : e.options.preserveData = false) (id : BlockId) : (t.outputAt e id log).1 =
      Dialect.standard.strip ((t.outputAt e id log).2.1.state.output id) := by
  change finish e _ = _
  rw [finish, hr, hp, hd]
  rfl

/--
What is handed out holds no placeholder if none begins where an unfinished one breaks off in the
collected output.
-/
theorem not_hasLoose_outputAt (hd : e.dialect = .standard) (hr : e.options.removeUnknown = true)
    (hp : e.options.preserveData = false) {id : BlockId}
    (h : Apart ((t.outputAt e id log).2.1.state.output id)) : ¬ HasLoose (t.outputAt e id log).1 := by
  rw [outputAt_eq_strip hd hr hp]
  exact Page.not_hasLoose_strip h

theorem brace_not_mem_outputAt (hd : e.dialect = .standard) (hr : e.options.removeUnknown = true)
    (hp : e.options.preserveData = false) (ht : t.tree.Sound)
    (hblocks : ∀ x ∈ t.tree.preorder rootId, Pass.Orderly x.2)
    (hnew : t.state.rootRendered = false) (hout : ∀ x, t.state.output x = [])
    (hfresh : ∀ i : CallId, t.state.locals.get? i.memo = none ∧ t.state.globals.get? i.memo = none)
    (hlocals : ∀ x v, t.state.locals.get? x = some v → '\x7b' ∉ v)
    (hglobals : ∀ x v, t.state.globals.get? x = some v → '\x7b' ∉ v)
    (hplain : Pass.Answers e (fun _ v => '\x7b' ∉ v) log (t.outputAt e rootId log).2.2) :
    '\x7b' ∉ (t.outputAt e rootId log).1 := by
  have hid : t.tree.lookup rootName = .ok rootId := lookup_root ht
  have hrender : (t.render e rootName log).2 = (t.outputAt e rootId log).2 := by
    rw [render, hid, outputAt, if_pos ⟨rfl, hnew⟩]
  obtain ⟨o, _, piece, values, -, -, -, hbraced, hcollected, hmemo, hvalue⟩ :=
    render_one_pass hd hp ht hid hblocks hout hfresh (hrender ▸ hplain)
  rw [hrender] at hcollected hmemo
  rw [outputAt_eq_strip hd hr hp, hcollected]
  refine Page.brace_not_mem_strip_splice hbraced ?_
  intro x v hv
  by_cases hx : ∃ i : CallId, x = i.memo
  · obtain ⟨i, rfl⟩ := hx
    exact hplain i v ((hmemo i v).mp hv)
  · rw [hvalue x fun i he => hx ⟨i, he⟩, Reference.value] at hv
    split at hv
    · rcases Option.or_eq_some_iff.mp hv with hg | ⟨-, hl⟩
      · exact hglobals x v hg
      · exact hlocals x v hl
    · cases hv

/-- The name in the braces is what is left of a name around another placeholder. -/
theorem stripped_placeholder_left :
    (((Session.start .empty).run .standard [.compile "\x7ba\x7bb\x7d\x7d".toList]).template.output
      .standard rootName []).1 = .ok "\x7ba\x7d".toList ∧
    HasLoose "\x7ba\x7d".toList ∧
    Dialect.standard.strip (Dialect.standard.strip "\x7ba\x7bb\x7d\x7d".toList) ≠
      Dialect.standard.strip "\x7ba\x7bb\x7d\x7d".toList := by
  refine ⟨by decide +kernel, ?_, by decide +kernel⟩
  exact ⟨_, @Page.isLoose_token ['a'] (by decide), List.infix_rfl⟩

end Template

end BlockTemplate
