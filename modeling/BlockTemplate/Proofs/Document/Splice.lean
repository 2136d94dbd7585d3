import BlockTemplate.Proofs.Document.Calls

/-!
# Cutting and splicing texts

A text is cut at its placeholders from the left. A brace that begins no placeholder is passed over,
and the name of a placeholder has no brace in it, so what stands before a brace does not change how
the text is cut behind it.
-/

namespace BlockTemplate

namespace Dialect

variable {d : Dialect} {f g : Text → Option Text} {name t : Text}

def lookups (d : Dialect) (t : Text) : List Text := (d.names t).filterMap Piece.value?

theorem splice_congr (h : ∀ x ∈ d.lookups t, f x = g x) : d.splice f t = d.splice g t := by
  rw [lookups] at h
  rw [splice, splice]
  generalize d.names t = ps at h
  induction ps with
  | nil => rfl
  | cons p ps ih =>
    cases p with
    | char c => exact congrArg (c :: ·) (ih h)
    | mark raw x =>
      have hx : f x = g x := h x List.mem_cons_self
      have hps := ih fun y hy => h y (List.mem_cons_of_mem x hy)
      change (f x).getD raw ++ Piece.fill f ps = (g x).getD raw ++ Piece.fill g ps
      rw [hx, hps]

theorem raw_eq_token {raw : Text} (h : .mark raw name ∈ d.names t) : raw = d.token name := by
  have hread : ∀ {s rest x : Text}, Placeholder.readName d s = some (x, rest) →
      s = (x ++ d.closer) ++ rest := by
    intro s rest x hs
    simp only [Placeholder.readName, Option.bind_eq_bind, Option.bind_eq_some_iff, Option.pure_def,
      Option.some.injEq, Prod.mk.injEq, Prod.exists] at hs
    obtain ⟨x', s', hx, rest', hrest, rfl, rfl⟩ := hs
    rw [(Tag.readSome_eq_some hx).1, Text.expect_eq_some.mp hrest, List.append_assoc]
  obtain ⟨used, rest, rfl, hused⟩ :=
    Text.read_of_mem_pieces d.opener_ne (fun hs => ⟨_, (hread hs).symm⟩) h
  rw [List.append_cancel_right (hread hused), token, List.append_assoc]

theorem splice_getD (f : Text → Option Text) (t : Text) :
    d.splice (fun x => (f x).map d.token) t = d.splice (fun x => some (d.token ((f x).getD x))) t := by
  rw [splice, splice, Piece.fill, Piece.fill]
  refine List.flatMap_congr ?_
  intro p hp
  cases p with
  | char c => rfl
  | mark raw x =>
    dsimp only
    cases f x with
    | none => exact raw_eq_token hp
    | some y => rfl

theorem infix_splice (h : name ∈ d.lookups t) {out : Text} (hf : f name = some out) :
    out <:+: d.splice f t := by
  obtain ⟨p, hp, hvalue⟩ := List.mem_filterMap.mp h
  cases p with
  | char c => cases hvalue
  | mark raw x =>
    cases hvalue
    rw [splice, Piece.fill]
    obtain ⟨before, after, hsplit⟩ := List.append_of_mem hp
    refine ⟨Piece.fill f before, Piece.fill f after, ?_⟩
    rw [hsplit, List.flatMap_append, List.flatMap_cons, List.append_assoc]
    change _ = _ ++ ((f name).getD raw ++ _)
    rw [hf]
    rfl

end Dialect

namespace Page

variable {b t name : Text}

theorem names_cons {c : Char} (hc : c ≠ '\x7b') (t : Text) :
    Dialect.standard.names (c :: t) = .char c :: Dialect.standard.names t := by
  have hnone : Text.expect ['\x7b'] (c :: t) = none := by
    rw [Text.expect, if_neg (Ne.symm hc)]
  exact Text.pieces_of_expect_none hnone

theorem names_stray (h : Placeholder.readName .standard t = none) :
    Dialect.standard.names ('\x7b' :: t) = .char '\x7b' :: Dialect.standard.names t :=
  Text.pieces_of_read_none (Dialect.opener_ne .standard) h

theorem token_of_readName {after : Text} (h : Placeholder.readName .standard t = some (name, after)) :
    '\x7b' :: t = Markup.token name ++ after := by
  obtain ⟨rfl, -⟩ := readName_eq_some h
  rw [token_append, List.append_assoc]
  rfl

theorem leaves_readName : Text.Leaves (Placeholder.readName .standard) := by
  intro t name rest h
  obtain ⟨rfl, -⟩ := readName_eq_some h
  exact ⟨name ++ ['\x7d'], by simp⟩

theorem ne_brace_of_expect {c : Char} (h : Text.expect ['\x7b'] (c :: t) = none) : c ≠ '\x7b' := by
  rintro rfl
  cases h

theorem scan_induction {motive : Text → Prop} (nil : motive [])
    (char : ∀ c t, c ≠ '\x7b' → motive t → motive (c :: t))
    (stray : ∀ t, Placeholder.readName .standard t = none → motive t → motive ('\x7b' :: t))
    (token : ∀ name t, isVariableName name = true → motive t → motive (Markup.token name ++ t))
    (t : Text) : motive t := by
  refine Text.pieces_induction Dialect.standard.opener_ne leaves_readName nil
    (fun c t h => char c t (ne_brace_of_expect h)) stray ?_ t
  intro used rest name h hrest
  change motive ('\x7b' :: (used ++ rest))
  rw [token_of_readName h]
  exact token name rest (readName_eq_some h).2 hrest

theorem readName_token (hn : isVariableName name = true) (rest : Text) :
    Placeholder.readName .standard (name ++ '\x7d' :: rest) = some (name, rest) := by
  simp only [Placeholder.readName,
    readSome_name hn (t := rest) (show Text.isVariableChar '\x7d' = false by decide),
    Option.bind_eq_bind, Option.bind_some]
  rfl

theorem brace_not_mem_name (hn : isVariableName name = true) : '\x7b' ∉ name ++ ['\x7d'] := by
  intro hm
  rcases List.mem_append.mp hm with hm | hm
  · exact absurd ((Markup.variableName_spec hn).2 _ hm) (by decide)
  · exact absurd hm (by decide)

theorem splice_cons {c : Char} (hc : c ≠ '\x7b') (f : Text → Option Text) (t : Text) :
    Dialect.standard.splice f (c :: t) = c :: Dialect.standard.splice f t := by
  rw [Dialect.splice, names_cons hc]
  rfl

theorem splice_stray (h : Placeholder.readName .standard t = none) (f : Text → Option Text) :
    Dialect.standard.splice f ('\x7b' :: t) = '\x7b' :: Dialect.standard.splice f t := by
  rw [Dialect.splice, names_stray h]
  rfl

theorem splice_token (hn : isVariableName name = true) (f : Text → Option Text) (t : Text) :
    Dialect.standard.splice f (Markup.token name ++ t) =
      (f name).getD (Markup.token name) ++ Dialect.standard.splice f t := by
  rw [Dialect.splice, names_token hn]
  rfl

theorem splice_none (t : Text) : Dialect.standard.splice (fun _ => none) t = t := by
  refine scan_induction (motive := fun t => Dialect.standard.splice (fun _ => none) t = t)
    rfl ?_ ?_ ?_ t
  · intro c t hc ih
    rw [splice_cons hc, ih]
  · intro t hnone ih
    rw [splice_stray hnone, ih]
  · intro name t hn ih
    rw [splice_token hn, ih]
    rfl

theorem replaceAll_cons {old : Text} {c : Char} (h : Text.expect old (c :: t) = none) (new : Text) :
    Text.replaceAll old new (c :: t) = c :: Text.replaceAll old new t := by
  rw [Text.replaceAll, Text.pieces_of_expect_none h]
  rfl

theorem replaceAll_self {old : Text} (ho : old ≠ []) (new t : Text) :
    Text.replaceAll old new (old ++ t) = new ++ Text.replaceAll old new t := by
  have hp : Text.pieces old (fun rest => some ((), rest)) (old ++ ([] ++ t)) =
      .mark (old ++ []) () :: Text.pieces old (fun rest => some ((), rest)) t :=
    Text.pieces_of_read ho rfl
  rw [List.nil_append] at hp
  rw [Text.replaceAll, hp]
  rfl

theorem replaceAll_append {word : Text} (hb : '\x7b' ∉ b) (new t : Text) :
    Text.replaceAll ('\x7b' :: word) new (b ++ t) =
      b ++ Text.replaceAll ('\x7b' :: word) new t := by
  induction b with
  | nil => rfl
  | cons c b ih =>
    have hc : '\x7b' ≠ c := fun he => hb (he ▸ List.mem_cons_self)
    have hnone : Text.expect ('\x7b' :: word) (c :: (b ++ t)) = none := by
      rw [Text.expect, if_neg hc]
    rw [List.cons_append, replaceAll_cons hnone, ih fun hm => hb (List.mem_cons_of_mem c hm),
      List.cons_append]

theorem readName_of_expect (hn : isVariableName name = true) {rest : Text}
    (h : Text.expect (Markup.token name) ('\x7b' :: t) = some rest) :
    Placeholder.readName .standard t = some (name, rest) := by
  have heq := Text.expect_eq_some.mp h
  rw [token_append, List.append_assoc, List.singleton_append, List.cons.injEq] at heq
  rw [heq.2]
  exact readName_token hn rest

theorem replaceAll_token (hn : isVariableName name = true) (new t : Text) :
    Text.replaceAll (Markup.token name) new t =
      Dialect.standard.splice (fun x => if x = name then some new else none) t := by
  refine scan_induction (motive := fun t => Text.replaceAll (Markup.token name) new t =
      Dialect.standard.splice (fun x => if x = name then some new else none) t) rfl ?_ ?_ ?_ t
  · intro c t hc ih
    have hb : '\x7b' ∉ [c] := fun hm => hc (List.mem_singleton.mp hm).symm
    rw [splice_cons hc, ← ih]
    exact replaceAll_append hb new t
  · intro t hnone ih
    have hexpect : Text.expect (Markup.token name) ('\x7b' :: t) = none := by
      cases he : Text.expect (Markup.token name) ('\x7b' :: t) with
      | none => rfl
      | some rest =>
        rw [readName_of_expect hn he] at hnone
        cases hnone
    rw [splice_stray hnone, ← ih, replaceAll_cons hexpect]
  · intro x t hx ih
    rw [splice_token hx]
    by_cases he : x = name
    · subst he
      have hne : Markup.token x ≠ [] := List.cons_ne_nil _ _
      rw [if_pos rfl, replaceAll_self hne, ih]
      rfl
    · have htok : Markup.token x ++ t = '\x7b' :: ((x ++ ['\x7d']) ++ t) := by
        rw [token_append, List.singleton_append]
      have hnone : Text.expect (Markup.token name) ('\x7b' :: ((x ++ ['\x7d']) ++ t)) = none := by
        cases hm : Text.expect (Markup.token name) ('\x7b' :: ((x ++ ['\x7d']) ++ t)) with
        | none => rfl
        | some rest =>
          have hread := readName_of_expect hn hm
          rw [List.append_assoc, List.singleton_append, readName_token hx, Option.some.injEq,
            Prod.mk.injEq] at hread
          exact absurd hread.1 he
      have hrest : Text.replaceAll (Markup.token name) new ((x ++ ['\x7d']) ++ t) =
          (x ++ ['\x7d']) ++ Text.replaceAll (Markup.token name) new t :=
        replaceAll_append (brace_not_mem_name hx) new t
      rw [if_neg he, Option.getD_none, ← ih, htok, replaceAll_cons hnone new, hrest,
        ← brace_append x]
      rfl

section Braced

variable {a : Text} {f g : Text → Option Text}

theorem splice_append_of_braced (ha : Braced a) (f : Text → Option Text) (t : Text) :
    Dialect.standard.splice f (a ++ t) =
      Dialect.standard.splice f a ++ Dialect.standard.splice f t := by
  refine braced_induction (motive := fun a => Dialect.standard.splice f (a ++ t) =
    Dialect.standard.splice f a ++ Dialect.standard.splice f t) rfl ?_ ?_ ha
  · intro c s hc ih
    rw [List.cons_append, splice_cons hc, splice_cons hc, ih, List.cons_append]
  · intro name s hn ih
    rw [List.append_assoc, splice_token hn, splice_token hn, ih, List.append_assoc]

theorem splice_of_no_brace (ha : '\x7b' ∉ a) (f : Text → Option Text) :
    Dialect.standard.splice f a = a := by
  induction a with
  | nil => rfl
  | cons c a ih =>
    rw [List.mem_cons, not_or] at ha
    rw [splice_cons (Ne.symm ha.1), ih ha.2]

theorem braced_of_no_brace (ha : '\x7b' ∉ a) : Braced a :=
  fun _ hs => absurd (hs.subset List.mem_cons_self) ha

theorem splice_append (ha : '\x7b' ∉ a) (f : Text → Option Text) (t : Text) :
    Dialect.standard.splice f (a ++ t) = a ++ Dialect.standard.splice f t := by
  rw [splice_append_of_braced (braced_of_no_brace ha), splice_of_no_brace ha]

theorem braced_cons {c : Char} (hc : c ≠ '\x7b') (ha : Braced a) : Braced (c :: a) := by
  intro s hs
  rcases List.suffix_cons_iff.mp hs with he | hs
  · exact absurd (List.cons.inj he).1.symm hc
  · exact ha s hs

theorem braced_append_of_no_brace {w : Text} (hw : '\x7b' ∉ w) (ha : Braced a) :
    Braced (w ++ a) := by
  induction w with
  | nil => exact ha
  | cons c w ih =>
    rw [List.mem_cons, not_or] at hw
    exact braced_cons (Ne.symm hw.1) (ih hw.2)

theorem braced_token (hn : isVariableName name = true) (ha : Braced a) :
    Braced (Markup.token name ++ a) := by
  have hrest := braced_append_of_no_brace (brace_not_mem_name hn) ha
  rw [token_append, List.singleton_append]
  intro s hs
  rcases List.suffix_cons_iff.mp hs with he | hs
  · rw [(List.cons.inj he).2, List.append_assoc, List.singleton_append, readName_token hn]
    rfl
  · exact hrest s hs

theorem braced_append (ha : Braced a) (hb : Braced b) : Braced (a ++ b) :=
  braced_induction (motive := fun a => Braced (a ++ b)) hb
    (fun _ _ hc ih => braced_cons hc ih)
    (fun name t hn ih => List.append_assoc (Markup.token name) t b ▸ braced_token hn ih) ha

theorem braced_splice (ht : Braced t) (hf : ∀ x v, f x = some v → Braced v) :
    Braced (Dialect.standard.splice f t) := by
  refine braced_induction (motive := fun t => Braced (Dialect.standard.splice f t))
    (braced_of_no_brace List.not_mem_nil) ?_ ?_ ht
  · intro c t hc ih
    rw [splice_cons hc]
    exact braced_cons hc ih
  · intro name t hn ih
    rw [splice_token hn]
    cases hv : f name with
    | none => exact braced_token hn ih
    | some v => exact braced_append (hf name v hv) ih

theorem splice_splice (ht : Braced t) (hf : ∀ x v, f x = some v → Braced v) :
    Dialect.standard.splice g (Dialect.standard.splice f t) =
      Dialect.standard.splice (fun x => ((f x).map (Dialect.standard.splice g)).or (g x)) t := by
  refine braced_induction (motive := fun t =>
    Dialect.standard.splice g (Dialect.standard.splice f t) =
      Dialect.standard.splice (fun x => ((f x).map (Dialect.standard.splice g)).or (g x)) t)
    rfl ?_ ?_ ht
  · intro c t hc ih
    rw [splice_cons hc, splice_cons hc, splice_cons hc, ih]
  · intro name t hn ih
    rw [splice_token hn, splice_token hn]
    cases hv : f name with
    | none =>
      refine (splice_token hn g _).trans ?_
      rw [ih]
      rfl
    | some v =>
      refine (splice_append_of_braced (hf name v hv) g _).trans ?_
      rw [ih]
      rfl

end Braced

end Page

end BlockTemplate
