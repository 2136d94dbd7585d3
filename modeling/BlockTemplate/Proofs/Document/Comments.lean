import BlockTemplate.Proofs.Document.Markup
import BlockTemplate.Proofs.Document.Tags

/-!
# Comments of printed documents

A tag holds no further opening, except in the path of an inclusion, and behind the opening of a
closing comment tag no inclusion can end. So whatever a comment says, the closing tag behind it is
the first one that is found.
-/

namespace BlockTemplate

namespace Tag

open Text (expect expect_append expect_eq_some)

def Passes (t r : Text) : Prop := ∃ used, t = used ++ r ∧ '<' ∉ used

theorem Passes.trans {t r s : Text} (h₁ : Passes t r) (h₂ : Passes r s) : Passes t s := by
  obtain ⟨u, rfl, hu⟩ := h₁
  obtain ⟨v, rfl, hv⟩ := h₂
  refine ⟨u ++ v, (List.append_assoc u v s).symm, ?_⟩
  rw [List.mem_append, not_or]
  exact ⟨hu, hv⟩

theorem Passes.keeps {x z r : Text} (h : Passes (x ++ '<' :: z) r) :
    ∃ used y, x = used ++ y ∧ r = y ++ '<' :: z := by
  obtain ⟨used, hu, hnot⟩ := h
  rcases List.append_eq_append_iff.mp hu with ⟨a, ha, hz⟩ | ⟨y, hx, hr⟩
  · cases a with
    | nil => exact ⟨x, [], by simp, hz.symm⟩
    | cons c a =>
      cases hz
      rw [ha] at hnot
      simp at hnot
  · exact ⟨used, y, hx, hr⟩

theorem passes_expect {word t r : Text} (h : expect word t = some r) (hw : '<' ∉ word) :
    Passes t r := ⟨word, expect_eq_some.mp h, hw⟩

theorem readSome_eq_some {p : Char → Bool} {t a r : Text} (h : Text.readSome p t = some (a, r)) :
    t = a ++ r ∧ a ≠ [] ∧ (∀ c ∈ a, p c = true) ∧ ∀ c ∈ r.head?, p c = false := by
  rw [Text.readSome] at h
  split at h
  · cases h
  · rename_i run hne
    cases h
    refine ⟨List.takeWhile_append_dropWhile.symm, hne, fun c hc => List.mem_takeWhile_imp hc, ?_⟩
    intro c hc
    have := List.head?_dropWhile_not p t
    rw [hc] at this
    simpa using this

theorem readGap_eq_some {t r : Text} (h : readGap t = some r) :
    ∃ gap, t = gap ++ r ∧ gap ≠ [] ∧ ∀ c ∈ gap, Text.isTagBlank c = true := by
  rw [readGap, Option.map_eq_some_iff] at h
  obtain ⟨⟨gap, r'⟩, hs, rfl⟩ := h
  obtain ⟨ht, hne, hall, -⟩ := readSome_eq_some hs
  exact ⟨gap, ht, hne, hall⟩

theorem readGap_append {gap t : Text} (hne : gap ≠ [])
    (hall : ∀ c ∈ gap, Text.isTagBlank c = true)
    (ht : ∀ c ∈ t.head?, Text.isTagBlank c = false) : readGap (gap ++ t) = some t := by
  rw [readGap, Text.readSome_append hne hall ht]
  rfl

theorem passes_readGap {t r : Text} (h : readGap t = some r) : Passes t r := by
  obtain ⟨gap, ht, -, hall⟩ := readGap_eq_some h
  refine ⟨gap, ht, ?_⟩
  intro hm
  have := hall _ hm
  revert this
  decide

theorem passes_expectAnyCase {word t r : Text} (h : expectAnyCase word t = some r)
    (hw : '<' ∉ word) : Passes t r := by
  induction word generalizing t with
  | nil =>
    cases h
    exact ⟨[], rfl, by simp⟩
  | cons k word ih =>
    cases t with
    | nil => cases h
    | cons c t =>
      rw [expectAnyCase] at h
      split at h
      · rename_i hc
        rw [List.mem_cons, not_or] at hw
        obtain ⟨used, ht, hu⟩ := ih h hw.2
        refine ⟨c :: used, by rw [ht, List.cons_append], ?_⟩
        rw [List.mem_cons, not_or]
        refine ⟨?_, hu⟩
        intro hcu
        rw [← hcu] at hc
        exact hw.1 hc
      · cases h

theorem read_keyword_cases {t r : Text} {k : Keyword} (h : Keyword.read t = some (k, r)) :
    Passes t r ∧ (k = .endComment → t = "/COMMENT".toList ++ r) := by
  rw [Keyword.read] at h
  cases h₁ : expect "BEGIN".toList t with
  | some a =>
    rw [h₁] at h
    cases h
    refine ⟨passes_expect h₁ (by decide), ?_⟩
    intro hk
    cases hk
  | none =>
  cases h₂ : expect "END".toList t with
  | some a =>
    rw [h₁, h₂] at h
    cases h
    refine ⟨passes_expect h₂ (by decide), ?_⟩
    intro hk
    cases hk
  | none =>
  cases h₃ : expect "COMMENT".toList t with
  | some a =>
    rw [h₁, h₂, h₃] at h
    cases h
    refine ⟨passes_expect h₃ (by decide), ?_⟩
    intro hk
    cases hk
  | none =>
  cases h₄ : expect "/COMMENT".toList t with
  | some a =>
    rw [h₁, h₂, h₃, h₄] at h
    cases h
    exact ⟨passes_expect h₄ (by decide), fun _ => expect_eq_some.mp h₄⟩
  | none =>
    rw [h₁, h₂, h₃, h₄] at h
    obtain ⟨a, ha, hk⟩ := Option.map_eq_some_iff.mp h
    cases hk
    refine ⟨passes_expectAnyCase ha (by decide), ?_⟩
    intro hk
    cases hk

theorem read_cases {t r : Text} {tag : Tag} (h : read t = some (tag, r)) :
    ∃ t₁ t₂ t₃ t₄ k, readGap t = some t₁ ∧ Keyword.read t₁ = some (k, t₂) ∧
      readGap t₂ = some t₃ ∧ k.complete t₃ = some (tag, t₄) ∧ expect "-->".toList t₄ = some r := by
  simp only [read, Option.bind_eq_bind, Option.bind_eq_some_iff, Option.pure_def,
    Option.some.injEq, Prod.mk.injEq, Prod.exists] at h
  obtain ⟨t₁, h₁, k, t₂, h₂, t₃, h₃, tag', t₄, h₄, r', h₅, rfl, rfl⟩ := h
  exact ⟨t₁, t₂, t₃, t₄, k, h₁, h₂, h₃, h₄, h₅⟩

theorem readOperand_eq_some {p : Char → Bool} {t a r : Text} (h : readOperand p t = some (a, r)) :
    ∃ s, Text.readSome p t = some (a, s) ∧ readGap s = some r := by
  simp only [readOperand, Option.bind_eq_bind, Option.bind_eq_some_iff, Option.pure_def,
    Option.some.injEq, Prod.mk.injEq, Prod.exists] at h
  obtain ⟨a', s, hs, r', hr, rfl, rfl⟩ := h
  exact ⟨s, hs, hr⟩

theorem passes_blockName {t a r : Text} (h : readOperand Text.isBlockChar t = some (a, r)) :
    Passes t r := by
  obtain ⟨s, hs, hr⟩ := readOperand_eq_some h
  obtain ⟨ht, -, hall, -⟩ := readSome_eq_some hs
  have ha : '<' ∉ a := by
    intro hm
    have := hall _ hm
    revert this
    decide
  exact Passes.trans ⟨a, ht, ha⟩ (passes_readGap hr)

theorem path_keeps {x z path t r : Text}
    (h : readOperand (!Text.isBlank ·) (x ++ (Markup.endComment ++ z)) = some (path, t))
    (hr : expect "-->".toList t = some r) :
    ∃ used y, x = used ++ y ∧ r = y ++ (Markup.endComment ++ z) := by
  obtain ⟨s, hs, hgap⟩ := readOperand_eq_some h
  obtain ⟨ht, -, hall, hhead⟩ := readSome_eq_some hs
  rcases List.append_eq_append_iff.mp ht.symm with ⟨a, hx, hrest⟩ | ⟨a, hpath, hrest⟩
  · -- The path ends in `x`.
    rw [hrest] at hgap
    have hpass : Passes (a ++ '<' :: ("!-- /COMMENT -->".toList ++ z)) r :=
      (passes_readGap hgap).trans (passes_expect hr (by decide))
    obtain ⟨used, y, rfl, rfl⟩ := hpass.keeps
    exact ⟨path ++ used, y, by rw [hx, List.append_assoc], rfl⟩
  · -- The path goes on to the blank in the closing tag, which no arrow follows.
    have hopen : Text.readSome (!Text.isBlank ·) (x ++ (Markup.endComment ++ z)) =
        some (x ++ opening, " /COMMENT -->".toList ++ z) := by
      have hsplit : x ++ (Markup.endComment ++ z) =
          (x ++ opening) ++ (" /COMMENT -->".toList ++ z) := by
        rw [Markup.endComment, List.append_assoc, List.append_assoc]
      rw [hsplit]
      refine Text.readSome_append (by simp [opening]) ?_ ?_
      · intro c hc
        rcases List.mem_append.mp hc with hc | hc
        · exact hall c (by rw [hpath]; exact List.mem_append_left _ hc)
        · have hopening : ∀ c ∈ opening, (!Text.isBlank c) = true := List.all_eq_true.mp rfl
          exact hopening c hc
      · intro c hc
        cases hc
        decide
    rw [hopen] at hs
    cases hs
    have hnext : readGap (" /COMMENT -->".toList ++ z) = some ("/COMMENT -->".toList ++ z) := by
      refine readGap_space ?_
      intro c hc
      cases hc
      decide
    rw [hnext] at hgap
    cases hgap
    cases hr

theorem read_keeps {x z r : Text} {tag : Tag}
    (h : read (x ++ (Markup.endComment ++ z)) = some (tag, r)) :
    ∃ used y, x = used ++ y ∧ r = y ++ (Markup.endComment ++ z) := by
  obtain ⟨t₁, t₂, t₃, t₄, k, h₁, h₂, h₃, h₄, h₅⟩ := read_cases h
  have hstart : Passes (x ++ '<' :: ("!-- /COMMENT -->".toList ++ z)) t₃ :=
    ((passes_readGap h₁).trans (read_keyword_cases h₂).1).trans (passes_readGap h₃)
  have hend : Passes t₄ r := passes_expect h₅ (by decide)
  have hplain : Passes t₃ t₄ → ∃ used y, x = used ++ y ∧ r = y ++ (Markup.endComment ++ z) :=
    fun hmid => ((hstart.trans hmid).trans hend).keeps
  cases k with
  | opens =>
    obtain ⟨⟨name, t⟩, hop, he⟩ := Option.map_eq_some_iff.mp h₄
    cases he
    exact hplain (passes_blockName hop)
  | closes =>
    obtain ⟨⟨name, t⟩, hop, he⟩ := Option.map_eq_some_iff.mp h₄
    cases he
    exact hplain (passes_blockName hop)
  | comment =>
    cases h₄
    exact hplain ⟨[], rfl, by simp⟩
  | endComment =>
    cases h₄
    exact hplain ⟨[], rfl, by simp⟩
  | includes =>
    obtain ⟨⟨path, t⟩, hop, he⟩ := Option.map_eq_some_iff.mp h₄
    cases he
    obtain ⟨u, y, rfl, rfl⟩ := hstart.keeps
    obtain ⟨used, y', rfl, rfl⟩ := path_keeps (x := y) (z := z) hop h₅
    exact ⟨u ++ used, y', by rw [List.append_assoc], rfl⟩

theorem complete_endComment {k : Keyword} {t r : Text}
    (h : k.complete t = some (.endComment, r)) : k = .endComment ∧ r = t := by
  cases k <;> simp [Keyword.complete] at h ⊢
  exact h.symm

theorem read_endComment_append {x z : Text} (h : read (x ++ z) = some (.endComment, z))
    (y : Text) : read (x ++ y) = some (.endComment, y) := by
  obtain ⟨t₁, t₂, t₃, t₄, k, h₁, h₂, h₃, h₄, h₅⟩ := read_cases h
  obtain ⟨rfl, rfl⟩ := complete_endComment h₄
  obtain ⟨g₁, hg₁, hne₁, hall₁⟩ := readGap_eq_some h₁
  obtain ⟨g₂, hg₂, hne₂, hall₂⟩ := readGap_eq_some h₃
  have ht₁ := (read_keyword_cases h₂).2 rfl
  have ht₃ := expect_eq_some.mp h₅
  have hx : x = g₁ ++ ("/COMMENT".toList ++ (g₂ ++ "-->".toList)) := by
    refine (List.append_left_inj z).mp ?_
    rw [hg₁, ht₁, hg₂, ht₃]
    simp only [List.append_assoc]
  rw [hx, List.append_assoc, List.append_assoc, List.append_assoc]
  refine read_eq_some (readGap_append hne₁ hall₁ ?_) (read_keyword_endComment _)
    (readGap_append hne₂ hall₂ ?_) rfl (expect_append _ _)
  · intro c hc
    cases hc
    decide
  · intro c hc
    cases hc
    decide

theorem inside?_chars (a : Text) (ps : List (Piece Tag)) :
    inside? (a.map .char ++ ps) = inside? ps := by
  induction a with
  | nil => rfl
  | cons c a ih => rw [List.map_cons, List.cons_append, inside?, ih]; simp

theorem opening_keeps {x z after : Text}
    (h : expect opening (x ++ (Markup.endComment ++ z)) = some after) (hx : x ≠ []) :
    ∃ y, x = opening ++ y ∧ after = y ++ (Markup.endComment ++ z) := by
  rcases List.append_eq_append_iff.mp (expect_eq_some.mp h) with ⟨o, ho, hz⟩ | ⟨y, hy, hafter⟩
  · cases o with
    | nil => exact ⟨[], by rw [List.append_nil, ho, List.append_nil], hz.symm⟩
    | cons c o =>
      -- The opening would go on with a bracket after its first character.
      have hc : '<' = c := congrArg (·.headD c) hz
      subst hc
      obtain ⟨a, x, rfl⟩ := List.exists_cons_of_ne_nil hx
      have hmem : '<' ∈ opening.tail := by
        rw [ho, List.cons_append, List.tail_cons]
        exact List.mem_append_right _ List.mem_cons_self
      exact absurd hmem (by decide)
  · exact ⟨y, hy, hafter⟩

theorem inside?_comment (body : Text) (hb : ∀ s, s <:+ body → Document.closesComment s = false)
    (z : Text) : inside? (pieces (body ++ (Markup.endComment ++ z))) = some (outside (pieces z)) := by
  -- A tag within the comment is passed over as a whole, so the induction is on the length.
  induction hn : body.length using Nat.strongRecOn generalizing body with
  | _ n ih =>
    cases body with
    | nil =>
      rw [List.nil_append, pieces_endComment, inside?]
    | cons c t =>
      cases he : expect opening ((c :: t) ++ (Markup.endComment ++ z)) with
      | none =>
        have hstep : pieces ((c :: t) ++ (Markup.endComment ++ z)) =
            .char c :: pieces (t ++ (Markup.endComment ++ z)) := Text.pieces_of_expect_none he
        rw [hstep]
        refine ih t.length (by simp [← hn]) t ?_ rfl
        exact fun s hs => hb s (hs.trans (List.suffix_cons c t))
      | some after =>
        obtain ⟨y, hy, hafter⟩ := opening_keeps he (by simp)
        have hsuffix : ∀ s, s <:+ y → Document.closesComment s = false := fun s hs =>
          hb s (hs.trans ⟨opening, hy.symm⟩)
        have hlen : y.length < n := by
          rw [← hn, hy, List.length_append]
          have : 0 < opening.length := by decide
          omega
        rw [hy, List.append_assoc]
        cases hread : read (y ++ (Markup.endComment ++ z)) with
        | none =>
          have hpieces : pieces (opening ++ (y ++ (Markup.endComment ++ z))) =
              opening.map .char ++ pieces (y ++ (Markup.endComment ++ z)) :=
            Text.pieces_of_read_none (by decide) hread
          rw [hpieces, inside?_chars]
          exact ih y.length hlen y hsuffix rfl
        | some r =>
          obtain ⟨tag, r⟩ := r
          obtain ⟨used, v, rfl, rfl⟩ := read_keeps hread
          rw [List.append_assoc] at hread ⊢
          have hpieces : pieces (opening ++ (used ++ (v ++ (Markup.endComment ++ z)))) =
              .mark (opening ++ used) tag :: pieces (v ++ (Markup.endComment ++ z)) :=
            Text.pieces_of_read (by decide) hread
          have hrest := ih v.length (by rw [List.length_append] at hlen; omega) v
            (fun s hs => hsuffix s (hs.trans (List.suffix_append used v))) rfl
          rw [hpieces]
          cases tag with
          | endComment =>
            have hclose := hb (opening ++ (used ++ v)) (by rw [hy])
            rw [Document.closesComment, expect_append, Option.bind_some,
              read_endComment_append hread] at hclose
            cases hclose
          | opens name => exact hrest
          | closes name => exact hrest
          | comment => exact hrest
          | includes path => exact hrest

theorem outside_chars (a : Text) (ps : List (Piece Tag)) :
    outside (a.map .char ++ ps) = a ++ outside ps := by
  induction a with
  | nil => rfl
  | cons c a ih =>
    rw [List.map_cons, List.cons_append, outside, ih]
    · rfl
    · simp

theorem outside_append {a rest : Text} (h : Text.Clear opening a rest) :
    outside (pieces (a ++ rest)) = a ++ outside (pieces rest) := by
  rw [pieces, Text.pieces_append_of_clear h, outside_chars]
  rfl

theorem outside_opens {name : Text} (hn : Page.isBlockName name = true) (t : Text) :
    outside (pieces (Markup.opens name ++ t)) = Markup.opens name ++ outside (pieces t) := by
  rw [pieces_opens hn, outside]
  · rfl
  · simp

theorem outside_closes {name : Text} (hn : Page.isBlockName name = true) (t : Text) :
    outside (pieces (Markup.closes name ++ t)) = Markup.closes name ++ outside (pieces t) := by
  rw [pieces_closes hn, outside]
  · rfl
  · simp

theorem outside_comment (body : Text)
    (hb : ∀ s, s <:+ body → Document.closesComment s = false) (t : Text) :
    outside (pieces (Markup.comment body ++ t)) = outside (pieces t) := by
  have hpieces : pieces (Markup.comment body ++ t) =
      .mark (opening ++ " COMMENT -->".toList) .comment ::
        pieces (body ++ (Markup.endComment ++ t)) := by
    rw [Markup.comment, List.append_assoc, List.append_assoc, List.append_assoc]
    exact Text.pieces_of_read (by decide) (read_comment _)
  rw [hpieces, outside, inside?_comment body hb]
  rfl

end Tag

namespace Document

theorem print_page (t : Text) (d : Document) : (d.page t).print = t ++ (d.page []).print := by
  induction d generalizing t with
  | nil => rw [page, page, Page.print, Page.print, List.append_nil]
  | text u rest ih => rw [page, page, ih, ih ([] ++ u), List.nil_append, List.append_assoc]
  | comment body rest ih => rw [page, page, ih]
  | placeholder name rest ih => rfl
  | filtered name f rest ih => rfl
  | call name args rest ih => rfl
  | block name body rest ihb ih => rfl

def lead : Page → Text
  | .last t => t
  | .placeholder t _ _ => t
  | .filtered t _ _ _ => t
  | .call t _ _ _ => t
  | .block t _ _ _ => t

theorem plainText_lead {p : Page} (h : p.clean = true) : Page.plainText (lead p) = true := by
  cases p with
  | last t => exact h
  | placeholder t name rest =>
    simp only [Page.clean, Bool.and_eq_true] at h
    exact h.1.1
  | filtered t name f rest =>
    simp only [Page.clean, Bool.and_eq_true] at h
    exact h.1.1.1
  | call t name args rest =>
    simp only [Page.clean, Bool.and_eq_true] at h
    exact h.1.1.1
  | block t name body rest =>
    simp only [Page.clean, Bool.and_eq_true] at h
    exact h.1.1.1

theorem prefix_lead (d : Document) (t : Text) : t <+: lead (d.page t) := by
  induction d generalizing t with
  | nil => exact List.prefix_rfl
  | text u rest ih => exact (List.prefix_append t u).trans (ih (t ++ u))
  | comment body rest ih => exact ih t
  | placeholder name rest ih => exact List.prefix_rfl
  | filtered name f rest ih => exact List.prefix_rfl
  | call name args rest ih => exact List.prefix_rfl
  | block name body rest ihb ih => exact List.prefix_rfl

theorem commentsEnd_comment {body : Text} {rest : Document}
    (h : (Document.comment body rest).commentsEnd = true) :
    (∀ s, s <:+ body → closesComment s = false) ∧ rest.commentsEnd = true := by
  rw [commentsEnd, Bool.and_eq_true, List.all_eq_true] at h
  refine ⟨?_, h.2⟩
  intro s hs
  have := h.1 s ((List.mem_tails s body).mpr hs)
  simpa using this

open Markup (Edge edge_tag edge_token edge_filter edge_call)

theorem clear_part {t u rest : Text} (h : Page.plainText u = true) (ht : t <:+: u)
    (he : Edge rest) : Text.Clear Tag.opening t rest :=
  Text.clear_of_not_infix (fun hin => (Markup.plainText_spec h).2.1 (hin.trans ht))
    (he.not_mem (by simp [Tag.opening]))

theorem outside_print (d : Document) (before t tail : Text)
    (hp : (d.page (before ++ t)).clean = true) (hc : d.commentsEnd = true) (he : Edge tail) :
    Tag.outside (Tag.pieces (t ++ (d.print ++ tail))) =
      t ++ ((d.page []).print ++ Tag.outside (Tag.pieces tail)) := by
  have hpart : ∀ a b : Text, b <:+: a ++ b := fun a b => (List.suffix_append a b).isInfix
  induction d generalizing before t tail with
  | nil =>
    rw [print, List.nil_append, Tag.outside_append (clear_part hp (hpart _ _) he)]
    rfl
  | text u rest ih =>
    rw [page, List.append_assoc] at hp
    have hrest := ih before (t ++ u) tail hp hc he
    rw [print, page, print_page, List.nil_append]
    simpa only [List.append_assoc] using hrest
  | placeholder name rest ih =>
    simp only [page, Page.clean, Bool.and_eq_true] at hp
    have hrest := ih [] [] tail hp.2 hc he
    simp only [List.nil_append] at hrest
    rw [print, List.append_assoc, Tag.outside_append (clear_part hp.1.1 (hpart _ _) (edge_token _ _)),
      Tag.outside_append (Markup.clear_token hp.1.2 _), hrest, page, Page.print, List.nil_append,
      List.append_assoc]
  | filtered name f rest ih =>
    simp only [page, Page.clean, Bool.and_eq_true] at hp
    have hrest := ih [] [] tail hp.2 hc he
    simp only [List.nil_append] at hrest
    rw [print, List.append_assoc, Tag.outside_append (clear_part hp.1.1.1 (hpart _ _) (edge_filter _ _ _)),
      Tag.outside_append (Markup.clear_filter hp.1.1.2 hp.1.2 _), hrest, page, Page.print,
      List.nil_append, List.append_assoc]
  | call name args rest ih =>
    simp only [page, Page.clean, Bool.and_eq_true, List.all_eq_true] at hp
    have hrest := ih [] [] tail hp.2 hc he
    simp only [List.nil_append] at hrest
    rw [print, List.append_assoc, Tag.outside_append (clear_part hp.1.1.1 (hpart _ _) (edge_call _ _ _)),
      Tag.outside_append (Markup.clear_call hp.1.1.2 hp.1.2 _), hrest, page, Page.print,
      List.nil_append, List.append_assoc]
  | comment body rest ih =>
    -- The text behind the comment joins the text before it, so this becomes part of `before`.
    obtain ⟨hbody, hcomments⟩ := commentsEnd_comment hc
    rw [page] at hp
    have hplain := plainText_lead hp
    have hin : t <:+: lead (rest.page (before ++ t)) :=
      (hpart before t).trans (prefix_lead rest (before ++ t)).isInfix
    have hp' : (rest.page ((before ++ t) ++ [])).clean = true := by
      rw [List.append_nil]
      exact hp
    have hrest := ih (before ++ t) [] tail hp' hcomments he
    simp only [List.nil_append] at hrest
    have hedge : Edge (Markup.comment body ++ (rest.print ++ tail)) := by
      rw [Markup.comment, List.append_assoc]
      exact edge_tag _
    rw [print, List.append_assoc, Tag.outside_append (clear_part hplain hin hedge),
      Tag.outside_comment body hbody, hrest, page]
  | block name body rest ihb ih =>
    simp only [page, Page.clean, Bool.and_eq_true] at hp
    simp only [commentsEnd, Bool.and_eq_true] at hc
    have hrest := ih [] [] tail hp.2 hc.2 he
    simp only [List.nil_append] at hrest
    have hopens : Edge (Markup.opens name ++ (body.print ++ (Markup.closes name ++ rest.print) ++
        tail)) := by
      rw [Markup.opens, List.append_assoc]
      exact edge_tag _
    have hcloses : Edge (Markup.closes name ++ (rest.print ++ tail)) := by
      rw [Markup.closes, List.append_assoc]
      exact edge_tag _
    have hbody := ihb [] [] (Markup.closes name ++ (rest.print ++ tail)) hp.1.2 hc.1 hcloses
    simp only [List.nil_append] at hbody
    rw [print, List.append_assoc, Tag.outside_append (clear_part hp.1.1.1 (hpart _ _) hopens),
      Tag.outside_opens hp.1.1.2]
    simp only [List.append_assoc]
    rw [hbody, Tag.outside_closes hp.1.1.2, hrest, page, Page.print]
    simp only [List.append_assoc, List.nil_append]

theorem stripComments_print {d : Document} (h : d.Plain) :
    Tag.stripComments d.print = (d.page []).print := by
  have hd := outside_print d [] [] [] h.page.clean h.comments Markup.edge_nil
  simp only [List.append_nil, List.nil_append] at hd
  exact hd.trans (List.append_nil _)

end Document

end BlockTemplate
