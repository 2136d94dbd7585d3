import BlockTemplate.Proofs.Render.Reference
import BlockTemplate.Proofs.Section.Dissolve
import BlockTemplate.Proofs.Template.Add

/-!
# Where the output of children goes

A parent takes the output of its children and splices it into its content, so output goes where the
name of the child is looked up, and nowhere else. An added block is looked up where its placeholder
was; a placeholder with a filter, or in the argument of a call, is looked up in no content.
-/

namespace BlockTemplate

namespace Page

variable {f : Text → Option Text} {g : Text → Text}

theorem exists_of_splice_eq_append (hf : ∀ x, (f x).getD (Markup.token x) = Markup.token (g x))
    {v rest t : Text} (hv : '\x7b' ∉ v) (h : Dialect.standard.splice f t = v ++ rest) :
    ∃ rest', t = v ++ rest' := by
  induction v generalizing t with
  | nil => exact ⟨t, rfl⟩
  | cons c v ih =>
    have hc : '\x7b' ≠ c := fun he => hv (he ▸ List.mem_cons_self)
    cases t with
    | nil => cases h
    | cons x t =>
      by_cases hx : x = '\x7b'
      · subst hx
        cases hread : Placeholder.readName .standard t with
        | none =>
          rw [splice_stray hread] at h
          exact absurd (List.cons.inj h).1 hc
        | some p =>
          obtain ⟨name, after⟩ := p
          rw [token_of_readName hread, splice_token (readName_eq_some hread).2, hf] at h
          exact absurd (List.cons.inj h).1 hc
      · rw [splice_cons hx] at h
        obtain ⟨rfl, htail⟩ := List.cons.inj h
        obtain ⟨rest', rfl⟩ := ih (fun hm => hv (List.mem_cons_of_mem x hm)) htail
        exact ⟨rest', rfl⟩

theorem readName_splice_eq_none (hf : ∀ x, (f x).getD (Markup.token x) = Markup.token (g x))
    {t : Text} (h : Placeholder.readName .standard t = none) :
    Placeholder.readName .standard (Dialect.standard.splice f t) = none := by
  cases hread : Placeholder.readName .standard (Dialect.standard.splice f t) with
  | none => rfl
  | some p =>
    obtain ⟨name, after⟩ := p
    obtain ⟨htext, hname⟩ := readName_eq_some hread
    rw [← List.singleton_append, ← List.append_assoc] at htext
    obtain ⟨rest, rfl⟩ := exists_of_splice_eq_append hf (brace_not_mem_name hname) htext
    rw [List.append_assoc, List.singleton_append, readName_token hname] at h
    cases h

theorem lookups_splice (hf : ∀ x, (f x).getD (Markup.token x) = Markup.token (g x))
    (hg : ∀ x, isVariableName x = true → isVariableName (g x) = true) (t : Text) :
    Dialect.standard.lookups (Dialect.standard.splice f t) =
      (Dialect.standard.lookups t).map g := by
  refine scan_induction (motive := fun t => Dialect.standard.lookups
    (Dialect.standard.splice f t) = (Dialect.standard.lookups t).map g) rfl ?_ ?_ ?_ t
  · intro c t hc ih
    rw [splice_cons hc, Dialect.lookups, names_cons hc, Dialect.lookups, names_cons hc]
    exact ih
  · intro t hnone ih
    rw [splice_stray hnone, Dialect.lookups, names_stray (readName_splice_eq_none hf hnone),
      Dialect.lookups, names_stray hnone]
    exact ih
  · intro name t hname ih
    rw [splice_token hname, hf, Dialect.lookups, names_token (hg name hname), Dialect.lookups,
      names_token hname]
    exact congrArg (g name :: ·) ih

end Page

namespace Reference

variable {r : Reference} {id : BlockId} {b : Block} {c : Outline} {cs : List Outline}

theorem piece_node (r : Reference) (id : BlockId) (b : Block) (cs : List Outline) :
    r.piece (.node id b cs) = if r.emits id (r.nonempty (.node id b cs)) then
      r.engine.dialect.splice (r.tokens cs) b.content else [] := by
  rw [piece, nonempty]

theorem tokens_filter {n x : Text} (hx : x ≠ childName n) (cs : List Outline) :
    r.tokens (cs.filter (·.block.name ≠ n)) x = r.tokens cs x := by
  induction cs with
  | nil => rfl
  | cons a cs ih =>
    by_cases ha : a.block.name = n
    · have hne : x ≠ childName a.block.name := ha ▸ hx
      rw [List.filter_cons_of_neg (by simp [ha]), ih, tokens, if_neg hne, Option.or_none]
    · rw [List.filter_cons_of_pos (by simp [ha]), tokens, tokens, ih]

theorem tokens_of_not_mem {n : Text} (hn : n ∉ cs.map (·.block.name)) :
    r.tokens cs (childName n) = none := by
  induction cs with
  | nil => rfl
  | cons a cs ih =>
    rw [List.map_cons, List.mem_cons, not_or] at hn
    rw [tokens, ih hn.2, if_neg fun he => hn.1 (childName_inj he)]
    rfl

theorem tokens_of_mem (hc : c ∈ cs) (hn : (cs.map (·.block.name)).Nodup) :
    r.tokens cs (childName c.block.name) =
      some (if r.state.isHidden c.id then [] else r.state.output c.id ++ r.piece c) := by
  induction cs with
  | nil => cases hc
  | cons a cs ih =>
    obtain ⟨hfresh, hn⟩ := List.nodup_cons.mp hn
    rw [tokens]
    rcases List.mem_cons.mp hc with rfl | hc
    · rw [if_pos rfl, tokens_of_not_mem hfresh, Option.none_or]
    · rw [ih hc hn, Option.some_or]

theorem infix_piece (hput : r.emits id (r.nonempty (.node id b cs)) = true) (hc : c ∈ cs)
    (hn : (cs.map (·.block.name)).Nodup) (hopen : r.state.isHidden c.id = false)
    (hlook : childName c.block.name ∈ r.engine.dialect.lookups b.content) :
    r.state.output c.id ++ r.piece c <:+: r.piece (.node id b cs) := by
  have htoken := tokens_of_mem (r := r) hc hn
  rw [hopen, if_neg Bool.false_ne_true] at htoken
  rw [piece_node r id b cs, if_pos hput]
  exact Dialect.infix_splice hlook htoken

theorem piece_of_not_lookups (hput : r.emits id (r.nonempty (.node id b cs)) = true) {n : Text}
    (hlook : childName n ∉ r.engine.dialect.lookups b.content) :
    r.piece (.node id b cs) =
      r.engine.dialect.splice (r.tokens (cs.filter (·.block.name ≠ n))) b.content := by
  rw [piece_node, if_pos hput]
  apply Dialect.splice_congr
  intro x hx
  exact (tokens_filter (fun he => hlook (he ▸ hx)) cs).symm

end Reference

theorem Block.lookups_adopt {childBlock : Text}
    (hn : Page.isVariableName (childName childBlock) = true) (placeholder : Text) (child : BlockId)
    (b : Block) :
    Dialect.standard.lookups (b.adopt .standard placeholder childBlock child).content =
      (Dialect.standard.lookups b.content).map fun x =>
        if x = placeholder then childName childBlock else x := by
  refine Page.lookups_splice ?_ ?_ b.content
  · intro x
    by_cases hx : x = placeholder
    · rw [if_pos hx, if_pos hx]
      rfl
    · rw [if_neg hx, if_neg hx]
      rfl
  · intro x hx
    by_cases he : x = placeholder
    · rw [if_pos he]
      exact hn
    · rw [if_neg he]
      exact hx

namespace Template

variable {t : Template} {e : Engine}

theorem adopts_attach (d : Dialect) {top : Text} {f : Fragment} {calls : CallTable}
    (hr : f.Ready top calls) {p : BlockId} {b : Block} (hp : t.tree.get? p = some b)
    (placeholder : Text) :
    (t.attach d f (.under p placeholder)).2.tree.get? p =
        some (b.adopt d placeholder top (t.attach d f (.under p placeholder)).1) ∧
      (t.attach d f (.under p placeholder)).2.nameOf (t.attach d f (.under p placeholder)).1 =
        some top := by
  obtain ⟨b₀, hb₀, hname⟩ := hr.top_name
  let id := (t.tree.graftUnder p f).1
  obtain ⟨hvac, hplant⟩ := Tree.plant_graftUnder hr.tree
    { name := top, content := [], parent := some p } hp (Block.adopt d placeholder (topName f) id)
    rfl rfl
  have hne : p ≠ id := by
    intro he
    rw [he, hvac] at hp
    cases hp
  have hparent := hplant.kept (x := p) (d := b.adopt d placeholder (topName f) id)
    (by simp [Tree.sprouted, hne, id]) hne
  have hchild := hplant.placed 0 b₀ hb₀
  rw [hplant.place_zero] at hchild
  constructor
  · rw [← topName_eq hr]
    exact hparent
  · exact (congrArg (Option.map (·.name)) hchild).trans (congrArg some hname)

/-- What the parent of an added block looks up, if the name of the block can be part of a token. -/
theorem lookups_addBlock (hd : e.dialect = .standard) (h : t.tree.Sound)
    {placeholder block source : Text} (hn : Page.isVariableName (childName block) = true)
    (hok : (t.addBlock e placeholder block source).1 = .ok ()) :
    ∃ p b c b', t.tree.owner placeholder = .ok p ∧ t.tree.get? p = some b ∧
      (t.addBlock e placeholder block source).2.tree.get? p = some b' ∧
      (t.addBlock e placeholder block source).2.nameOf c = some block ∧
      b'.children = b.children ++ [c] ∧
      Dialect.standard.lookups b'.content = (Dialect.standard.lookups b.content).map fun x =>
        if x = placeholder then childName block else x := by
  rw [addBlock] at hok ⊢
  cases hplace : t.placeFor placeholder block with
  | error fault =>
    rw [hplace] at hok
    cases hok
  | ok p =>
    rw [hplace] at hok
    dsimp only at hok ⊢
    have howner := owner_of_placeFor hplace
    obtain ⟨b, hb, -⟩ := Tree.live_of_owner h.tree howner
    have hfits := Fragment.fits_compile e.dialect t.tree block source none
    rw [attachSource] at hok ⊢
    simp only [Target.replaced] at hok ⊢
    generalize Fragment.compile e.dialect t.tree block source none = r at hfits hok
    obtain ⟨r, calls⟩ := r
    cases r with
    | error fault => cases hok
    | ok f =>
      obtain ⟨hparent, hchild⟩ := adopts_attach (t := t.withCalls calls) .standard
        (hfits.ready f rfl) hb placeholder
      rw [hd]
      exact ⟨p, b, _, _, howner, hb, hparent, hchild, rfl, Block.lookups_adopt hn placeholder _ b⟩

end Template

namespace Session

def unseenBlocks : List (List Operation × Text × Text) :=
  [([.compile "\x7bv:h\x7d".toList, .addBlock ['v'] ['b'] "{w}".toList], ['b'], []),
    ([.compile "func_h('<!-- BEGIN b -->\x7bw\x7d<!-- END b -->')".toList], ['b'], []),
    ([.compile "[\x7bv\x7d]".toList, .addBlock ['v'] "a b".toList "{w}".toList], "a b".toList,
      "[\x7b__a b__\x7d]".toList)]

/-- The root takes the output of its child, which stands nowhere in its text. -/
theorem child_output_lost : ∀ x ∈ unseenBlocks,
    let t := ((start .empty).run .standard
      (x.1 ++ [.setLocals (some ['w']) (.text ['x']), .render x.2.1])).template
    let u := (t.output .standard rootName []).2.1
    t.blockList rootName = .ok [x.2.1] ∧
      (∀ b ∈ t.tree.get? rootId, childName x.2.1 ∉ Dialect.standard.lookups b.content) ∧
      (t.output .standard x.2.1 []).1 = .ok ['x'] ∧
      (t.output .standard rootName []).1 = .ok x.2.2 ∧
      (u.output .standard x.2.1 []).1 = .ok [] := by decide +kernel

end Session

end BlockTemplate
