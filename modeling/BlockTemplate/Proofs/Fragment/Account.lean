import BlockTemplate.Proofs.Fragment.Taking
import BlockTemplate.Proofs.Template.Names

/-!
# Accounts of blocks

A block lists its variables when its text still has filters and calls in it, and rendering looks up
names in the content that is left. Both find the same.
-/

namespace BlockTemplate

theorem CallId.exists_of_isMemo {x : Text} (h : isMemo x = true) :
    ∃ digits, digits ≠ [] ∧ (∀ c ∈ digits, c.isDigit = true) ∧
      x = "__function_".toList ++ (digits ++ "__".toList) := by
  rw [isMemo] at h
  split at h
  · cases h
  · rename_i t ht
    simp only [Bool.and_eq_true, decide_eq_true_eq, beq_iff_eq] at h
    refine ⟨t.takeWhile Char.isDigit, h.1, fun c hc => List.mem_takeWhile_imp hc, ?_⟩
    rw [Text.expect_eq_some.mp ht, ← h.2, List.takeWhile_append_dropWhile]

/--
What rendering finds in the content of a block is what the block lists: each name that is looked up is
a variable of the block, or stands for one of its children or for the result of a call, no filter is
left, and each variable stands in the content or is passed to a call of the block.
-/
structure Block.Accounted (children : List Text) (table : CallTable) (b : Block) : Prop where
  found : ∀ x ∈ Dialect.standard.lookups b.content,
    x ∈ b.vars ∨ (∃ child ∈ children, x = childName child) ∨
      ∃ digits, digits ≠ [] ∧ (∀ c ∈ digits, c.isDigit = true) ∧
        x = "__function_".toList ++ (digits ++ "__".toList)
  unfiltered : ∀ name f, Page.isVariableName name = true → Text.isFunctionName f = true →
    ¬ Markup.filter name f <:+: b.content
  placed : ∀ v ∈ b.vars, Markup.token v <:+: b.content ∨
    ∃ id ∈ b.calls, ∃ c, table.get? id = some c ∧ ∃ a ∈ c.args, Markup.token v <:+: a

theorem Block.Accounted.extends {children : List Text} {table table' : CallTable} {b : Block}
    (h : b.Accounted children table) (he : table.Extends table') : b.Accounted children table' where
  found := h.found
  unfiltered := h.unfiltered
  placed := fun v hv => (h.placed v hv).imp_right fun ⟨id, hid, c, hc, ha⟩ =>
    ⟨id, hid, c, he id c hc, ha⟩

namespace Listing

variable {children : List Text} {table table' : CallTable} {b b' : Block}

theorem scan_eq_ok (h : scan .standard children table b = (.ok b', table')) :
    ∃ text l', takeCalls .standard (callPieces (unfilter children b.content { table := table }).1)
        (unfilter children b.content { table := table }).2 = (.ok text, l') ∧
      b' = { b with content := text, vars := l'.vars, calls := l'.calls } ∧ table' = l'.table := by
  rw [scan] at h
  dsimp only at h
  generalize hr : takeCalls Dialect.standard _ _ = scanned at h
  obtain ⟨r, l'⟩ := scanned
  cases r with
  | error e => cases h
  | ok text =>
    cases h
    exact ⟨text, l', hr, rfl, rfl⟩

theorem accounted_scan (h : scan .standard children table b = (.ok b', table')) :
    b'.Accounted children table' := by
  obtain ⟨text, l', hcalls, rfl, rfl⟩ := scan_eq_ok h
  have hjoin := Text.flatMap_raw_pieces Dialect.standard.callMark_ne Call.leaves_read
    (unfilter children b.content { table := table }).1
  -- What stands in the text that is left stood there before calls were taken, unless it is a result.
  have hstood : ∀ {p : Placeholder}, p.Proper → p.print <:+: text →
      p.print <:+: (unfilter children b.content { table := table }).1 ∨
        ∃ id : CallId, p = ⟨id.memo, none⟩ := by
    intro p hp hin
    have hraw := infix_takeCalls hcalls hp hin
    rwa [hjoin] at hraw
  have hvars := vars_takeCalls (d := .standard)
    (callPieces (unfilter children b.content { table := table }).1)
    (unfilter children b.content { table := table }).2
  rw [hcalls] at hvars
  refine ⟨?_, ?_, ?_⟩
  · intro x hx
    obtain ⟨hname, hin⟩ := Dialect.token_of_lookup hx
    have hp := Placeholder.proper_token hname
    dsimp only at hvars ⊢
    rw [hvars]
    rcases hstood hp hin with hin | ⟨id, he⟩
    · rcases (listed_unfilter hp hin).2 with hv | hr
      · exact .inl hv
      · rw [reserved, Bool.or_eq_true, List.any_eq_true] at hr
        rcases hr with ⟨child, hc, he⟩ | hm
        · exact .inr (.inl ⟨child, hc, (beq_iff_eq.mp he).symm⟩)
        · exact .inr (.inr (CallId.exists_of_isMemo hm))
    · cases he
      exact .inr (.inr (CallId.exists_of_isMemo (CallId.isMemo_memo id)))
  · intro name f hname hf hin
    have hp : Placeholder.Proper ⟨name, some f⟩ := by
      refine ⟨hname, ?_⟩
      intro g hg
      cases hg
      exact hf
    rcases hstood hp hin with hin | ⟨id, he⟩
    · cases (listed_unfilter hp hin).1
    · cases he
  · intro v hv
    dsimp only at hvars hv ⊢
    rw [hvars] at hv
    rcases placed_unfilter hv with hv | ⟨hname, hin | hpasses⟩
    · cases hv
    · exact token_takeCalls hname hcalls hin
    · have hgrown := grows_takeCalls
        (callPieces (unfilter children b.content { table := table }).1)
        (unfilter children b.content { table := table }).2
      rw [hcalls] at hgrown
      exact .inr (hgrown.passes hpasses)

end Listing

namespace Fragment

theorem accounted_scanAll {whole f : Fragment} {bs : List Block} {table table' : CallTable}
    (h : scanAll .standard whole bs table = (.ok f, table')) :
    List.Forall₂ (fun b b' => b'.Accounted (whole.childNames b) table') bs f := by
  induction bs generalizing table f with
  | nil =>
    cases h
    exact .nil
  | cons b bs ih =>
    rw [scanAll] at h
    split at h
    · cases h
    · rename_i b' mid hs
      have hgrown := (scanAll_spec .standard whole bs mid).1
      cases hr : scanAll .standard whole bs mid with
      | mk r last =>
        rw [hr] at h hgrown
        cases r with
        | error fault => cases h
        | ok g =>
          cases h
          exact .cons ((Listing.accounted_scan hs).extends hgrown) (ih hr)

theorem accounted_compile {t : Tree} {top source : Text} {replaced : Option BlockId} {f : Fragment}
    {calls : CallTable} (h : compile .standard t top source replaced = (.ok f, calls)) :
    ∀ b ∈ f, b.Accounted (f.childNames b) calls := by
  rw [compile] at h
  split at h
  · cases h
  · rename_i whole _
    split at h
    · cases h
    · obtain ⟨-, -, hscanned⟩ := scanAll_spec .standard whole whole t.calls
      have hforall := hscanned f (congrArg Prod.fst h)
      have haccounted := accounted_scanAll h
      intro b hb
      obtain ⟨i, hi, rfl⟩ := List.getElem_of_mem hb
      have hi₀ : i < whole.length := hforall.length_eq ▸ hi
      have hchildren : f[i].children = whole[i].children := (hforall.get hi₀ hi).children
      rw [childNames_of_forall₂ hforall hchildren]
      exact haccounted.get hi₀ hi

end Fragment

namespace Template

variable {e : Engine}

theorem of_get?_compile {source : Text} {t : Template} (h : compile e source = .ok t) {id : BlockId}
    {b : Block} (hb : t.tree.get? id = some b) :
    ∃ f b₀, Fragment.compile e.dialect .empty rootName source (some rootId) = (.ok f, t.tree.calls) ∧
      b₀ ∈ f ∧ b.content = b₀.content ∧ b.vars = b₀.vars ∧ b.calls = b₀.calls ∧
      b.children.filterMap t.nameOf = f.childNames b₀ := by
  cases hf : Fragment.compile e.dialect .empty rootName source (some rootId) with
  | mk r calls =>
    cases r with
    | error fault =>
      rw [compile, setTemplate, hf] at h
      cases h
    | ok f =>
      have hready := (Fragment.fits_compile e.dialect .empty rootName source (some rootId)).ready
      rw [hf] at hready
      have hroot : ({ Tree.empty with calls := calls } : Tree).get? rootId =
          some { name := rootName, content := [] } := rfl
      have hplant := Tree.plant_graftOver (hready f rfl).tree hroot rfl
      rw [compile_of_fragment hf] at h
      cases h
      rcases hplant.cases hb with ⟨i, b₀, hi, rfl, rfl⟩ | ⟨hx, hno⟩
      · refine ⟨f, b₀, ?_, List.mem_of_getElem? hi, rfl, rfl, rfl, ?_⟩
        · rw [Tree.graftOver, Tree.calls_graftAt]
        · rw [Tree.relocate, List.filterMap_map, Fragment.childNames]
          refine List.filterMap_congr fun j hj => ?_
          obtain ⟨c, hc, -⟩ := (hready f rfl).tree.child_live hi hj
          have hplaced := hplant.placed j c hc
          simp only [Function.comp_apply, nameOf]
          rw [hplaced, show f[j]? = some c from hc]
          rfl
      · -- The empty tree has a root only, and the fragment has taken its place.
        obtain ⟨top, htop, -⟩ := (hready f rfl).tree.top
        cases id with
        | zero => exact absurd rfl (hno 0 top htop)
        | succ n => cases hx

/--
For every source that compiles, what rendering finds in the content of a block is what the block
lists: in the blocks of a template that is made of it, and in those that are put into another tree.
-/
theorem compile_accounts (he : e.dialect = .standard) (source : Text) :
    (∀ t, compile e source = .ok t → ∀ id b, t.tree.get? id = some b →
      b.Accounted (b.children.filterMap t.nameOf) t.tree.calls) ∧
    ∀ u top replaced f calls,
      Fragment.compile e.dialect u top source replaced = (.ok f, calls) →
        ∀ b ∈ f, b.Accounted (f.childNames b) calls := by
  rw [he]
  refine ⟨?_, fun u top replaced f calls h => Fragment.accounted_compile h⟩
  intro t ht id b hb
  obtain ⟨f, b₀, hf, hb₀, hcontent, hvars, hcalls, hnames⟩ := of_get?_compile ht hb
  rw [he] at hf
  have haccount := Fragment.accounted_compile hf b₀ hb₀
  rw [← hnames] at haccount
  refine ⟨?_, ?_, ?_⟩
  · rw [hcontent, hvars]
    exact haccount.found
  · rw [hcontent]
    exact haccount.unfiltered
  · rw [hcontent, hvars, hcalls]
    exact haccount.placed

def letter : Text :=
  ("\x7bname:h\x7d func_h('\\'\x7bcity\x7d', a b) \x7bname\x7d" ++
    "<!-- BEGIN row -->\x7bcell\x7d<!-- END row -->").toList

/-- The variable that was taken along has its place in an argument, the other one in the content. -/
theorem compile_accounts_letter : ∃ t b, compile .standard letter = .ok t ∧
    t.tree.get? rootId = some b ∧ b.vars = ["name".toList, "city".toList] ∧
    b.content = ("\x7b__function_0__\x7d \x7b__function_1__\x7d \x7bname\x7d" ++
      "\x7b__row__\x7d").toList ∧
    b.Accounted (b.children.filterMap t.nameOf) t.tree.calls := by
  have hroot : ((compile .standard letter).map fun t => (t.tree.get? rootId).map fun b =>
      (b.vars, b.content)) = .ok (some (["name".toList, "city".toList],
        ("\x7b__function_0__\x7d \x7b__function_1__\x7d \x7bname\x7d" ++
          "\x7b__row__\x7d").toList)) := by decide +kernel
  cases ht : compile .standard letter with
  | error fault =>
    rw [ht] at hroot
    cases hroot
  | ok t =>
    rw [ht] at hroot
    obtain ⟨b, hb, hvalues⟩ := Option.map_eq_some_iff.mp (Except.ok.inj hroot)
    rw [Prod.mk.injEq] at hvalues
    exact ⟨t, b, rfl, hb, hvalues.1, hvalues.2,
      (compile_accounts (e := .standard) rfl letter).1 t ht rootId b hb⟩

end Template

end BlockTemplate
