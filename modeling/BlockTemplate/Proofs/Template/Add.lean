import BlockTemplate.Proofs.Document.Fill
import BlockTemplate.Proofs.Template.Replace

/-!
# Adding a block

After a document is added as a block in place of a placeholder, a template reads as before but for the
section that held the placeholder, and as the document. So its tree is the one that the edited document
compiles to, up to numbers and to the place of the new block among its siblings.
-/

namespace BlockTemplate

open Lookup (IsTree Distinct)

structure Section.Alone (p : Text) (S : List Section) (s : Section) (others : List Section) :
    Prop where
  mem : ∀ r, r ∈ S ↔ r = s ∨ r ∈ others
  names : ∀ r ∈ others, r.name ≠ s.name
  here : p ∈ s.vars
  apart : ∀ r ∈ others, p ∉ r.vars

namespace Tree

variable {t : Tree} {S S' others : List Section} {s : Section} {p top : Text} {id : BlockId}
  {b : Block} {f : Fragment} {u : CallTable}

theorem owner_eq (ht : IsTree t.get? rootId) (hb : t.get? id = some b) (hp : p ∈ b.vars)
    (hu : ∀ x c, t.get? x = some c → p ∈ c.vars → x = id) : t.owner p = .ok id := by
  obtain ⟨r, hr, -⟩ := ht.top
  have hnodup : (t.owners p).Nodup :=
    (nodup_preorder ht hr).sublist (List.filter_sublist.map _)
  have hmem : ∀ x, x ∈ t.owners p ↔ x ∈ [id] := by
    intro x
    rw [List.mem_singleton]
    constructor
    · intro hx
      obtain ⟨c, hc, hpc⟩ := of_mem_owners ht hx
      exact hu x c hc hpc
    · rintro rfl
      refine List.mem_map.mpr ⟨(x, b), List.mem_filter.mpr ⟨?_, by simpa using hp⟩, rfl⟩
      exact (mem_preorder_iff ht hr).mpr ⟨ht.reached x b hb, hb⟩
  have howners : t.owners p = [id] :=
    List.perm_singleton.mp ((List.perm_ext_iff_of_nodup hnodup (List.nodup_singleton id)).mpr hmem)
  rw [owner, howners]

theorem Reads.owner (h : t.Reads S) (ht : t.Sound) (ha : Section.Alone p S s others) :
    ∃ id b, t.owner p = .ok id ∧ t.get? id = some b ∧ s.name = b.name := by
  obtain ⟨id, b, hb, hacc, -⟩ := h.blocks.shown s ((ha.mem s).mpr (.inl rfl))
  refine ⟨id, b, owner_eq ht.tree hb (hacc.vars ▸ ha.here) ?_, hb, hacc.name.symm⟩
  intro x c hc hpc
  obtain ⟨r, hr, hrn, c', hc', hacc', -⟩ := h.blocks.shows ht.distinct hc
  rw [hc, Option.some.injEq] at hc'
  subst hc'
  rcases (ha.mem r).mp hr with rfl | hr
  · exact ht.distinct x id c b hc hb (hacc'.name.trans hacc.name.symm)
  · exact absurd (hacc'.vars ▸ hpc) (ha.apart r hr)

theorem Reads.under (h : t.Reads S) (ht : t.Sound) (hl : ∀ r ∈ S, r.Listed)
    (ha : Section.Alone p S s others) (hb : t.get? id = some b) (hbn : s.name = b.name)
    (hs : s.Clear) (hp : CallId.isMemo p = false) (hc : ∀ m, .child m ∈ s.parts → childName m ≠ p)
    (hg : Fragment.Gives t top S' f u) :
    ((({ t with calls := u } : Tree).graftUnder id f).2.modify id
      (Block.adopt .standard p top (({ t with calls := u } : Tree).graftUnder id f).1)).Reads
      (s.adopt p top :: others ++ S') where
  blocks := by
    have hcalls : ((({ t with calls := u } : Tree).graftUnder id f).2.modify id
        (Block.adopt .standard p top (({ t with calls := u } : Tree).graftUnder id f).1)).calls = u :=
      calls_graftAt _ _ _ _
    rw [hcalls]
    exact reads_graftUnder (t := { t with calls := u }) ht.distinct
      (h.grow hl hg.grown hg.distinct) ha.mem ha.names hb hbn hs hp hc hg.ready.tree
      hg.ready.top_name hg.reads
  calls := by
    intro c
    have hcalls : ((({ t with calls := u } : Tree).graftUnder id f).2.modify id
        (Block.adopt .standard p top (({ t with calls := u } : Tree).graftUnder id f).1)).calls = u :=
      calls_graftAt _ _ _ _
    have hold : (∃ r ∈ S, c ∈ r.calls) ↔ c ∈ s.calls ∨ ∃ r ∈ others, c ∈ r.calls := by
      simp only [ha.mem, or_and_right, exists_or, exists_eq_left]
    rw [hcalls, hg.knows, h.calls, hold]
    simp only [List.cons_append, List.mem_cons, List.mem_append, or_and_right, exists_or,
      exists_eq_left, or_assoc]
    rfl

end Tree

namespace Template

variable {e : Engine} {t : Template} {S others : List Section} {s : Section} {d : Document}
  {p block : Text}

theorem topName_eq {f : Fragment} {top : Text} {calls : CallTable} (h : f.Ready top calls) :
    topName f = top := by
  obtain ⟨b, hb, rfl⟩ := h.top_name
  rw [topName, List.head?_eq_getElem?, show f[0]? = some b from hb]
  rfl

theorem reads_addBlock (he : e.dialect = .standard) (ht : t.tree.Sound) (hr : t.tree.Reads S)
    (hl : ∀ r ∈ S, r.Listed) (ha : Section.Alone p S s others) (hs : s.Clear)
    (hp : CallId.isMemo p = false) (hc : ∀ m, .child m ∈ s.parts → childName m ≠ p) (hd : d.Plain)
    (hn : (block :: d.names).Nodup) (hfree : ∀ n ∈ block :: d.names, t.tree.contains n = false) :
    (t.addBlock e p block d.print).1 = .ok () ∧
      (t.addBlock e p block d.print).2.tree.Reads
        (s.adopt p block :: others ++ d.sections block) := by
  obtain ⟨id, b, howner, hb, hbn⟩ := hr.owner ht ha
  have hnone : ∀ n ∈ block :: d.names, t.tree.contains n = true →
      n ∈ Fragment.leavingNames t.tree none := by
    intro n hmem hcon
    rw [hfree n hmem] at hcon
    cases hcon
  obtain ⟨f, u, hcompile, hgives, -⟩ := Fragment.compile_document hd.page
    (Document.stripComments_print hd) hn hnone ht.calls
  have hadd : t.addBlock e p block d.print =
      (.ok (), ((t.withCalls u).attach e.dialect f (.under id p)).2) := by
    rw [← he] at hcompile
    have hplace : t.placeFor p block = .ok id := by
      rw [placeFor, hfree block List.mem_cons_self]
      exact howner
    rw [addBlock, hplace]
    simp only [attachSource, Target.replaced, hcompile]
  rw [hadd, he]
  refine ⟨rfl, ?_⟩
  change ((({ t.tree with calls := u } : Tree).graftUnder id f).2.modify id
      (Block.adopt .standard p (topName f) _)).Reads _
  rw [topName_eq hgives.ready]
  exact hr.under ht hl ha hb hbn hs hp hc hgives

theorem foldl_addNew_filter {α : Type} [DecidableEq α] {P : α → Bool} (acc xs : List α) :
    (xs.filter P).foldl addNew (acc.filter P) = (xs.foldl addNew acc).filter P := by
  induction xs generalizing acc with
  | nil => rfl
  | cons x xs ih =>
    have hstep : (addNew acc x).filter P = if P x then addNew (acc.filter P) x else acc.filter P := by
      by_cases hp : P x <;> by_cases hx : x ∈ acc <;> simp [addNew, hp, hx]
    rw [List.foldl_cons, ← ih, hstep, List.filter_cons]
    split <;> rfl

theorem own_fill_block {body : Document} {name : Text} (hbare : body.Bare p)
    (hone : body.parts.count (.var p) = 1) (hfresh : block ∉ body.childNames) :
    (body.own name).adopt p block = ((body.fill p (.block block d .nil)).own name).lastly block := by
  obtain ⟨l, r, hsplit, hfilled⟩ := body.exists_split hone
  have hparts : (body.fill p (.block block d .nil)).parts =
      body.parts.map fun q => if q = .var p then .child block else q := by
    rw [Document.parts_fill, List.map_eq_flatMap]
    refine List.flatMap_congr ?_
    intro q _
    rw [Document.fillPart]
    split <;> rfl
  have hvars : (body.fill p (.block block d .nil)).variableNames.foldl addNew [] =
      (body.variableNames.foldl addNew []).filter (· ≠ p) := by
    have hnames : body.variableNames.flatMap (Document.fillName p (.block block d .nil)) =
        body.variableNames.filter (· ≠ p) := by
      generalize body.variableNames = xs
      induction xs with
      | nil => rfl
      | cons x xs ih =>
        rw [List.flatMap_cons, ih, Document.fillName, List.filter_cons]
        by_cases hx : x = p
        · simp [hx, Document.variableNames]
        · simp [hx]
    rw [body.variableNames_fill hbare, hnames]
    exact foldl_addNew_filter [] body.variableNames
  have hcalls : (body.fill p (.block block d .nil)).calls = body.calls := by
    obtain ⟨hf, hi⟩ := body.calls_fill (p := p) (e := .block block d .nil) rfl rfl
    rw [Document.calls, hf, hi, Document.calls]
  have hold : body.childNames = l.filterMap Document.childOf? ++ r.filterMap Document.childOf? := by
    rw [Document.childNames_eq, hsplit, List.filterMap_append]
    rfl
  have hnew : (body.fill p (.block block d .nil)).childNames =
      l.filterMap Document.childOf? ++ block :: r.filterMap Document.childOf? := by
    rw [Document.childNames_eq, hfilled, List.filterMap_append, List.filterMap_append]
    rfl
  have hl : block ∉ l.filterMap Document.childOf? := fun hm =>
    hfresh (hold ▸ List.mem_append_left _ hm)
  have hkids : moveLast block (body.fill p (.block block d .nil)).childNames =
      body.childNames ++ [block] := by
    rw [hnew, moveLast_append hl, hold, List.append_assoc]
  simp only [Section.adopt, Section.lastly, Document.own, hparts, hvars, hcalls, hkids]

theorem alone_of_place {top name : Text} {body : Document} {filled : Document → List Section}
    (h : Document.Place p (d.sections top) filled name body others) (hn : (top :: d.names).Nodup) :
    Section.Alone p (d.sections top) (body.own name) others where
  mem := fun _ => h.here.mem_iff.trans List.mem_cons
  names := by
    have hnodup : ((d.sections top).map (·.name)).Nodup := by rwa [d.map_name_sections]
    have hnodup' := (h.here.map (·.name)).nodup_iff.mp hnodup
    rw [List.map_cons] at hnodup'
    intro r hr hrn
    have hmem : (body.own name).name ∈ others.map (·.name) := hrn ▸ List.mem_map_of_mem hr
    exact (List.nodup_cons.mp hnodup').1 hmem
  here := by
    refine body.mem_vars_own.mpr (body.mem_variableNames_of_parts (List.count_pos_iff.mp ?_))
    rw [h.once]
    exact Nat.one_pos
  apart := h.apart

theorem contains_eq_false {t : Tree} {n : Text} (h : t.Reads (d.sections rootName))
    (hn : n ∉ rootName :: d.names) : t.contains n = false :=
  Bool.eq_false_iff.mpr fun hc => hn (mem_names_of_contains h hc)

theorem mem_sections_added {d' : Document} {top name r} {body : Document}
    (h : Document.Place p (d.sections top) (fun e => (d.fill p e).sections top) name body others) :
    r ∈ (d.fill p (.block block d' .nil)).sections top ↔
      r = (body.fill p (.block block d' .nil)).own name ∨ r ∈ others ++ d'.sections block := by
  have hinner : ((Document.block block d' .nil).inner).Perm (d'.sections block) :=
    List.perm_append_singleton (d'.own block) d'.inner
  exact ((h.filled _).trans ((hinner.append_left others).cons _)).mem_iff.trans List.mem_cons

theorem added_lastly {d' : Document} {top name : Text} {body : Document}
    (h : Document.Place p (d.sections top) (fun e => (d.fill p e).sections top) name body others)
    (hfresh : ∀ r ∈ d.sections top, block ∉ r.children) (hin : block ∉ d'.names) :
    (∀ s ∈ (body.own name).adopt p block :: others ++ d'.sections block,
      ∃ s' ∈ (d.fill p (.block block d' .nil)).sections top, s = s'.lastly block) ∧
    ∀ s' ∈ (d.fill p (.block block d' .nil)).sections top,
      ∃ s ∈ (body.own name).adopt p block :: others ++ d'.sections block, s = s'.lastly block := by
  have hheld : (body.own name).adopt p block =
      ((body.fill p (.block block d' .nil)).own name).lastly block :=
    own_fill_block h.bare h.once (hfresh _ (h.here.mem_iff.mpr List.mem_cons_self))
  have hrest : ∀ r ∈ others ++ d'.sections block, r = r.lastly block := by
    intro r hr
    refine (Section.lastly_of_not_mem ?_).symm
    rcases List.mem_append.mp hr with hr | hr
    · exact hfresh r (h.here.mem_iff.mpr (List.mem_cons_of_mem _ hr))
    · exact fun hm => hin (d'.children_subset block r hr block hm)
  constructor
  · intro s hs
    rcases List.mem_cons.mp hs with rfl | hs
    · exact ⟨_, (mem_sections_added h).mpr (.inl rfl), hheld⟩
    · exact ⟨s, (mem_sections_added h).mpr (.inr hs), hrest s hs⟩
  · intro s' hs'
    rcases (mem_sections_added h).mp hs' with rfl | hs'
    · exact ⟨_, List.mem_cons_self, hheld⟩
    · exact ⟨s', List.mem_cons_of_mem _ hs', hrest s' hs'⟩

theorem nodup_names_added {d' : Document} (hn : (rootName :: d.names).Nodup) (hp : d.UsedOnce p)
    (hn' : (block :: d'.names).Nodup) (hnew : ∀ n ∈ block :: d'.names, n ∉ rootName :: d.names) :
    (rootName :: (d.fill p (.block block d' .nil)).names).Nodup := by
  have hadded : (d'.names ++ [block]).Perm (block :: d'.names) :=
    List.perm_append_singleton block d'.names
  have hnames : (rootName :: (d.fill p (.block block d' .nil)).names).Perm
      (rootName :: d.names ++ (d'.names ++ [block])) := (d.names_fill hp).cons _
  refine hnames.nodup_iff.mpr (List.nodup_append.mpr ⟨hn, hadded.nodup_iff.mpr hn', ?_⟩)
  intro x hx y hy hxy
  exact hnew y (hadded.mem_iff.mp hy) (hxy ▸ hx)

theorem paired_added {d' : Document} {name : Text} {body : Document} {t u : Tree}
    (h : Document.Place p (d.sections rootName) (fun e => (d.fill p e).sections rootName) name body
      others) (hfresh : ∀ r ∈ d.sections rootName, block ∉ r.children) (hin : block ∉ d'.names)
    (hedit : (d.fill p (.block block d' .nil)).Plain)
    (hnumber : (d.fill p (.block block d' .nil)).Unnumbered) (ht : t.Sound) (hu : u.Sound)
    (hreads : t.Reads ((body.own name).adopt p block :: others ++ d'.sections block))
    (hedited : u.Reads ((d.fill p (.block block d' .nil)).sections rootName)) :
    Tree.Paired (fun s s' => s = s'.lastly block) t u
      ((body.own name).adopt p block :: others ++ d'.sections block)
      ((d.fill p (.block block d' .nil)).sections rootName) := by
  obtain ⟨hforth, hback⟩ := added_lastly h hfresh hin
  refine ⟨ht, hu, hreads, hedited, hforth, hback, ?_, ?_⟩
  · rintro s s' rfl
    exact s'.reorders_lastly block
  · intro s hs
    obtain ⟨s', hs', rfl⟩ := hforth s hs
    have hclear := Document.clear_sections _ hedit.page hnumber rootName s' hs'
    exact ⟨hclear.parts, hclear.listed⟩

theorem alike_addBlock (he : e.dialect = .standard) {d' : Document} (hd : d.Plain)
    (hn : (rootName :: d.names).Nodup) (hp : d.UsedOnce p) (hn' : (block :: d'.names).Nodup)
    (hnew : ∀ n ∈ block :: d'.names, n ∉ rootName :: d.names)
    (hedit : (d.fill p (.block block d' .nil)).Plain)
    (hnumber : (d.fill p (.block block d' .nil)).Unnumbered) :
    ∃ t u, compile e d.print = .ok t ∧
      compile e (d.fill p (.block block d' .nil)).print = .ok u ∧
      (t.addBlock e p block d'.print).1 = .ok () ∧
      (t.addBlock e p block d'.print).2.tree.AlikeButLast block u.tree := by
  obtain ⟨t, ht, -⟩ := represents_compile he hd hn
  obtain ⟨u, hu, -⟩ := represents_compile he hedit (nodup_names_added hn hp hn' hnew)
  obtain ⟨name, body, others, hplace⟩ := d.exists_place hp rootName
  have hreads := reads_compile he hd ht
  have halone := alone_of_place hplace hn
  have hbody := (halone.mem _).mpr (.inl rfl)
  have hnumber' : d.Unnumbered := fun n hmem =>
    hnumber n ((d.names_fill hp).mem_iff.mpr (List.mem_append_left _ hmem))
  have hfree := d.free_sections hd.page rootName (body.own name) hbody p halone.here
  have hplain : d'.Plain := by
    refine hedit.of_mem_bodies _ (d.mem_bodies_fill ?_ (block, d') ?_)
    · exact List.count_pos_iff.mp (hp.once ▸ Nat.one_pos)
    · exact List.mem_append_right _ List.mem_cons_self
  obtain ⟨hok, hafter⟩ := reads_addBlock he (sound_compile ht).tree hreads
    (d.listed_sections rootName) halone (d.clear_sections hd.page hnumber' rootName _ hbody) hfree.1
    (fun m hm => hfree.2 m (body.mem_childNames_of_parts hm)) hplain hn'
    fun n hmem => contains_eq_false hreads (hnew n hmem)
  refine ⟨t, u, ht, hu, hok, ?_⟩
  have hfresh : ∀ r ∈ d.sections rootName, block ∉ r.children := fun r hr hm =>
    hnew block List.mem_cons_self (List.mem_cons_of_mem _ (d.children_subset rootName r hr block hm))
  have hedited := reads_compile he hedit hu
  have hus := (sound_compile hu).tree
  have hpaired := paired_added hplace hfresh (List.nodup_cons.mp hn').1 hedit hnumber
    (sound_addBlock (sound_compile ht) p block d'.print).tree hus hafter hedited
  obtain ⟨x, c, hx, hacc, -⟩ := hedited.blocks.shown (d'.own block)
    ((mem_sections_added hplace).mpr (.inr (List.mem_append_right _ List.mem_cons_self)))
  exact hpaired.alikeButLast ((Tree.find?_eq_some_iff hus.distinct).mpr ⟨c, hx, hacc.name⟩)

/--
Edits agree with compiling the edited document: putting a document over a block, the root included,
and adding it as a new block in place of a placeholder that is used once.
-/
theorem edits_recompile (he : e.dialect = .standard) {d d' : Document} (hd : d.Plain)
    (hn : d.names.Nodup) (hroot : rootName ∉ d.names) (hn' : d'.names.Nodup)
    (hroot' : rootName ∉ d'.names) :
    ∃ t, compile e d.print = .ok t ∧
      (∀ b, b = rootName ∨ b ∈ d.names → b ∉ d'.names →
        (∀ n ∈ d'.names, n ∉ (d.replace b .nil).names) → (d.replace b d').Plain →
        (d.replace b d').Unnumbered →
        ∃ u, compile e (d.replace b d').print = .ok u ∧ ∀ keepOutput,
          (t.replaceBlock e b d'.print keepOutput).1 = .ok () ∧
            (t.replaceBlock e b d'.print keepOutput).2.tree.Alike u.tree) ∧
      ∀ p b, d.UsedOnce p → b ≠ rootName → b ∉ d.names → b ∉ d'.names →
        (∀ n ∈ d'.names, n ∉ d.names) → (d.fill p (.block b d' .nil)).Plain →
        (d.fill p (.block b d' .nil)).Unnumbered →
        ∃ u, compile e (d.fill p (.block b d' .nil)).print = .ok u ∧
          (t.addBlock e p b d'.print).1 = .ok () ∧
          (t.addBlock e p b d'.print).2.tree.AlikeButLast b u.tree ∧
          (u.tree.StandsLast b → (t.addBlock e p b d'.print).2.tree.Alike u.tree) := by
  obtain ⟨t, ht, -⟩ := represents_compile he hd (List.nodup_cons.mpr ⟨hroot, hn⟩)
  have hsame : ∀ t', compile e d.print = .ok t' → t' = t := fun t' ht' =>
    Except.ok.inj (ht'.symm.trans ht)
  refine ⟨t, ht, ?_, ?_⟩
  · intro b hb hblock hout hedit hnumber
    obtain ⟨t', u, ht', hu, halike⟩ :=
      alike_replaceBlock he hd hn hroot hb hn' hroot' hblock hout hedit hnumber
    exact ⟨u, hu, hsame t' ht' ▸ halike⟩
  · intro p b hp hbroot hb hblock hout hedit hnumber
    have hnew : ∀ n ∈ b :: d'.names, n ∉ rootName :: d.names := by
      refine List.forall_mem_cons.mpr ⟨fun h => (List.mem_cons.mp h).elim hbroot hb, ?_⟩
      exact fun n hmem h =>
        (List.mem_cons.mp h).elim (fun he => hroot' (he ▸ hmem)) (hout n hmem)
    obtain ⟨t', u, ht', hu, hok, halike⟩ := alike_addBlock he hd (List.nodup_cons.mpr ⟨hroot, hn⟩) hp
      (List.nodup_cons.mpr ⟨hblock, hn'⟩) hnew hedit hnumber
    have htree := (sound_compile hu).tree.tree
    exact ⟨u, hu, hsame t' ht' ▸ ⟨hok, halike, fun h => halike.alike h htree.children_nodup⟩⟩

def cells : Document :=
  .text "Cells".toList <| .block "cell".toList (.call "u".toList ["\x7bname\x7d".toList] .nil) .nil

theorem edits_recompile_rows : ∃ t, compile .standard rows.print = .ok t ∧
    (∃ u, compile .standard (rows.replace "row".toList cells).print = .ok u ∧ ∀ keepOutput,
      (t.replaceBlock .standard "row".toList cells.print keepOutput).1 = .ok () ∧
        (t.replaceBlock .standard "row".toList cells.print keepOutput).2.tree.Alike u.tree) ∧
    ∃ u, compile .standard
        (rows.fill "end".toList (.block "part".toList cells .nil)).print = .ok u ∧
      (t.addBlock .standard "end".toList "part".toList cells.print).1 = .ok () ∧
      (t.addBlock .standard "end".toList "part".toList cells.print).2.tree.AlikeButLast
        "part".toList u.tree ∧
      (u.tree.StandsLast "part".toList →
        (t.addBlock .standard "end".toList "part".toList cells.print).2.tree.Alike u.tree) := by
  have hrows : rows.Plain := ⟨⟨by decide, by decide, by decide⟩, by decide⟩
  have hcells : cells.names.Nodup ∧ rootName ∉ cells.names := ⟨by decide, by decide⟩
  obtain ⟨t, ht, hreplace, hadd⟩ :=
    edits_recompile (e := .standard) rfl hrows (by decide) (by decide) hcells.1 hcells.2
  have hedit : (rows.replace "row".toList cells).Plain :=
    ⟨⟨by decide, by decide, by decide⟩, by decide⟩
  have hfill : (rows.fill "end".toList (.block "part".toList cells .nil)).Plain :=
    ⟨⟨by decide, by decide, by decide⟩, by decide⟩
  have honce : rows.UsedOnce "end".toList := ⟨by decide, by simp [rows, Document.Bare]; decide⟩
  exact ⟨t, ht, hreplace "row".toList (.inr (by decide)) (by decide) (by decide) hedit
    (show ∀ n ∈ (rows.replace "row".toList cells).names, _ by decide),
    hadd "end".toList "part".toList honce (by decide) (by decide) (by decide) (by decide) hfill
      (show ∀ n ∈ (rows.fill "end".toList (.block "part".toList cells .nil)).names, _ by decide)⟩

end Template

end BlockTemplate
