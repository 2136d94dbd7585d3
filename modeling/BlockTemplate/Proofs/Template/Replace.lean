import BlockTemplate.Proofs.Section.Clear
import BlockTemplate.Proofs.Template.Session
import BlockTemplate.Proofs.Tree.Alike

/-!
# Replacing a block

After a block is replaced, a template reads as the sections outside the block and those of the
document that took its place. So its tree is the one that the edited document compiles to, up to
numbers.
-/

namespace BlockTemplate

open Lookup (NameUnder)

theorem Lookup.Reads.nameUnder_iff {look : Lookup} {number : Call → CallId} {S : List Section}
    {id : BlockId} {b : Block} {body : Document} (h : look.Reads number S)
    (hd : Lookup.Distinct look) (hb : look id = some b)
    (hS : ∀ s ∈ body.sections b.name, s ∈ S) {n : Text} :
    look.NameUnder id n ↔ n ∈ b.name :: body.names := by
  constructor
  · rintro ⟨x, c, hx, hc, hn⟩
    subst hn
    induction hx generalizing c with
    | refl =>
      rw [hb, Option.some.injEq] at hc
      subst hc
      exact List.mem_cons_self
    | @child p x d _ hp hm ih =>
      have hname := ih d hp
      rw [← body.map_name_sections b.name, List.mem_map] at hname
      obtain ⟨s, hs, hsn⟩ := hname
      obtain ⟨d', hd', -, hchildren⟩ := h.shows_of_mem hd hp (hS s hs) hsn
      rw [hp, Option.some.injEq] at hd'
      subst hd'
      have hmem : look.nameAt x ∈ s.children.map some := hchildren ▸ List.mem_map_of_mem hm
      obtain ⟨m, hm', he⟩ := List.mem_map.mp hmem
      rw [Lookup.nameAt, hc, Option.map_some, Option.some.injEq] at he
      exact List.mem_cons_of_mem _ (he ▸ body.children_subset b.name s hs m hm')
  · -- Whatever lies under the block has its children under it as well.
    have hstep : ∀ s ∈ body.sections b.name, look.NameUnder id s.name →
        ∀ m ∈ s.children, look.NameUnder id m := by
      rintro s hs ⟨x, c, hx, hc, hn⟩ m hm
      obtain ⟨c', hc', -, hchildren⟩ := h.shows_of_mem hd hc (hS s hs) hn.symm
      rw [hc, Option.some.injEq] at hc'
      subst hc'
      have hmem : some m ∈ c.children.map look.nameAt := hchildren ▸ List.mem_map_of_mem hm
      obtain ⟨y, hy, he⟩ := List.mem_map.mp hmem
      obtain ⟨e, hle, hen⟩ := Lookup.nameAt_eq_some.mp he
      exact ⟨y, e, .child hx hc hy, hle, hen⟩
    have htop : look.NameUnder id b.name := ⟨id, b, .refl, hb, rfl⟩
    intro hn
    rcases List.mem_cons.mp hn with rfl | hn
    · exact htop
    · refine body.names_induction ?_ ?_ n hn
      · exact hstep (body.own b.name) List.mem_cons_self htop
      · exact fun s hs => hstep s (List.mem_cons_of_mem _ hs)

namespace Tree

variable {t : Tree} {id : BlockId} {b : Block} {n : Text} {S : List Section} {u : CallTable}

theorem Reads.grow (h : t.Reads S) (hl : ∀ s ∈ S, s.Listed) (hg : t.calls.Extends u)
    (hd : u.Distinct) : Lookup.Reads t.get? u.numberOf S := by
  refine h.blocks.renumber hl ?_
  intro s hs c hc
  exact hg.numberOf hd ((h.calls c).mpr ⟨s, hs, hc⟩)

theorem mem_leavingNames_iff (ht : Lookup.IsTree t.get? rootId) (hb : t.get? id = some b) :
    n ∈ Fragment.leavingNames t (some id) ↔ NameUnder t.get? id n := mem_namesUnder_iff ht hb

end Tree

namespace Template

variable {e : Engine} {t : Template} {S S₀ : List Section} {d : Document} {block : Text}
  {id : BlockId}

theorem reads_compile (he : e.dialect = .standard) (hd : d.Plain) (h : compile e d.print = .ok t) :
    t.tree.Reads (d.sections rootName) := by
  have hn := nodup_of_compile he hd h
  have hfree : ∀ name ∈ rootName :: d.names, Tree.empty.contains name = true →
      name ∈ Fragment.leavingNames .empty (some rootId) := by
    intro name _ hc
    rw [Fragment.leavingNames_empty, Fragment.eq_rootName_of_contains hc]
    exact List.mem_singleton_self _
  obtain ⟨f, u, hcompile, hgives, -⟩ := Fragment.compile_document hd.page
    (Document.stripComments_print hd) hn hfree CallTable.distinct_empty
  rw [← he] at hcompile
  rw [compile_of_fragment hcompile, Except.ok.injEq] at h
  subst h
  have hroot : ({ Tree.empty with calls := u } : Tree).get? rootId =
      some { name := rootName, content := [] } := rfl
  have hplant := Tree.plant_graftOver hgives.ready.tree hroot rfl
  have hcalls : (({ Tree.empty with calls := u } : Tree).graftOver rootId f).calls = u :=
    Tree.calls_graftAt _ _ _ _
  constructor
  · have hreads := hplant.reads (S := []) hgives.ready.tree hgives.ready.top_name
      (fun s hs => absurd hs List.not_mem_nil) ?_ hgives.reads
    · rw [hcalls]
      exact hreads
    · intro x b hx hne
      have hempty : Tree.empty.get? x = some b := hx
      rw [Tree.get?_empty, if_neg hne] at hempty
      cases hempty
  · intro c
    rw [hcalls, hgives.knows]
    refine ⟨fun h => h.resolve_left ?_, .inr⟩
    rintro ⟨i, hi⟩
    exact absurd hi (by simp [CallTable.get?, Tree.empty, CallTable.empty])

theorem reads_replaceBlock (he : e.dialect = .standard) (ht : t.tree.Sound) (hr : t.tree.Reads S)
    (hl : ∀ s ∈ S, s.Listed) (hid : t.tree.lookup block = .ok id) (hd : d.Plain)
    (hn : (block :: d.names).Nodup)
    (hfree : ∀ n ∈ d.names, t.tree.contains n = true → NameUnder t.tree.get? id n)
    (hS : ∀ s, s ∈ S₀ ↔ s ∈ S ∧ ¬ NameUnder t.tree.get? id s.name)
    (hld : ∀ s ∈ d.sections block, s.Listed) (keepOutput : Bool) :
    (t.replaceBlock e block d.print keepOutput).1 = .ok () ∧
      (t.replaceBlock e block d.print keepOutput).2.tree.Reads (S₀ ++ d.sections block) := by
  obtain ⟨b, hb, rfl⟩ := get?_of_lookup hid
  have hleaving : ∀ n ∈ b.name :: d.names, t.tree.contains n = true →
      n ∈ Fragment.leavingNames t.tree (some id) := by
    intro n hmem hc
    rw [Tree.mem_leavingNames_iff ht.tree hb]
    rcases List.mem_cons.mp hmem with rfl | hmem
    · exact ⟨id, b, .refl, hb, rfl⟩
    · exact hfree n hmem hc
  obtain ⟨f, u, hcompile, hgives, hnamed⟩ := Fragment.compile_document hd.page
    (Document.stripComments_print hd) hn hleaving ht.calls
  have hreplace : t.replaceBlock e b.name d.print keepOutput =
      (.ok (), ((t.withCalls u).attach e.dialect f (.over id keepOutput)).2) := by
    rw [← he] at hcompile
    rw [replaceBlock, hid]
    simp only [attachSource, Target.replaced, hcompile]
  rw [hreplace]
  refine ⟨rfl, ?_⟩
  have hcalls := carried_withCalls ht hgives.grown hgives.distinct
  have hsound : (t.withCalls u).tree.Sound := hcalls.sound
  have hgraft := Tree.reads_graftOver hsound (hr.grow hl hgives.grown hgives.distinct) hb
    hgives.ready.tree hgives.ready.top_name hgives.reads hS
  have hnamed' : f.Named (t.withCalls u).tree
      (Fragment.leavingNames (t.withCalls u).tree (some id)) := by
    rw [withCalls, Tree.leavingNames_calls]
    exact ⟨hnamed.nodup, hnamed.leaving⟩
  have hover := (sound_over_tree hsound hb hgives.ready hnamed').1
  have hgcalls : (((t.withCalls u).tree.prune id).graftOver id f).calls = u :=
    Tree.calls_graftAt _ _ _ _
  have hcallsDistinct : (((t.withCalls u).tree.prune id).graftOver id f).calls.Distinct := by
    rw [hgcalls]
    exact hgives.distinct
  change (((t.withCalls u).tree.prune id).graftOver id f).releaseCalls.Reads _
  refine Tree.reads_releaseCalls hover.distinct hcallsDistinct ?_ ?_ ?_
  · rw [hgcalls]
    exact hgraft
  · intro s hs
    rcases List.mem_append.mp hs with hs | hs
    · exact hl s ((hS s).mp hs).1
    · exact hld s hs
  · intro s hs c hc
    rw [hgcalls, hgives.knows]
    rcases List.mem_append.mp hs with hs | hs
    · exact .inl ((hr.calls c).mpr ⟨s, ((hS s).mp hs).1, hc⟩)
    · exact .inr ⟨s, hs, hc⟩

theorem mem_names_of_contains {t : Tree} {n : Text} (h : t.Reads (d.sections rootName))
    (hc : t.contains n = true) : n ∈ rootName :: d.names := by
  obtain ⟨x, hx⟩ := Option.isSome_iff_exists.mp hc
  obtain ⟨c, hlive, rfl⟩ := Tree.get?_of_find? hx
  obtain ⟨s, hs, hsn⟩ := h.blocks.only x c hlive
  rw [← d.map_name_sections, ← hsn]
  exact List.mem_map_of_mem hs

theorem perm_names {body : Document} {top : Text}
    (h : (d.sections top).Perm (S₀ ++ body.sections block)) :
    (top :: d.names).Perm (S₀.map (·.name) ++ block :: body.names) := by
  rw [← d.map_name_sections, ← body.map_name_sections, ← List.map_append]
  exact h.map _

theorem lookup_of_perm {t : Tree} {body : Document} (ht : t.Sound)
    (h : t.Reads (d.sections rootName))
    (hperm : (d.sections rootName).Perm (S₀ ++ body.sections block)) :
    ∃ id, t.lookup block = .ok id ∧
      ∀ n, NameUnder t.get? id n ↔ n ∈ block :: body.names := by
  obtain ⟨id, b, hid, hacc, -⟩ := h.blocks.shown (body.own block)
    (hperm.mem_iff.mpr (List.mem_append_right _ List.mem_cons_self))
  have hbn : b.name = block := hacc.name
  refine ⟨id, Tree.lookup_eq_ok_iff.mpr ((Tree.find?_eq_some_iff ht.distinct).mpr ⟨b, hid, hbn⟩), ?_⟩
  intro n
  rw [← hbn]
  refine h.blocks.nameUnder_iff ht.distinct hid ?_
  intro s hs
  rw [hbn] at hs
  exact hperm.mem_iff.mpr (List.mem_append_right _ hs)

theorem mem_outside_iff {body : Document} {s : Section}
    (hperm : (d.sections rootName).Perm (S₀ ++ body.sections block))
    (hn : (rootName :: d.names).Nodup) :
    s ∈ S₀ ↔ s ∈ d.sections rootName ∧ s.name ∉ block :: body.names := by
  have hapart := (List.nodup_append.mp ((perm_names hperm).nodup_iff.mp hn)).2.2
  rw [hperm.mem_iff, List.mem_append]
  constructor
  · exact fun hs => ⟨.inl hs, fun hm => hapart s.name (List.mem_map_of_mem hs) s.name hm rfl⟩
  · rintro ⟨hs, hnot⟩
    refine hs.resolve_right fun hm => hnot ?_
    rw [← body.map_name_sections block]
    exact List.mem_map_of_mem hm

theorem alike_replaceBlock (he : e.dialect = .standard) {d' : Document} (hd : d.Plain)
    (hn : d.names.Nodup) (hroot : rootName ∉ d.names) (hb : block = rootName ∨ block ∈ d.names)
    (hn' : d'.names.Nodup) (hroot' : rootName ∉ d'.names) (hblock : block ∉ d'.names)
    (hout : ∀ n ∈ d'.names, n ∉ (d.replace block .nil).names)
    (hedit : (d.replace block d').Plain) (hnumber : (d.replace block d').Unnumbered) :
    ∃ t u, compile e d.print = .ok t ∧ compile e (d.replace block d').print = .ok u ∧
      ∀ keepOutput, (t.replaceBlock e block d'.print keepOutput).1 = .ok () ∧
        (t.replaceBlock e block d'.print keepOutput).2.tree.Alike u.tree := by
  obtain ⟨body, S₀, hperm, hperm'⟩ := d.exists_outside hn hb
  have hnodup : (rootName :: d.names).Nodup := List.nodup_cons.mpr ⟨hroot, hn⟩
  have hold := (perm_names hperm).nodup_iff.mp hnodup
  rw [List.nodup_append] at hold
  -- No name outside the block is one of the new document.
  have hdis : ∀ n ∈ S₀.map (·.name), n ∉ d'.names := by
    intro n hmem hnew
    rcases List.mem_cons.mp ((perm_names (hperm' .nil)).mem_iff.mpr (List.mem_append_left _ hmem))
      with rfl | hkept
    · exact hroot' hnew
    · exact hout n hnew hkept
  have hnodup' : (rootName :: (d.replace block d').names).Nodup := by
    refine (perm_names (hperm' d')).nodup_iff.mpr
      (List.nodup_append.mpr ⟨hold.1, List.nodup_cons.mpr ⟨hblock, hn'⟩, ?_⟩)
    intro x hx y hy hxy
    rcases List.mem_cons.mp hy with rfl | hy
    · exact hold.2.2 x hx y List.mem_cons_self hxy
    · exact hdis x hx (hxy ▸ hy)
  obtain ⟨t, ht, -⟩ := represents_compile he hd hnodup
  obtain ⟨u, hu, -⟩ := represents_compile he hedit hnodup'
  refine ⟨t, u, ht, hu, ?_⟩
  intro keepOutput
  have hts := sound_compile ht
  have hreads := reads_compile he hd ht
  obtain ⟨id, hlookup, hunder⟩ := lookup_of_perm hts.tree hreads hperm
  have hfree : ∀ n ∈ d'.names, t.tree.contains n = true → NameUnder t.tree.get? id n := by
    intro n hnew hc
    have hlive := (perm_names hperm).mem_iff.mp (mem_names_of_contains hreads hc)
    exact (hunder n).mpr ((List.mem_append.mp hlive).resolve_left fun hm => hdis n hm hnew)
  have hstay : ∀ s, s ∈ S₀ ↔ s ∈ d.sections rootName ∧ ¬ NameUnder t.tree.get? id s.name := by
    intro s
    rw [hunder]
    exact mem_outside_iff hperm hnodup
  obtain ⟨hok, hreads'⟩ := reads_replaceBlock he hts.tree hreads (d.listed_sections rootName) hlookup
    (d.plain_of_replace hb hedit) (List.nodup_cons.mpr ⟨hblock, hn'⟩) hfree hstay
    (d'.listed_sections block) keepOutput
  exact ⟨hok, Tree.alike_of_reads (sound_replaceBlock hts block d'.print keepOutput).tree
    (sound_compile hu).tree (hreads'.congr fun s => (hperm' d').mem_iff)
    (reads_compile he hedit hu) (Document.clear_sections _ hedit.page hnumber rootName)⟩

end Template

end BlockTemplate
