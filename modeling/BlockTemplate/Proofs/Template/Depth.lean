import BlockTemplate.Proofs.Document.Library
import BlockTemplate.Proofs.Template.Include

/-!
# How deep inclusions may lie

A file of texts and inclusions is loaded as one block, and its inclusions are then pulled in one after
another, each as a text in place of its placeholder. So a file is loaded if no chain of inclusions that
begins with it is longer than the engine allows, and otherwise the load fails on the depth.
-/

namespace BlockTemplate

open Inclusion (numbered)

namespace Tree

theorem get?_graftUnder_one (t : Tree) (p : BlockId) {b : Block} (hb : b.children = [])
    (hp : b.parent = none) :
    t.get? (t.graftUnder p [b]).1 = none ∧
      ∀ x, (t.graftUnder p [b]).2.get? x =
        if x = (t.graftUnder p [b]).1 then some { b with parent := some p } else t.get? x := by
  have hlen := t.length_allocate [b].length
  have hids : t.allocate [b].length = [(t.graftUnder p [b]).1] := by
    obtain ⟨id, hid⟩ := List.length_eq_one_iff.mp hlen
    rw [graftUnder, hid]
    rfl
  have hfits := t.fits_allocate [b].length
  have hnodup := t.nodup_allocate [b].length
  refine ⟨get?_of_mem_allocate (hids ▸ List.mem_singleton_self _), ?_⟩
  intro x
  have hgraft : (t.graftUnder p [b]).2 = t.graftAt (t.allocate [b].length) (some p) [b] := rfl
  rw [hgraft]
  by_cases hx : x = (t.graftUnder p [b]).1
  · have hat : (t.graftAt (t.allocate [b].length) (some p) [b]).get?
        ((t.allocate [b].length).getD 0 rootId) = some (relocate _ (some p) b) :=
      get?_graftAt_of_mem hfits hnodup hlen rfl
    have hzero : (t.allocate [b].length).getD 0 rootId = x := by
      rw [hids, hx]
      rfl
    rw [if_pos hx, ← hzero, hat, relocate, hb, hp]
    rfl
  · rw [if_neg hx]
    refine get?_graftAt_of_not_mem hfits hlen ?_
    rw [hids, List.mem_singleton]
    exact hx

end Tree

namespace Strand

def block (top : Text) (next : Nat) (s : Strand Directive) : Block :=
  { name := top
    content := s.lead ++ writeRest token (number next s.rest)
    vars := ((number next s.rest).map (·.1.name)).foldl addNew [] }

theorem compile_marked {s : Strand Directive} (hs : s.Tagged) (next : Nat) {t : Tree} {top : Text}
    {replaced : Option BlockId}
    (hfree : t.contains top = true → top ∈ Fragment.leavingNames t replaced)
    (hd : t.calls.Distinct) :
    Fragment.compile .standard t top (s.lead ++ writeRest token (number next s.rest)) replaced =
      (.ok [s.block top next], t.calls) := by
  let names : Strand Text := ⟨s.lead, (number next s.rest).map fun x => (x.1.name, x.2)⟩
  have hwrite : names.write Markup.token = s.lead ++ writeRest token (number next s.rest) := by
    rw [write, writeRest, List.flatMap_map]
    rfl
  have hmarks : names.marks = (number next s.rest).map (·.1.name) := by
    rw [marks, List.map_map]
    rfl
  have hplain : names.Plain := by
    refine ⟨List.forall_mem_cons.mpr ⟨hs.texts s.lead List.mem_cons_self, ?_⟩, ?_⟩
    · intro t ht
      obtain ⟨x, hx, rfl⟩ := List.mem_map.mp ht
      obtain ⟨y, hy, rfl⟩ := List.mem_map.mp hx
      obtain ⟨⟨z, hz, -, htext⟩, -⟩ := mem_number hy
      exact htext ▸ hs.texts z.2 (List.mem_cons_of_mem _ (List.mem_map_of_mem hz))
    · intro v hv
      rw [hmarks] at hv
      obtain ⟨y, hy, rfl⟩ := List.mem_map.mp hv
      obtain ⟨-, k, -, -, hk⟩ := mem_number hy
      rw [hk]
      exact ⟨Inclusion.isVariableName_numbered k, Inclusion.isMemo_numbered k⟩
  have hcompile := Fragment.compile_strand hplain hfree hd
  rw [hwrite, hmarks] at hcompile
  exact hcompile

end Strand

namespace Template

open Strand (token number writeRest)

variable {e : Engine} {fs : Files} {t u : Template} {s : Strand Directive} {file top : Text}
  {target : Target} {p x id : BlockId} {b c : Block} {k : Nat} {text : Text}

theorem load_tagged (he : e.dialect = .standard) (hcache : e.cacheDir = none)
    (hread : fs.read (e.path file) = .ok (s.write Directive.print)) (hs : s.Tagged)
    (ht : t.tree.Sound)
    (hfree : t.tree.contains top = true → top ∈ Fragment.leavingNames t.tree target.replaced)
    (allowed : Nat) :
    load e (allowed + 1) file top target t fs =
      pullAll .standard (load e allowed) ((number t.nextInclusion s.rest).map (·.1)) none
        (({ t with nextInclusion := t.nextInclusion + s.rest.length } : Template).attach .standard
          [s.block top t.nextInclusion] target).2 fs := by
  have hsaved : e.savedSnapshot? fs file = none := by
    rw [Engine.savedSnapshot?, hcache]
    rfl
  have hcompile := Strand.compile_marked hs t.nextInclusion hfree ht.calls
  have hlen := Strand.length_number t.nextInclusion s.rest
  rw [load, prepare, hsaved]
  simp only [prepareFile, hread, prepareText, he, Strand.extract_write hs, hcompile, hlen, hcache,
    Option.isSome_none, Bool.and_false, Bool.false_eq_true, if_false, finishLoad_none]
  rfl

def Unnumbered (t : Template) : Prop :=
  ∀ y d, t.tree.get? y = some d → ∀ j, t.nextInclusion ≤ j → numbered j ∉ d.vars ∧ d.name ≠ numbered j

structure Open (t : Template) (p : BlockId) (b : Block) (k : Nat) : Prop where
  sound : t.tree.Sound
  unnumbered : t.Unnumbered
  parent : t.tree.get? p = some b
  free : t.tree.contains (numbered k) = false
  given : k < t.nextInclusion

structure Landed (t : Template) (p : BlockId) (b : Block) (k : Nat) (text : Text) (u : Template)
    (id : BlockId) : Prop where
  sound : u.tree.Sound
  vacant : t.tree.get? id = none
  block : u.tree.get? id = some { name := numbered k, content := text, parent := some p }
  parent : u.tree.get? p = some (b.adopt .standard (numbered k) (numbered k) id)
  others : ∀ y, y ≠ id → y ≠ p → u.tree.get? y = t.tree.get? y
  grown : t.nextInclusion ≤ u.nextInclusion

def Lands (load : Text → Text → Target → Template → Files → Loaded) (fs : Files) (path : Text)
    (text : Text) : Prop :=
  ∀ t p b k, Open t p b k → ∃ u id,
    load path (numbered k) (.under p (numbered k)) t fs = (.ok (), u, fs) ∧ Landed t p b k text u id

def Refused (load : Text → Text → Target → Template → Files → Loaded) (fs : Files) (path : Text)
    (fault : Fault) : Prop :=
  ∀ t p b k, Open t p b k → (load path (numbered k) (.under p (numbered k)) t fs).1 = .error fault

section Landed

variable (h : Landed t p b k text u id)
include h

theorem Landed.ne (hb : t.tree.get? p = some b) : p ≠ id := by
  rintro rfl
  rw [h.vacant] at hb
  cases hb

theorem Landed.lookup : u.tree.lookup (numbered k) = .ok id :=
  Tree.lookup_eq_ok_iff.mpr ((Tree.find?_eq_some_iff h.sound.distinct).mpr ⟨_, h.block, rfl⟩)

theorem Landed.get?_dissolve (hb : t.tree.get? p = some b) (hleaf : b.children = [])
    (token : Text) (y : BlockId) :
    (u.tree.dissolve id token).get? y =
      if y = p then some { b with
        content := Text.replaceAll token text
          (b.adopt .standard (numbered k) (numbered k) id).content
        vars := b.vars.filter (· ≠ numbered k) }
      else t.tree.get? y := by
  rw [Tree.get?_dissolve h.block rfl]
  by_cases hy : y = p
  · have hne := h.ne hb
    rw [if_pos hy, hy, if_neg hne, h.parent, Option.map_some]
    simp only [if_true, List.not_mem_nil, if_false]
    rw [Tree.absorb, Block.adopt, hleaf]
    simp
  · rw [if_neg hy]
    by_cases hid : y = id
    · rw [if_pos hid, hid, h.vacant]
    · rw [if_neg hid, h.others y hid hy]
      simp [hy]

end Landed

structure Beside (x : BlockId) (t u : Template) : Prop where
  others : ∀ y, y ≠ x → u.tree.get? y = t.tree.get? y
  grown : t.nextInclusion ≤ u.nextInclusion

/--
The block of a file in the midst of its inclusions: `done` is the text so far, and the placeholders of
the others follow, each with the text behind it. Their numbers are `base` or more, and no other block
has a name or a variable of such a number.
-/
structure Awaits (t : Template) (x : BlockId) (c : Block) (base : Nat) (vars : List Text) (done : Text)
    (pending : List (Inclusion × Text)) : Prop where
  sound : t.tree.Sound
  block : t.tree.get? x = some { c with content := done ++ writeRest token pending, vars := vars }
  leaf : c.children = []
  clear : '\x7b' ∉ done ∧ ∀ y ∈ pending, '\x7b' ∉ y.2
  listed : ∀ v, v ∈ vars ↔ ∃ y ∈ pending, y.1.name = v
  others : ∀ y d, t.tree.get? y = some d → ∀ j, base ≤ j →
    (y ≠ x → numbered j ∉ d.vars) ∧ d.name ≠ numbered j
  numbers : ∀ y ∈ pending, ∃ j, base ≤ j ∧ j < t.nextInclusion ∧ y.1.name = numbered j
  nodup : (pending.map (·.1.name)).Nodup
  grown : base ≤ t.nextInclusion

theorem splice_pending {done : Text} {pending : List (Inclusion × Text)} {after name : Text}
    {f : Text → Option Text} (hname : Page.isVariableName name = true)
    (hclear : '\x7b' ∉ done ∧ '\x7b' ∉ after ∧ ∀ y ∈ pending, '\x7b' ∉ y.2)
    (hvars : ∀ y ∈ pending, Page.isVariableName y.1.name = true ∧ f y.1.name = none) :
    Dialect.standard.splice f (done ++ (Markup.token name ++ (after ++ writeRest token pending))) =
      done ++ ((f name).getD (Markup.token name) ++ (after ++ writeRest token pending)) := by
  let behind : Strand Inclusion := ⟨after, pending⟩
  have hbehind : Dialect.standard.splice f (behind.write token) = behind.write token := by
    have htexts : ∀ t ∈ behind.texts, '\x7b' ∉ t := by
      refine List.forall_mem_cons.mpr ⟨hclear.2.1, ?_⟩
      intro t ht
      obtain ⟨y, hy, rfl⟩ := List.mem_map.mp ht
      exact hclear.2.2 y hy
    have hmarks : ∀ i ∈ behind.marks, Page.isVariableName i.name = true ∧ f i.name = none := by
      intro i hi
      obtain ⟨y, hy, rfl⟩ := List.mem_map.mp hi
      exact hvars y hy
    have hwritten : Dialect.standard.splice f (behind.write token) =
        behind.write fun i => (f i.name).getD (Markup.token i.name) :=
      Strand.splice_write htexts (fun i hi => (hmarks i hi).1) f
    refine hwritten.trans (Strand.write_congr ?_)
    intro i hi
    rw [(hmarks i hi).2]
    rfl
  rw [Page.splice_append hclear.1, Page.splice_token hname]
  exact congrArg (fun r => done ++ (_ ++ r)) hbehind

section Awaits

variable {base : Nat} {vars : List Text} {done after path : Text}
  {pending : List (Inclusion × Text)} {load : Text → Text → Target → Template → Files → Loaded}

theorem Awaits.open
    (h : Awaits t x c base vars done ((⟨numbered k, path⟩, after) :: pending))
    (hk : base ≤ k ∧ k < t.nextInclusion) :
    Open t x { c with
      content := done ++ writeRest token ((⟨numbered k, path⟩, after) :: pending), vars := vars } k where
  sound := h.sound
  unnumbered := by
    intro y d hd j hj
    obtain ⟨hvars, hname⟩ := h.others y d hd j (h.grown.trans hj)
    refine ⟨?_, hname⟩
    by_cases hy : y = x
    · subst hy
      rw [h.block, Option.some.injEq] at hd
      subst hd
      intro hm
      obtain ⟨z, hz, hzn⟩ := (h.listed _).mp hm
      obtain ⟨i, -, hi, hname⟩ := h.numbers z hz
      have heq := Inclusion.numbered_inj (hname.symm.trans hzn)
      omega
    · exact hvars hy
  parent := h.block
  free := Tree.contains_eq_false_iff.mpr fun y d hd => (h.others y d hd k hk.1).2
  given := hk.2

theorem Awaits.owner (h : Awaits t x c base vars done ((⟨numbered k, path⟩, after) :: pending))
    (hk : base ≤ k) : t.tree.owner (numbered k) = .ok x := by
  refine Tree.owner_eq h.sound.tree h.block ((h.listed _).mpr ⟨_, List.mem_cons_self, rfl⟩) ?_
  intro y d hd hm
  by_contra hy
  exact (h.others y d hd k hk).1 hy hm

theorem Awaits.names (h : Awaits t x c base vars done ((⟨numbered k, path⟩, after) :: pending)) :
    ∀ y ∈ pending, ∃ j, y.1.name = numbered j ∧ y.1.name ≠ numbered k := by
  intro y hy
  obtain ⟨j, -, -, hj⟩ := h.numbers y (List.mem_cons_of_mem _ hy)
  exact ⟨j, hj, fun he => (List.nodup_cons.mp h.nodup).1 (List.mem_map.mpr ⟨y, hy, he⟩)⟩

theorem Awaits.content (h : Awaits t x c base vars done ((⟨numbered k, path⟩, after) :: pending))
    (id : BlockId) (text : Text) :
    Text.replaceAll (Markup.token (childName (numbered k))) text
      (Block.adopt .standard (numbered k) (numbered k) id { c with
        content := done ++ writeRest token ((⟨numbered k, path⟩, after) :: pending)
        vars := vars }).content =
      done ++ (text ++ (after ++ writeRest token pending)) := by
  have hclear : '\x7b' ∉ done ∧ '\x7b' ∉ after ∧ ∀ y ∈ pending, '\x7b' ∉ y.2 :=
    ⟨h.clear.1, h.clear.2 _ List.mem_cons_self, fun y hy => h.clear.2 y (List.mem_cons_of_mem _ hy)⟩
  have hnames := h.names
  have hchild := (Section.clear_child_numbered k).1
  have hadopt : (Block.adopt .standard (numbered k) (numbered k) id { c with
        content := done ++ writeRest token ((⟨numbered k, path⟩, after) :: pending)
        vars := vars }).content =
      done ++ (Markup.token (childName (numbered k)) ++ (after ++ writeRest token pending)) := by
    rw [Block.adopt, Strand.writeRest_cons]
    refine (splice_pending (Inclusion.isVariableName_numbered k) hclear ?_).trans ?_
    · intro y hy
      obtain ⟨j, hj, hne⟩ := hnames y hy
      exact ⟨hj ▸ Inclusion.isVariableName_numbered j, if_neg hne⟩
    · rw [if_pos rfl]
      rfl
  rw [hadopt, Page.replaceAll_token hchild, splice_pending hchild hclear]
  · rw [if_pos rfl]
    rfl
  · intro y hy
    obtain ⟨j, hj, -⟩ := hnames y hy
    refine ⟨hj ▸ Inclusion.isVariableName_numbered j, if_neg ?_⟩
    rw [hj]
    exact fun he => absurd (congrArg (·.headD 'a') he) (show ¬ 't' = '_' by decide)

theorem Awaits.pull (h : Awaits t x c base vars done ((⟨numbered k, path⟩, after) :: pending))
    (hk : base ≤ k ∧ k < t.nextInclusion) (hload : Lands load fs path text) (htext : '\x7b' ∉ text) :
    ∃ u, Template.pull .standard load ⟨numbered k, path⟩ t fs = (.ok (), u, fs) ∧
      Awaits u x c base (vars.filter (· ≠ numbered k)) (done ++ (text ++ after)) pending ∧
      Beside x t u := by
  obtain ⟨u, id, hloaded, hu⟩ := hload t x _ k (h.open hk)
  -- The loaded block is a leaf that holds the text, so dissolving it only writes the text.
  have hget := hu.get?_dissolve h.block h.leaf (Markup.token (childName (numbered k)))
  have hself := hget x
  rw [if_pos rfl, h.content id text] at hself
  have hothers : ∀ y, y ≠ x →
      (u.tree.dissolve id (Markup.token (childName (numbered k)))).get? y = t.tree.get? y := by
    intro y hy
    rw [hget y, if_neg hy]
  refine ⟨{ u with tree := u.tree.dissolve id (Markup.token (childName (numbered k))) }, ?_, ?_,
    ⟨hothers, hu.grown⟩⟩
  · rw [Template.pull, h.owner hk.1]
    simp only [hloaded, hu.lookup]
    rfl
  · refine ⟨hu.sound.dissolve hu.block rfl _, ?_, h.leaf, ?_, ?_, ?_, ?_, ?_, h.grown.trans hu.grown⟩
    · refine hself.trans ?_
      simp only [List.append_assoc]
    · refine ⟨?_, fun y hy => h.clear.2 y (List.mem_cons_of_mem _ hy)⟩
      simp only [List.mem_append, not_or]
      exact ⟨h.clear.1, htext, h.clear.2 _ List.mem_cons_self⟩
    · intro v
      rw [List.mem_filter, h.listed v, decide_eq_true_eq]
      constructor
      · rintro ⟨⟨y, hy, rfl⟩, hne⟩
        rcases List.mem_cons.mp hy with rfl | hy
        · exact absurd rfl hne
        · exact ⟨y, hy, rfl⟩
      · rintro ⟨y, hy, rfl⟩
        obtain ⟨j, -, hne⟩ := h.names y hy
        exact ⟨⟨y, List.mem_cons_of_mem _ hy, rfl⟩, hne⟩
    · intro y d hd j hj
      by_cases hy : y = x
      · subst hy
        rw [show (u.tree.dissolve id _).get? y = _ from hself, Option.some.injEq] at hd
        subst hd
        exact ⟨fun hne => absurd rfl hne, (h.others y _ h.block j hj).2⟩
      · rw [show (u.tree.dissolve id _).get? y = _ from hothers y hy] at hd
        exact h.others y d hd j hj
    · intro y hy
      obtain ⟨j, hbase, hj, hname⟩ := h.numbers y (List.mem_cons_of_mem _ hy)
      exact ⟨j, hbase, hj.trans_le hu.grown, hname⟩
    · exact (List.nodup_cons.mp h.nodup).2

variable {n : Nat} {rest : List (Directive × Text)} {f : Text → Text}

theorem Awaits.number_le (h : Awaits t x c base vars done ((⟨numbered k, path⟩, after) :: pending)) :
    base ≤ k ∧ k < t.nextInclusion := by
  obtain ⟨j, hbase, hj, hname⟩ := h.numbers _ List.mem_cons_self
  rw [Inclusion.numbered_inj hname]
  exact ⟨hbase, hj⟩

theorem Awaits.pullAll (h : Awaits t x c base vars done (number n rest))
    (hload : ∀ y ∈ rest, Lands load fs y.1.path (f y.1.path) ∧ '\x7b' ∉ f y.1.path) :
    ∃ u, Template.pullAll .standard load ((number n rest).map (·.1)) none t fs = (.ok (), u, fs) ∧
      (∃ vars, Awaits u x c base vars (done ++ writeRest (fun d => f d.path) rest) []) ∧
      Beside x t u := by
  induction rest generalizing n t vars done with
  | nil =>
    refine ⟨t, rfl, ⟨vars, ?_⟩, fun y _ => rfl, Nat.le_refl _⟩
    have hdone : done ++ writeRest (fun d : Directive => f d.path) [] = done :=
      List.append_nil done
    rw [hdone]
    exact h
  | cons y rest ih =>
    obtain ⟨hlands, hbrace⟩ := hload y List.mem_cons_self
    obtain ⟨u, hpull, hu, hbeside⟩ := h.pull h.number_le hlands hbrace
    obtain ⟨v, hall, ⟨vars', hv⟩, hbeside'⟩ := ih hu fun z hz => hload z (List.mem_cons_of_mem y hz)
    refine ⟨v, ?_, ⟨vars', ?_⟩, ?_, hbeside.grown.trans hbeside'.grown⟩
    · rw [number, List.map_cons, Template.pullAll, hpull, ← hall]
    · rw [Strand.writeRest_cons, ← List.append_assoc, ← List.append_assoc]
      simpa only [List.append_assoc] using hv
    · intro z hz
      rw [hbeside'.others z hz, hbeside.others z hz]

theorem Awaits.finished (h : Awaits t x c base vars done []) :
    t.tree.get? x = some { c with content := done, vars := [] } := by
  have hvars : vars = [] := by
    refine List.eq_nil_iff_forall_not_mem.mpr fun v hv => ?_
    obtain ⟨y, hy, -⟩ := (h.listed v).mp hv
    cases hy
  have hblock := h.block
  rw [hvars, show writeRest token ([] : List (Inclusion × Text)) = [] from rfl,
    List.append_nil] at hblock
  exact hblock

theorem Awaits.pullAll_refused {fault : Fault} (hfault : fault.isCacheWrite = false)
    (h : Awaits t x c base vars done (number n rest))
    (hload : ∀ y ∈ rest, (Lands load fs y.1.path (f y.1.path) ∧ '\x7b' ∉ f y.1.path) ∨
      Refused load fs y.1.path fault)
    (hbad : ∃ y ∈ rest, Refused load fs y.1.path fault) :
    (Template.pullAll .standard load ((number n rest).map (·.1)) none t fs).1 = .error fault := by
  induction rest generalizing n t vars done with
  | nil =>
    obtain ⟨y, hy, -⟩ := hbad
    cases hy
  | cons y rest ih =>
    by_cases hy : Refused load fs y.1.path fault
    · have hpull : ∃ u fs', Template.pull .standard load ⟨numbered n, y.1.path⟩ t fs =
          (.error fault, u, fs') := by
        have hrefused := hy t x _ n (h.open h.number_le)
        obtain ⟨⟨r, u, fs'⟩, hr⟩ : ∃ r, load y.1.path (numbered n) (.under x (numbered n)) t fs = r :=
          ⟨_, rfl⟩
        rw [hr] at hrefused
        cases hrefused
        refine ⟨u, fs', ?_⟩
        rw [Template.pull, h.owner h.number_le.1]
        simp only [hr, hfault, Bool.false_eq_true, if_false]
      obtain ⟨u, fs', hpull⟩ := hpull
      rw [number, List.map_cons, Template.pullAll, hpull]
      simp only [hfault, Bool.false_eq_true, if_false]
    · obtain ⟨hlands, hbrace⟩ := (hload y List.mem_cons_self).resolve_right hy
      obtain ⟨u, hpull, hu, -⟩ := h.pull h.number_le hlands hbrace
      rw [number, List.map_cons, Template.pullAll, hpull]
      refine ih hu (fun z hz => hload z (List.mem_cons_of_mem y hz)) ?_
      obtain ⟨z, hz, hrefused⟩ := hbad
      rcases List.mem_cons.mp hz with rfl | hz
      · exact absurd hrefused hy
      · exact ⟨z, hz, hrefused⟩

theorem awaits_attached (hs : s.Tagged) (ht : t.tree.Sound) (hleaf : c.children = [])
    (hblock : t.tree.get? x = some { c with
      content := (s.block top n).content, vars := (s.block top n).vars })
    (hothers : ∀ y d, t.tree.get? y = some d → ∀ j, n ≤ j →
      (y ≠ x → numbered j ∉ d.vars) ∧ d.name ≠ numbered j)
    (hnext : t.nextInclusion = n + s.rest.length) :
    Awaits t x c n (s.block top n).vars s.lead (number n s.rest) where
  sound := ht
  block := hblock
  leaf := hleaf
  clear := by
    refine ⟨(Markup.plainText_spec (hs.texts s.lead List.mem_cons_self)).1, ?_⟩
    intro y hy
    obtain ⟨⟨z, hz, -, htext⟩, -⟩ := Strand.mem_number hy
    have hplain := hs.texts z.2 (List.mem_cons_of_mem _ (List.mem_map_of_mem hz))
    exact htext ▸ (Markup.plainText_spec hplain).1
  listed := by
    intro v
    rw [Strand.block, mem_foldl_addNew, List.mem_map]
    exact ⟨fun hv => hv.resolve_left List.not_mem_nil, .inr⟩
  others := hothers
  numbers := by
    intro y hy
    obtain ⟨-, j, hle, hlt, hj⟩ := Strand.mem_number hy
    exact ⟨j, hle, hnext ▸ hlt, hj⟩
  nodup := Strand.nodup_number n s.rest
  grown := hnext ▸ Nat.le_add_right n _

theorem Open.attach (h : Open t p b k) (hs : s.Tagged) {v : Template}
    (hv : v = (({ t with nextInclusion := t.nextInclusion + s.rest.length } : Template).attach
      .standard [s.block (numbered k) t.nextInclusion] (.under p (numbered k))).2) :
    ∃ id, t.tree.get? id = none ∧
      Awaits v id { name := numbered k, content := [], parent := some p } t.nextInclusion
        (s.block (numbered k) t.nextInclusion).vars s.lead (number t.nextInclusion s.rest) ∧
      v.tree.get? p = some (b.adopt .standard (numbered k) (numbered k) id) ∧
      ∀ y, y ≠ id → y ≠ p → v.tree.get? y = t.tree.get? y := by
  have hfree : t.tree.contains (numbered k) = true →
      numbered k ∈ Fragment.leavingNames t.tree none := by
    rw [h.free]
    exact fun hc => absurd hc Bool.false_ne_true
  have hfits := Fragment.fits_compile .standard t.tree (numbered k)
    (s.lead ++ writeRest token (number t.nextInclusion s.rest)) none
  rw [Strand.compile_marked hs t.nextInclusion hfree h.sound.calls] at hfits
  have hcarried := carried_under .standard (t := { t with
    nextInclusion := t.nextInclusion + s.rest.length }) h.sound ⟨b, h.parent⟩ (numbered k)
    (hfits.ready _ rfl) (hfits.named _ rfl)
  rw [← hv] at hcarried
  obtain ⟨hvacant, hgraft⟩ := t.tree.get?_graftUnder_one p
    (b := s.block (numbered k) t.nextInclusion) rfl rfl
  let id := (t.tree.graftUnder p [s.block (numbered k) t.nextInclusion]).1
  -- The block goes into an empty slot, so it is neither the parent nor any other block of the tree.
  have hne : p ≠ id := by
    intro he
    have hlive := h.parent
    rw [he, hvacant] at hlive
    cases hlive
  have htree : v.tree = (t.tree.graftUnder p [s.block (numbered k) t.nextInclusion]).2.modify p
      (Block.adopt .standard (numbered k) (numbered k) id) := by
    rw [hv]
    rfl
  have hget : ∀ y, v.tree.get? y =
      if y = p then (t.tree.get? y).map (Block.adopt .standard (numbered k) (numbered k) id)
      else if y = id then some { s.block (numbered k) t.nextInclusion with parent := some p }
      else t.tree.get? y := by
    intro y
    rw [htree, Tree.get?_modify, hgraft y]
    by_cases hy : y = p
    · rw [if_pos hy, if_pos hy, if_neg (hy ▸ hne)]
    · rw [if_neg hy, if_neg hy]
  have hself : v.tree.get? id =
      some { s.block (numbered k) t.nextInclusion with parent := some p } := by
    rw [hget, if_neg hne.symm, if_pos rfl]
  have hothers : ∀ y, y ≠ id → y ≠ p → v.tree.get? y = t.tree.get? y := by
    intro y hy hyp
    rw [hget, if_neg hyp, if_neg hy]
  have hparent : v.tree.get? p = some (b.adopt .standard (numbered k) (numbered k) id) := by
    rw [hget, if_pos rfl, h.parent]
    rfl
  refine ⟨id, hvacant, awaits_attached hs hcarried.sound rfl hself ?_ ?_, hparent, hothers⟩
  · intro y d hd j hj
    by_cases hy : y = id
    · rw [hy, hself, Option.some.injEq] at hd
      subst hd
      refine ⟨fun hne => absurd hy hne, fun he => ?_⟩
      have heq := Inclusion.numbered_inj he
      have hgiven := h.given
      omega
    · by_cases hyp : y = p
      · rw [hyp, hparent, Option.some.injEq] at hd
        subst hd
        obtain ⟨hvars, hname⟩ := h.unnumbered p b h.parent j hj
        exact ⟨fun _ hm => hvars (List.mem_of_mem_filter hm), hname⟩
      · rw [hothers y hy hyp] at hd
        obtain ⟨hvars, hname⟩ := h.unnumbered y d hd j hj
        exact ⟨fun _ => hvars, hname⟩
  · rw [hv]
    rfl

end Awaits

def Settles (e : Engine) (fs : Files) (l : Library) (allowed : Nat) (path : Text) : Prop :=
  (l.Within allowed path → Lands (load e allowed) fs path (l.pasted allowed path)) ∧
    (¬ l.Within allowed path → Refused (load e allowed) fs path (.includeDepth e.maxDepth))

section Settles

variable {l : Library} {allowed n base : Nat} {vars : List Text} {path : Text}

theorem Awaits.pullAll_within (hl : l.Stored e fs path) (hw : l.Within (allowed + 1) path)
    (hsettles : ∀ y ∈ (l path).rest, Settles e fs l allowed y.1.path)
    (h : Awaits t x c base vars (l path).lead (number n (l path).rest)) :
    ∃ u, Template.pullAll .standard (load e allowed) ((number n (l path).rest).map (·.1)) none t fs =
        (.ok (), u, fs) ∧
      u.tree.Sound ∧
      u.tree.get? x = some { c with content := l.pasted (allowed + 1) path, vars := [] } ∧
      Beside x t u := by
  have hwithin := Library.within_succ_iff.mp hw
  obtain ⟨u, hpull, ⟨vars, hu⟩, hbeside⟩ := h.pullAll (f := l.pasted allowed) fun y hy =>
    have hd := List.mem_map_of_mem hy
    ⟨(hsettles y hy).1 (hwithin _ hd), Library.brace_not_mem_pasted (hl.of_mem hd) allowed⟩
  exact ⟨u, hpull, hu.sound, hu.finished, hbeside⟩

theorem Awaits.pullAll_deep (hl : l.Stored e fs path) (hw : ¬ l.Within (allowed + 1) path)
    (hsettles : ∀ y ∈ (l path).rest, Settles e fs l allowed y.1.path)
    (h : Awaits t x c base vars (l path).lead (number n (l path).rest)) :
    (Template.pullAll .standard (load e allowed) ((number n (l path).rest).map (·.1)) none t fs).1 =
      .error (.includeDepth e.maxDepth) := by
  refine h.pullAll_refused (f := l.pasted allowed) rfl ?_ ?_
  · intro y hy
    by_cases hy' : l.Within allowed y.1.path
    · exact .inl ⟨(hsettles y hy).1 hy',
        Library.brace_not_mem_pasted (hl.of_mem (List.mem_map_of_mem hy)) allowed⟩
    · exact .inr ((hsettles y hy).2 hy')
  · rw [Library.within_succ_iff] at hw
    push Not at hw
    obtain ⟨d, hd, hdeep⟩ := hw
    obtain ⟨y, hy, rfl⟩ := List.mem_map.mp hd
    exact ⟨y, hy, (hsettles y hy).2 hdeep⟩

theorem settles_load (he : e.dialect = .standard) (hcache : e.cacheDir = none)
    (hl : l.Stored e fs path) : Settles e fs l allowed path := by
  induction allowed generalizing path with
  | zero => exact ⟨fun h => absurd h Library.not_within_zero, fun _ t p b k _ => rfl⟩
  | succ allowed ih =>
    obtain ⟨hread, htagged⟩ := hl 0 path (.nil path)
    have hload : ∀ t p b k, Open t p b k → load e (allowed + 1) path (numbered k)
        (.under p (numbered k)) t fs = _ := fun t p b k ht =>
      load_tagged he hcache hread htagged ht.sound
        (fun hc => absurd (ht.free.symm.trans hc) Bool.false_ne_true) allowed
    have hsettles : ∀ y ∈ (l path).rest, Settles e fs l allowed y.1.path := fun y hy =>
      ih (hl.of_mem (List.mem_map_of_mem hy))
    constructor
    · intro hw t p b k ht
      obtain ⟨id, hvacant, hv, hparent, hothers⟩ := ht.attach htagged rfl
      obtain ⟨u, hpull, hsound, hself, hbeside⟩ := hv.pullAll_within hl hw hsettles
      have hne : p ≠ id := by
        rintro rfl
        have hlive := ht.parent
        rw [hvacant] at hlive
        cases hlive
      exact ⟨u, id, (hload t p b k ht).trans hpull, hsound, hvacant, hself,
        (hbeside.others p hne).trans hparent,
        fun y hy hyp => (hbeside.others y hy).trans (hothers y hy hyp), hv.grown.trans hbeside.grown⟩
    · intro hw t p b k ht
      obtain ⟨id, -, hv, -, -⟩ := ht.attach htagged rfl
      rw [hload t p b k ht]
      exact hv.pullAll_deep hl hw hsettles

end Settles

theorem awaits_root (hs : s.Tagged) {blank : Template} (hblank : blank.tree = .empty) {v : Template}
    (hv : v = (({ blank with nextInclusion := blank.nextInclusion + s.rest.length } : Template).attach
      .standard [s.block rootName blank.nextInclusion] (.over rootId false)).2) :
    Awaits v rootId { name := rootName, content := [] } blank.nextInclusion
      (s.block rootName blank.nextInclusion).vars s.lead (number blank.nextInclusion s.rest) := by
  have hempty : blank.tree.Sound := hblank ▸ Tree.sound_empty
  have hleaves : rootName ∈ Fragment.leavingNames blank.tree (some rootId) := by
    rw [hblank, Fragment.leavingNames_empty]
    exact List.mem_singleton_self _
  have hfits := Fragment.fits_compile .standard blank.tree rootName
    (s.lead ++ writeRest token (number blank.nextInclusion s.rest)) (some rootId)
  rw [Strand.compile_marked hs blank.nextInclusion (fun _ => hleaves) hempty.calls] at hfits
  have hadmits : ({ blank with nextInclusion := blank.nextInclusion + s.rest.length } :
      Template).Admits rootName (.over rootId false) :=
    ⟨{ name := rootName, content := [] }, by rw [hblank]; rfl, rfl⟩
  have hsound : v.tree.Sound := by
    rw [hv]
    exact tree_attach (t := { blank with nextInclusion := blank.nextInclusion + s.rest.length })
      .standard hempty hadmits (hfits.ready _ rfl) (hfits.named _ rfl)
  have hslots : v.tree.slots = [some (s.block rootName blank.nextInclusion)] := by
    rw [hv, attach, hblank]
    rfl
  have hget : ∀ y, v.tree.get? y =
      if y = rootId then some (s.block rootName blank.nextInclusion) else none := by
    intro y
    rw [Tree.get?, hslots]
    cases y with
    | zero => rfl
    | succ y => rfl
  refine awaits_attached hs hsound rfl (hget rootId) ?_ ?_
  · intro y d hd j hj
    rw [hget] at hd
    split at hd
    · rename_i hy
      cases hd
      refine ⟨fun hne => absurd hy hne, fun he => ?_⟩
      exact absurd (congrArg (·.headD 'a') he) (show ¬ '_' = 't' by decide)
    · cases hd
  · rw [hv]
    rfl

/-- A file is loaded into an empty template as its text, or is refused for the depth. -/
theorem loadTop_tagged (he : e.dialect = .standard) (hcache : e.cacheDir = none) {l : Library}
    (hl : l.Stored e fs file) {blank : Template} (hblank : blank.tree = .empty) :
    (l.Within (e.maxDepth + 1) file → ∃ u : Template,
      loadTop e file rootName (.over rootId false) blank fs = (.ok (), u, fs) ∧
        u.tree.get? rootId =
          some { name := rootName, content := l.pasted (e.maxDepth + 1) file }) ∧
      (¬ l.Within (e.maxDepth + 1) file →
        (loadTop e file rootName (.over rootId false) blank fs).1 =
          .error (.includeDepth e.maxDepth)) := by
  obtain ⟨hread, htagged⟩ := hl 0 file (.nil file)
  have hempty : blank.tree.Sound := hblank ▸ Tree.sound_empty
  have hleaves : rootName ∈ Fragment.leavingNames blank.tree (some rootId) := by
    rw [hblank, Fragment.leavingNames_empty]
    exact List.mem_singleton_self _
  have hload : load e (e.maxDepth + 1) file rootName (.over rootId false) blank fs = _ :=
    load_tagged he hcache hread htagged hempty (fun _ => hleaves) e.maxDepth
  have hv := awaits_root htagged hblank rfl
  have hsettles : ∀ y ∈ (l file).rest, Settles e fs l e.maxDepth y.1.path := fun y hy =>
    settles_load he hcache (hl.of_mem (List.mem_map_of_mem hy))
  rw [loadTop, hload]
  constructor
  · intro hw
    obtain ⟨u, hpull, -, hself, -⟩ := hv.pullAll_within hl hw hsettles
    exact ⟨u, hpull, hself⟩
  · exact fun hw => hv.pullAll_deep hl hw hsettles

/--
The depth of inclusions is exact: a file is loaded if no chain of inclusions from it is longer than the
engine allows, and fails on the depth otherwise. Its content is then its text with all inclusions put
in, and a file that leads back to itself is never loaded.
-/
theorem loadFile_depth (he : e.dialect = .standard) (hcache : e.cacheDir = none) {l : Library}
    (hl : l.Stored e fs file) :
    ((t.loadFile e file fs).1 = .ok () ↔ ∀ n path, l.Chain n file path → n ≤ e.maxDepth) ∧
      ((¬ ∀ n path, l.Chain n file path → n ≤ e.maxDepth) →
        (t.loadFile e file fs).1 = .error (.includeDepth e.maxDepth)) ∧
      ((t.loadFile e file fs).1 = .ok () →
        ∃ b, (t.loadFile e file fs).2.1.tree.get? rootId = some b ∧ l.Pasted file b.content) ∧
      ((∃ n, 0 < n ∧ l.Chain n file file) →
        (t.loadFile e file fs).1 = .error (.includeDepth e.maxDepth)) := by
  have hbound : (∀ n path, l.Chain n file path → n ≤ e.maxDepth) ↔ l.Within (e.maxDepth + 1) file :=
    ⟨fun h n path hc => Nat.lt_succ_of_le (h n path hc),
      fun h n path hc => Nat.le_of_lt_succ (h n path hc)⟩
  rw [hbound]
  let blank : Template := { t with tree := .empty, state := {}, nextInclusion := 0 }
  obtain ⟨hwithin, hdeep⟩ := loadTop_tagged he hcache hl (show blank.tree = .empty from rfl)
  have hblank : ({ t with tree := .empty, state := {}, nextInclusion := 0 } : Template) = blank := rfl
  have hok : l.Within (e.maxDepth + 1) file → (t.loadFile e file fs).1 = .ok () ∧
      (t.loadFile e file fs).2.1.tree.get? rootId =
        some { name := rootName, content := l.pasted (e.maxDepth + 1) file } := by
    intro hw
    obtain ⟨u, hu, hroot⟩ := hwithin hw
    rw [loadFile, hblank, hu]
    exact ⟨rfl, hroot⟩
  have hfail : ¬ l.Within (e.maxDepth + 1) file →
      (t.loadFile e file fs).1 = .error (.includeDepth e.maxDepth) := by
    intro hw
    have hrefused := hdeep hw
    obtain ⟨⟨r, u, fs'⟩, hu⟩ : ∃ r, loadTop e file rootName (.over rootId false) blank fs = r :=
      ⟨_, rfl⟩
    rw [hu] at hrefused
    cases hrefused
    rw [loadFile, hblank, hu]
    rfl
  have hiff : (t.loadFile e file fs).1 = .ok () → l.Within (e.maxDepth + 1) file := by
    intro h
    by_contra hw
    rw [hfail hw] at h
    cases h
  refine ⟨⟨hiff, fun hw => (hok hw).1⟩, hfail, ?_, ?_⟩
  · exact fun h => ⟨_, (hok (hiff h)).2, Library.pasted_spec (hiff h)⟩
  · rintro ⟨n, hn, hc⟩
    exact hfail (hc.unbounded hn _)

def book : Library
  | ['p'] => ⟨"A".toList, [(.standard ['r'], "B".toList), (.standard ['r'], [])]⟩
  | ['r'] => ⟨"row".toList, [(.standard ['e'], [])]⟩
  | ['e'] => ⟨"end".toList, []⟩
  | ['b'] => ⟨[], [(.standard ['p'], []), (.standard ['b'], [])]⟩
  | _ => ⟨[], []⟩

def bookFiles : Files :=
  [['p'], ['r'], ['e'], ['b']].foldl
    (fun fs path => fs.write path (Text.utf8 ((book path).write Directive.print)) ⟨0, 0⟩) .empty

def deepEngine (m : Nat) : Engine := { Engine.standard with maxDepth := m }

theorem loadFile_book :
    ((empty.loadFile (deepEngine 2) ['p'] bookFiles).1 = .ok () ∧
      ∃ b, (empty.loadFile (deepEngine 2) ['p'] bookFiles).2.1.tree.get? rootId = some b ∧
        b.content = "ArowendBrowend".toList) ∧
    (empty.loadFile (deepEngine 1) ['p'] bookFiles).1 = .error (.includeDepth 1) ∧
    ∀ m, (empty.loadFile (deepEngine m) ['b'] bookFiles).1 = .error (.includeDepth m) := by
  have hthere : ∀ m, ∀ f ∈ [['p'], ['r'], ['e'], ['b']],
      bookFiles.read ((deepEngine m).path f) = .ok ((book f).write Directive.print) ∧
        (book f).Tagged := by
    intro m f hf
    refine ⟨?_, ?_, ?_⟩
    · revert f
      exact show ∀ f ∈ [['p'], ['r'], ['e'], ['b']],
        bookFiles.read (Engine.standard.path f) = .ok ((book f).write Directive.print) by
          decide +kernel
    · revert f
      decide +kernel
    · have hmarks : ∀ f ∈ [['p'], ['r'], ['e'], ['b']], ∀ d ∈ (book f).marks,
          Inclusion.isPath d.path = true ∧ d = .standard d.path := by decide +kernel
      intro d hd
      obtain ⟨hpath, hstandard⟩ := hmarks f hf d hd
      exact hstandard ▸ Directive.plain_standard hpath
  have hstored : ∀ m, ∀ f ∈ [['p'], ['r'], ['e'], ['b']], book.Stored (deepEngine m) bookFiles f :=
    fun m f hf => Library.stored_of_closed hf (by decide +kernel) (hthere m)
  have hwithin : book.Within 3 ['p'] := by decide +kernel
  have hdeep : ¬ book.Within 2 ['p'] := by decide +kernel
  have hpage := loadFile_depth (t := empty) rfl rfl (hstored 2 ['p'] (by decide))
  have hloaded := hpage.1.mpr fun n path hc => Nat.le_of_lt_succ (hwithin n path hc)
  obtain ⟨b, hb, hpasted⟩ := hpage.2.2.1 hloaded
  have htext : book.pasted 3 ['p'] = "ArowendBrowend".toList := by decide +kernel
  refine ⟨⟨hloaded, b, hb, htext ▸ hpasted.unique (Library.pasted_spec hwithin)⟩, ?_, fun m => ?_⟩
  · refine (loadFile_depth rfl rfl (hstored 1 ['p'] (by decide))).2.1 fun h => hdeep ?_
    exact fun n path hc => Nat.lt_succ_of_le (h n path hc)
  · refine (loadFile_depth rfl rfl (hstored m ['b'] (by decide))).2.2.2 ⟨1, Nat.one_pos, ?_⟩
    exact .cons (.standard ['b']) (by decide) (.nil ['b'])

end Template

end BlockTemplate
