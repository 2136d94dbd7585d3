import BlockTemplate.Proofs.Section.Paste
import BlockTemplate.Proofs.Template.Add

/-!
# Loading files with inclusions

An inclusion is loaded into a block of its own in place of its placeholder, and the block is dissolved
into the one around it. While a file is loaded, the template reads as what lies around the file and as
the document of the file with the inclusions so far put in. At the end it reads as the document with
all files pasted.
-/

namespace BlockTemplate

open Document (Pending Sturdy Unmarked)
open Inclusion (numbered)

/-- The file holds a draft whose files are there as well, none deeper than a depth. -/
def Engine.Unfolds (e : Engine) (fs : Files) (library : Text → Draft) :
    (depth : Nat) → (file : Text) → Prop
  | 0, _ => False
  | depth + 1, file =>
    fs.read (e.path file) = .ok (library file).print ∧
      ∀ path ∈ (library file).paths,
        Inclusion.isPath path = true ∧ e.Unfolds fs library depth path

namespace Template

variable {e : Engine} {t : Template} {fs : Files} {d : Draft} {top : Text} {target : Target}

theorem tree_attachSource (h : t.tree.Sound) (ht : t.Admits top target) (source : Text) :
    (t.attachSource e top source target).2.tree.Sound := by
  rw [attachSource]
  have hfits := Fragment.fits_compile e.dialect t.tree top source target.replaced
  generalize Fragment.compile e.dialect t.tree top source target.replaced = r at hfits
  obtain ⟨r, calls⟩ := r
  have hcalls := carried_withCalls h hfits.grown (hfits.distinct h.calls)
  cases r with
  | error fault => exact hcalls.sound
  | ok f =>
    refine tree_attach e.dialect hcalls.sound (hcalls.admits ht) (hfits.ready f rfl) ?_
    have hn := hfits.named f rfl
    rw [withCalls, Tree.leavingNames_calls]
    exact ⟨hn.nodup, hn.leaving⟩

theorem attach_numbering (d : Dialect) (t : Template) (f : Fragment) (target : Target) (n : Nat) :
    (({ t with nextInclusion := n } : Template).attach d f target).2.tree =
        (t.attach d f target).2.tree ∧
      (({ t with nextInclusion := n } : Template).attach d f target).2.nextInclusion = n := by
  match target with
  | .under parent placeholder => exact ⟨rfl, rfl⟩
  | .over id keepOutput => exact ⟨rfl, rfl⟩

theorem finishLoad_none (e : Engine) (file : Text) (r : Loaded) : finishLoad e file none r = r := by
  obtain ⟨r, t, fs⟩ := r
  cases r with
  | ok x => rfl
  | error fault =>
    rw [finishLoad]
    split
    · rfl
    · rfl

theorem load_print (he : e.dialect = .standard) (hcache : e.cacheDir = none) {file : Text}
    (hread : fs.read (e.path file) = .ok d.print)
    (hpaths : ∀ path ∈ d.paths, Inclusion.isPath path = true)
    (hclean : ((d.marked t.nextInclusion).page []).clean = true)
    (hattach : (t.attachSource e top (d.marked t.nextInclusion).print target).1 = .ok ())
    (allowed : Nat) :
    ∃ u : Template,
      u.tree = (t.attachSource e top (d.marked t.nextInclusion).print target).2.tree ∧
      u.nextInclusion = t.nextInclusion + d.paths.length ∧
      load e (allowed + 1) file top target t fs =
        pullAll e.dialect (load e allowed) (Inclusion.number t.nextInclusion d.paths) none u fs := by
  have hsaved : e.savedSnapshot? fs file = none := by
    rw [Engine.savedSnapshot?, hcache]
    rfl
  have hextract := Draft.extract_print t.nextInclusion hclean hpaths
  rw [attachSource] at hattach ⊢
  rw [load, prepare, hsaved]
  simp only [prepareFile, hread, prepareText, he, hextract, Inclusion.length_number] at hattach ⊢
  generalize Fragment.compile .standard t.tree top (d.marked t.nextInclusion).print
    target.replaced = r at hattach ⊢
  obtain ⟨r, calls⟩ := r
  cases r with
  | error fault => cases hattach
  | ok f =>
    obtain ⟨htree, hnext⟩ := attach_numbering .standard (t.withCalls calls) f target
      (t.nextInclusion + d.paths.length)
    refine ⟨_, htree, hnext, ?_⟩
    simp only [hcache, Option.isSome_none, Bool.and_false, Bool.false_eq_true, if_false,
      finishLoad_none]
    rfl

structure Room (R : List Section) (top : Text) (start : Nat) (d : Document) : Prop where
  listed : ∀ r ∈ R, r.Listed
  vars : ∀ r ∈ R, ∀ k, start ≤ k → numbered k ∉ r.vars
  names : ∀ r ∈ R, ∀ k, start ≤ k → r.name ≠ numbered k
  top_name : ∀ k, start ≤ k → top ≠ numbered k
  nodup : (top :: d.names).Nodup
  apart : ∀ r ∈ R, r.name ∉ top :: d.names

/--
A file is loaded but for some of its inclusions: beside the sections `R` around it, the template reads
as sections `S` of the document `d`, in which the inclusions `is` are still to be put in.
-/
structure Partly (f : Text → Document) (R : List Section) (top : Text) (start : Nat)
    (is : List Inclusion) (d : Document) (S : List Section) (t : Template) : Prop where
  sound : t.tree.Sound
  reads : t.tree.Reads (R ++ S)
  sturdy : ∀ s ∈ S, s.Sturdy
  sections : Section.Match S (d.sections top)
  pending : Pending f is d
  numbers : ∀ i ∈ is, ∃ k, start ≤ k ∧ k < t.nextInclusion ∧ i.name = numbered k
  unused : ∀ k, t.nextInclusion ≤ k → d.Unused (numbered k)
  grown : start ≤ t.nextInclusion

def Pastes (load : Text → Text → Target → Template → Files → Loaded) (fs : Files)
    (f : Text → Document) (path : Text) : Prop :=
  ∀ (t : Template) (k : Nat) (parent : BlockId) (S others : List Section) (s : Section),
    t.tree.Sound → t.tree.Reads S → (∀ r ∈ S, r.Listed) →
    Section.Alone (numbered k) S s others → s.Sturdy → t.tree.owner (numbered k) = .ok parent →
    Room (s.adopt (numbered k) (numbered k) :: others) (numbered k) t.nextInclusion (f path) →
    ∃ u T, load path (numbered k) (.under parent (numbered k)) t fs = (.ok (), u, fs) ∧
      Partly f (s.adopt (numbered k) (numbered k) :: others) (numbered k) t.nextInclusion []
        (f path) T u

section Step

variable {p name : Text} {body : Document} {D E : Document} {R S S₁ T T₁ others : List Section}
  {s x : Section}

structure Found (p top : Text) (D : Document) (S : List Section) (name : Text) (body : Document)
    (others : List Section) (s : Section) (S₁ : List Section) : Prop where
  place : Document.Place p (D.sections top) (fun E => (D.fill p E).sections top) name body others
  perm : S.Perm (s :: S₁)
  order : s.Reorders (body.own name)
  rest : Section.Match S₁ others

theorem exists_found (h : D.UsedOnce p) (hm : Section.Match S (D.sections top)) :
    ∃ name body others s S₁, Found p top D S name body others s S₁ := by
  obtain ⟨name, body, others, hplace⟩ := D.exists_place h top
  obtain ⟨s, S₁, hperm, horder, hrest⟩ := (hm.perm hplace.here).uncons
  exact ⟨name, body, others, s, S₁, hplace, hperm, horder, hrest⟩

namespace Found

variable (h : Found p top D S name body others s S₁)
include h

theorem mem_iff (r : Section) : r ∈ S ↔ r = s ∨ r ∈ S₁ := h.perm.mem_iff.trans List.mem_cons

theorem alone (hn : (top :: D.names).Nodup) (hm : Section.Match S (D.sections top))
    (hR : ∀ r ∈ R, r.name ∉ top :: D.names) (hp : ∀ r ∈ R, p ∉ r.vars) :
    Section.Alone p (R ++ S) s (R ++ S₁) := by
  have halone := alone_of_place h.place hn
  refine ⟨?_, ?_, h.order.vars.mem_iff.mp halone.here, ?_⟩
  · intro r
    rw [List.mem_append, h.mem_iff, List.mem_append, or_left_comm]
  · intro r hr
    rcases List.mem_append.mp hr with hr | hr
    · intro he
      exact hR r hr (he ▸ hm.name_mem ((h.mem_iff s).mpr (.inl rfl)))
    · obtain ⟨r', hr', hrr⟩ := h.rest.forth hr
      rw [← hrr.name, ← h.order.name]
      exact halone.names r' hr'
  · intro r hr
    rcases List.mem_append.mp hr with hr | hr
    · exact hp r hr
    · obtain ⟨r', hr', hrr⟩ := h.rest.forth hr
      exact fun hm => halone.apart r' hr' (hrr.vars.mem_iff.mpr hm)

theorem paste (hnot : p ∉ D.names) (hx : x.Reorders (E.own p)) (hT : Section.Match T₁ E.inner) :
    Section.Match (s.paste p x :: (S₁ ++ T₁)) ((D.fill p E).sections top) := by
  have hbody : body.own name ∈ D.sections top := h.place.here.mem_iff.mpr List.mem_cons_self
  have hkids : p ∉ body.childNames := fun hm => hnot (D.children_subset top _ hbody p hm)
  exact ((h.rest.append hT).cons
    (Section.reorders_paste h.order hx h.place.bare h.place.once hkids)).perm (h.place.filled E).symm

end Found

variable {f : Text → Document} {start k : Nat} {i : Inclusion} {is : List Inclusion}

theorem Partly.name_mem (h : Partly f R top start is D S t) {r : Section} (hr : r ∈ S) :
    r.name ∈ top :: (D.fills f is).names :=
  (List.mem_cons.mp (h.sections.name_mem hr)).elim (fun he => he ▸ List.mem_cons_self) fun hn =>
    List.mem_cons_of_mem _ (h.pending.names.mem_iff.mpr (List.mem_append_left _ hn))

theorem Partly.room (h : Partly f R top start (i :: is) D S t)
    (hr : Room R top start (D.fills f (i :: is)))
    (hm : ∀ k, numbered k ∉ (D.fills f (i :: is)).names) (hs : start ≤ k)
    (hk : k < t.nextInclusion) (hf : Found (numbered k) top D S name body others s S₁) :
    Room (s.adopt (numbered k) (numbered k) :: (R ++ S₁)) (numbered k) t.nextInclusion
      (f i.path) := by
  -- Each section around the file is one of those before, but for the placeholder.
  have hold : ∀ r ∈ s.adopt (numbered k) (numbered k) :: (R ++ S₁), ∃ r', (r' ∈ R ∨ r' ∈ S) ∧
      r.name = r'.name ∧ (∀ v ∈ r.vars, v ∈ r'.vars) ∧ r.Listed := by
    intro r hmem
    rcases List.mem_cons.mp hmem with rfl | hmem
    · have hin := (hf.mem_iff s).mpr (.inl rfl)
      exact ⟨s, .inr hin, rfl, fun v hv => List.mem_of_mem_filter hv,
        (h.sturdy s hin).clear.listed.adopt⟩
    · rcases List.mem_append.mp hmem with hmem | hmem
      · exact ⟨r, .inl hmem, rfl, fun v hv => hv, hr.listed r hmem⟩
      · have hin := (hf.mem_iff r).mpr (.inr hmem)
        exact ⟨r, .inr hin, rfl, fun v hv => hv, (h.sturdy r hin).clear.listed⟩
  have hnumber : ∀ j, start ≤ j → numbered j ∉ top :: (D.fills f (i :: is)).names := by
    intro j hj hmem
    rcases List.mem_cons.mp hmem with he | hmem
    · exact hr.top_name j hj he.symm
    · exact hm j hmem
  have hnames : (top :: (D.names ++ ((f i.path).names ++
      is.flatMap fun j => (f j.path).names))).Nodup :=
    (h.pending.names.cons top).nodup_iff.mp hr.nodup
  rw [← List.cons_append, List.nodup_append] at hnames
  obtain ⟨-, hfiles, hdis⟩ := hnames
  have hsub : ∀ n ∈ (f i.path).names, n ∈ (D.fills f (i :: is)).names := fun n hn =>
    h.pending.names.mem_iff.mpr (List.mem_append_right _ (List.mem_append_left _ hn))
  refine ⟨fun r hmem => ?_, fun r hmem j hj hv => ?_, fun r hmem j hj he => ?_, fun j hj he => ?_,
    List.nodup_cons.mpr ⟨fun hn => hm k (hsub _ hn), (List.nodup_append.mp hfiles).1⟩,
    fun r hmem hn => ?_⟩
  · obtain ⟨r', -, -, -, hlisted⟩ := hold r hmem
    exact hlisted
  · obtain ⟨r', hin, -, hvars, -⟩ := hold r hmem
    rcases hin with hin | hin
    · exact hr.vars r' hin j (h.grown.trans hj) (hvars _ hv)
    · obtain ⟨r'', hin', hrr⟩ := h.sections.forth hin
      exact D.not_mem_vars_sections (h.unused j hj) top r'' hin' (hrr.vars.mem_iff.mpr (hvars _ hv))
  · obtain ⟨r', hin, hname, -, -⟩ := hold r hmem
    rcases hin with hin | hin
    · exact hr.names r' hin j (h.grown.trans hj) (hname.symm.trans he)
    · exact hnumber j (h.grown.trans hj) (he ▸ hname ▸ h.name_mem hin)
  · have heq := Inclusion.numbered_inj he
    omega
  · obtain ⟨r', hin, hname, -, -⟩ := hold r hmem
    rw [hname] at hn
    rcases hin with hin | hin
    · rcases List.mem_cons.mp hn with he | hn
      · exact hr.names r' hin k hs he
      · exact hr.apart r' hin (List.mem_cons_of_mem _ (hsub _ hn))
    · rcases List.mem_cons.mp hn with he | hn
      · exact hnumber k hs (he ▸ h.name_mem hin)
      · exact hdis _ (h.sections.name_mem hin) _ (List.mem_append_left _ hn) rfl

theorem Room.nested {T : List Section}
    (h : Room (s.adopt p p :: (R ++ S₁)) p start E) (halone : Section.Alone p (R ++ S) s (R ++ S₁))
    (hperm : T.Perm (x :: T₁)) (hx : x.name = p) (hT : ∀ r ∈ T₁, r.name ∈ E.names) :
    Section.Nested p (s.adopt p p :: (R ++ S₁) ++ T) (s.adopt p p) x (R ++ (S₁ ++ T₁)) where
  mem := by
    intro r
    have hmem : r ∈ T ↔ r = x ∨ r ∈ T₁ := hperm.mem_iff.trans List.mem_cons
    simp only [List.cons_append, List.mem_cons, List.mem_append, hmem]
    tauto
  name := hx
  child := List.mem_append_right _ (List.mem_singleton_self _)
  apart := by
    intro r hin
    rw [← List.append_assoc] at hin
    rcases List.mem_append.mp hin with hin | hin
    · refine ⟨halone.names r hin, fun he => h.apart r (List.mem_cons_of_mem _ hin) ?_⟩
      exact he ▸ List.mem_cons_self
    · refine ⟨fun he => ?_, fun he => (List.nodup_cons.mp h.nodup).1 (he ▸ hT r hin)⟩
      exact h.apart _ List.mem_cons_self (List.mem_cons_of_mem _ (he ▸ hT r hin))

theorem Partly.nodup_names (h : Partly f R top start is D S t)
    (hr : Room R top start (D.fills f is)) : (top :: D.names).Nodup := by
  have hall := (h.pending.names.cons top).nodup_iff.mp hr.nodup
  rw [← List.cons_append] at hall
  exact (List.nodup_append.mp hall).1

theorem Partly.paste {path : Text} {u v : Template} {T : List Section}
    (h : Partly f R top start (⟨numbered k, path⟩ :: is) D S t) (hnot : numbered k ∉ D.names)
    (hk : k < t.nextInclusion) (hf : Found (numbered k) top D S name body others s S₁)
    (hu : Partly f (s.adopt (numbered k) (numbered k) :: (R ++ S₁)) (numbered k) t.nextInclusion []
      (f path) T u)
    (hperm : T.Perm (x :: T₁)) (hx : x.Reorders ((f path).own (numbered k)))
    (hT : Section.Match T₁ (f path).inner) (hv : v.tree.Sound)
    (hreads : v.tree.Reads (s.paste (numbered k) x :: (R ++ (S₁ ++ T₁))))
    (hnext : v.nextInclusion = u.nextInclusion) :
    Partly f R top start is (D.fill (numbered k) (f path)) (s.paste (numbered k) x :: (S₁ ++ T₁))
      v where
  sound := hv
  reads := by
    refine hreads.congr ?_
    intro r
    simp only [List.mem_append, List.mem_cons]
    tauto
  sturdy := by
    have hheld := h.sturdy s ((hf.mem_iff s).mpr (.inl rfl))
    have hfile : ∀ r, r = x ∨ r ∈ T₁ → r.Sturdy := fun r hr =>
      hu.sturdy r (hperm.mem_iff.mpr (List.mem_cons.mpr hr))
    refine List.forall_mem_cons.mpr ⟨hheld.adopt.absorb (hfile x (.inl rfl)), ?_⟩
    exact List.forall_mem_append.mpr ⟨fun r hin => h.sturdy r ((hf.mem_iff r).mpr (.inr hin)),
      fun r hin => hfile r (.inr hin)⟩
  sections := hf.paste hnot hx hT
  pending := h.pending.tail
  numbers := by
    intro j hj
    obtain ⟨l, hsl, hl, hjl⟩ := h.numbers j (List.mem_cons_of_mem _ hj)
    exact ⟨l, hsl, hnext ▸ hl.trans_le hu.grown, hjl⟩
  unused := by
    intro j hj
    have hjt := hu.grown.trans (hnext ▸ hj)
    refine (h.unused j hjt).fill (fun he => ?_) (h.pending.unused List.mem_cons_self j)
    have heq := Inclusion.numbered_inj he
    omega
  grown := hnext ▸ h.grown.trans hu.grown

theorem Partly.pull (he : e.dialect = .standard) (h : Partly f R top start (i :: is) D S t)
    (hr : Room R top start (D.fills f (i :: is)))
    (hm : ∀ k, numbered k ∉ (D.fills f (i :: is)).names)
    {load : Text → Text → Target → Template → Files → Loaded} (hload : Pastes load fs f i.path) :
    ∃ u T, Template.pull e.dialect load i t fs = (.ok (), u, fs) ∧
      Partly f R top start is (D.fill i.name (f i.path)) T u := by
  obtain ⟨k, hs, hk, hi⟩ := h.numbers i List.mem_cons_self
  obtain ⟨n, path⟩ := i
  subst hi
  obtain ⟨name, body, others, s, S₁, hf⟩ :=
    exists_found (h.pending.once _ List.mem_cons_self) h.sections
  have hsub : ∀ n ∈ D.names, n ∈ (D.fills f (⟨numbered k, path⟩ :: is)).names := fun n hn =>
    h.pending.names.mem_iff.mpr (List.mem_append_left _ hn)
  have halone : Section.Alone (numbered k) (R ++ S) s (R ++ S₁) := by
    refine hf.alone (h.nodup_names hr) h.sections (fun r hin hn => hr.apart r hin ?_)
      fun r hin => hr.vars r hin k hs
    exact (List.mem_cons.mp hn).elim (fun he => he ▸ List.mem_cons_self) fun hn =>
      List.mem_cons_of_mem _ (hsub _ hn)
  have hheld := h.sturdy s ((hf.mem_iff s).mpr (.inl rfl))
  have hlisted : ∀ r ∈ R ++ S, r.Listed := List.forall_mem_append.mpr
    ⟨hr.listed, fun r hin => (h.sturdy r hin).clear.listed⟩
  have hroom := h.room hr hm hs hk hf
  obtain ⟨parent, b, howner, -, -⟩ := h.reads.owner h.sound halone
  -- The file is loaded into a block of its own ...
  obtain ⟨u, T, hloaded, hu⟩ := hload t k parent (R ++ S) (R ++ S₁) s h.sound h.reads hlisted halone
    hheld howner hroom
  obtain ⟨x, T₁, hperm, hx, hT⟩ := Section.Match.uncons hu.sections
  have hinner : ∀ r ∈ T₁, r.name ∈ (f path).names := by
    intro r hin
    obtain ⟨r', hin', hrr⟩ := hT.forth hin
    rw [← (f path).map_name_inner, ← hrr.name]
    exact List.mem_map_of_mem hin'
  have hnest := hroom.nested halone hperm hx.name.symm hinner
  -- ... which is then dissolved into the one around it.
  obtain ⟨id, hlookup, hsound, hreads⟩ := Tree.reads_dissolve hu.sound hu.reads hnest
    hheld.adopt.clear (Section.clear_child_numbered k) (hheld.adopt.tokens k)
  refine ⟨{ u with tree := u.tree.dissolve id (Markup.token (childName (numbered k))) }, _, ?_,
    h.paste (fun hn => hm k (hsub _ hn)) hk hf hu hperm hx hT hsound hreads rfl⟩
  rw [Template.pull, howner]
  simp only [hloaded, hlookup, he]
  rfl

theorem Partly.pullAll (he : e.dialect = .standard) (h : Partly f R top start is D S t)
    (hr : Room R top start (D.fills f is)) (hm : ∀ k, numbered k ∉ (D.fills f is).names)
    {load : Text → Text → Target → Template → Files → Loaded}
    (hload : ∀ i ∈ is, Pastes load fs f i.path) :
    ∃ u T, Template.pullAll e.dialect load is none t fs = (.ok (), u, fs) ∧
      Partly f R top start [] (D.fills f is) T u := by
  induction is generalizing D S t with
  | nil => exact ⟨t, S, rfl, h⟩
  | cons i is ih =>
    obtain ⟨u, T, hpull, hu⟩ := h.pull he hr hm (hload i List.mem_cons_self)
    obtain ⟨v, U, hrest, hv⟩ := ih hu hr hm fun j hj => hload j (List.mem_cons_of_mem _ hj)
    exact ⟨v, U, by rw [Template.pullAll, hpull, ← hrest], hv⟩

theorem Partly.of_nil {g : Text → Document} (h : Partly f R top start [] D S t) :
    Partly g R top start [] D S t :=
  ⟨h.sound, h.reads, h.sturdy, h.sections,
    ⟨List.forall_mem_nil _, List.nodup_nil, List.forall_mem_nil _, List.forall_mem_nil _⟩,
    List.forall_mem_nil _, h.unused, h.grown⟩

/-- A file whose draft was attached is loaded as the document with all files pasted. -/
theorem load_partly (he : e.dialect = .standard) (hcache : e.cacheDir = none) {file : Text}
    {allowed : Nat} (hread : fs.read (e.path file) = .ok d.print)
    (hpaths : ∀ path ∈ d.paths, Inclusion.isPath path = true) (hd : (d.expand f).Sturdy)
    (hload : ∀ path ∈ d.paths, Pastes (load e allowed) fs f path)
    (hroom : Room R top t.nextInclusion (d.expand f)) (hadmits : t.Admits top target)
    (hsound : t.tree.Sound)
    (hattach : (t.attachSource e top (d.marked t.nextInclusion).print target).1 = .ok () ∧
      (t.attachSource e top (d.marked t.nextInclusion).print target).2.tree.Reads
        (R ++ (d.marked t.nextInclusion).sections top)) :
    ∃ u T, load e (allowed + 1) file top target t fs = (.ok (), u, fs) ∧
      Partly f R top t.nextInclusion [] (d.expand f) T u := by
  have hplain := Draft.plain_marked t.nextInclusion hd.plain
  obtain ⟨u, htree, hnext, hloaded⟩ :=
    load_print he hcache hread hpaths hplain.page.clean hattach.1 allowed
  have hfills := Draft.fills_marked t.nextInclusion hd.unmarked
  have hstart : Partly f R top t.nextInclusion (Inclusion.number t.nextInclusion d.paths)
      (d.marked t.nextInclusion) ((d.marked t.nextInclusion).sections top) u := by
    refine ⟨htree ▸ tree_attachSource hsound hadmits _, htree ▸ hattach.2,
      Draft.sturdy_sections t.nextInclusion top hd, .refl _, Draft.pending_marked _ hd, ?_, ?_,
      by omega⟩
    · intro i hi
      obtain ⟨-, k, hle, hlt, hk⟩ := Inclusion.mem_number hi
      exact ⟨k, hle, hnext ▸ hlt, hk⟩
    · intro k hk
      exact ⟨Draft.absent_marked hd.unmarked (.inr (hnext ▸ hk)),
        d.bare_marked f t.nextInclusion (hd.unmarked.vars k).bare⟩
  obtain ⟨v, T, hpull, hv⟩ := hstart.pullAll he (hfills ▸ hroom) (hfills ▸ hd.unmarked.names)
    fun i hi => hload i.path (Inclusion.mem_number hi).1
  exact ⟨v, T, hloaded.trans hpull, hfills ▸ hv⟩

theorem pastes_load (he : e.dialect = .standard) (hcache : e.cacheDir = none)
    {library : Text → Draft} {depth : Nat} {file : Text} (h : e.Unfolds fs library depth file)
    (hd : (Draft.expansion library depth file).Sturdy) :
    Pastes (load e depth) fs (Draft.expansion library depth) file := by
  induction depth generalizing file with
  | zero => exact h.elim
  | succ depth ih =>
    obtain ⟨hread, hpaths⟩ := h
    intro t k parent S others s hsound hreads hlisted halone hs howner hroom
    have hfiles : ∀ path ∈ (library file).paths,
        Pastes (load e depth) fs (Draft.expansion library depth) path := fun path hp =>
      ih (hpaths path hp).2 ((library file).sturdy_of_expand _ hd path hp)
    have hnames : ∀ n ∈ numbered k :: ((library file).marked t.nextInclusion).names,
        t.tree.contains n = false := by
      intro n hn
      rw [Tree.contains_eq_false_iff]
      intro id b hb hbn
      obtain ⟨r, hr, hrn⟩ := hreads.blocks.only id b hb
      have hin : n ∈ numbered k :: (Draft.expansion library (depth + 1) file).names :=
        List.mem_cons.mpr ((List.mem_cons.mp hn).imp_right fun hn =>
          ((library file).names_marked_sublist _ _).subset hn)
      rcases (halone.mem r).mp hr with rfl | hr
      · exact hroom.apart _ List.mem_cons_self ((hrn.trans hbn).symm ▸ hin)
      · exact hroom.apart r (List.mem_cons_of_mem _ hr) ((hrn.trans hbn).symm ▸ hin)
    have hnodup : (numbered k :: ((library file).marked t.nextInclusion).names).Nodup :=
      hroom.nodup.sublist (((library file).names_marked_sublist _ _).cons_cons _)
    have hadd := reads_addBlock he hsound hreads hlisted halone hs.clear
      (Inclusion.isMemo_numbered k) (fun m _ hm => absurd (congrArg (·.headD 'a') hm)
        (show ¬ '_' = 't' by decide)) (Draft.plain_marked t.nextInclusion hd.plain) hnodup hnames
    have hplace : t.placeFor (numbered k) (numbered k) = .ok parent := by
      rw [placeFor, hnames _ List.mem_cons_self]
      exact howner
    rw [addBlock, hplace] at hadd
    have hadmits : t.Admits (numbered k) (.under parent (numbered k)) := by
      obtain ⟨b, hb, -⟩ := Tree.live_of_owner hsound.tree howner
      exact ⟨b, hb⟩
    obtain ⟨u, T, hloaded, hu⟩ := load_partly he hcache hread (fun path hp => (hpaths path hp).1) hd
      hfiles hroom hadmits hsound hadd
    exact ⟨u, T, hloaded, hu.of_nil⟩

end Step

theorem reads_empty : Tree.empty.Reads (Document.nil.sections rootName) where
  blocks := by
    refine ⟨?_, ?_⟩
    · intro s hs
      have hown := List.mem_singleton.mp hs
      subst hown
      exact ⟨rootId, _, rfl, ⟨rfl, rfl, rfl, rfl⟩, rfl⟩
    · intro id b hb
      rw [Tree.get?_empty] at hb
      split at hb
      · cases hb
        exact ⟨_, List.mem_cons_self, rfl⟩
      · cases hb
  calls := by
    intro c
    refine ⟨?_, ?_⟩
    · rintro ⟨id, hid⟩
      exact absurd hid (by simp [CallTable.get?, Tree.empty, CallTable.empty])
    · rintro ⟨s, hs, hc⟩
      have hown := List.mem_singleton.mp hs
      subst hown
      cases hc

/--
Including files is pasting them: a template loaded from a file is the one that the source with all
files pasted compiles to, up to numbers and the order in which each block lists things.
-/
theorem loadFile_expansion (he : e.dialect = .standard) (hcache : e.cacheDir = none)
    {library : Text → Draft} {main : Text} (h : e.Unfolds fs library (e.maxDepth + 1) main)
    {x : Document} (hx : Draft.expansion library (e.maxDepth + 1) main = x) (hp : x.Plain)
    (hn : x.names.Nodup) (hroot : rootName ∉ x.names) (hnumber : x.Unnumbered) (hm : x.Unmarked) :
    (t.loadFile e main fs).1 = .ok () ∧ ∃ u, compile e x.print = .ok u ∧
      (t.loadFile e main fs).2.1.tree.AlikeUpToOrder u.tree := by
  subst hx
  obtain ⟨hread, hpaths⟩ := h
  have hd : (Draft.expansion library (e.maxDepth + 1) main).Sturdy := ⟨hp, hnumber, hm⟩
  let blank : Template := { t with tree := .empty, state := {}, nextInclusion := 0 }
  have hnodup : (rootName :: (Draft.expansion library (e.maxDepth + 1) main).names).Nodup :=
    List.nodup_cons.mpr ⟨hroot, hn⟩
  have hroom : Room [] rootName blank.nextInclusion
      (Draft.expansion library (e.maxDepth + 1) main) := by
    refine ⟨List.forall_mem_nil _, List.forall_mem_nil _, List.forall_mem_nil _, fun k _ hk => ?_,
      hnodup, List.forall_mem_nil _⟩
    exact absurd (congrArg (·.headD 'a') hk) (show ¬ '_' = 't' by decide)
  have hsub := (library main).names_marked_sublist
    (Draft.expansion library e.maxDepth) blank.nextInclusion
  have hunder : ∀ n, Lookup.NameUnder blank.tree.get? rootId n ↔ n ∈ [rootName] := fun n =>
    reads_empty.blocks.nameUnder_iff (b := { name := rootName, content := [] })
      Tree.sound_empty.distinct rfl fun s hs => hs
  have hnone : ∀ s, s ∈ ([] : List Section) ↔ s ∈ Document.nil.sections rootName ∧
      ¬ Lookup.NameUnder blank.tree.get? rootId s.name := by
    refine fun s => ⟨fun hs => absurd hs List.not_mem_nil, ?_⟩
    rintro ⟨hs, hout⟩
    exact absurd ((hunder s.name).mpr (List.mem_singleton.mpr (List.mem_singleton.mp hs ▸ rfl))) hout
  have hlookup : blank.tree.lookup rootName = .ok rootId := rfl
  -- The file goes over the root of an empty tree, from which all its inclusions are pulled in.
  have hattach := reads_replaceBlock he Tree.sound_empty reads_empty
    (Document.nil.listed_sections rootName) hlookup (Draft.plain_marked blank.nextInclusion hp)
    (hnodup.sublist (hsub.cons_cons rootName))
    (fun n hn hc => (hunder n).mpr (Fragment.eq_rootName_of_contains hc ▸ List.mem_cons_self)) hnone
    (Document.listed_sections _ rootName) false
  rw [replaceBlock, hlookup] at hattach
  have hadmits : blank.Admits rootName (.over rootId false) :=
    ⟨{ name := rootName, content := [] }, rfl, rfl⟩
  obtain ⟨u, T, hloaded, hu⟩ := load_partly he hcache hread (fun path hpath => (hpaths path hpath).1)
    hd (fun path hpath => pastes_load he hcache (hpaths path hpath).2
      ((library main).sturdy_of_expand _ hd path hpath)) hroom hadmits Tree.sound_empty hattach
  obtain ⟨v, hv, -⟩ := represents_compile he hp hnodup
  have hblank : ({ t with tree := .empty, state := {}, nextInclusion := 0 } : Template) = blank := rfl
  have hfile : t.loadFile e main fs =
      (.ok (), ({ u with state := t.state, current := rootId } : Template).renew, fs) := by
    rw [loadFile, hblank, loadTop, hloaded]
  rw [hfile]
  exact ⟨rfl, v, hv, Tree.Paired.alikeUpToOrder ⟨hu.sound, (sound_compile hv).tree, hu.reads,
    reads_compile he hp hv, fun s hs => hu.sections.forth hs, fun s hs => hu.sections.back hs,
    fun s s' hs => hs, fun s hs => (hu.sturdy s hs).clear⟩⟩

def shelf (drafts : List (Text × Draft)) : Files :=
  drafts.foldl (fun fs x => fs.write x.1 (Text.utf8 x.2.print) ⟨0, 0⟩) .empty

def draftAt (drafts : List (Text × Draft)) (path : Text) : Draft := (drafts.lookup path).getD .nil

def listing : List (Text × Draft) :=
  [("list.html".toList, .text "List ".toList <| .block "row".toList
      (.filtered "name".toList "h".toList <| .inclusion "parts/cell.html".toList .nil) <|
        .inclusion "foot.html".toList .nil),
    ("parts/cell.html".toList, .block "cell".toList
      (.call "u".toList ["\x7bname\x7d".toList] <| .inclusion "foot.html".toList .nil) .nil),
    ("foot.html".toList, .placeholder "end".toList .nil)]

def listed : Document :=
  .text "List ".toList <| .block "row".toList
    (.filtered "name".toList "h".toList <| .block "cell".toList
      (.call "u".toList ["\x7bname\x7d".toList] <| .placeholder "end".toList .nil) .nil) <|
    .placeholder "end".toList .nil

theorem loadFile_listing : Draft.expansion (draftAt listing) 65 "list.html".toList = listed ∧
    (empty.loadFile .standard "list.html".toList (shelf listing)).1 = .ok () ∧
    ∃ u, compile .standard listed.print = .ok u ∧
      (empty.loadFile .standard "list.html".toList (shelf listing)).2.1.tree.AlikeUpToOrder
        u.tree := by
  have hfoot : ∀ depth, Engine.standard.Unfolds (shelf listing) (draftAt listing) (depth + 1)
      "foot.html".toList := fun depth => ⟨by decide +kernel, List.forall_mem_nil _⟩
  have hcell : Engine.standard.Unfolds (shelf listing) (draftAt listing) 64
      "parts/cell.html".toList :=
    ⟨by decide +kernel, List.forall_mem_singleton.mpr ⟨by decide, hfoot 62⟩⟩
  have hlist : Engine.standard.Unfolds (shelf listing) (draftAt listing) 65 "list.html".toList :=
    ⟨by decide +kernel, List.forall_mem_cons.mpr
      ⟨⟨by decide, hcell⟩, List.forall_mem_singleton.mpr ⟨by decide, hfoot 63⟩⟩⟩
  have hexpansion : Draft.expansion (draftAt listing) 65 "list.html".toList = listed := by
    decide +kernel
  have hplain : listed.Plain := ⟨⟨by decide, by decide, by decide⟩, by decide⟩
  have hbare : ∀ k, listed.Bare (numbered k) := fun k =>
    ⟨⟨fun hk => absurd (congrArg List.head? hk) (show ¬ some 'n' = some 't' by decide),
      ⟨Inclusion.numbered_not_mem (by decide) k, trivial⟩, trivial⟩, trivial⟩
  have hunmarked : listed.Unmarked :=
    ⟨fun k => ⟨Inclusion.numbered_not_mem (by decide) k, hbare k⟩,
      Inclusion.numbered_not_mem (by decide),
      fun k => Inclusion.childName_not_mem (by decide) (numbered k)⟩
  exact ⟨hexpansion, loadFile_expansion rfl rfl hlist hexpansion hplain (by decide) (by decide)
    (show ∀ n ∈ listed.names, CallId.isMemo (childName n) = false by decide) hunmarked⟩

def shadowed : List (Text × Draft) :=
  [("main.html".toList, .placeholder "__trigger_0__".toList (.inclusion "a.html".toList .nil)),
    ("a.html".toList, .text "x".toList .nil)]

def swapped : List (Text × Draft) :=
  [("main.html".toList, .inclusion "a.html".toList <| .block "b".toList (.text "y".toList .nil) <|
      .placeholder "v".toList <| .call "u".toList ["1".toList] .nil),
    ("a.html".toList, .block "c".toList (.text "z".toList .nil) <|
      .placeholder "w".toList <| .call "u".toList ["2".toList] .nil)]

def shadowedPage : Document := .placeholder "__trigger_0__".toList (.text "x".toList .nil)

def swappedPage : Document :=
  .block "c".toList (.text "z".toList .nil) <| .placeholder "w".toList <|
    .call "u".toList ["2".toList] <| .block "b".toList (.text "y".toList .nil) <|
      .placeholder "v".toList <| .call "u".toList ["1".toList] .nil

theorem shadowed_not_alike {u : Template} (hu : compile .standard shadowedPage.print = .ok u) :
    ¬ (empty.loadFile .standard "main.html".toList (shelf shadowed)).2.1.tree.AlikeUpToOrder
      u.tree := by
  intro h
  have hloaded : ((empty.loadFile .standard "main.html".toList
      (shelf shadowed)).2.1.tree.get? rootId).map (fun b => (b.calls, b.content)) =
      some ([], "xx".toList) := by decide +kernel
  have hpasted : (compile .standard shadowedPage.print).toOption.map
      (fun u => (u.tree.get? rootId).map (·.content)) =
      some (some "\x7b__trigger_0__\x7dx".toList) := by decide +kernel
  obtain ⟨b, hb, hbc⟩ := Option.map_eq_some_iff.mp hloaded
  obtain ⟨hcalls, hcontent⟩ := Prod.mk.inj hbc
  have hroot := h.root_content hb hcalls
  rw [hu, Except.toOption, Option.map_some, hroot, hcontent] at hpasted
  revert hpasted
  decide

def loadedLists : Tree.Lists :=
  ⟨[some "b".toList, some "c".toList], ["v".toList, "w".toList],
    [some ⟨"u".toList, ["1".toList]⟩, some ⟨"u".toList, ["2".toList]⟩]⟩

def pastedLists : Tree.Lists :=
  ⟨[some "c".toList, some "b".toList], ["w".toList, "v".toList],
    [some ⟨"u".toList, ["2".toList]⟩, some ⟨"u".toList, ["1".toList]⟩]⟩

theorem rootLists_swapped :
    (empty.loadFile .standard "main.html".toList (shelf swapped)).2.1.tree.rootLists =
      some loadedLists ∧
    ∀ u, compile .standard swappedPage.print = .ok u → u.tree.rootLists = some pastedLists := by
  refine ⟨by decide +kernel, fun u hu => ?_⟩
  have hpasted : (compile .standard swappedPage.print).toOption.map (·.tree.rootLists) =
      some (some pastedLists) := by decide +kernel
  rw [hu] at hpasted
  exact Option.some.inj hpasted

/--
Neither the names of these placeholders nor the order of the lists, of children, of variables and of
calls, can be left out of account.
-/
theorem loadFile_not_alike :
    (Draft.expansion (draftAt shadowed) 65 "main.html".toList = shadowedPage ∧
      shadowedPage.Plain ∧ shadowedPage.names = [] ∧ (∀ k, shadowedPage.Unused (numbered k)) ∧
      Engine.standard.Unfolds (shelf shadowed) (draftAt shadowed) 65 "main.html".toList ∧
      ∃ u, compile .standard shadowedPage.print = .ok u ∧
        ¬ (empty.loadFile .standard "main.html".toList (shelf shadowed)).2.1.tree.AlikeUpToOrder
          u.tree) ∧
    Draft.expansion (draftAt swapped) 65 "main.html".toList = swappedPage ∧
      swappedPage.Plain ∧ swappedPage.names = ["c".toList, "b".toList] ∧ swappedPage.Unmarked ∧
      Engine.standard.Unfolds (shelf swapped) (draftAt swapped) 65 "main.html".toList ∧
      ∃ u, compile .standard swappedPage.print = .ok u ∧
        ¬ (empty.loadFile .standard "main.html".toList (shelf swapped)).2.1.tree.Alike u.tree ∧
        (empty.loadFile .standard "main.html".toList (shelf swapped)).2.1.tree.rootLists =
          some loadedLists ∧
        u.tree.rootLists = some pastedLists := by
  have hshadowed : shadowedPage.Plain := ⟨⟨by decide, by decide, by decide⟩, by decide⟩
  have hswapped : swappedPage.Plain := ⟨⟨by decide, by decide, by decide⟩, by decide⟩
  have hbare : ∀ k, swappedPage.Bare (numbered k) := fun k =>
    ⟨trivial, Inclusion.numbered_not_mem (by decide) k, trivial,
      Inclusion.numbered_not_mem (by decide) k, trivial⟩
  have hunmarked : swappedPage.Unmarked :=
    ⟨fun k => ⟨Inclusion.numbered_not_mem (by decide) k, hbare k⟩,
      Inclusion.numbered_not_mem (by decide),
      fun k => Inclusion.childName_not_mem (by decide) (numbered k)⟩
  obtain ⟨u, hu, -⟩ := represents_compile (e := .standard) rfl hshadowed (by decide)
  obtain ⟨v, hv, -⟩ := represents_compile (e := .standard) rfl hswapped (by decide)
  have hloaded := rootLists_swapped.1
  have hpasted := rootLists_swapped.2 v hv
  refine ⟨⟨by decide +kernel, hshadowed, by decide,
      fun k => ⟨Inclusion.numbered_not_mem (by decide) k, trivial⟩, ⟨by decide +kernel, ?_⟩, u, hu,
      shadowed_not_alike hu⟩,
    by decide +kernel, hswapped, by decide, hunmarked, ⟨by decide +kernel, ?_⟩, v, hv, fun h => ?_,
    hloaded, hpasted⟩
  · exact List.forall_mem_singleton.mpr ⟨by decide, by decide +kernel, List.forall_mem_nil _⟩
  · exact List.forall_mem_singleton.mpr ⟨by decide, by decide +kernel, List.forall_mem_nil _⟩
  · have hlists := h.rootLists_eq (sound_loadFile sound_empty _ _).tree
    rw [hloaded, hpasted] at hlists
    revert hlists
    decide

end Template

end BlockTemplate
