import BlockTemplate.Proofs.Section.Edit

/-!
# Sections of dissolved blocks

Dissolving a block puts what it says in place of its placeholder and hands its children to the block
around it. The other blocks say what they said.
-/

namespace BlockTemplate

open Lookup (Dissolved inlineChildren)

namespace Section

def absorb (n : Text) (s x : Section) : Section where
  name := s.name
  parts := s.parts.flatMap fun q => if q = .child n then x.parts else [q]
  vars := x.vars.foldl addNew s.vars
  calls := x.calls.foldl addNew s.calls
  children := s.children.flatMap fun c => if c = n then x.children else [c]

structure Nested (n : Text) (S : List Section) (s x : Section) (others : List Section) : Prop where
  mem : ∀ r, r ∈ S ↔ r = s ∨ r = x ∨ r ∈ others
  name : x.name = n
  child : n ∈ s.children
  apart : ∀ r ∈ others, r.name ≠ s.name ∧ r.name ≠ n

variable {n p : Text} {s x : Section} {q : Part}

theorem mem_parts_absorb : q ∈ (s.absorb n x).parts ↔
    (.child n ∈ s.parts ∧ q ∈ x.parts) ∨ (q ∈ s.parts ∧ q ≠ .child n) := by
  simp only [absorb, List.mem_flatMap]
  constructor
  · rintro ⟨r, hr, hq⟩
    split at hq
    · rename_i he
      exact .inl ⟨he ▸ hr, hq⟩
    · rename_i hne
      rw [List.mem_singleton] at hq
      subst hq
      exact .inr ⟨hr, hne⟩
  · rintro (⟨hr, hq⟩ | ⟨hq, hne⟩)
    · exact ⟨.child n, hr, by rwa [if_pos rfl]⟩
    · exact ⟨q, hq, by rw [if_neg hne]; exact List.mem_singleton_self q⟩

theorem Clear.absorb (hs : s.Clear) (hx : x.Clear) : (s.absorb n x).Clear where
  parts := by
    intro q hq
    rcases mem_parts_absorb.mp hq with ⟨-, hq⟩ | ⟨hq, -⟩
    · exact hx.parts q hq
    · exact hs.parts q hq
  listed := by
    intro c hc
    refine mem_foldl_addNew.mpr ?_
    rcases mem_parts_absorb.mp hc with ⟨-, hc⟩ | ⟨hc, -⟩
    · exact .inr (hx.listed c hc)
    · exact .inl (hs.listed c hc)

theorem mem_parts_adopt : q ∈ (s.adopt p n).parts ↔
    (q ∈ s.parts ∧ q ≠ .var p) ∨ (q = .child n ∧ .var p ∈ s.parts) := by
  simp only [adopt, List.mem_map]
  constructor
  · rintro ⟨r, hr, rfl⟩
    split
    · rename_i he
      exact .inr ⟨rfl, he ▸ hr⟩
    · rename_i hne
      exact .inl ⟨hr, hne⟩
  · rintro (⟨hq, hne⟩ | ⟨rfl, hp⟩)
    · exact ⟨q, hq, if_neg hne⟩
    · exact ⟨.var p, hp, if_pos rfl⟩

theorem Listed.adopt (hs : s.Listed) : (s.adopt p n).Listed := by
  intro c hc
  rcases mem_parts_adopt.mp hc with ⟨hc, -⟩ | ⟨hc, -⟩
  · exact hs c hc
  · cases hc

theorem Clear.adopt (hs : s.Clear) (hn : Part.Clear (.child n)) : (s.adopt p n).Clear where
  parts := by
    intro q hq
    rcases mem_parts_adopt.mp hq with ⟨hq, -⟩ | ⟨rfl, -⟩
    · exact hs.parts q hq
    · exact hn
  listed := hs.listed.adopt

end Section

theorem childName_inj {m n : Text} (h : childName m = childName n) : m = n :=
  List.append_cancel_left (List.append_cancel_right h)

theorem Block.Accords.absorb {number : Call → CallId} {b c : Block} {s x : Section} {n : Text}
    (h : b.Accords number s) (hx : c.Accords number x) (hs : s.Clear)
    (hn : Part.Clear (.child n)) (hv : .var (childName n) ∉ s.parts)
    (hinj : ∀ a ∈ s.calls ++ x.calls, ∀ d ∈ s.calls ++ x.calls, number a = number d → a = d)
    (id : BlockId) :
    (Tree.absorb (Markup.token (childName n)) id c b).Accords number (s.absorb n x) where
  name := h.name
  content := by
    have hsplice : Dialect.standard.splice
        (fun name => if name = childName n then some c.content else none)
        (Part.textAll number s.parts) =
        Part.textAll number (s.parts.flatMap fun q => if q = .child n then x.parts else [q]) := by
      refine Part.splice_eq_textAll hs.parts ?_
      intro q hq
      rw [Part.spliced]
      cases q with
      | char a => rw [if_neg (by simp), Part.textAll_cons]; exact (List.append_nil _).symm
      | var name =>
        have hne : name ≠ childName n := fun he => hv (he ▸ hq)
        rw [Part.key, Option.bind_some, if_neg hne, if_neg (by simp), Part.textAll_cons]
        exact (List.append_nil _).symm
      | child m =>
        rw [Part.key, Option.bind_some]
        by_cases hm : m = n
        · subst hm
          rw [if_pos rfl, if_pos rfl, ← hx.content]
          rfl
        · rw [if_neg fun he => hm (childName_inj he), if_neg fun he => hm (Part.child.inj he),
            Part.textAll_cons]
          exact (List.append_nil _).symm
      | result d =>
        have hne : (number d).memo ≠ childName n := by
          intro he
          have hmemo := hn.2
          rw [← he, CallId.isMemo_memo] at hmemo
          cases hmemo
        rw [Part.key, Option.bind_some, if_neg hne, if_neg (by simp), Part.textAll_cons]
        exact (List.append_nil _).symm
    change Text.replaceAll _ c.content b.content = _
    rw [Page.replaceAll_token hn.1, h.content]
    exact hsplice
  vars := by
    change c.vars.foldl addNew b.vars = _
    rw [h.vars, hx.vars]
    rfl
  calls := by
    change c.calls.foldl addNew b.calls = _
    rw [h.calls, hx.calls]
    exact foldl_addNew_map s.calls hinj

namespace Lookup

variable {look new : Lookup} {number : Call → CallId} {id p y : BlockId} {b e : Block} {n : Text}
  {s x r : Section}

theorem Dissolved.nameAt (s : Dissolved look new id p b) (hy : y ≠ id) :
    new.nameAt y = look.nameAt y := by
  cases he : look y with
  | none => rw [Lookup.nameAt, Lookup.nameAt, s.vacant y he, he]
  | some e =>
    obtain ⟨d, hd, hn, -⟩ := s.kept y e he hy
    rw [Lookup.nameAt, Lookup.nameAt, hd, he, Option.map_some, Option.map_some, hn]

theorem nameAt_eq_iff (hd : Distinct look) (hb : look id = some b) :
    look.nameAt y = some b.name ↔ y = id := by
  constructor
  · intro hy
    obtain ⟨c, hc, hn⟩ := nameAt_eq_some.mp hy
    exact hd y id c b hc hb hn
  · rintro rfl
    exact nameAt_eq_some.mpr ⟨b, hb, rfl⟩

theorem Dissolved.map_nameAt (s : Dissolved look new id p b) (ht : IsTree look root)
    (hd : Distinct look) (hx : b.children.map look.nameAt = x.children.map some)
    {ids : List BlockId} {names : List Text} (h : ids.map look.nameAt = names.map some) :
    (inlineChildren id b ids).map new.nameAt =
      (names.flatMap fun c => if c = b.name then x.children else [c]).map some := by
  have hinner : b.children.map new.nameAt = x.children.map some := by
    rw [← hx]
    refine List.map_congr_left ?_
    intro c hc
    exact s.nameAt fun he => ht.acyclic s.block hc (he ▸ .refl)
  induction ids generalizing names with
  | nil =>
    cases names with
    | nil => rfl
    | cons m names => cases h
  | cons c ids ih =>
    cases names with
    | nil => cases h
    | cons m names =>
      rw [List.map_cons, List.map_cons, List.cons.injEq] at h
      have hrest := ih h.2
      rw [inlineChildren] at hrest ⊢
      rw [List.flatMap_cons, List.flatMap_cons, List.map_append, List.map_append, hrest]
      congr 1
      by_cases hc : c = id
      · have hm : m = b.name := Option.some.inj (h.1.symm.trans ((nameAt_eq_iff hd s.block).mpr hc))
        rw [if_pos hc, if_pos hm, hinner]
      · have hm : m ≠ b.name := fun he => hc ((nameAt_eq_iff hd s.block).mp (he ▸ h.1))
        rw [if_neg hc, if_neg hm, List.map_singleton, s.nameAt hc, h.1]
        rfl

theorem Dissolved.shows (s : Dissolved look new id p b) (ht : IsTree look root)
    (hy : look y = some e) (hp : y ≠ p)
    (hnew : ∃ d, new y = some d ∧ (∀ s, e.Accords number s → d.Accords number s) ∧
      d.children = e.children) (h : look.Shows number y r) : new.Shows number y r := by
  obtain ⟨e', he', hacc, hchildren⟩ := h
  rw [hy, Option.some.injEq] at he'
  subst he'
  obtain ⟨d, hd, hsame, hkids⟩ := hnew
  refine ⟨d, hd, hsame r hacc, ?_⟩
  rw [hkids, ← hchildren]
  refine List.map_congr_left ?_
  intro c hc
  refine s.nameAt fun he => hp ?_
  obtain ⟨f, hf, hfp⟩ := ht.child_live hy (he ▸ hc)
  rw [s.block, Option.some.injEq] at hf
  subst hf
  rw [s.up, Option.some.injEq] at hfp
  exact hfp.symm

end Lookup

namespace Tree

open Lookup (IsTree Distinct)

variable {t : Tree} {S others : List Section} {s x : Section} {n : Text}

theorem exists_dissolve {id p y : BlockId} {b e : Block} (hb : t.get? id = some b)
    (hp : b.parent = some p) (token : Text) (hy : t.get? y = some e) (hid : y ≠ id) (hne : y ≠ p) :
    ∃ d, (t.dissolve id token).get? y = some d ∧
      (∀ s, e.Accords t.calls.numberOf s → d.Accords t.calls.numberOf s) ∧
      d.children = e.children := by
  rw [get?_dissolve hb hp, if_neg hid, hy, Option.map_some, if_neg hne]
  refine ⟨_, rfl, ?_⟩
  split
  · exact ⟨fun s h => ⟨h.name, h.content, h.vars, h.calls⟩, rfl⟩
  · exact ⟨fun s h => h, rfl⟩

theorem exists_absorb {id p : BlockId} {b e : Block} (hb : t.get? id = some b)
    (hp : b.parent = some p) (token : Text) (he : t.get? p = some e) (hne : p ≠ id) :
    ∃ d, (t.dissolve id token).get? p = some (absorb token id b d) ∧
      (∀ s, e.Accords t.calls.numberOf s → d.Accords t.calls.numberOf s) ∧
      d.children = e.children := by
  rw [get?_dissolve hb hp, if_neg hne, he, Option.map_some, if_pos rfl]
  refine ⟨_, rfl, ?_⟩
  split
  · exact ⟨fun s h => ⟨h.name, h.content, h.vars, h.calls⟩, rfl⟩
  · exact ⟨fun s h => h, rfl⟩

theorem parent_of_nameAt (ht : t.Sound) {id p : BlockId} {b e : Block} (hb : t.get? id = some b)
    (he : t.get? p = some e) (hkids : e.children.map (Lookup.nameAt t.get?) = s.children.map some)
    (hn : b.name ∈ s.children) : b.parent = some p := by
  have hlist : some b.name ∈ e.children.map (Lookup.nameAt t.get?) :=
    hkids ▸ List.mem_map_of_mem hn
  obtain ⟨y, hy, hyn⟩ := List.mem_map.mp hlist
  have hmem : id ∈ e.children := (Lookup.nameAt_eq_iff ht.distinct hb).mp hyn ▸ hy
  obtain ⟨c, hc, hcp⟩ := ht.tree.child_live he hmem
  rw [hb, Option.some.injEq] at hc
  exact hc ▸ hcp

theorem reads_dissolve (ht : t.Sound) (h : t.Reads S) (hnest : Section.Nested n S s x others)
    (hs : s.Clear) (hn : Part.Clear (.child n)) (hv : .var (childName n) ∉ s.parts) :
    ∃ id, t.lookup n = .ok id ∧ (t.dissolve id (Markup.token (childName n))).Sound ∧
      (t.dissolve id (Markup.token (childName n))).Reads (s.absorb n x :: others) := by
  obtain ⟨id, b, hb, hbx, hbkids⟩ := h.blocks.shown x ((hnest.mem x).mpr (.inr (.inl rfl)))
  obtain ⟨p, e, he, hes, hekids⟩ := h.blocks.shown s ((hnest.mem s).mpr (.inl rfl))
  have hname : b.name = n := hbx.name.trans hnest.name
  have hp : b.parent = some p := parent_of_nameAt ht hb he hekids (hname.symm ▸ hnest.child)
  have hcut := dissolved ht.tree hb hp (Markup.token (childName n))
  have hknown : ∀ c ∈ s.calls ++ x.calls, t.calls.Knows c := by
    intro c hc
    rw [h.calls]
    rcases List.mem_append.mp hc with hc | hc
    · exact ⟨s, (hnest.mem s).mpr (.inl rfl), hc⟩
    · exact ⟨x, (hnest.mem x).mpr (.inr (.inl rfl)), hc⟩
  refine ⟨id, lookup_eq_ok_iff.mpr ((find?_eq_some_iff ht.distinct).mpr ⟨b, hb, hname⟩),
    ht.dissolve hb hp _, ⟨?_, ?_⟩, ?_⟩
  -- The block around the dissolved one shows the joined section, the others show what they showed.
  · intro r hr
    rw [calls_dissolve]
    rcases List.mem_cons.mp hr with rfl | hr
    · obtain ⟨d, hd, hsame, hkids⟩ :=
        exists_absorb hb hp (Markup.token (childName n)) he (hcut.ne ht.tree)
      refine ⟨p, _, hd, (hsame s hes).absorb hbx hs hn hv ?_ id, ?_⟩
      · intro a ha c hc
        exact CallTable.numberOf_inj (hknown a ha) (hknown c hc)
      · have hinline := hcut.map_nameAt ht.tree ht.distinct hbkids hekids
        rw [← hkids, hname] at hinline
        exact hinline
    · obtain ⟨y, hy⟩ := h.blocks.shown r ((hnest.mem r).mpr (.inr (.inr hr)))
      have hshow := hy
      obtain ⟨f, hf, hfr, -⟩ := hy
      obtain ⟨hrs, hrn⟩ := hnest.apart r hr
      have hid : y ≠ id := by
        rintro rfl
        rw [hb, Option.some.injEq] at hf
        exact hrn (hfr.name.symm.trans (hf ▸ hname))
      have hyp : y ≠ p := by
        rintro rfl
        rw [he, Option.some.injEq] at hf
        exact hrs (hfr.name.symm.trans (hf ▸ hes.name))
      exact ⟨y, hcut.shows ht.tree hf hyp (exists_dissolve hb hp _ hf hid hyp) hshow⟩
  · intro y d hd
    obtain ⟨hid, f, hf, hdf, -⟩ := hcut.cases hd
    obtain ⟨r, hr, hrf⟩ := h.blocks.only y f hf
    rcases (hnest.mem r).mp hr with rfl | rfl | hr
    · exact ⟨r.absorb n x, List.mem_cons_self, hrf.trans hdf.symm⟩
    · exact absurd (ht.distinct y id f b hf hb (hrf.symm.trans hbx.name.symm)) hid
    · exact ⟨r, List.mem_cons_of_mem _ hr, hrf.trans hdf.symm⟩
  · intro c
    rw [calls_dissolve, h.calls]
    have habsorb : c ∈ (s.absorb n x).calls ↔ c ∈ s.calls ∨ c ∈ x.calls := mem_foldl_addNew
    simp only [hnest.mem, List.exists_mem_cons_iff, or_and_right, exists_or, exists_eq_left,
      habsorb, or_assoc]

end Tree

end BlockTemplate
