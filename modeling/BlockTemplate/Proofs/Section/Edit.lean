import BlockTemplate.Proofs.Section.Read
import BlockTemplate.Proofs.Tree.Edit

/-!
# Edits of trees that read as sections

Planting a fragment adds its sections to those that stay, and giving up unused calls changes no
section. So what a tree reads as after an edit is told by what it read as before.
-/

namespace BlockTemplate

namespace Section

def Listed (s : Section) : Prop := ∀ c, .result c ∈ s.parts → c ∈ s.calls

/-- All that is written in the content is found again, and all it refers to is listed. -/
structure Clear (s : Section) : Prop where
  parts : ∀ p ∈ s.parts, p.Clear
  listed : s.Listed

def adopt (p child : Text) (s : Section) : Section where
  name := s.name
  parts := s.parts.map fun q => if q = .var p then .child child else q
  vars := s.vars.filter (· ≠ p)
  calls := s.calls
  children := s.children ++ [child]

end Section

theorem Block.Accords.adopt {number : Call → CallId} {b : Block} {s : Section} {p child : Text}
    (h : b.Accords number s) (hs : s.Clear) (hp : CallId.isMemo p = false)
    (hc : ∀ m, .child m ∈ s.parts → childName m ≠ p) (id : BlockId) :
    (b.adopt .standard p child id).Accords number (s.adopt p child) where
  name := h.name
  content := by
    have hsplice : Dialect.standard.splice
        (fun name => if name = p then some (Markup.token (childName child)) else none)
        (Part.textAll number s.parts) =
        Part.textAll number (s.parts.flatMap fun q => [if q = .var p then .child child else q]) := by
      refine Part.splice_eq_textAll hs.parts ?_
      intro q hq
      rw [Part.textAll_cons, Part.textAll, List.flatMap_nil, List.append_nil, Part.spliced]
      cases q with
      | char c => rfl
      | var name =>
        by_cases hn : name = p
        · subst hn
          simp [Part.key, Part.text]
        · simp [Part.key, hn]
      | child m => simp [Part.key, hc m hq]
      | result c =>
        have hne : (number c).memo ≠ p := by
          intro he
          rw [← he, CallId.isMemo_memo] at hp
          cases hp
        simp [Part.key, hne]
    change Dialect.standard.splice _ b.content = _
    rw [h.content]
    exact hsplice.trans (congrArg _ List.map_eq_flatMap.symm)
  vars := congrArg (List.filter (· ≠ p)) h.vars
  calls := h.calls

theorem Block.Accords.renumber {number number' : Call → CallId} {b : Block} {s : Section}
    (h : b.Accords number s) (hl : s.Listed) (hc : ∀ c ∈ s.calls, number' c = number c) :
    b.Accords number' s where
  name := h.name
  content := by
    rw [h.content, Part.textAll_congr fun c hm => hc c (hl c hm)]
  vars := h.vars
  calls := by
    rw [h.calls]
    exact List.map_congr_left fun c hm => (hc c hm).symm

namespace Lookup

variable {look new frag : Lookup} {number number' : Call → CallId} {S S' : List Section}
  {root id x : BlockId} {s : Section}

theorem nameAt_eq_some {n : Text} : look.nameAt x = some n ↔ ∃ b, look x = some b ∧ b.name = n := by
  rw [nameAt, Option.map_eq_some_iff]

theorem Shows.renumber (h : look.Shows number x s) (hl : s.Listed)
    (hc : ∀ c ∈ s.calls, number' c = number c) : look.Shows number' x s := by
  obtain ⟨b, hb, hacc, hchildren⟩ := h
  exact ⟨b, hb, hacc.renumber hl hc, hchildren⟩

theorem map_nameAt_keep {children : List BlockId} {names : List Text}
    (h : children.map look.nameAt = names.map some)
    (hn : ∀ c n, look.nameAt c = some n → n ∈ names → new.nameAt c = some n) :
    children.map new.nameAt = names.map some := by
  rw [← h]
  refine List.map_congr_left ?_
  intro c hc
  have hmem : look.nameAt c ∈ names.map some := h ▸ List.mem_map_of_mem hc
  obtain ⟨n, hns, hn'⟩ := List.mem_map.mp hmem
  rw [← hn']
  exact hn c n hn'.symm hns

theorem Shows.keep (h : look.Shows number x s) (hx : new x = look x)
    (hn : ∀ c n, look.nameAt c = some n → n ∈ s.children → new.nameAt c = some n) :
    new.Shows number x s := by
  obtain ⟨b, hb, hacc, hchildren⟩ := h
  exact ⟨b, hx.trans hb, hacc, map_nameAt_keep hchildren hn⟩

theorem Shows.adopt {p n : Text} {child : BlockId} {b : Block} (h : look.Shows number x s)
    (hb : look x = some b) (hx : new x = some (b.adopt .standard p n child)) (hs : s.Clear)
    (hp : CallId.isMemo p = false) (hc : ∀ m, .child m ∈ s.parts → childName m ≠ p)
    (hn : ∀ c m, look.nameAt c = some m → new.nameAt c = some m)
    (hchild : new.nameAt child = some n) : new.Shows number x (s.adopt p n) := by
  obtain ⟨b', hb', hacc, hchildren⟩ := h
  rw [hb, Option.some.injEq] at hb'
  subst hb'
  refine ⟨_, hx, hacc.adopt hs hp hc _, ?_⟩
  change (b.children ++ [child]).map new.nameAt = (s.children ++ [n]).map some
  rw [List.map_append, List.map_append, map_nameAt_keep hchildren fun c m hcm _ => hn c m hcm,
    List.map_singleton, List.map_singleton, hchild]

theorem Reads.renumber (h : look.Reads number S) (hl : ∀ s ∈ S, s.Listed)
    (hc : ∀ s ∈ S, ∀ c ∈ s.calls, number' c = number c) : look.Reads number' S where
  shown := by
    intro s hs
    obtain ⟨x, hx⟩ := h.shown s hs
    exact ⟨x, hx.renumber (hl s hs) (hc s hs)⟩
  only := h.only

theorem Reads.congr (h : look.Reads number S) (hS : ∀ s, s ∈ S' ↔ s ∈ S) : look.Reads number S' where
  shown := fun s hs => h.shown s ((hS s).mp hs)
  only := by
    intro x b hx
    obtain ⟨s, hs, hn⟩ := h.only x b hx
    exact ⟨s, (hS s).mpr hs, hn⟩

theorem Reads.shows (h : look.Reads number S) (hd : Distinct look) {b : Block}
    (hx : look x = some b) : ∃ s ∈ S, s.name = b.name ∧ look.Shows number x s := by
  obtain ⟨s, hs, hn⟩ := h.only x b hx
  obtain ⟨y, c, hy, hacc, hchildren⟩ := h.shown s hs
  have hxy : y = x := hd y x c b hy hx (hacc.name.trans hn)
  subst hxy
  exact ⟨s, hs, hn, c, hy, hacc, hchildren⟩

theorem Reads.shows_of_mem (h : look.Reads number S) (hd : Distinct look) {b : Block}
    (hx : look x = some b) (hs : s ∈ S) (hn : s.name = b.name) : look.Shows number x s := by
  obtain ⟨y, c, hy, hacc, hchildren⟩ := h.shown s hs
  have hxy : y = x := hd y x c b hy hx (hacc.name.trans hn)
  subst hxy
  exact ⟨c, hy, hacc, hchildren⟩

section Plant

variable {place : Nat → BlockId} {leaf : Block}

theorem Plant.nameAt (p : Plant look new frag place id leaf)
    (htop : ∃ b, frag 0 = some b ∧ b.name = leaf.name) {n : Text} (hx : look.nameAt x = some n) :
    new.nameAt x = some n := by
  obtain ⟨b, hb, rfl⟩ := nameAt_eq_some.mp hx
  by_cases hid : x = id
  · subst hid
    rw [p.leaf_eq, Option.some.injEq] at hb
    obtain ⟨b₀, hb₀, hn₀⟩ := htop
    have hplaced := p.placed 0 b₀ hb₀
    rw [p.place_zero] at hplaced
    exact nameAt_eq_some.mpr ⟨_, hplaced, hn₀.trans (congrArg _ hb)⟩
  · exact nameAt_eq_some.mpr ⟨b, p.kept hb hid, rfl⟩

theorem Plant.reads (p : Plant look new frag place id leaf) (hf : IsTree frag 0)
    (htop : ∃ b, frag 0 = some b ∧ b.name = leaf.name)
    (hstay : ∀ s ∈ S, ∃ x, x ≠ id ∧ look.Shows number x s)
    (honly : ∀ x b, look x = some b → x ≠ id → ∃ s ∈ S, s.name = b.name)
    (hfrag : frag.Reads number S') : new.Reads number (S ++ S') where
  shown := by
    intro s hs
    rcases List.mem_append.mp hs with hs | hs
    · obtain ⟨x, hne, hx⟩ := hstay s hs
      have hlive := hx
      obtain ⟨b, hb, -⟩ := hlive
      exact ⟨x, hx.keep ((p.kept hb hne).trans hb.symm) fun c n hc _ => p.nameAt htop hc⟩
    · obtain ⟨i, b, hb, hacc, hchildren⟩ := hfrag.shown s hs
      refine ⟨place i, _, p.placed i b hb, ⟨hacc.name, hacc.content, hacc.vars, hacc.calls⟩, ?_⟩
      rw [← hchildren]
      refine List.map_map.trans (List.map_congr_left ?_)
      intro c hc
      obtain ⟨d, hd, -⟩ := hf.child_live hb hc
      change new.nameAt (place c) = frag.nameAt c
      rw [Lookup.nameAt, Lookup.nameAt, p.placed c d hd, hd]
      rfl
  only := by
    intro x d hx
    rcases p.cases hx with ⟨i, b, hb, rfl, rfl⟩ | ⟨hx, hnot⟩
    · obtain ⟨s, hs, hn⟩ := hfrag.only i b hb
      exact ⟨s, List.mem_append_right _ hs, hn⟩
    · obtain ⟨s, hs, hn⟩ := honly x d hx (p.not_id hf hnot)
      exact ⟨s, List.mem_append_left _ hs, hn⟩

end Plant

def NameUnder (look : Lookup) (id : BlockId) (n : Text) : Prop :=
  ∃ x b, Reach look id x ∧ look x = some b ∧ b.name = n

theorem Pruned.shows (p : Pruned look new id) (ht : IsTree look root) (h : look.Shows number x s)
    (hx : ¬ Reach look id x) : new.Shows number x s := by
  obtain ⟨b, hb, hacc, hchildren⟩ := h
  refine ⟨b, (p.rest x hx).trans hb, hacc, ?_⟩
  rw [← hchildren]
  refine List.map_congr_left ?_
  intro c hc
  obtain ⟨d, hd, hpar⟩ := ht.child_live hb hc
  have hstays : c = id ∨ ¬ Reach look id c := by
    by_cases hr : Reach look id c
    · cases hr with
      | refl => exact .inl rfl
      | child hq hlq hm => exact absurd (ht.parent_unique hlq hb hm hc ▸ hq) hx
    · exact .inr hr
  obtain ⟨d', hd', hn, -⟩ := p.kept hd hstays
  rw [Lookup.nameAt, Lookup.nameAt, hd', hd, Option.map_some, Option.map_some, hn]

end Lookup

namespace Tree

open Lookup (Reach IsTree Distinct NameUnder)

variable {t : Tree} {S S' : List Section} {id : BlockId} {b : Block} {f : Fragment}

theorem Reads.congr (h : t.Reads S) (hS : ∀ s, s ∈ S' ↔ s ∈ S) : t.Reads S' where
  blocks := h.blocks.congr hS
  calls := by
    intro c
    rw [h.calls]
    simp only [hS]

theorem reads_releaseCalls (hd : Distinct t.get?) (hn : t.calls.Distinct)
    (hr : Lookup.Reads t.get? t.calls.numberOf S) (hl : ∀ s ∈ S, s.Listed)
    (hk : ∀ s ∈ S, ∀ c ∈ s.calls, t.calls.Knows c) : t.releaseCalls.Reads S := by
  have hget : t.releaseCalls.get? = t.get? := rfl
  have hkept : ∀ s ∈ S, ∀ c ∈ s.calls,
      t.releaseCalls.calls.get? (t.calls.numberOf c) = some c := by
    intro s hs c hc
    obtain ⟨x, b, hb, hacc, -⟩ := hr.shown s hs
    have hused : t.calls.numberOf c ∈ t.usedCalls := by
      refine mem_usedCalls hb ?_
      rw [hacc.calls]
      exact List.mem_map_of_mem hc
    rw [releaseCalls, CallTable.get?_keepOnly, if_pos hused]
    exact CallTable.get?_numberOf (hk s hs c hc)
  constructor
  · rw [hget]
    refine hr.renumber hl ?_
    intro s hs c hc
    exact CallTable.numberOf_eq (hn.keepOnly t.usedCalls) (hkept s hs c hc)
  · intro c
    constructor
    · rintro ⟨i, hi⟩
      rw [releaseCalls, CallTable.get?_keepOnly] at hi
      split at hi
      · rename_i hused
        rw [usedCalls, List.mem_flatMap] at hused
        obtain ⟨slot, hslot, hi'⟩ := hused
        cases slot with
        | none => cases hi'
        | some b =>
          obtain ⟨x, hx⟩ := List.mem_iff_getElem?.mp hslot
          obtain ⟨s, hs, -, b', hb', hacc, -⟩ := hr.shows hd (get?_eq_some_iff.mpr hx)
          rw [get?_eq_some_iff.mpr hx, Option.some.injEq] at hb'
          subst hb'
          have hcalls : i ∈ s.calls.map t.calls.numberOf := hacc.calls ▸ hi'
          obtain ⟨c', hc', rfl⟩ := List.mem_map.mp hcalls
          rw [CallTable.get?_numberOf (hk s hs c' hc'), Option.some.injEq] at hi
          exact ⟨s, hs, hi ▸ hc'⟩
      · cases hi
    · rintro ⟨s, hs, hc⟩
      exact ⟨_, hkept s hs c hc⟩

theorem reads_graftOver (h : t.Sound) (hr : Lookup.Reads t.get? t.calls.numberOf S)
    (hb : t.get? id = some b) (hf : IsTree f.look 0)
    (htop : ∃ b₀, f.look 0 = some b₀ ∧ b₀.name = b.name)
    (hfrag : f.look.Reads t.calls.numberOf S') {S₀ : List Section}
    (hS : ∀ s, s ∈ S₀ ↔ s ∈ S ∧ ¬ NameUnder t.get? id s.name) :
    Lookup.Reads ((t.prune id).graftOver id f).get? t.calls.numberOf (S₀ ++ S') := by
  have hcut := pruned h.tree hb
  have hplant := plant_graftOver hf ((get?_prune h.tree hb id).1 rfl) rfl
  refine hplant.reads hf htop ?_ ?_ hfrag
  · intro s hs
    obtain ⟨hmem, hout⟩ := (hS s).mp hs
    obtain ⟨x, hx⟩ := hr.shown s hmem
    have hnot : ¬ Reach t.get? id x := by
      intro hreach
      obtain ⟨d, hd, hacc, -⟩ := hx
      exact hout ⟨x, d, hreach, hd, hacc.name⟩
    exact ⟨x, fun he => hnot (he ▸ .refl), hcut.shows h.tree hx hnot⟩
  · intro x d hx hne
    obtain ⟨hout, e, he, hn, -⟩ := hcut.cases hx
    obtain ⟨s, hs, hsn⟩ := hr.only x e he
    refine ⟨s, (hS s).mpr ⟨hs, ?_⟩, hsn.trans hn.symm⟩
    rintro ⟨y, g, hy, hg, hgn⟩
    have hxy := h.distinct x y e g he hg (hsn.symm.trans hgn.symm)
    rw [← hxy] at hy
    exact (hout.resolve_left hne) hy

theorem reads_graftUnder {p n : Text} {s : Section} {S₀ : List Section} {pid : BlockId}
    (hd : Distinct t.get?) (hr : Lookup.Reads t.get? t.calls.numberOf S)
    (hS : ∀ r, r ∈ S ↔ r = s ∨ r ∈ S₀) (hne : ∀ r ∈ S₀, r.name ≠ s.name)
    (hb : t.get? pid = some b) (hbn : s.name = b.name) (hs : s.Clear) (hp : CallId.isMemo p = false)
    (hc : ∀ m, .child m ∈ s.parts → childName m ≠ p) (hf : IsTree f.look 0)
    (htop : ∃ b₀, f.look 0 = some b₀ ∧ b₀.name = n)
    (hfrag : f.look.Reads t.calls.numberOf S') :
    Lookup.Reads ((t.graftUnder pid f).2.modify pid
      (Block.adopt .standard p n (t.graftUnder pid f).1)).get? t.calls.numberOf
      (s.adopt p n :: S₀ ++ S') := by
  let leaf : Block := { name := n, content := [], parent := some pid }
  let change := Block.adopt .standard p n (t.graftUnder pid f).1
  obtain ⟨hvac, hplant⟩ := plant_graftUnder hf leaf hb change rfl rfl
  have hsprout := sprout_sprouted (d := change b) leaf hb hvac rfl rfl rfl rfl rfl
  have hname : ∀ c m, Lookup.nameAt t.get? c = some m →
      Lookup.nameAt (t.sprouted pid (t.graftUnder pid f).1 (change b) leaf) c = some m := by
    intro c m hcm
    obtain ⟨d, hd, rfl⟩ := Lookup.nameAt_eq_some.mp hcm
    obtain ⟨d', hd', hn, -⟩ := hsprout.kept hd
    exact Lookup.nameAt_eq_some.mpr ⟨d', hd', hn⟩
  have hlive : ∀ x d, t.get? x = some d → x ≠ (t.graftUnder pid f).1 := by
    intro x d hx he
    rw [he, hvac] at hx
    cases hx
  refine hplant.reads hf htop ?_ ?_ hfrag
  · intro r hr'
    rcases List.mem_cons.mp hr' with rfl | hr'
    · refine ⟨pid, hlive pid b hb, (hr.shows_of_mem hd hb ((hS s).mpr (.inl rfl)) hbn).adopt hb ?_ hs
        hp hc hname (Lookup.nameAt_eq_some.mpr ⟨leaf, hsprout.leaf_eq, rfl⟩)⟩
      rw [sprouted, if_neg (hlive pid b hb), if_pos rfl]
    · obtain ⟨x, hx⟩ := hr.shown r ((hS r).mpr (.inr hr'))
      have hshow := hx
      obtain ⟨d, hxd, hacc, -⟩ := hx
      have hxp : x ≠ pid := by
        intro he
        rw [he, hb, Option.some.injEq] at hxd
        exact hne r hr' (hacc.name.symm.trans ((congrArg _ hxd).symm.trans hbn.symm))
      refine ⟨x, hlive x d hxd, hshow.keep (hsprout.rest x (hlive x d hxd) hxp) ?_⟩
      exact fun c m hcm _ => hname c m hcm
  · intro x d hx hxid
    obtain ⟨e, he, hn, -⟩ := (hsprout.cases hx).resolve_left fun h => hxid h.1
    obtain ⟨r, hr', hrn⟩ := hr.only x e he
    rcases (hS r).mp hr' with rfl | hr'
    · exact ⟨r.adopt p n, List.mem_cons_self, hrn.trans hn.symm⟩
    · exact ⟨r, List.mem_cons_of_mem _ hr', hrn.trans hn.symm⟩

end Tree

end BlockTemplate
