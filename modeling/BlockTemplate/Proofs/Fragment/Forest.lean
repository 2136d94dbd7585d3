import BlockTemplate.Fragment.Extract
import BlockTemplate.Proofs.Tree.Reshape

/-!
# Fragments as trees

The blocks of a fragment make a tree under the first one if the lists of children name every other
block once and lead on to blocks of higher rank. The parents are then read off these lists.
-/

namespace BlockTemplate.Fragment

open Lookup (Reach IsTree Relabel)

def look (f : Fragment) : Lookup := fun i => f[i]?

structure Linked (f : Fragment) (rank : Nat → Nat) : Prop where
  pos : 0 < f.length
  listed : (f.flatMap (·.children)).Perm (List.range' 1 (f.length - 1))
  ranked : ∀ p b c, f[p]? = some b → c ∈ b.children → rank p < rank c

variable {f : Fragment} {rank : Nat → Nat}

theorem look_withParents (f : Fragment) (i : Nat) :
    (withParents f).look i = f[i]?.map fun b =>
      { b with parent := f.findIdx? fun p => p.children.contains i } := by
  rw [look, withParents, List.getElem?_mapIdx]

namespace Linked

variable (h : Linked f rank)
include h

theorem mem_listed_iff {c : Nat} : c ∈ f.flatMap (·.children) ↔ 1 ≤ c ∧ c < f.length := by
  have hp := h.pos
  rw [h.listed.mem_iff, List.mem_range'_1]
  omega

theorem nodup_listed : (f.flatMap (·.children)).Nodup := h.listed.nodup_iff.mpr List.nodup_range'

theorem child_lt {p c : Nat} {b : Block} (hp : f[p]? = some b) (hc : c ∈ b.children) :
    1 ≤ c ∧ c < f.length :=
  h.mem_listed_iff.mp (List.mem_flatMap.mpr ⟨b, List.mem_of_getElem? hp, hc⟩)

theorem lister_unique {p q c : Nat} {b d : Block} (hp : f[p]? = some b) (hq : f[q]? = some d)
    (hb : c ∈ b.children) (hd : c ∈ d.children) : p = q := by
  have hpw := List.pairwise_iff_getElem.mp (List.nodup_flatMap.mp h.nodup_listed).2
  obtain ⟨hpl, hpb⟩ := List.getElem?_eq_some_iff.mp hp
  obtain ⟨hql, hqd⟩ := List.getElem?_eq_some_iff.mp hq
  rcases Nat.lt_trichotomy p q with hlt | heq | hgt
  · have hdis := hpw p q hpl hql hlt
    rw [hpb, hqd] at hdis
    exact absurd hd (hdis hb)
  · exact heq
  · have hdis := hpw q p hql hpl hgt
    rw [hpb, hqd] at hdis
    exact absurd hb (hdis hd)

theorem findIdx?_eq_some_iff {p c : Nat} :
    f.findIdx? (fun b => b.children.contains c) = some p ↔
      ∃ b, f[p]? = some b ∧ c ∈ b.children := by
  have hsound : ∀ q, f.findIdx? (fun b => b.children.contains c) = some q →
      ∃ b, f[q]? = some b ∧ c ∈ b.children := by
    intro q hq
    obtain ⟨hlt, hc, -⟩ := List.findIdx?_eq_some_iff_getElem.mp hq
    exact ⟨f[q], List.getElem?_eq_getElem hlt, by simpa using hc⟩
  refine ⟨hsound p, ?_⟩
  intro ⟨b, hb, hc⟩
  cases hq : f.findIdx? (fun b => b.children.contains c) with
  | none =>
    have := List.findIdx?_eq_none_iff.mp hq b (List.mem_of_getElem? hb)
    simp [hc] at this
  | some q =>
    obtain ⟨d, hd, hcd⟩ := hsound q hq
    rw [h.lister_unique hd hb hcd hc]

theorem findIdx?_zero : f.findIdx? (fun b => b.children.contains 0) = none := by
  cases hq : f.findIdx? (fun b => b.children.contains 0) with
  | none => rfl
  | some q =>
    obtain ⟨b, hb, hc⟩ := h.findIdx?_eq_some_iff.mp hq
    have := (h.child_lt hb hc).1
    omega

theorem reach_of_lt (n : Nat) :
    ∀ c, rank c < n → c < f.length → Reach (withParents f).look 0 c := by
  induction n with
  | zero => intro c hc; omega
  | succ n ih =>
    intro c hc hlt
    by_cases h0 : c = 0
    · subst h0
      exact .refl
    · obtain ⟨b, hb, hcb⟩ := List.mem_flatMap.mp (h.mem_listed_iff.mpr ⟨by omega, hlt⟩)
      obtain ⟨p, hp⟩ := List.mem_iff_getElem?.mp hb
      have hrank := h.ranked p b c hp hcb
      have hplt := (List.getElem?_eq_some_iff.mp hp).1
      have hpl := look_withParents f p
      rw [hp, Option.map_some] at hpl
      exact .child (ih p (by omega) hplt) hpl hcb

theorem isTree : IsTree (withParents f).look 0 where
  top := by
    have hp := h.pos
    have h0 := look_withParents f 0
    rw [h.findIdx?_zero, List.getElem?_eq_getElem hp, Option.map_some] at h0
    exact ⟨_, h0, rfl⟩
  child_iff := by
    intro p b c hp
    rw [look_withParents] at hp
    obtain ⟨b', hb', rfl⟩ := Option.map_eq_some_iff.mp hp
    constructor
    · intro hc
      have hlt := (h.child_lt hb' hc).2
      have hcl := look_withParents f c
      rw [List.getElem?_eq_getElem hlt, Option.map_some] at hcl
      exact ⟨_, hcl, h.findIdx?_eq_some_iff.mpr ⟨b', hb', hc⟩⟩
    · intro ⟨d, hd, hdp⟩
      rw [look_withParents] at hd
      obtain ⟨d', hd', rfl⟩ := Option.map_eq_some_iff.mp hd
      obtain ⟨b'', hb'', hc⟩ := h.findIdx?_eq_some_iff.mp hdp
      rw [hb', Option.some.injEq] at hb''
      subst hb''
      exact hc
  parent_live := by
    intro c d p hc hd
    rw [look_withParents] at hc
    obtain ⟨d', hd', rfl⟩ := Option.map_eq_some_iff.mp hc
    obtain ⟨b, hb, -⟩ := h.findIdx?_eq_some_iff.mp hd
    have hpl := look_withParents f p
    rw [hb, Option.map_some] at hpl
    exact ⟨_, hpl⟩
  children_nodup := by
    intro p b hp
    rw [look_withParents] at hp
    obtain ⟨b', hb', rfl⟩ := Option.map_eq_some_iff.mp hp
    exact (List.nodup_flatMap.mp h.nodup_listed).1 b' (List.mem_of_getElem? hb')
  reached := by
    intro c d hc
    rw [look_withParents] at hc
    obtain ⟨d', hd', -⟩ := Option.map_eq_some_iff.mp hc
    exact h.reach_of_lt (rank c + 1) c (by omega) (List.getElem?_eq_some_iff.mp hd').1

end Linked

end BlockTemplate.Fragment
