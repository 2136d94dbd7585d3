import BlockTemplate.Proofs.Fragment.Forest

/-!
# Blocks taken out of source make a tree

While source is read, every finished block is a child of one finished block or waits in one open
frame. A block is finished after the blocks inside it, so it has a higher number than they.
-/

namespace BlockTemplate

namespace Frame

theorem closing?_perm {name : Text} {inner frame : Frame} {rest around : List Frame}
    (h : inner.closing? name rest = some (frame, around)) :
    (frame.children ++ around.flatMap (·.children)).Perm
      (inner.children ++ rest.flatMap (·.children)) := by
  induction rest generalizing inner with
  | nil =>
    rw [closing?] at h
    split at h
    · cases h
      exact .refl _
    · cases h
  | cons outer rest ih =>
    rw [closing?] at h
    split at h
    · cases h
      exact .refl _
    · refine (ih h).trans ?_
      have hc : (outer.absorb inner).children = outer.children ++ inner.children := rfl
      rw [hc, List.flatMap_cons, ← List.append_assoc]
      exact List.perm_append_comm.append_right _

end Frame

namespace Extraction

def kids (e : Extraction) : List Nat :=
  e.closed.flatMap (·.children) ++ (e.base.children ++ e.opened.flatMap (·.children))

structure Balanced (e : Extraction) : Prop where
  listed : e.kids.Perm (List.range' 1 e.closed.length)
  earlier : ∀ (j : Nat) (b : Block) (c : Nat), e.closed[j]? = some b → c ∈ b.children → c ≤ j

theorem balanced_start (top : Text) : (start top).Balanced where
  listed := .refl _
  earlier := by
    intro j b c hj
    simp [start] at hj

@[simp] theorem closed_onInner (f : Frame → Frame) (e : Extraction) :
    (e.onInner f).closed = e.closed := by
  rw [onInner]
  split <;> rfl

theorem base_name_onInner {f : Frame → Frame} (hf : ∀ x, (f x).name = x.name) (e : Extraction) :
    (e.onInner f).base.name = e.base.name := by
  rw [onInner]
  split
  · exact hf e.base
  · rfl

theorem kids_onInner {f : Frame → Frame} (more : List Nat)
    (hf : ∀ x, (f x).children = x.children ++ more) (e : Extraction) :
    (e.onInner f).kids.Perm (e.kids ++ more) := by
  rw [onInner]
  split
  · rename_i ho
    simp only [kids, ho, hf, List.flatMap_nil, List.append_nil, List.append_assoc]
    exact .refl _
  · rename_i inner rest ho
    simp only [kids, ho, hf, List.flatMap_cons, List.append_assoc]
    exact (List.perm_append_comm.append_left _).append_left _ |>.append_left _

theorem Balanced.write {e : Extraction} (h : e.Balanced) (t : Text) :
    (e.onInner (·.write t)).Balanced where
  listed := by
    have hk := kids_onInner (f := (·.write t)) [] (by simp [Frame.write]) e
    rw [List.append_nil] at hk
    rw [closed_onInner]
    exact hk.trans h.listed
  earlier := by
    rw [closed_onInner]
    exact h.earlier

theorem Balanced.opens {e : Extraction} (h : e.Balanced) (name raw : Text) :
    ({ e with opened := ⟨name, raw, [], []⟩ :: e.opened } : Extraction).Balanced where
  listed := h.listed
  earlier := h.earlier

theorem closing?_perm {e : Extraction} {name : Text} {frame : Frame} {around : List Frame}
    (h : e.closing? name = some (frame, around)) :
    (frame.children ++ around.flatMap (·.children)).Perm (e.opened.flatMap (·.children)) := by
  rw [closing?] at h
  split at h
  · cases h
  · rename_i inner rest ho
    rw [ho, List.flatMap_cons]
    exact Frame.closing?_perm h

theorem closed_finish (d : Dialect) (e : Extraction) (frame : Frame) (around : List Frame) :
    (e.finish d frame around).closed = e.closed ++
      [{ name := frame.name, content := frame.content, children := frame.children }] := by
  rw [finish, closed_onInner]

theorem Balanced.finish {e : Extraction} (h : e.Balanced) (d : Dialect) {name : Text}
    {frame : Frame} {around : List Frame} (hc : e.closing? name = some (frame, around)) :
    (e.finish d frame around).Balanced where
  listed := by
    have hperm := closing?_perm hc
    rw [closed_finish, List.length_append, List.length_singleton, List.range'_1_concat]
    rw [Extraction.finish]
    refine (kids_onInner [e.closed.length + 1] (by simp) _).trans ?_
    rw [Nat.add_comm 1]
    refine List.Perm.append_right _ (List.Perm.trans ?_ h.listed)
    simp only [kids, List.flatMap_append, List.flatMap_cons, List.flatMap_nil, List.append_nil,
      List.append_assoc]
    refine List.Perm.append_left _ ?_
    refine List.Perm.trans ?_ (hperm.append_left _)
    rw [← List.append_assoc, ← List.append_assoc]
    exact List.perm_append_comm.append_right _
  earlier := by
    intro j b c hj hcb
    rw [closed_finish] at hj
    rcases Nat.lt_or_ge j e.closed.length with hlt | hge
    · rw [List.getElem?_append_left hlt] at hj
      exact h.earlier j b c hj hcb
    · -- The new block holds what its frame held, which was finished before.
      rw [List.getElem?_append_right hge, List.getElem?_singleton] at hj
      split at hj
      · cases hj
        have hmem : c ∈ e.kids := by
          rw [kids]
          refine List.mem_append_right _ (List.mem_append_right _ ?_)
          exact (closing?_perm hc).mem_iff.mp (List.mem_append_left _ hcb)
        have := List.mem_range'_1.mp (h.listed.mem_iff.mp hmem)
        omega
      · cases hj

theorem Balanced.step {e e' : Extraction} {d : Dialect} {p : Piece Tag} (h : e.Balanced)
    (hs : e.step d p = .ok e') : e'.Balanced := by
  rw [Extraction.step.eq_def] at hs
  split at hs
  · cases hs
    exact h.opens _ _
  · split at hs
    · cases hs
      exact h.write _
    · rename_i hc
      split at hs
      · cases hs
      · cases hs
        exact h.finish d hc
  · cases hs
    exact h.write _

theorem base_name_step {e e' : Extraction} {d : Dialect} {p : Piece Tag}
    (hs : e.step d p = .ok e') : e'.base.name = e.base.name := by
  rw [Extraction.step.eq_def] at hs
  split at hs
  · cases hs
    rfl
  · split at hs
    · cases hs
      exact base_name_onInner (f := (·.write _)) (fun _ => rfl) e
    · split at hs
      · cases hs
      · cases hs
        rw [Extraction.finish]
        exact base_name_onInner (by simp [Frame.write]) _
  · cases hs
    exact base_name_onInner (f := (·.write _)) (fun _ => rfl) e

theorem run_spec {e e' : Extraction} {d : Dialect} {ps : List (Piece Tag)} (h : e.Balanced)
    (hr : ps.foldlM (Extraction.step d) e = .ok e') :
    e'.Balanced ∧ e'.base.name = e.base.name := by
  induction ps generalizing e with
  | nil =>
    cases hr
    exact ⟨h, rfl⟩
  | cons p ps ih =>
    rw [List.foldlM_cons] at hr
    cases hs : e.step d p with
    | error fault => rw [hs] at hr; cases hr
    | ok e₁ =>
      rw [hs] at hr
      obtain ⟨hb, hn⟩ := ih (h.step hs) hr
      exact ⟨hb, hn.trans (base_name_step hs)⟩

theorem run_fault {e : Extraction} {d : Dialect} {ps : List (Piece Tag)} {fault : Fault}
    (hr : ps.foldlM (Extraction.step d) e = .error fault) : ∃ name, fault = .duplicateBlock name := by
  induction ps generalizing e with
  | nil => cases hr
  | cons p ps ih =>
    rw [List.foldlM_cons] at hr
    cases hs : e.step d p with
    | ok e₁ =>
      rw [hs] at hr
      exact ih hr
    | error fault' =>
      rw [hs] at hr
      cases hr
      rw [Extraction.step.eq_def] at hs
      split at hs
      · cases hs
      · split at hs
        · cases hs
        · split at hs
          · cases hs
            exact ⟨_, rfl⟩
          · cases hs
      · cases hs

theorem whole_name (e : Extraction) : e.whole.name = e.base.name := by
  rw [whole]
  split <;> rfl

theorem foldl_absorb_children (inner : Frame) (rest : List Frame) :
    (rest.foldl (fun inner outer => outer.absorb inner) inner).children.Perm
      (inner.children ++ rest.flatMap (·.children)) := by
  induction rest generalizing inner with
  | nil => rw [List.flatMap_nil, List.append_nil]; exact .refl _
  | cons outer rest ih =>
    refine (ih (outer.absorb inner)).trans ?_
    have hc : (outer.absorb inner).children = outer.children ++ inner.children := rfl
    rw [hc, List.flatMap_cons, ← List.append_assoc]
    exact List.perm_append_comm.append_right _

theorem whole_children (e : Extraction) :
    e.whole.children.Perm (e.base.children ++ e.opened.flatMap (·.children)) := by
  rw [whole]
  split
  · rename_i ho
    rw [ho, List.flatMap_nil, List.append_nil]
  · rename_i inner rest ho
    rw [ho, List.flatMap_cons]
    exact (foldl_absorb_children inner rest).append_left _

theorem Balanced.linked {e : Extraction} (h : e.Balanced) :
    Fragment.Linked e.blocks fun i => if i = 0 then 0 else e.closed.length + 1 - i where
  pos := Nat.succ_pos _
  listed := by
    refine List.Perm.trans ?_ h.listed
    rw [blocks, List.flatMap_cons, kids]
    exact List.perm_append_comm.trans ((e.whole_children).append_left _)
  ranked := by
    intro p b c hp hc
    have hlist : c ∈ e.kids := by
      rw [kids]
      cases p with
      | zero =>
        rw [blocks, List.getElem?_cons_zero] at hp
        cases hp
        exact List.mem_append_right _ (e.whole_children.mem_iff.mp hc)
      | succ p =>
        rw [blocks, List.getElem?_cons_succ] at hp
        exact List.mem_append_left _ (List.mem_flatMap.mpr ⟨b, List.mem_of_getElem? hp, hc⟩)
    have hrange := List.mem_range'_1.mp (h.listed.mem_iff.mp hlist)
    cases p with
    | zero =>
      simp only [if_pos]
      split <;> omega
    | succ p =>
      rw [blocks, List.getElem?_cons_succ] at hp
      have hle := h.earlier p b c hp hc
      have hlt := (List.getElem?_eq_some_iff.mp hp).1
      simp only [Nat.succ_ne_zero, if_false]
      split <;> omega

end Extraction

namespace Fragment

open Lookup (IsTree)

theorem extract_spec {d : Dialect} {top source : Text} {f : Fragment}
    (h : extract d top source = .ok f) :
    IsTree f.look 0 ∧ ∃ b, f.look 0 = some b ∧ b.name = top := by
  rw [extract] at h
  cases hr : (Tag.pieces source).foldlM (Extraction.step d) (Extraction.start top) with
  | error fault => rw [hr] at h; cases h
  | ok e =>
    rw [hr] at h
    cases h
    obtain ⟨hb, hn⟩ := Extraction.run_spec (Extraction.balanced_start top) hr
    refine ⟨hb.linked.isTree, ?_⟩
    have h0 := look_withParents e.blocks 0
    rw [Extraction.blocks, List.getElem?_cons_zero, Option.map_some] at h0
    exact ⟨_, h0, e.whole_name.trans hn⟩

theorem extract_fault {d : Dialect} {top source : Text} {fault : Fault}
    (h : extract d top source = .error fault) : ∃ name, fault = .duplicateBlock name := by
  rw [extract] at h
  cases hr : (Tag.pieces source).foldlM (Extraction.step d) (Extraction.start top) with
  | error fault' =>
    rw [hr] at h
    cases h
    exact Extraction.run_fault hr
  | ok e => rw [hr] at h; cases h

end Fragment

end BlockTemplate
