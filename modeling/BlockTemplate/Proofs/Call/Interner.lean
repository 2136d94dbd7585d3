import BlockTemplate.Call.Interner
import BlockTemplate.Proofs.Call.Table
import Mathlib.Data.List.Nodup

/-!
# Interned calls and the table of calls

The table of calls says what is stored of them: its gaps are the numbers that are free, the smallest
one on top of the stack, and the index leads from the calls of the table to their numbers. Interning a
call and releasing the calls that are not used keep it so.
-/

namespace BlockTemplate

namespace CallTable

variable {t : CallTable}

def vacant (t : CallTable) : List CallId :=
  (List.range t.slots.length).filter fun id => (t.get? id).isNone

theorem mem_vacant_iff {id : CallId} :
    id ∈ t.vacant ↔ id < t.slots.length ∧ t.get? id = none := by
  simp [vacant]

theorem nodup_vacant (t : CallTable) : t.vacant.Nodup := List.nodup_range.filter _

theorem ne_none_of_lt_fresh {id : CallId} (h : id < t.fresh) : t.get? id ≠ none := by
  intro hnone
  have hlt : id < t.slots.length := Nat.lt_of_lt_of_le h t.fresh_spec.2
  have hslot : t.slots[id] = none := by
    rw [get?, List.getElem?_eq_getElem hlt] at hnone
    exact hnone
  rw [fresh] at h
  cases hf : t.slots.idxOf? none with
  | none => exact idxOf?_eq_none hf (hslot ▸ List.getElem_mem hlt)
  | some i =>
    rw [hf, Option.getD_some] at h
    rw [List.idxOf?, List.findIdx?_eq_some_iff_getElem] at hf
    exact hf.2.2 id h (beq_iff_eq.mpr hslot)

theorem vacant_eq_nil_iff : t.vacant = [] ↔ t.fresh = t.slots.length := by
  obtain ⟨hnone, hle⟩ := t.fresh_spec
  constructor
  · intro h
    by_contra hne
    have hm : t.fresh ∈ t.vacant := mem_vacant_iff.mpr ⟨Nat.lt_of_le_of_ne hle hne, hnone⟩
    rw [h] at hm
    cases hm
  · intro h
    refine List.eq_nil_iff_forall_not_mem.mpr fun id hm => ?_
    obtain ⟨hlt, hid⟩ := mem_vacant_iff.mp hm
    exact ne_none_of_lt_fresh (h ▸ hlt) hid

theorem fresh_of_vacant {id : CallId} {rest : List CallId} (h : t.vacant = id :: rest) :
    t.fresh = id := by
  have hid := mem_vacant_iff.mp (h ▸ List.mem_cons_self)
  have hge : t.fresh ≤ id := Nat.le_of_not_lt fun hlt => ne_none_of_lt_fresh hlt hid.2
  have hm : t.fresh ∈ id :: rest :=
    h ▸ mem_vacant_iff.mpr ⟨Nat.lt_of_le_of_lt hge hid.1, t.fresh_spec.1⟩
  have hsorted : (id :: rest).Pairwise (· < ·) := h ▸ List.pairwise_lt_range.filter _
  rcases List.mem_cons.mp hm with he | hm
  · exact he
  · exact absurd ((List.pairwise_cons.mp hsorted).1 _ hm) (Nat.not_lt.mpr hge)

theorem length_intern_of_gap {c : Call} (h : t.find? c = none) (hlt : t.fresh < t.slots.length) :
    (t.intern c).2.slots.length = t.slots.length := by
  simp only [intern, h, if_pos hlt, List.length_set]

theorem length_intern_of_full {c : Call} (h : t.find? c = none) (hf : t.fresh = t.slots.length) :
    (t.intern c).2.slots.length = t.slots.length + 1 := by
  simp only [intern, h, if_neg (Nat.not_lt.mpr (Nat.le_of_eq hf.symm)), List.length_append,
    List.length_singleton]

theorem vacant_intern_of_new {c : Call} (h : t.find? c = none) :
    (t.intern c).2.vacant = t.vacant.tail := by
  have hget := get?_intern_of_new h
  cases hv : t.vacant with
  | nil =>
    -- The number is the next one, so there is still no gap.
    have hfresh := vacant_eq_nil_iff.mp hv
    refine List.eq_nil_iff_forall_not_mem.mpr fun id hm => ?_
    obtain ⟨hlt, hnone⟩ := mem_vacant_iff.mp hm
    rw [length_intern_of_full h hfresh] at hlt
    rw [hget] at hnone
    split at hnone
    · cases hnone
    · rename_i hne
      have hle : id ≤ t.fresh := hfresh ▸ Nat.le_of_lt_succ hlt
      exact ne_none_of_lt_fresh (Nat.lt_of_le_of_ne hle hne) hnone
  | cons id rest =>
    have hfresh := fresh_of_vacant hv
    have hlt := (mem_vacant_iff.mp (hv ▸ List.mem_cons_self)).1
    have hsame := length_intern_of_gap h (hfresh ▸ hlt)
    have hsplit : (t.intern c).2.vacant = t.vacant.filter (· ≠ id) := by
      rw [vacant, vacant, hsame, List.filter_filter]
      refine List.filter_congr fun x _ => ?_
      rw [hget, hfresh]
      by_cases hx : x = id <;> simp [hx]
    have hnodup : (id :: rest).Nodup := hv ▸ t.nodup_vacant
    have hnot := (List.nodup_cons.mp hnodup).1
    rw [hsplit, hv, List.tail_cons, List.filter_cons, if_neg (by simp), List.filter_eq_self]
    intro x hx
    exact decide_eq_true fun he => hnot (he ▸ hx)

end CallTable

namespace Interner

variable {s : Interner} {t : CallTable}

/-- What is stored are the calls of the table, and those that were given up in its gaps. -/
structure Follows (s : Interner) (t : CallTable) : Prop where
  size : s.calls.length = t.slots.length
  call : ∀ id c, t.get? id = some c → s.calls[id]? = some c
  ids : ∀ c id, s.ids.get? c = some id ↔ t.get? id = some c
  free : s.free = t.vacant

theorem follows_empty : Follows {} .empty where
  size := rfl
  call := by
    intro id c h
    cases h
  ids := by
    intro c id
    constructor
    · intro h
      cases h
    · intro h
      cases h
  free := rfl

section New

variable (h : s.Follows t) {c : Call} (hf : t.find? c = none)
include h hf

theorem Follows.get?_of_new : s.ids.get? c = none := by
  cases hid : s.ids.get? c with
  | none => rfl
  | some id => exact absurd ((h.ids c id).mp hid) (CallTable.get?_ne_of_find?_none hf id)

/-- The index has one more entry, with the number that the table gives out. -/
theorem Follows.ids_insert (d : Call) (id : CallId) :
    (s.ids.insert c t.fresh).get? d = some id ↔ (t.intern c).2.get? id = some d := by
  rw [Dict.get?_insert, CallTable.get?_intern_of_new hf]
  by_cases hdc : d = c
  · subst hdc
    by_cases hid : id = t.fresh
    · simp [hid]
    · have hid' : t.fresh ≠ id := fun he => hid he.symm
      simp [hid, hid', CallTable.get?_ne_of_find?_none hf id]
  · have hcd : c ≠ d := fun he => hdc he.symm
    rw [if_neg hdc, h.ids]
    by_cases hid : id = t.fresh
    · subst hid
      simp [t.fresh_spec.1, hcd]
    · simp [hid]

theorem Follows.intern_of_full (hfree : s.free = []) :
    Follows ⟨s.calls ++ [c], s.ids.insert c s.calls.length, []⟩ (t.intern c).2 := by
  have hfresh := CallTable.vacant_eq_nil_iff.mp (h.free.symm.trans hfree)
  have hnext : t.fresh = s.calls.length := hfresh.trans h.size.symm
  refine ⟨?_, fun id d hid => ?_, hnext ▸ h.ids_insert hf, ?_⟩
  · rw [List.length_append, List.length_singleton, h.size, CallTable.length_intern_of_full hf hfresh]
  · rw [CallTable.get?_intern_of_new hf, hnext] at hid
    split at hid
    · rename_i he
      rw [he, List.getElem?_concat_length, ← hid]
    · have hold := h.call id d hid
      rwa [List.getElem?_append_left (List.getElem?_eq_some_iff.mp hold).1]
  · rw [CallTable.vacant_intern_of_new hf, ← h.free, hfree]
    rfl

theorem Follows.intern_of_gap {id : CallId} {free : List CallId} (hfree : s.free = id :: free) :
    t.fresh = id ∧ Follows ⟨s.calls.set id c, s.ids.insert c id, free⟩ (t.intern c).2 := by
  have hv := h.free.symm.trans hfree
  have hfresh := CallTable.fresh_of_vacant hv
  have hlt := (CallTable.mem_vacant_iff.mp (hv ▸ List.mem_cons_self)).1
  refine ⟨hfresh, ?_, fun x d hx => ?_, hfresh ▸ h.ids_insert hf, ?_⟩
  · rw [List.length_set, h.size, CallTable.length_intern_of_gap hf (hfresh ▸ hlt)]
  · rw [CallTable.get?_intern_of_new hf, hfresh] at hx
    rw [List.getElem?_set]
    split at hx
    · rename_i he
      rw [if_pos he.symm, if_pos (h.size ▸ hlt), hx]
    · rename_i he
      rw [if_neg fun hxe => he hxe.symm]
      exact h.call x d hx
  · rw [CallTable.vacant_intern_of_new hf, hv]
    rfl

end New

theorem Follows.intern (h : s.Follows t) (c : Call) :
    (s.intern c).1 = (t.intern c).1 ∧ (s.intern c).2.Follows (t.intern c).2 := by
  cases hf : t.find? c with
  | some id =>
    have hid : s.ids.get? c = some id := (h.ids c id).mpr (CallTable.get?_of_find? hf)
    rw [CallTable.intern_of_found hf, Interner.intern, hid]
    exact ⟨rfl, h⟩
  | none =>
    rw [CallTable.intern_fst_of_new hf, Interner.intern, h.get?_of_new hf]
    cases hfree : s.free with
    | nil =>
      have hfresh := CallTable.vacant_eq_nil_iff.mp (h.free.symm.trans hfree)
      exact ⟨h.size.trans hfresh.symm, h.intern_of_full hf hfree⟩
    | cons id free =>
      obtain ⟨hfresh, hfollows⟩ := h.intern_of_gap hf hfree
      exact ⟨hfresh.symm, hfollows⟩

theorem Follows.internAll (h : s.Follows t) (cs : List Call) :
    (s.internAll cs).Follows (t.internList cs) := by
  induction cs generalizing s t with
  | nil => exact h
  | cons c cs ih => exact ih (h.intern c).2

theorem Follows.release (h : s.Follows t) {used used' : List CallId}
    (hsame : ∀ id, id ∈ used' ↔ id ∈ used) (hused : ∀ id ∈ used, ∃ c, t.get? id = some c) :
    (s.release used').Follows (t.keepOnly used) where
  size := h.size.trans List.length_mapIdx.symm
  call := by
    intro id c hid
    rw [CallTable.get?_keepOnly] at hid
    split at hid
    · exact h.call id c hid
    · cases hid
  ids := by
    intro c id
    rw [Interner.release, Dict.get?_filter, h.ids, CallTable.get?_keepOnly]
    by_cases hid : id ∈ used <;> simp [hsame, hid]
  free := by
    have hlen : (t.keepOnly used).slots.length = t.slots.length := List.length_mapIdx
    rw [Interner.release, CallTable.vacant, hlen, h.size]
    refine List.filter_congr fun id _ => ?_
    rw [CallTable.get?_keepOnly]
    by_cases hid : id ∈ used
    · obtain ⟨c, hc⟩ := hused id hid
      simp [hsame, hid, hc]
    · simp [hsame, hid]

end Interner

end BlockTemplate
