import BlockTemplate.Call.Basic

/-!
# The table of calls

Each call of a table has one number, and what is added later does not change the calls that are
numbered already.
-/

namespace BlockTemplate.CallTable

variable {t u v : CallTable}

def Distinct (t : CallTable) : Prop := ∀ i j c, t.get? i = some c → t.get? j = some c → i = j

def Extends (t u : CallTable) : Prop := ∀ id c, t.get? id = some c → u.get? id = some c

theorem Extends.refl (t : CallTable) : Extends t t := fun _ _ h => h

theorem Extends.trans (h₁ : Extends t u) (h₂ : Extends u v) : Extends t v :=
  fun id c h => h₂ id c (h₁ id c h)

theorem get?_eq_some_iff {id : CallId} {c : Call} :
    t.get? id = some c ↔ t.slots[id]? = some (some c) := by
  rw [get?, Option.join_eq_some_iff]

theorem idxOf?_eq_some {α : Type} [BEq α] [LawfulBEq α] {l : List α} {a : α} {i : Nat}
    (h : l.idxOf? a = some i) : l[i]? = some a := by
  rw [List.idxOf?, List.findIdx?_eq_some_iff_getElem] at h
  obtain ⟨hlt, ha, -⟩ := h
  rw [List.getElem?_eq_getElem hlt]
  simpa using ha

theorem idxOf?_eq_none {α : Type} [BEq α] [LawfulBEq α] {l : List α} {a : α}
    (h : l.idxOf? a = none) : a ∉ l := by
  rw [List.idxOf?, List.findIdx?_eq_none_iff] at h
  intro ha
  have := h a ha
  simp at this

theorem get?_of_find? {id : CallId} {c : Call} (h : t.find? c = some id) :
    t.get? id = some c := get?_eq_some_iff.mpr (idxOf?_eq_some h)

theorem get?_ne_of_find?_none {c : Call} (h : t.find? c = none) (id : CallId) :
    t.get? id ≠ some c := by
  intro hg
  exact idxOf?_eq_none h (List.mem_of_getElem? (get?_eq_some_iff.mp hg))

theorem find?_eq_some_iff (hd : Distinct t) {id : CallId} {c : Call} :
    t.find? c = some id ↔ t.get? id = some c := by
  refine ⟨get?_of_find?, ?_⟩
  intro h
  cases hf : t.find? c with
  | none => exact absurd h (get?_ne_of_find?_none hf id)
  | some i => rw [hd i id c (get?_of_find? hf) h]

theorem fresh_spec (t : CallTable) : t.get? t.fresh = none ∧ t.fresh ≤ t.slots.length := by
  rw [fresh]
  cases h : t.slots.idxOf? none with
  | none => simp [get?]
  | some i =>
    have hi := idxOf?_eq_some h
    have hlt := (List.getElem?_eq_some_iff.mp hi).1
    exact ⟨by simp [get?, hi], Nat.le_of_lt hlt⟩

theorem intern_of_found {c : Call} {id : CallId} (h : t.find? c = some id) :
    t.intern c = (id, t) := by
  simp [intern, h]

theorem intern_fst_of_new {c : Call} (h : t.find? c = none) : (t.intern c).1 = t.fresh := by
  simp only [intern, h]
  split <;> rfl

theorem get?_intern_of_new {c : Call} (h : t.find? c = none) (x : CallId) :
    (t.intern c).2.get? x = if x = t.fresh then some c else t.get? x := by
  obtain ⟨-, hle⟩ := t.fresh_spec
  simp only [intern, h]
  by_cases hlt : t.fresh < t.slots.length
  · rw [if_pos hlt]
    simp only [get?, List.getElem?_set]
    by_cases hx : x = t.fresh
    · subst hx
      simp [hlt]
    · have hx' : t.fresh ≠ x := fun he => hx he.symm
      simp [hx, hx']
  · have hid : t.fresh = t.slots.length := Nat.le_antisymm hle (Nat.le_of_not_lt hlt)
    rw [if_neg hlt]
    simp only [get?]
    by_cases hx : x = t.fresh
    · rw [if_pos hx, hx, hid, List.getElem?_concat_length]
      rfl
    · rw [if_neg hx]
      have hxl : x ≠ t.slots.length := fun he => hx (he.trans hid.symm)
      rcases Nat.lt_or_gt_of_ne hxl with hl | hg
      · rw [List.getElem?_append_left hl]
      · rw [List.getElem?_eq_none (by rw [List.length_append, List.length_singleton]; exact hg),
          List.getElem?_eq_none (Nat.le_of_lt hg)]

theorem extends_intern (t : CallTable) (c : Call) : Extends t (t.intern c).2 := by
  intro id d hd
  cases h : t.find? c with
  | some i => rw [intern_of_found h]; exact hd
  | none =>
    rw [get?_intern_of_new h]
    split
    · rename_i he
      rw [he, t.fresh_spec.1] at hd
      cases hd
    · exact hd

theorem get?_intern_self (t : CallTable) (c : Call) :
    (t.intern c).2.get? (t.intern c).1 = some c := by
  cases h : t.find? c with
  | some i => rw [intern_of_found h]; exact get?_of_find? h
  | none => rw [get?_intern_of_new h, intern_fst_of_new h, if_pos rfl]

theorem of_get?_intern {c d : Call} {id : CallId} (h : (t.intern c).2.get? id = some d) :
    t.get? id = some d ∨ d = c := by
  cases hf : t.find? c with
  | some i =>
    rw [intern_of_found hf] at h
    exact .inl h
  | none =>
    rw [get?_intern_of_new hf] at h
    split at h
    · cases h
      exact .inr rfl
    · exact .inl h

theorem Distinct.intern (hd : Distinct t) (c : Call) : Distinct (t.intern c).2 := by
  cases h : t.find? c with
  | some i => rw [intern_of_found h]; exact hd
  | none =>
    have hnew := get?_ne_of_find?_none h
    intro i j d hi hj
    rw [get?_intern_of_new h] at hi hj
    split at hi <;> split at hj
    · rename_i h₁ h₂
      rw [h₁, h₂]
    · cases hi
      exact absurd hj (hnew j)
    · cases hj
      exact absurd hi (hnew i)
    · exact hd i j d hi hj

def Retains (t u : CallTable) : Prop := ∀ c id, t.find? c = some id → u.find? c = some id

theorem Retains.refl (t : CallTable) : Retains t t := fun _ _ h => h

theorem Retains.trans (h₁ : Retains t u) (h₂ : Retains u v) : Retains t v :=
  fun c id h => h₂ c id (h₁ c id h)

theorem get?_ne_of_lt_find? {id j : CallId} {c : Call} (h : t.find? c = some id) (hj : j < id) :
    t.get? j ≠ some c := by
  rw [find?, List.idxOf?, List.findIdx?_eq_some_iff_getElem] at h
  obtain ⟨hlt, -, hfirst⟩ := h
  intro hg
  rw [get?_eq_some_iff, List.getElem?_eq_getElem (Nat.lt_trans hj hlt), Option.some.injEq] at hg
  exact hfirst j hj (beq_iff_eq.mpr hg)

theorem find?_eq_some_iff_first {id : CallId} {c : Call} :
    t.find? c = some id ↔ t.get? id = some c ∧ ∀ j < id, t.get? j ≠ some c := by
  refine ⟨fun h => ⟨get?_of_find? h, fun j hj => get?_ne_of_lt_find? h hj⟩, ?_⟩
  rintro ⟨hid, hfirst⟩
  cases hf : t.find? c with
  | none => exact absurd hid (get?_ne_of_find?_none hf id)
  | some i =>
    have hle : id ≤ i := Nat.le_of_not_lt fun hlt => hfirst i hlt (get?_of_find? hf)
    have hge : i ≤ id := Nat.le_of_not_lt fun hlt => get?_ne_of_lt_find? hf hlt hid
    rw [Nat.le_antisymm hge hle]

theorem find?_intern_self (t : CallTable) (c : Call) :
    (t.intern c).2.find? c = some (t.intern c).1 := by
  cases h : t.find? c with
  | some i =>
    rw [intern_of_found h]
    exact h
  | none =>
    refine find?_eq_some_iff_first.mpr ⟨t.get?_intern_self c, fun j hj => ?_⟩
    rw [intern_fst_of_new h] at hj
    rw [get?_intern_of_new h, if_neg (Nat.ne_of_lt hj)]
    exact get?_ne_of_find?_none h j

theorem retains_intern (t : CallTable) (c : Call) : Retains t (t.intern c).2 := by
  intro d id hd
  cases h : t.find? c with
  | some i =>
    rw [intern_of_found h]
    exact hd
  | none =>
    obtain ⟨hid, hfirst⟩ := find?_eq_some_iff_first.mp hd
    refine find?_eq_some_iff_first.mpr ⟨t.extends_intern c id d hid, fun j hj hg => ?_⟩
    rw [get?_intern_of_new h] at hg
    split at hg
    · rw [Option.some.inj hg, hd] at h
      cases h
    · exact hfirst j hj hg

theorem distinct_empty : Distinct empty := by
  intro i j c hi
  simp [get?, empty] at hi

theorem get?_keepOnly (t : CallTable) (used : List CallId) (id : CallId) :
    (t.keepOnly used).get? id = if id ∈ used then t.get? id else none := by
  simp only [get?, keepOnly, List.getElem?_mapIdx]
  by_cases h : id ∈ used
  · cases t.slots[id]? <;> simp [h]
  · cases t.slots[id]? <;> simp [h]

theorem Distinct.keepOnly (hd : Distinct t) (used : List CallId) : Distinct (t.keepOnly used) := by
  intro i j c hi hj
  rw [get?_keepOnly] at hi hj
  split at hi
  · split at hj
    · exact hd i j c hi hj
    · cases hj
  · cases hi

def internList (cs : List Call) (t : CallTable) : CallTable := cs.foldl (fun t c => (t.intern c).2) t

theorem internList_append (cs ds : List Call) (t : CallTable) :
    internList (cs ++ ds) t = internList ds (internList cs t) := List.foldl_append

theorem extends_internList (cs : List Call) (t : CallTable) : t.Extends (internList cs t) := by
  induction cs generalizing t with
  | nil => exact .refl t
  | cons c cs ih => exact (t.extends_intern c).trans (ih (t.intern c).2)

theorem Distinct.internList (cs : List Call) (h : t.Distinct) :
    (CallTable.internList cs t).Distinct := by
  induction cs generalizing t with
  | nil => exact h
  | cons c cs ih => exact ih (h.intern c)

end BlockTemplate.CallTable
