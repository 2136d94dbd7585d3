import BlockTemplate.Proofs.Tree.Shape

/-!
# Slots

What each edit of a tree leaves in each slot.
-/

namespace BlockTemplate

theorem mem_addNew {α : Type} [DecidableEq α] {xs : List α} {x y : α} :
    y ∈ addNew xs x ↔ y ∈ xs ∨ y = x := by
  rw [addNew]
  split
  · rename_i hx
    refine ⟨.inl, ?_⟩
    intro h
    rcases h with h | rfl
    · exact h
    · exact hx
  · rw [List.mem_append, List.mem_singleton]

theorem mem_foldl_addNew {α : Type} [DecidableEq α] {new xs : List α} {x : α} :
    x ∈ new.foldl addNew xs ↔ x ∈ xs ∨ x ∈ new := by
  induction new generalizing xs with
  | nil => simp
  | cons y new ih =>
    rw [List.foldl_cons, ih, mem_addNew, List.mem_cons, or_assoc]

theorem nodup_addNew {α : Type} [DecidableEq α] {xs : List α} (h : xs.Nodup) (x : α) :
    (addNew xs x).Nodup := by
  rw [addNew]
  split
  · exact h
  · rename_i hx
    exact h.append (List.nodup_singleton x) (by simpa using hx)

theorem nodup_foldl_addNew {α : Type} [DecidableEq α] {xs : List α} (h : xs.Nodup)
    (new : List α) : (new.foldl addNew xs).Nodup := by
  induction new generalizing xs with
  | nil => exact h
  | cons y new ih => exact ih (nodup_addNew h y)

theorem foldl_addNew_of_nodup {α : Type} [DecidableEq α] {xs new : List α}
    (h : (xs ++ new).Nodup) : new.foldl addNew xs = xs ++ new := by
  induction new generalizing xs with
  | nil => exact (List.append_nil xs).symm
  | cons x new ih =>
    have hx : x ∉ xs := fun hm => List.disjoint_of_nodup_append h hm List.mem_cons_self
    have hstep : xs ++ x :: new = (xs ++ [x]) ++ new := by simp
    rw [hstep] at h ⊢
    rw [List.foldl_cons, addNew, if_neg hx, ih h]

theorem foldl_addNew_map {α β : Type} [DecidableEq α] [DecidableEq β] {f : α → β}
    {xs : List α} (acc : List α) (hf : ∀ a ∈ acc ++ xs, ∀ b ∈ acc ++ xs, f a = f b → a = b) :
    (xs.map f).foldl addNew (acc.map f) = (xs.foldl addNew acc).map f := by
  induction xs generalizing acc with
  | nil => rfl
  | cons x xs ih =>
    have hstep : addNew (acc.map f) (f x) = (addNew acc x).map f := by
      have hiff : f x ∈ acc.map f ↔ x ∈ acc := by
        refine ⟨?_, List.mem_map_of_mem⟩
        intro hm
        obtain ⟨a, ha, hax⟩ := List.mem_map.mp hm
        rw [← hf a (List.mem_append_left _ ha) x (by simp) hax]
        exact ha
      rw [addNew, addNew]
      by_cases hx : x ∈ acc
      · rw [if_pos hx, if_pos (hiff.mpr hx)]
      · rw [if_neg hx, if_neg fun hm => hx (hiff.mp hm), List.map_append]
        rfl
    have hsub : ∀ a ∈ addNew acc x ++ xs, a ∈ acc ++ x :: xs := by
      intro a ha
      rcases List.mem_append.mp ha with ha | ha
      · rcases mem_addNew.mp ha with ha | rfl
        · exact List.mem_append_left _ ha
        · simp
      · simp [ha]
    rw [List.map_cons, List.foldl_cons, List.foldl_cons, hstep]
    exact ih (addNew acc x) fun a ha b hb => hf a (hsub a ha) b (hsub b hb)

namespace Tree

variable {t : Tree}

theorem get?_eq_some_iff {id : BlockId} {b : Block} :
    t.get? id = some b ↔ t.slots[id]? = some (some b) := by
  rw [get?, Option.join_eq_some_iff]

theorem lt_of_get? {id : Nat} {b : Block} (h : t.get? id = some b) : id < t.slots.length := by
  by_contra hn
  rw [get?, List.getElem?_eq_none (by omega)] at h
  cases h

theorem get?_of_length_le {id : Nat} (h : t.slots.length ≤ id) : t.get? id = none := by
  rw [get?, List.getElem?_eq_none h]
  rfl

theorem get?_modify (t : Tree) (id : BlockId) (f : Block → Block) (x : BlockId) :
    (t.modify id f).get? x = if x = id then (t.get? x).map f else t.get? x := by
  simp only [get?, modify, List.getElem?_modify]
  by_cases hx : x = id
  · subst hx
    rw [if_pos rfl]
    cases t.slots[x]? with
    | none => rfl
    | some b => cases b <;> simp
  · have hx' : id ≠ x := fun he => hx he.symm
    rw [if_neg hx]
    cases t.slots[x]? <;> simp [hx']

@[simp] theorem calls_modify (t : Tree) (id : BlockId) (f : Block → Block) :
    (t.modify id f).calls = t.calls := rfl

theorem get?_clear (t : Tree) (ids : List BlockId) (x : BlockId) :
    (t.clear ids).get? x = if x ∈ ids then none else t.get? x := by
  simp only [get?, clear, List.getElem?_mapIdx]
  by_cases hx : x ∈ ids
  · cases t.slots[x]? <;> simp [hx]
  · cases t.slots[x]? <;> simp [hx]

@[simp] theorem calls_clear (t : Tree) (ids : List BlockId) : (t.clear ids).calls = t.calls := rfl

theorem get?_put {id : Nat} (b : Block) (h : id ≤ t.slots.length) (x : Nat) :
    (t.put id b).get? x = if x = id then some b else t.get? x := by
  by_cases hlt : id < t.slots.length
  · rw [put, if_pos hlt]
    simp only [get?, List.getElem?_set]
    by_cases hx : x = id
    · subst hx
      simp [hlt]
    · have hx' : id ≠ x := fun he => hx he.symm
      simp [hx, hx']
  · have hid : id = t.slots.length := by omega
    rw [put, if_neg hlt]
    simp only [get?]
    by_cases hx : x = id
    · rw [if_pos hx, hx, hid, List.getElem?_concat_length]
      rfl
    · rw [if_neg hx]
      by_cases hxl : x < t.slots.length
      · rw [List.getElem?_append_left hxl]
      · rw [List.getElem?_eq_none (by rw [List.length_append, List.length_singleton]; omega),
          List.getElem?_eq_none (by omega)]

theorem length_put {id : Nat} (b : Block) (h : id ≤ t.slots.length) :
    (t.put id b).slots.length = max t.slots.length (id + 1) := by
  by_cases hlt : id < t.slots.length
  · rw [put, if_pos hlt, List.length_set]
    omega
  · rw [put, if_neg hlt, List.length_append, List.length_singleton]
    omega

@[simp] theorem calls_put (t : Tree) (id : BlockId) (b : Block) : (t.put id b).calls = t.calls := by
  rw [put]
  split <;> rfl

def Fits : (size : Nat) → List Nat → Prop
  | _, [] => True
  | size, id :: ids => id ≤ size ∧ Fits (max size (id + 1)) ids

theorem Fits.take {size : Nat} {ids : List Nat} (h : Fits size ids) (n : Nat) :
    Fits size (ids.take n) := by
  induction ids generalizing size n with
  | nil => rw [List.take_nil]; trivial
  | cons id ids ih =>
    cases n with
    | zero => trivial
    | succ n => exact ⟨h.1, ih h.2 n⟩

theorem fits_range' (size n : Nat) : Fits size (List.range' size n) := by
  induction n generalizing size with
  | zero => trivial
  | succ n ih =>
    refine ⟨Nat.le_refl _, ?_⟩
    rw [show max size (size + 1) = size + 1 by omega]
    exact ih (size + 1)

theorem fits_append {size : Nat} {ids rest : List Nat} (h : ∀ id ∈ ids, id < size)
    (hr : Fits size rest) : Fits size (ids ++ rest) := by
  induction ids with
  | nil => exact hr
  | cons id ids ih =>
    have hid := h id List.mem_cons_self
    refine ⟨Nat.le_of_lt hid, ?_⟩
    rw [show max size (id + 1) = size by omega]
    exact ih fun x hx => h x (List.mem_cons_of_mem _ hx)

def putAll (t : Tree) (es : List (BlockId × Block)) : Tree := es.foldl (fun t e => t.put e.1 e.2) t

theorem putAll_cons (t : Tree) (e : BlockId × Block) (es : List (BlockId × Block)) :
    t.putAll (e :: es) = (t.put e.1 e.2).putAll es := rfl

@[simp] theorem calls_putAll (t : Tree) (es : List (BlockId × Block)) :
    (t.putAll es).calls = t.calls := by
  induction es generalizing t with
  | nil => rfl
  | cons e es ih => rw [putAll_cons, ih, calls_put]

theorem get?_putAll_of_not_mem {es : List (BlockId × Block)} (hf : Fits t.slots.length (es.map (·.1)))
    {x : BlockId} (hx : x ∉ es.map (·.1)) : (t.putAll es).get? x = t.get? x := by
  induction es generalizing t with
  | nil => rfl
  | cons e es ih =>
    rw [List.map_cons] at hf hx
    rw [List.mem_cons, not_or] at hx
    have hlen := length_put e.2 hf.1
    rw [putAll_cons, ih (by rw [hlen]; exact hf.2) hx.2, get?_put e.2 hf.1, if_neg hx.1]

theorem get?_putAll_of_mem {es : List (BlockId × Block)} (hf : Fits t.slots.length (es.map (·.1)))
    (hn : (es.map (·.1)).Nodup) {e : BlockId × Block} (he : e ∈ es) :
    (t.putAll es).get? e.1 = some e.2 := by
  induction es generalizing t with
  | nil => cases he
  | cons a es ih =>
    rw [List.map_cons] at hf hn
    have hn' := List.nodup_cons.mp hn
    have hlen := length_put a.2 hf.1
    have hfits : Fits (t.put a.1 a.2).slots.length (es.map (·.1)) := by rw [hlen]; exact hf.2
    rw [putAll_cons]
    rcases List.mem_cons.mp he with rfl | he
    · rw [get?_putAll_of_not_mem hfits hn'.1, get?_put e.2 hf.1, if_pos rfl]
    · exact ih hfits hn'.2 he

theorem mem_vacant_iff {id : Nat} :
    id ∈ t.vacant ↔ id < t.slots.length ∧ t.get? id = none := by
  simp [vacant]

theorem nodup_vacant (t : Tree) : t.vacant.Nodup := List.nodup_range.filter _

theorem fits_allocate (t : Tree) (n : Nat) : Fits t.slots.length (t.allocate n) :=
  (fits_append (fun _ hid => (mem_vacant_iff.mp hid).1) (fits_range' _ _)).take n

theorem length_allocate (t : Tree) (n : Nat) : (t.allocate n).length = n := by
  rw [allocate, List.length_take, List.length_append, List.length_range']
  omega

theorem nodup_allocate (t : Tree) (n : Nat) : (t.allocate n).Nodup := by
  refine List.Nodup.sublist (List.take_sublist _ _) ?_
  refine List.nodup_append.mpr ⟨t.nodup_vacant, List.nodup_range', ?_⟩
  intro x hx y hy hxy
  have hlt := (mem_vacant_iff.mp hx).1
  have hge := (List.mem_range'_1.mp hy).1
  rw [hxy] at hlt
  exact absurd hlt (Nat.not_lt.mpr hge)

theorem get?_of_mem_allocate {n : Nat} {id : BlockId} (h : id ∈ t.allocate n) :
    t.get? id = none := by
  rcases List.mem_append.mp (List.mem_of_mem_take h) with hv | hr
  · exact (mem_vacant_iff.mp hv).2
  · exact get?_of_length_le (List.mem_range'_1.mp hr).1

section GraftAt

variable {ids : List BlockId} {above : Option BlockId} {f : Fragment}

theorem graftAt_eq (t : Tree) (ids : List BlockId) (above : Option BlockId) (f : Fragment) :
    t.graftAt ids above f =
      t.putAll (ids.zip (f.map (relocate (fun i => ids.getD i rootId) above))) := rfl

theorem fst_zip (f : List Block) (h : ids.length = f.length) : (ids.zip f).map (·.1) = ids :=
  List.map_fst_zip (Nat.le_of_eq h)

theorem get?_graftAt_of_not_mem (hf : Fits t.slots.length ids) (hl : ids.length = f.length)
    {x : BlockId} (hx : x ∉ ids) : (t.graftAt ids above f).get? x = t.get? x := by
  have hfst := fst_zip (f.map (relocate (fun i => ids.getD i rootId) above)) (by simpa using hl)
  rw [graftAt_eq, get?_putAll_of_not_mem]
  · rw [hfst]; exact hf
  · rw [hfst]; exact hx

theorem get?_graftAt_of_mem (hf : Fits t.slots.length ids) (hn : ids.Nodup)
    (hl : ids.length = f.length) {i : Nat} {b : Block} (hb : f[i]? = some b) :
    (t.graftAt ids above f).get? (ids.getD i rootId) =
      some (relocate (fun i => ids.getD i rootId) above b) := by
  have hfst := fst_zip (f.map (relocate (fun i => ids.getD i rootId) above)) (by simpa using hl)
  have hi : i < f.length := (List.getElem?_eq_some_iff.mp hb).1
  have hmem : (ids.getD i rootId, relocate (fun i => ids.getD i rootId) above b) ∈
      ids.zip (f.map (relocate (fun i => ids.getD i rootId) above)) := by
    refine List.mem_iff_getElem?.mpr ⟨i, ?_⟩
    rw [List.getElem?_zip_eq_some]
    refine ⟨?_, by rw [List.getElem?_map, hb]; rfl⟩
    rw [List.getD_eq_getElem?_getD, List.getElem?_eq_getElem (by omega)]
    rfl
  rw [graftAt_eq]
  exact get?_putAll_of_mem (by rw [hfst]; exact hf) (by rw [hfst]; exact hn) hmem

@[simp] theorem calls_graftAt (t : Tree) (ids : List BlockId) (above : Option BlockId)
    (f : Fragment) : (t.graftAt ids above f).calls = t.calls := by
  rw [graftAt_eq, calls_putAll]

end GraftAt

theorem find?_eq_none_iff {name : Text} :
    t.find? name = none ↔ ∀ id b, t.get? id = some b → b.name ≠ name := by
  rw [find?, List.findIdx?_eq_none_iff]
  constructor
  · intro h id b hb hn
    rw [get?_eq_some_iff] at hb
    have := h _ (List.mem_of_getElem? hb)
    simp [hn] at this
  · intro h x hx
    cases x with
    | none => rfl
    | some b =>
      obtain ⟨id, hid⟩ := List.mem_iff_getElem?.mp hx
      simpa using h id b (get?_eq_some_iff.mpr hid)

theorem get?_of_find? {name : Text} {id : BlockId} (h : t.find? name = some id) :
    ∃ b, t.get? id = some b ∧ b.name = name := by
  rw [find?, List.findIdx?_eq_some_iff_getElem] at h
  obtain ⟨hlt, hp, -⟩ := h
  cases hb : t.slots[id] with
  | none => simp [hb] at hp
  | some b =>
    refine ⟨b, ?_, by simpa [hb] using hp⟩
    rw [get?_eq_some_iff, List.getElem?_eq_getElem hlt, hb]

theorem find?_eq_some_iff (hd : Lookup.Distinct t.get?) {name : Text} {id : BlockId} :
    t.find? name = some id ↔ ∃ b, t.get? id = some b ∧ b.name = name := by
  refine ⟨get?_of_find?, ?_⟩
  intro ⟨b, hb, hn⟩
  cases hf : t.find? name with
  | none => exact absurd hn (find?_eq_none_iff.mp hf id b hb)
  | some id' =>
    obtain ⟨b', hb', hn'⟩ := get?_of_find? hf
    rw [hd id id' b b' hb hb' (hn.trans hn'.symm)]

theorem contains_eq_false_iff {name : Text} :
    t.contains name = false ↔ ∀ id b, t.get? id = some b → b.name ≠ name := by
  rw [contains, Option.isSome_eq_false_iff, Option.isNone_iff_eq_none, find?_eq_none_iff]

theorem lookup_eq_ok_iff {name : Text} {id : BlockId} :
    t.lookup name = .ok id ↔ t.find? name = some id := by
  rw [lookup]
  split
  · rename_i id' h
    rw [h, Except.ok.injEq, Option.some.injEq]
  · rename_i h
    simp [h]

end Tree

end BlockTemplate
