/-!
# Dictionaries

A dictionary keeps its entries strictly sorted by key, so that two dictionaries with the same
look-ups are equal (`Dict.ext_get?`) and listing one gives the order in which it is written to a
file. Texts are ranked by their characters, which is also the order of their UTF-8 bytes.
-/

namespace BlockTemplate

class Ranked (κ : Type) where
  lt : κ → κ → Bool
  irrefl : ∀ a, lt a a = false
  trans : ∀ {a b c}, lt a b = true → lt b c = true → lt a c = true
  eq_of_not_lt : ∀ {a b}, lt a b = false → lt b a = false → a = b

namespace Ranked

theorem asymm {κ : Type} [Ranked κ] {a b : κ} (h : lt a b = true) : lt b a = false := by
  cases hb : lt b a with
  | false => rfl
  | true => have := trans h hb; simp [irrefl] at this

instance : Ranked Nat where
  lt a b := decide (a < b)
  irrefl := by simp
  trans := by simp only [decide_eq_true_eq]; omega
  eq_of_not_lt := by simp only [decide_eq_false_iff_not]; omega

instance : Ranked Char where
  lt a b := decide (a.toNat < b.toNat)
  irrefl := by simp
  trans := by simp only [decide_eq_true_eq]; omega
  eq_of_not_lt := by
    intro a b h₁ h₂
    simp only [decide_eq_false_iff_not] at h₁ h₂
    exact Char.toNat_inj.mp (by omega)

def listLt {κ : Type} [Ranked κ] : List κ → List κ → Bool
  | [], [] => false
  | [], _ :: _ => true
  | _ :: _, [] => false
  | a :: as, b :: bs => lt a b || (!lt b a && listLt as bs)

theorem listLt_irrefl {κ : Type} [Ranked κ] (as : List κ) : listLt as as = false := by
  induction as with
  | nil => rfl
  | cons a as ih => simp [listLt, irrefl, ih]

theorem listLt_trans {κ : Type} [Ranked κ] {as bs cs : List κ} (h₁ : listLt as bs = true)
    (h₂ : listLt bs cs = true) : listLt as cs = true := by
  induction as generalizing bs cs with
  | nil => cases bs <;> cases cs <;> simp_all [listLt]
  | cons a as ih =>
    cases bs with
    | nil => simp [listLt] at h₁
    | cons b bs =>
      cases cs with
      | nil => simp [listLt] at h₂
      | cons c cs =>
        simp only [listLt, Bool.or_eq_true, Bool.and_eq_true, Bool.not_eq_true'] at h₁ h₂ ⊢
        rcases h₁ with h₁ | ⟨h₁, ht₁⟩ <;> rcases h₂ with h₂ | ⟨h₂, ht₂⟩
        · exact .inl (trans h₁ h₂)
        · cases hab : lt b c with
          | true => exact .inl (trans h₁ hab)
          | false => exact .inl (eq_of_not_lt hab h₂ ▸ h₁)
        · cases hab : lt a b with
          | true => exact .inl (trans hab h₂)
          | false => exact .inl ((eq_of_not_lt hab h₁).symm ▸ h₂)
        · cases hac : lt a c with
          | true => exact .inl rfl
          | false =>
            refine .inr ⟨?_, ih ht₁ ht₂⟩
            cases hca : lt c a with
            | false => rfl
            | true =>
              cases hab : lt a b with
              | true => have := trans hca hab; simp_all
              | false => have := eq_of_not_lt hab h₁; simp_all

theorem eq_of_not_listLt {κ : Type} [Ranked κ] {as bs : List κ} (h₁ : listLt as bs = false)
    (h₂ : listLt bs as = false) : as = bs := by
  induction as generalizing bs with
  | nil => cases bs <;> simp_all [listLt]
  | cons a as ih =>
    cases bs with
    | nil => simp [listLt] at h₂
    | cons b bs =>
      simp only [listLt, Bool.or_eq_false_iff] at h₁ h₂
      have hab : a = b := eq_of_not_lt h₁.1 h₂.1
      subst hab
      simp only [irrefl, Bool.not_false, Bool.true_and] at h₁ h₂
      rw [ih h₁.2 h₂.2]

instance {κ : Type} [Ranked κ] : Ranked (List κ) where
  lt := listLt
  irrefl := listLt_irrefl
  trans := listLt_trans
  eq_of_not_lt := eq_of_not_listLt

end Ranked

/-- Finitely many entries, one for each key, in the order of the keys. -/
structure Dict (κ α : Type) [Ranked κ] where
  entries : List (κ × α)
  sorted : entries.Pairwise (fun a b => Ranked.lt a.1 b.1 = true)

namespace Dict

open Ranked (lt)

variable {κ α : Type} [Ranked κ]

theorem eq_of_entries {d e : Dict κ α} (h : d.entries = e.entries) : d = e := by
  cases d; cases e; simp_all

instance [DecidableEq κ] [DecidableEq α] : DecidableEq (Dict κ α) := fun d e =>
  if h : d.entries = e.entries then isTrue (eq_of_entries h)
  else isFalse fun he => h (he ▸ rfl)

instance [Repr κ] [Repr α] : Repr (Dict κ α) := ⟨fun d n => reprPrec d.entries n⟩

def empty : Dict κ α := ⟨[], .nil⟩

instance : EmptyCollection (Dict κ α) := ⟨empty⟩

instance : Inhabited (Dict κ α) := ⟨empty⟩

def find (k : κ) : List (κ × α) → Option α
  | [] => none
  | (a, v) :: rest => if lt k a then none else if lt a k then find k rest else some v

def put (k : κ) (v : α) : List (κ × α) → List (κ × α)
  | [] => [(k, v)]
  | (a, w) :: rest =>
    if lt k a then (k, v) :: (a, w) :: rest
    else if lt a k then (a, w) :: put k v rest
    else (k, v) :: rest

theorem mem_put {k : κ} {v : α} {e : κ × α} {l : List (κ × α)} (h : e ∈ put k v l) :
    e = (k, v) ∨ e ∈ l := by
  induction l with
  | nil => simpa [put] using h
  | cons hd tl ih =>
    obtain ⟨a, w⟩ := hd
    simp only [put] at h
    split at h
    · simpa using h
    · split at h
      · rcases List.mem_cons.mp h with h | h
        · simp [h]
        · rcases ih h with h | h <;> simp [h]
      · rcases List.mem_cons.mp h with h | h <;> simp [h]

theorem put_sorted {k : κ} {v : α} {l : List (κ × α)}
    (h : l.Pairwise (fun a b => lt a.1 b.1 = true)) :
    (put k v l).Pairwise (fun a b => lt a.1 b.1 = true) := by
  induction l with
  | nil => simp [put]
  | cons hd tl ih =>
    obtain ⟨a, w⟩ := hd
    have hd := (List.pairwise_cons.mp h).1
    have ht := (List.pairwise_cons.mp h).2
    simp only [put]
    split
    · rename_i hka
      refine List.pairwise_cons.mpr ⟨fun e he => ?_, h⟩
      rcases List.mem_cons.mp he with rfl | he
      · exact hka
      · exact Ranked.trans hka (hd e he)
    · rename_i hka
      split
      · rename_i hak
        refine List.pairwise_cons.mpr ⟨fun e he => ?_, ih ht⟩
        rcases mem_put he with rfl | he
        · exact hak
        · exact hd e he
      · rename_i hak
        have hk : k = a := Ranked.eq_of_not_lt (by simpa using hka) (by simpa using hak)
        subst hk
        exact List.pairwise_cons.mpr ⟨hd, ht⟩

def get? (d : Dict κ α) (k : κ) : Option α := find k d.entries

def contains (d : Dict κ α) (k : κ) : Bool := (d.get? k).isSome

def insert (d : Dict κ α) (k : κ) (v : α) : Dict κ α := ⟨put k v d.entries, put_sorted d.sorted⟩

def erase (d : Dict κ α) (k : κ) : Dict κ α :=
  ⟨d.entries.filter (fun e => lt e.1 k || lt k e.1), d.sorted.filter _⟩

def filter (d : Dict κ α) (keep : κ × α → Bool) : Dict κ α :=
  ⟨d.entries.filter keep, d.sorted.filter _⟩

def keys (d : Dict κ α) : List κ := d.entries.map (·.1)

def ofList (l : List (κ × α)) : Dict κ α := l.foldl (fun d e => d.insert e.1 e.2) empty

theorem find_eq_none_of_lt {k : κ} {l : List (κ × α)} (h : ∀ e ∈ l, lt k e.1 = true) :
    find k l = none := by
  cases l with
  | nil => rfl
  | cons hd tl => simp [find, h hd (by simp)]

theorem find_put (k j : κ) (v : α) (l : List (κ × α)) :
    find j (put k v l) = if lt j k || lt k j then find j l else some v := by
  induction l with
  | nil =>
    simp only [put, find]
    cases hjk : lt j k <;> cases hkj : lt k j <;> simp
  | cons hd tl ih =>
    obtain ⟨a, w⟩ := hd
    simp only [put]
    split
    · rename_i hka
      simp only [find]
      cases hjk : lt j k with
      | true => simp [Ranked.trans hjk hka]
      | false => cases hkj : lt k j <;> simp
    · rename_i hka
      split
      · rename_i hak
        simp only [find, ih]
        cases hja : lt j a with
        | true => simp [Ranked.trans hja hak]
        | false =>
          cases haj : lt a j with
          | true => simp
          | false =>
            have : a = j := Ranked.eq_of_not_lt haj hja
            subst this
            simp [hak]
      · rename_i hak
        have hk : k = a := Ranked.eq_of_not_lt (by simpa using hka) (by simpa using hak)
        subst hk
        simp only [find]
        cases hjk : lt j k <;> cases hkj : lt k j <;> simp

theorem find_filter (k j : κ) {l : List (κ × α)}
    (h : l.Pairwise (fun a b => lt a.1 b.1 = true)) :
    find j (l.filter (fun e => lt e.1 k || lt k e.1)) =
      if lt j k || lt k j then find j l else none := by
  induction l with
  | nil => simp [find]
  | cons hd tl ih =>
    obtain ⟨a, w⟩ := hd
    have hd := (List.pairwise_cons.mp h).1
    have ht := (List.pairwise_cons.mp h).2
    rw [List.filter_cons]
    by_cases hak : (lt a k || lt k a) = true
    · simp only [hak, if_true, find, ih ht]
      cases hja : lt j a with
      | true => simp
      | false =>
        cases haj : lt a j with
        | true => simp
        | false =>
          have : a = j := Ranked.eq_of_not_lt haj hja
          subst this
          simp [hak]
    · have hk : a = k := by
        simp only [Bool.or_eq_true, not_or, Bool.not_eq_true] at hak
        exact Ranked.eq_of_not_lt hak.1 hak.2
      subst hk
      rw [if_neg hak, ih ht]
      simp only [find]
      cases hja : lt j a with
      | true =>
        simp only [Bool.true_or, if_true]
        exact find_eq_none_of_lt fun e he => Ranked.trans hja (hd e he)
      | false => cases haj : lt a j <;> simp

theorem get?_empty (k : κ) : (empty : Dict κ α).get? k = none := rfl

@[simp] theorem get?_insert_self (d : Dict κ α) (k : κ) (v : α) :
    (d.insert k v).get? k = some v := by
  simp [get?, insert, find_put, Ranked.irrefl]

theorem get?_insert_ne (d : Dict κ α) {k j : κ} (v : α) (h : j ≠ k) :
    (d.insert k v).get? j = d.get? j := by
  have : (lt j k || lt k j) = true := by
    cases h₁ : lt j k <;> cases h₂ : lt k j <;> simp
    exact h (Ranked.eq_of_not_lt h₁ h₂)
  simp [get?, insert, find_put, this]

@[simp] theorem get?_erase_self (d : Dict κ α) (k : κ) : (d.erase k).get? k = none := by
  simp [get?, erase, find_filter _ _ d.sorted, Ranked.irrefl]

theorem get?_erase_ne (d : Dict κ α) {k j : κ} (h : j ≠ k) : (d.erase k).get? j = d.get? j := by
  have : (lt j k || lt k j) = true := by
    cases h₁ : lt j k <;> cases h₂ : lt k j <;> simp
    exact h (Ranked.eq_of_not_lt h₁ h₂)
  simp [get?, erase, find_filter _ _ d.sorted, this]

theorem get?_insert (d : Dict κ α) [DecidableEq κ] (k j : κ) (v : α) :
    (d.insert k v).get? j = if j = k then some v else d.get? j := by
  by_cases h : j = k
  · rw [if_pos h, h, get?_insert_self]
  · rw [if_neg h, get?_insert_ne d v h]

theorem find_eq_some_of_mem {k : κ} {v : α} {l : List (κ × α)}
    (h : l.Pairwise (fun a b => lt a.1 b.1 = true)) (hm : (k, v) ∈ l) : find k l = some v := by
  induction l with
  | nil => simp at hm
  | cons hd tl ih =>
    obtain ⟨a, w⟩ := hd
    have hd := (List.pairwise_cons.mp h).1
    rcases List.mem_cons.mp hm with he | hm
    · cases he; simp [find, Ranked.irrefl]
    · have := hd _ hm
      simp only [find, this, Ranked.asymm this]
      exact ih (List.pairwise_cons.mp h).2 hm

theorem mem_of_find {k : κ} {v : α} {l : List (κ × α)} (h : find k l = some v) : (k, v) ∈ l := by
  induction l with
  | nil => simp [find] at h
  | cons hd tl ih =>
    obtain ⟨a, w⟩ := hd
    simp only [find] at h
    split at h
    · simp at h
    · rename_i hka
      split at h
      · exact List.mem_cons_of_mem _ (ih h)
      · rename_i hak
        have hk : k = a := Ranked.eq_of_not_lt (by simpa using hka) (by simpa using hak)
        simp_all

theorem get?_eq_some_iff {d : Dict κ α} {k : κ} {v : α} :
    d.get? k = some v ↔ (k, v) ∈ d.entries :=
  ⟨mem_of_find, find_eq_some_of_mem d.sorted⟩

theorem get?_filter {d : Dict κ α} {keep : κ × α → Bool} {k : κ} {v : α} :
    (d.filter keep).get? k = some v ↔ d.get? k = some v ∧ keep (k, v) = true := by
  rw [get?_eq_some_iff, get?_eq_some_iff, filter, List.mem_filter]

theorem entries_ext {l m : List (κ × α)} (hl : l.Pairwise (fun a b => lt a.1 b.1 = true))
    (hm : m.Pairwise (fun a b => lt a.1 b.1 = true)) (h : ∀ k, find k l = find k m) : l = m := by
  induction l generalizing m with
  | nil =>
    cases m with
    | nil => rfl
    | cons hd tl => obtain ⟨a, w⟩ := hd; have := h a; simp [find, Ranked.irrefl] at this
  | cons hd tl ih =>
    obtain ⟨a, w⟩ := hd
    cases m with
    | nil => have := h a; simp [find, Ranked.irrefl] at this
    | cons hd' tl' =>
      obtain ⟨b, u⟩ := hd'
      have hab : lt a b = false := by
        cases hab : lt a b with
        | false => rfl
        | true => have := h a; simp [find, Ranked.irrefl, hab] at this
      have hba : lt b a = false := by
        cases hba : lt b a with
        | false => rfl
        | true => have := h b; simp [find, Ranked.irrefl, hba] at this
      have hk : a = b := Ranked.eq_of_not_lt hab hba
      subst hk
      have hw : w = u := by have := h a; simpa [find, Ranked.irrefl] using this
      subst hw
      have hl' := List.pairwise_cons.mp hl
      have hm' := List.pairwise_cons.mp hm
      rw [ih hl'.2 hm'.2 fun k => ?_]
      have hk := h k
      simp only [find] at hk
      cases hka : lt k a with
      | true =>
        rw [find_eq_none_of_lt fun e he => Ranked.trans hka (hl'.1 e he),
          find_eq_none_of_lt fun e he => Ranked.trans hka (hm'.1 e he)]
      | false =>
        cases hak : lt a k with
        | true => simpa [hka, hak] using hk
        | false =>
          have : a = k := Ranked.eq_of_not_lt hak hka
          subst this
          rw [find_eq_none_of_lt fun e he => hl'.1 e he, find_eq_none_of_lt fun e he => hm'.1 e he]

theorem ext_get? {d e : Dict κ α} (h : ∀ k, d.get? k = e.get? k) : d = e :=
  eq_of_entries (entries_ext d.sorted e.sorted h)

theorem insert_comm (d : Dict κ α) [DecidableEq κ] {k j : κ} (h : k ≠ j) (v w : α) :
    (d.insert k v).insert j w = (d.insert j w).insert k v := by
  refine ext_get? fun x => ?_
  rw [get?_insert, get?_insert, get?_insert, get?_insert]
  by_cases hj : x = j
  · have hk : x ≠ k := fun hk => h (hk.symm.trans hj)
    rw [if_pos hj, if_neg hk, if_pos hj]
  · rw [if_neg hj, if_neg hj]

theorem erase_insert (d : Dict κ α) [DecidableEq κ] {k j : κ} (h : k ≠ j) (v : α) :
    (d.insert k v).erase j = (d.erase j).insert k v := by
  refine ext_get? fun x => ?_
  by_cases hj : x = j
  · have hk : x ≠ k := fun hk => h (hk.symm.trans hj)
    rw [hj, get?_erase_self, get?_insert, if_neg (hj ▸ hk), get?_erase_self]
  · rw [get?_erase_ne _ hj, get?_insert, get?_insert, get?_erase_ne _ hj]

theorem get?_foldl_insert {l : List (κ × α)}
    (hl : ∀ e ∈ l, ∀ e' ∈ l, e.1 = e'.1 → e.2 = e'.2) (d : Dict κ α) {k : κ} {v : α} :
    (l.foldl (fun d e => d.insert e.1 e.2) d).get? k = some v ↔
      (k, v) ∈ l ∨ (∀ w, (k, w) ∉ l) ∧ d.get? k = some v := by
  induction l generalizing d with
  | nil => simp
  | cons e l ih =>
    have htail := ih (fun x hx y hy => hl x (List.mem_cons_of_mem e hx) y (List.mem_cons_of_mem e hy))
    rw [List.foldl_cons, htail]
    by_cases hk : k = e.1
    · subst hk
      rw [get?_insert_self, Option.some.injEq]
      constructor
      · rintro (hm | ⟨-, rfl⟩)
        · exact .inl (List.mem_cons_of_mem e hm)
        · exact .inl List.mem_cons_self
      · rintro (hm | ⟨hn, -⟩)
        · rcases List.mem_cons.mp hm with he | hm
          · rw [← he]
            by_cases hw : ∃ w, (e.1, w) ∈ l
            · obtain ⟨w, hw⟩ := hw
              have : e.2 = w := hl e List.mem_cons_self _ (List.mem_cons_of_mem e hw) rfl
              rw [← this] at hw
              exact .inl (he ▸ hw)
            · exact .inr ⟨fun w hw' => hw ⟨w, he ▸ hw'⟩, rfl⟩
          · exact .inl hm
        · exact absurd List.mem_cons_self (hn e.2)
    · rw [get?_insert_ne d e.2 hk]
      have hne : ∀ w, (k, w) ∈ e :: l ↔ (k, w) ∈ l := by
        intro w
        rw [List.mem_cons]
        exact ⟨fun h => h.resolve_left fun he => hk (by rw [← he]), .inr⟩
      simp only [hne]

theorem get?_ofList {l : List (κ × α)} (hl : ∀ e ∈ l, ∀ e' ∈ l, e.1 = e'.1 → e.2 = e'.2) {k : κ}
    {v : α} : (ofList l).get? k = some v ↔ (k, v) ∈ l := by
  rw [ofList, get?_foldl_insert hl]
  simp [get?_empty]

theorem ofList_entries (d : Dict κ α) : ofList d.entries = d := by
  refine ext_get? ?_
  intro k
  have hl : ∀ e ∈ d.entries, ∀ e' ∈ d.entries, e.1 = e'.1 → e.2 = e'.2 := by
    intro e he e' he' hk
    have h₁ := get?_eq_some_iff.mpr he
    have h₂ := get?_eq_some_iff.mpr he'
    rw [hk, h₂, Option.some.injEq] at h₁
    exact h₁.symm
  refine Option.ext fun v => ?_
  rw [get?_ofList hl, get?_eq_some_iff]

end Dict

end BlockTemplate
