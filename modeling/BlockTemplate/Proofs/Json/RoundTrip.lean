import BlockTemplate.Json.Read
import Mathlib.Tactic.SplitIfs

/-!
# Reading what was written

A value that consists of texts is read back from its compact text: what an escape stands for is the
character that it was written for, and no value ends before its text does.
-/

namespace BlockTemplate.Json

open Text (Decoded)

inductive Writes (c : Char) : Text → Prop
  | plain : c ≠ '"' → c ≠ '\\' → 32 ≤ c.toNat → Writes c [c]
  | letter {l : Char} : l ≠ 'u' → escaped l = some c → Writes c ['\\', l]
  | control : c.toNat < 32 →
    Writes c ['\\', 'u', '0', '0', hexDigit (c.toNat / 16), hexDigit (c.toNat % 16)]

theorem writes_escapeChar (c : Char) : Writes c (escapeChar c) := by
  rw [escapeChar]
  split_ifs with hquote hback h₁ h₂ h₃ h₄ h₅ hc
  · exact hquote ▸ .letter (l := '"') (by decide) rfl
  · exact hback ▸ .letter (l := '\\') (by decide) rfl
  · exact h₁ ▸ .letter (l := 'b') (by decide) rfl
  · exact h₂ ▸ .letter (l := 't') (by decide) rfl
  · exact h₃ ▸ .letter (l := 'n') (by decide) rfl
  · exact h₄ ▸ .letter (l := 'f') (by decide) rfl
  · exact h₅ ▸ .letter (l := 'r') (by decide) rfl
  · exact .control hc
  · exact .plain hquote hback (Nat.not_lt.mp hc)

theorem hexUnit_hexDigit :
    ∀ n < 32, hexUnit '0' '0' (hexDigit (n / 16)) (hexDigit (n % 16)) = some n := by
  decide

theorem readUnits_of_writes {c : Char} {written : Text} {t r : Decoded} {units : Units}
    (hw : Writes c written) (h : readUnits t = some (units, r)) :
    readUnits (written.map some ++ t) = some (some c.toNat :: units, r) := by
  cases hw with
  | plain hquote hback hc =>
    have hplain : ¬ (c.toNat < 32 ∨ c = '\\') := not_or.mpr ⟨Nat.not_lt.mpr hc, hback⟩
    rw [List.map_singleton, List.singleton_append,
      readUnits.eq_5 c t hquote (fun _ _ _ _ _ _ => hback) (fun _ _ _ => hback), if_neg hplain, h]
    rfl
  | @letter l hu he =>
    change readUnits (some '\\' :: some l :: t) = _
    rw [readUnits.eq_4 l t (fun _ _ _ _ _ _ => hu), he, h]
    rfl
  | control hc =>
    change readUnits (some '\\' :: some 'u' :: some '0' :: some '0' ::
      some (hexDigit (c.toNat / 16)) :: some (hexDigit (c.toNat % 16)) :: t) = _
    rw [readUnits, hexUnit_hexDigit c.toNat hc, h]
    rfl

theorem readUnits_quoted (t : Text) (r : Decoded) :
    readUnits ((t.flatMap escapeChar ++ ['"']).map some ++ r) =
      some (t.map fun c => some c.toNat, r) := by
  induction t with
  | nil => rfl
  | cons c t ih =>
    rw [List.flatMap_cons, List.append_assoc, List.map_append, List.append_assoc]
    exact readUnits_of_writes (writes_escapeChar c) ih

theorem not_half (c : Char) : isHighHalf c.toNat = false ∧ isLowHalf c.toNat = false := by
  have hv := c.valid
  have hn : c.toNat = c.val.toNat := rfl
  simp only [UInt32.isValidChar, Nat.isValidChar] at hv
  rw [isHighHalf, isLowHalf, hn]
  simp
  omega

theorem joinUnits_toNat (t : Text) : joinUnits (t.map fun c => some c.toNat) = some t := by
  induction t with
  | nil => rfl
  | cons c t ih =>
    obtain ⟨hhigh, hlow⟩ := not_half c
    cases t with
    | nil => simp [joinUnits, hhigh, hlow]
    | cons c' t =>
      rw [List.map_cons, List.map_cons, joinUnits, if_neg (by simp [hhigh]),
        if_neg (by simp [hlow]), ← List.map_cons (f := fun c : Char => some c.toNat), ih]
      simp

theorem readString_quote (t : Text) (r : Decoded) :
    ∃ u, (quote t).map some ++ r = some '"' :: u ∧ readString u = some (some t, r) := by
  refine ⟨(t.flatMap escapeChar ++ ['"']).map some ++ r, rfl, ?_⟩
  rw [readString, readUnits_quoted, Option.map_some]
  dsimp only
  rw [joinUnits_toNat]

inductive Textual : Json → Prop
  | string (t : Text) : Textual (.string (some t))
  | array {items : List Json} : (∀ j ∈ items, Textual j) → Textual (.array items)
  | object {fields : List (Option Text × Json)} : (∀ f ∈ fields, f.1.isSome) →
    (∀ f ∈ fields, Textual f.2) → Textual (.object fields)

theorem skip_cons {c : Char} (hc : isSpace (some c) = false) (t : Decoded) :
    skip (some c :: t) = some c :: t := by
  rw [skip, List.dropWhile_cons_of_neg (by simp [hc])]

theorem Textual.head {j : Json} (h : Textual j) :
    ∃ c t, render j = c :: t ∧ isSpace (some c) = false ∧ c ≠ ']' := by
  cases h with
  | string t => exact ⟨'"', _, by rw [render]; rfl, by decide, by decide⟩
  | array _ => exact ⟨'[', _, by rw [render]; rfl, by decide, by decide⟩
  | object _ _ => exact ⟨'\x7b', _, by rw [render]; rfl, by decide, by decide⟩

def ReadsBack (j : Json) : Prop :=
  ∀ fuel, 2 * (render j).length ≤ fuel + 1 → ∀ r : Decoded,
    readValue fuel ((render j).map some ++ r) = some (j, r)

theorem readsBack_string (t : Text) : ReadsBack (.string (some t)) := by
  intro fuel hf r
  obtain ⟨u, hu, hr⟩ := readString_quote t r
  rw [render, Option.getD_some] at hf ⊢
  cases fuel with
  | zero => simp [quote] at hf; omega
  | succ fuel =>
    rw [hu, readValue, skip_cons (by decide)]
    simp [hr]

theorem readItems_renderItems {items : List Json} (hne : items ≠ [])
    (hi : ∀ j ∈ items, ReadsBack j) {fuel : Nat} (hf : 2 * (renderItems items).length ≤ fuel)
    (hp : 0 < fuel) (r : Decoded) :
    readItems fuel ((renderItems items).map some ++ some ']' :: r) = some (items, r) := by
  induction items generalizing fuel with
  | nil => exact absurd rfl hne
  | cons j js ih =>
    obtain ⟨fuel, rfl⟩ : ∃ n, fuel = n + 1 := ⟨fuel - 1, by omega⟩
    cases js with
    | nil =>
      have hj := hi j List.mem_cons_self fuel (by rwa [renderItems] at hf) (some ']' :: r)
      rw [renderItems, readItems, hj]
      simp [skip_cons (c := ']') (by decide)]
    | cons j' js =>
      simp only [renderItems, List.length_append, List.length_cons] at hf
      have hrest : readItems fuel ((renderItems (j' :: js)).map some ++ some ']' :: r) =
          some (j' :: js, r) :=
        ih (List.cons_ne_nil _ _) (fun x hx => hi x (List.mem_cons_of_mem j hx)) (by omega)
          (by omega)
      have hj := hi j List.mem_cons_self fuel (by omega)
        (some ',' :: ((renderItems (j' :: js)).map some ++ some ']' :: r))
      simp only [renderItems, List.map_append, List.map_cons, List.append_assoc,
        List.cons_append]
      rw [readItems, hj]
      simp [skip_cons (c := ',') (by decide), hrest]

theorem readsBack_array {items : List Json} (ht : ∀ j ∈ items, Textual j)
    (hi : ∀ j ∈ items, ReadsBack j) : ReadsBack (.array items) := by
  intro fuel hf r
  rw [render] at hf ⊢
  obtain ⟨fuel, rfl⟩ : ∃ n, fuel = n + 1 := ⟨fuel - 1, by simp at hf; omega⟩
  simp only [List.length_append, List.length_cons, List.length_nil] at hf
  simp only [List.map_append, List.map_cons, List.map_nil, List.cons_append, List.append_assoc,
    List.nil_append]
  rw [readValue, skip_cons (by decide)]
  cases items with
  | nil => rfl
  | cons j js =>
    have hitems : readItems fuel ((renderItems (j :: js)).map some ++ some ']' :: r) =
        some (j :: js, r) :=
      readItems_renderItems (List.cons_ne_nil j js) hi (by omega) (by omega) r
    obtain ⟨c, t, hr, hc, hend⟩ := (ht j List.mem_cons_self).head
    obtain ⟨u, hu⟩ : ∃ u, renderItems (j :: js) = c :: u := by
      cases js <;> simp [renderItems, hr]
    rw [hu, List.map_cons, List.cons_append] at hitems ⊢
    simp [skip_cons hc, hitems, hend]

theorem readFields_renderFields {fields : List (Option Text × Json)} (hne : fields ≠ [])
    (hk : ∀ f ∈ fields, f.1.isSome) (hi : ∀ f ∈ fields, ReadsBack f.2) {fuel : Nat}
    (hf : 2 * (renderFields fields).length ≤ fuel) (hp : 0 < fuel) (r : Decoded) :
    readFields fuel ((renderFields fields).map some ++ some '\x7d' :: r) = some (fields, r) := by
  induction fields generalizing fuel with
  | nil => exact absurd rfl hne
  | cons f fs ih =>
    obtain ⟨fuel, rfl⟩ : ∃ n, fuel = n + 1 := ⟨fuel - 1, by omega⟩
    obtain ⟨key, j⟩ := f
    obtain ⟨key, rfl⟩ := Option.isSome_iff_exists.mp (hk _ List.mem_cons_self)
    have hread : ReadsBack j := hi _ List.mem_cons_self
    cases fs with
    | nil =>
      simp only [renderFields, List.length_append, List.length_cons] at hf
      have hj := hread fuel (by omega) (some '\x7d' :: r)
      obtain ⟨u, hu, hkey⟩ := readString_quote key
        (some ':' :: ((render j).map some ++ some '\x7d' :: r))
      simp only [renderFields, List.map_append, List.map_cons, List.append_assoc,
        List.cons_append, Option.getD_some]
      rw [hu, readFields, skip_cons (by decide)]
      simp [skip_cons (c := ':') (by decide), skip_cons (c := '\x7d') (by decide), hkey, hj]
    | cons f' fs =>
      simp only [renderFields, List.length_append, List.length_cons] at hf
      have hrest : readFields fuel ((renderFields (f' :: fs)).map some ++ some '\x7d' :: r) =
          some (f' :: fs, r) :=
        ih (List.cons_ne_nil _ _) (fun x hx => hk x (List.mem_cons_of_mem _ hx))
          (fun x hx => hi x (List.mem_cons_of_mem _ hx)) (by omega) (by omega)
      have hj := hread fuel (by omega)
        (some ',' :: ((renderFields (f' :: fs)).map some ++ some '\x7d' :: r))
      obtain ⟨u, hu, hkey⟩ := readString_quote key (some ':' :: ((render j).map some ++
        (some ',' :: ((renderFields (f' :: fs)).map some ++ some '\x7d' :: r))))
      simp only [renderFields, List.map_append, List.map_cons, List.append_assoc,
        List.cons_append, Option.getD_some]
      rw [hu, readFields, skip_cons (by decide)]
      simp [skip_cons (c := ':') (by decide), skip_cons (c := ',') (by decide), hkey, hj, hrest]

theorem readsBack_object {fields : List (Option Text × Json)} (hk : ∀ f ∈ fields, f.1.isSome)
    (hi : ∀ f ∈ fields, ReadsBack f.2) : ReadsBack (.object fields) := by
  intro fuel hf r
  rw [render] at hf ⊢
  obtain ⟨fuel, rfl⟩ : ∃ n, fuel = n + 1 := ⟨fuel - 1, by simp at hf; omega⟩
  simp only [List.length_append, List.length_cons, List.length_nil] at hf
  simp only [List.map_append, List.map_cons, List.map_nil, List.cons_append, List.append_assoc,
    List.nil_append]
  rw [readValue, skip_cons (by decide)]
  cases fields with
  | nil => rfl
  | cons f fs =>
    have hfields : readFields fuel ((renderFields (f :: fs)).map some ++ some '\x7d' :: r) =
        some (f :: fs, r) :=
      readFields_renderFields (List.cons_ne_nil f fs) hk hi (by omega) (by omega) r
    obtain ⟨u, hu⟩ : ∃ u, renderFields (f :: fs) = '"' :: u := by
      cases fs <;> simp [renderFields, quote]
    rw [hu, List.map_cons, List.cons_append] at hfields ⊢
    simp [skip_cons (c := '"') (by decide), hfields]

theorem Textual.readsBack {j : Json} (h : Textual j) : ReadsBack j := by
  induction h with
  | string t => exact readsBack_string t
  | array ht ih => exact readsBack_array ht ih
  | object hk _ ih => exact readsBack_object hk ih

/-- What is written reads as what it was. -/
theorem read?_render {j : Json} (h : Textual j) : read? (Text.utf8 (render j)) = some j := by
  have hr := h.readsBack (2 * (render j).length + 1) (by omega) []
  rw [List.append_nil] at hr
  rw [read?, Text.decode_utf8, List.length_map]
  rw [hr]
  rfl

end BlockTemplate.Json
