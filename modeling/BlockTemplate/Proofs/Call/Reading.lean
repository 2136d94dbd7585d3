import BlockTemplate.Proofs.Call.Grammar
import BlockTemplate.Proofs.Text.Cut

/-!
# The grammar of calls

Behind the text that begins a call stand a function name, blanks and an opening parenthesis. Whatever
is read behind such a head is a call, or its arguments are at fault.
-/

namespace BlockTemplate

namespace Arguments

variable {s rest : Text} {e : Failure}

theorem Failure.rest_suffix (h : read s = .error e) : e.rest <:+ s := by
  rcases (read_accepts_grammar s).2.2.2 e h with ⟨p, c, rfl, -⟩ | ⟨-, hr, -⟩
  · exact ⟨p ++ [c], by simp⟩
  · rw [hr]
    exact List.nil_suffix

end Arguments

namespace Call

open Arguments (AllBlank Derives)

def Opens (name head : Text) : Prop :=
  Text.isFunctionName name = true ∧ ∃ blanks, AllBlank blanks ∧ head = name ++ (blanks ++ ['('])

def Spelled (c : Call) (t : Text) : Prop :=
  ∃ head used, Opens c.name head ∧ Derives used c.args ∧ t = head ++ used

variable {t rest used : Text} {r : Except Arguments.Failure Call}

theorem read_eq_some (h : read t = some (r, rest)) :
    ∃ name head s, Opens name head ∧ t = head ++ s ∧
      ((∃ args, r = .ok ⟨name, args⟩ ∧ Arguments.read s = .ok (args, rest)) ∨
        ∃ e, r = .error e ∧ Arguments.read s = .error e ∧ e.rest = rest) := by
  simp only [read, Option.bind_eq_bind, Option.bind_eq_some_iff, Prod.exists] at h
  obtain ⟨name, after, hname, s, hs, h⟩ := h
  obtain ⟨rfl, hfun⟩ := Text.readFunctionName_eq_some hname
  have hblank : AllBlank (after.takeWhile Text.isBlank) := fun c hc => List.mem_takeWhile_imp hc
  have hafter : after = after.takeWhile Text.isBlank ++ '(' :: s := by
    conv_lhs => rw [← List.takeWhile_append_dropWhile (p := Text.isBlank) (l := after),
      Text.expect_eq_some.mp hs]
    rfl
  refine ⟨name, name ++ (after.takeWhile Text.isBlank ++ ['(']), s, ⟨hfun, _, hblank, rfl⟩, ?_, ?_⟩
  · conv_lhs => rw [hafter]
    simp
  · cases hread : Arguments.read s with
    | ok p =>
      obtain ⟨args, rest'⟩ := p
      rw [hread] at h
      cases h
      exact .inl ⟨args, rfl, rfl⟩
    | error e =>
      rw [hread] at h
      cases h
      exact .inr ⟨e, rfl, rfl, rfl⟩

theorem leaves_read : Text.Leaves read := by
  intro t r rest h
  obtain ⟨name, head, s, -, rfl, ⟨args, -, hs⟩ | ⟨e, -, hs, rfl⟩⟩ := read_eq_some h
  · obtain ⟨used, rfl, -⟩ := Arguments.read_eq_ok_iff_derives.mp hs
    exact ⟨head ++ used, List.append_assoc head used rest⟩
  · exact (Arguments.Failure.rest_suffix hs).trans (List.suffix_append head s)

theorem spelled_of_read {c : Call} (h : read (used ++ rest) = some (.ok c, rest)) :
    c.Spelled used := by
  obtain ⟨name, head, s, hopens, hsplit, ⟨args, hr, hs⟩ | ⟨e, hr, -⟩⟩ := read_eq_some h
  · cases hr
    obtain ⟨taken, rfl, hd⟩ := Arguments.read_eq_ok_iff_derives.mp hs
    rw [← List.append_assoc] at hsplit
    exact ⟨head, taken, hopens, hd, List.append_cancel_right hsplit⟩
  · cases hr

end Call

end BlockTemplate
