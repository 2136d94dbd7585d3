import BlockTemplate.Call.Basic
import BlockTemplate.Dict

/-!
# Interned calls

The calls of a template as they are stored: by number, with an index that leads from a call to its
number and a stack of the numbers that no block uses. A call that was given up stays where it is until
its number is given out again, so the index alone says which calls are known.
-/

namespace BlockTemplate

instance : Ranked Call where
  lt a b := Ranked.lt (a.name :: a.args) (b.name :: b.args)
  irrefl _ := Ranked.irrefl _
  trans := Ranked.trans
  eq_of_not_lt := by
    intro a b h₁ h₂
    obtain ⟨name, args⟩ := a
    obtain ⟨hname, hargs⟩ := List.cons.inj (Ranked.eq_of_not_lt h₁ h₂)
    dsimp only at hname hargs
    rw [hname, hargs]

structure Interner where
  calls : List Call := []
  ids : Dict Call CallId := ∅
  /-- the numbers that no block uses, the next one to be given out first -/
  free : List CallId := []
  deriving DecidableEq

namespace Interner

def intern (s : Interner) (c : Call) : CallId × Interner :=
  match s.ids.get? c with
  | some id => (id, s)
  | none =>
    match s.free with
    | id :: free => (id, ⟨s.calls.set id c, s.ids.insert c id, free⟩)
    | [] => (s.calls.length, ⟨s.calls ++ [c], s.ids.insert c s.calls.length, []⟩)

def internAll (cs : List Call) (s : Interner) : Interner := cs.foldl (fun s c => (s.intern c).2) s

/-- Forgets the calls whose numbers are not used; the smallest of these is given out first. -/
def release (s : Interner) (used : List CallId) : Interner :=
  { s with
    ids := s.ids.filter fun e => used.contains e.2
    free := (List.range s.calls.length).filter fun id => !used.contains id }

end Interner

end BlockTemplate
