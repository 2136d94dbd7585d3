import BlockTemplate.Text.Piece

/-!
# Dialects

What placeholders and calls look like. Tags look alike in every dialect. The three texts of a
dialect are not empty, so every mark takes up room and each scan moves on.
-/

namespace BlockTemplate

structure Dialect where
  opener : Text
  closer : Text
  callMark : Text
  opener_ne : opener ≠ []
  closer_ne : closer ≠ []
  callMark_ne : callMark ≠ []

namespace Dialect

def standard : Dialect where
  opener := ['\x7b']
  closer := ['\x7d']
  callMark := "func_".toList
  opener_ne := by decide
  closer_ne := by decide
  callMark_ne := by decide

def make? (opener closer callMark : Text) : Option Dialect :=
  if h : opener ≠ [] ∧ closer ≠ [] ∧ callMark ≠ [] then
    some ⟨opener, closer, callMark, h.1, h.2.1, h.2.2⟩
  else none

def token (d : Dialect) (name : Text) : Text := d.opener ++ name ++ d.closer

/-- Stands in protected data where the opening delimiter stood. Its name is no variable name. -/
def protectedMark (d : Dialect) : Text := d.token "%preserved%".toList

def protect (d : Dialect) (t : Text) : Text := Text.replaceAll d.opener d.protectedMark t

def unprotect (d : Dialect) (t : Text) : Text := Text.replaceAll d.protectedMark d.opener t

end Dialect

end BlockTemplate
