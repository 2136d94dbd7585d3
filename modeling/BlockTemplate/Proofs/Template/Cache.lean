import BlockTemplate.Proofs.Template.Session

/-!
# Templates from saved files

A template that is restored from a saved file makes the calls that were saved. Placeholders in block
contents are renamed to the new numbers of the calls, those in arguments are not, so an argument that
refers to the result of another call may come to refer to a different one.
-/

namespace BlockTemplate.Template

variable {e : Engine} {t : Template}

/-- A call of a restored template was there before, or was saved with the same arguments. -/
theorem call_of_restore {top : Text} {s : Snapshot} {id : CallId} {c : Call}
    (h : (t.restore e top s).2.tree.calls.get? id = some c) :
    t.tree.calls.get? id = some c ∨ s.Saves c := by
  have hsaved : (s.restore e.dialect top t.tree.calls t.nextInclusion).2.get? id = some c := h
  exact Snapshot.of_get?_restore hsaved

def keepingEngine : Engine :=
  { Engine.standard with cacheDir := some "cache".toList, options := { trimOnSave := false } }

def filteredArgument : Text :=
  ("<!-- BEGIN x --><!-- BEGIN y -->func_h('<b>')<!-- END y -->" ++
    "func_u(\x7bv:h\x7d)<!-- END x -->").toList

def filteredFiles : Files :=
  (Files.empty.makeDirectory "cache".toList).write "main.html".toList (Text.utf8 filteredArgument)
    ⟨1, 0⟩

def loadFiltered (fs : Files) : Loaded := empty.loadFile keepingEngine "main.html".toList fs

def showFiltered (t : Template) : Except Fault Text :=
  ((t.setVariable "v".toList (.text "a&b".toList)).2.output keepingEngine rootName []).1

/-- The file is loaded twice, and the saved form puts out something else. -/
theorem restored_argument_differs :
    (loadFiltered filteredFiles).1.toBool = true ∧
    (loadFiltered (loadFiltered filteredFiles).2.2).1.toBool = true ∧
    (showFiltered (loadFiltered filteredFiles).2.1).toOption = some "a%26amp%3Bb".toList ∧
    (showFiltered (loadFiltered (loadFiltered filteredFiles).2.2).2.1).toOption =
      some "%7B__function_1__%7D".toList := by decide +kernel

end BlockTemplate.Template
