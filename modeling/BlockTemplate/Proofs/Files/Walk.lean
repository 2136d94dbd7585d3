import BlockTemplate.Proofs.Text.Lines
import BlockTemplate.Files

/-!
# Where paths lead

The components of a path name the places on its way. Whether the files are there decides only if the
way can be walked, so a path leads to one place, whatever the files are.
-/

namespace BlockTemplate

namespace Path

def follow : Place → List Text → Place
  | here, [] => here
  | here, c :: rest =>
    if c = [] ∨ c = ['.'] then follow here rest
    else if c = ['.', '.'] then follow here.dropLast rest
    else follow (here ++ [c]) rest

def trail : Place → List Text → List Place
  | here, [] => [here]
  | here, c :: rest =>
    here :: if c = [] ∨ c = ['.'] then trail here rest
      else if c = ['.', '.'] then trail here.dropLast rest
      else trail (here ++ [c]) rest

def leadsTo (path : Text) : Option Place :=
  if path.contains '\x00' ∨ path = [] then none
  else some (follow (start path) (Text.splitOn '/' path))

def passes (path : Text) : List Place := trail (start path) (Text.splitOn '/' path)

theorem mem_trail_self (here : Place) (parts : List Text) : here ∈ trail here parts := by
  cases parts <;> simp [trail]

theorem leadsTo_eq_some_iff {path : Text} {place : Place} : leadsTo path = some place ↔
    path.contains '\x00' = false ∧ path ≠ [] ∧
      follow (start path) (Text.splitOn '/' path) = place := by
  rw [leadsTo]
  cases path.contains '\x00' with
  | true => simp
  | false =>
    by_cases hne : path = []
    · simp [hne]
    · simp [hne]

theorem follow_append (here : Place) (a b : List Text) :
    follow here (a ++ b) = follow (follow here a) b := by
  induction a generalizing here with
  | nil => rfl
  | cons c a ih =>
    rw [List.cons_append, follow, follow]
    split
    · exact ih here
    · split <;> exact ih _

structure Plain (name : Text) : Prop where
  ne_nil : name ≠ []
  ne_dot : name ≠ ['.']
  ne_up : name ≠ ['.', '.']
  slash : '/' ∉ name

theorem Plain.head?_ne {name : Text} (h : Plain name) : name.head? ≠ some '/' :=
  fun he => h.slash (List.mem_of_mem_head? he)

theorem follow_singleton {name : Text} (h : Plain name) (here : Place) :
    follow here [name] = here ++ [name] := by
  simp [follow, h.ne_nil, h.ne_dot, h.ne_up]

theorem splitOn_join {dir name : Text} (h : Plain name) (hdir : dir ≠ []) :
    ∃ parts, Text.splitOn '/' (join dir name) = parts ++ [name] ∧
      (Text.splitOn '/' dir = parts ∨ Text.splitOn '/' dir = parts ++ [[]]) := by
  rw [join, if_neg h.head?_ne]
  by_cases hlast : dir.getLast? = some '/'
  · rw [if_pos (.inr hlast)]
    obtain ⟨dir, rfl⟩ := List.getLast?_eq_some_iff.mp hlast
    have hsplit : dir ++ ['/'] ++ name = dir ++ '/' :: name := by simp
    rw [hsplit, Text.splitOn_append, Text.splitOn_append, Text.splitOn_of_not_mem h.slash]
    exact ⟨_, rfl, .inr rfl⟩
  · rw [if_neg (by simp [hdir, hlast]), Text.splitOn_append, Text.splitOn_of_not_mem h.slash]
    exact ⟨_, rfl, .inl rfl⟩

theorem join_ne_nil {name : Text} (h : Plain name) (dir : Text) : join dir name ≠ [] := by
  rw [join, if_neg h.head?_ne]
  split <;> simp [h.ne_nil]

theorem start_join {dir name : Text} (h : Plain name) (hdir : dir ≠ []) :
    start (join dir name) = start dir := by
  obtain ⟨c, dir, rfl⟩ := List.exists_cons_of_ne_nil hdir
  rw [start, start, join, if_neg h.head?_ne]
  split <;> rfl

theorem join_clean {dir name : Text} (hdir : dir.contains '\x00' = false) (hnul : '\x00' ∉ name) :
    (join dir name).contains '\x00' = false := by
  rw [join]
  split
  · simpa using hnul
  · split <;> simp_all

theorem follow_join {dir name : Text} (h : Plain name) (hdir : dir ≠ []) :
    follow (start (join dir name)) (Text.splitOn '/' (join dir name)) =
      follow (start dir) (Text.splitOn '/' dir) ++ [name] := by
  obtain ⟨parts, hjoin, hparts⟩ := splitOn_join h hdir
  have hsame : follow (start dir) (Text.splitOn '/' dir) = follow (start dir) parts := by
    rcases hparts with hparts | hparts
    · rw [hparts]
    · rw [hparts, follow_append]
      simp [follow]
  rw [hjoin, hsame, start_join h hdir, follow_append, follow_singleton h]

theorem leadsTo_join {dir name : Text} {place : Place} (h : Plain name) (hnul : '\x00' ∉ name)
    (hdir : leadsTo dir = some place) : leadsTo (join dir name) = some (place ++ [name]) := by
  obtain ⟨hclean, hne, hplace⟩ := leadsTo_eq_some_iff.mp hdir
  refine leadsTo_eq_some_iff.mpr ⟨join_clean hclean hnul, join_ne_nil h dir, ?_⟩
  rw [follow_join h hne, hplace]

theorem leadsTo_join_cases {dir name : Text} {q : Place} (h : Plain name)
    (hl : leadsTo (join dir name) = some q) :
    dir = [] ∧ q = workingDirectory ++ [name] ∨
      dir ≠ [] ∧ q = follow (start dir) (Text.splitOn '/' dir) ++ [name] := by
  obtain ⟨-, -, hfollow⟩ := leadsTo_eq_some_iff.mp hl
  by_cases hdir : dir = []
  · have hjoin : join dir name = name := by
      rw [hdir, join]
      split <;> simp
    rw [hjoin, start, if_neg h.head?_ne, Text.splitOn_of_not_mem h.slash,
      follow_singleton h] at hfollow
    exact .inl ⟨hdir, hfollow.symm⟩
  · rw [follow_join h hdir] at hfollow
    exact .inr ⟨hdir, hfollow.symm⟩

end Path

end BlockTemplate
