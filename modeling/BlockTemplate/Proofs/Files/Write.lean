import BlockTemplate.Proofs.Files.Change

/-!
# Writing files

Directories are made only where nothing was, a file is written where its path leads, and a new time
is set there. What other paths lead to they lead to afterwards.
-/

namespace BlockTemplate

namespace Files

variable {fs fs' : Files} {path : Text} {place : Place}

def writable (fs : Files) (path : Text) : Bool :=
  match Path.leadsTo path with
  | none => false
  | some place =>
    !([[], ['.'], ['.', '.']].contains ((Text.splitOn '/' path).getLastD [])) &&
      !fs.isDirectoryAt place

structure ChangedAt (path : Text) (fs fs' : Files) : Prop where
  directory : ∀ q, fs.isDirectoryAt q = true → fs'.isDirectoryAt q = true
  present : ∀ q, (fs.at? q).isSome → (fs'.at? q).isSome
  elsewhere : ∀ q, Path.leadsTo path ≠ some q → fs'.at? q = fs.at? q ∨
    fs.at? q = none ∧ fs'.at? q = some ⟨.directory, none⟩

theorem changedAt_of_nodes (h : fs'.nodes = fs.nodes) : ChangedAt path fs fs' where
  directory := fun q hq => (isDirectoryAt_congr (at?_congr h q)).trans hq
  present := fun q hq => by rwa [at?_congr h q]
  elsewhere := fun q _ => .inl (at?_congr h q)

theorem ChangedAt.node? (h : ChangedAt path fs fs') {other : Text} {n : Node}
    (hoff : ∀ q, Path.leadsTo other = some q → Path.leadsTo path ≠ some q)
    (hn : fs.node? other = some n) : fs'.node? other = some n := by
  obtain ⟨place, hl, hat⟩ := node?_eq_some_iff.mp hn
  refine node?_eq_some_iff.mpr ⟨place, locate_mono h.directory h.present hl, ?_⟩
  rcases h.elsewhere place (hoff place (leadsTo_of_locate hl)) with hsame | ⟨hnone, -⟩
  · rw [hsame, hat]
  · rw [hnone] at hat
    cases hat

theorem at?_makeAll (fs : Files) (here : Place) (parts : List Text) (q : Place) :
    (fs.makeAll here parts).2.at? q = fs.at? q ∨
      fs.at? q = none ∧ (fs.makeAll here parts).2.at? q = some ⟨.directory, none⟩ := by
  induction parts generalizing fs here with
  | nil => exact .inl rfl
  | cons c parts ih =>
    rw [makeAll]
    split
    · exact ih fs here
    · split
      · exact ih fs here.dropLast
      · dsimp only
        split
        · exact ih fs (here ++ [c])
        · rename_i hfree
          have hput := at?_put fs (here ++ [c]) ⟨.directory, none⟩ q
          rcases ih (fs.put (here ++ [c]) ⟨.directory, none⟩) (here ++ [c]) with hq | ⟨hq, hq'⟩
          · rw [hput] at hq
            split at hq
            · rename_i he
              subst he
              exact .inr ⟨by simpa using hfree, hq⟩
            · exact .inl hq
          · rw [hput] at hq
            split at hq
            · cases hq
            · exact .inr ⟨hq, hq'⟩

theorem fates_makeAll (fs : Files) (here : Place) (parts : List Text) :
    (fs.makeAll here parts).2.fates = fs.fates := by
  induction parts generalizing fs here with
  | nil => rfl
  | cons c parts ih =>
    rw [makeAll]
    split
    · exact ih fs here
    · split
      · exact ih fs here.dropLast
      · dsimp only
        split
        · exact ih fs (here ++ [c])
        · exact ih (fs.put (here ++ [c]) ⟨.directory, none⟩) (here ++ [c])

theorem place_makeAll (fs : Files) (here : Place) (parts : List Text) :
    (fs.makeAll here parts).1 = Path.follow here parts := by
  induction parts generalizing fs here with
  | nil => rfl
  | cons c parts ih =>
    rw [Path.follow, makeAll]
    split
    · exact ih fs here
    · split
      · exact ih fs here.dropLast
      · dsimp only
        split <;> exact ih _ _

theorem changedAt_put {fs₀ : Files} (h : ∀ q, fs.at? q = fs₀.at? q ∨
      fs₀.at? q = none ∧ fs.at? q = some ⟨.directory, none⟩)
    (hl : Path.leadsTo path = some place) {n : Node}
    (hdir : fs₀.isDirectoryAt place = true → n.content = .directory) :
    ChangedAt path fs₀ (fs.put place n) := by
  refine ⟨?_, ?_, ?_⟩
  · intro q hq
    rw [isDirectoryAt, at?_put]
    split
    · rename_i he
      rw [he] at hq
      simp [hdir hq]
    · rcases h q with hsame | ⟨hnone, -⟩
      · rw [hsame]
        exact hq
      · simp [isDirectoryAt, hnone] at hq
  · intro q hq
    rw [at?_put]
    split
    · rfl
    · rcases h q with hsame | ⟨hnone, -⟩
      · rw [hsame]
        exact hq
      · rw [hnone] at hq
        cases hq
  · intro q hoff
    rw [at?_put, if_neg]
    · exact h q
    · rintro rfl
      exact hoff hl

theorem changedAt_write (hw : fs.writable path = true) (b : List UInt8) (stamp : Stamp) :
    ChangedAt path fs (fs.write path b stamp) := by
  rw [writable] at hw
  split at hw
  · cases hw
  · rename_i place hl
    simp only [Bool.and_eq_true, Bool.not_eq_true', List.contains_eq_mem,
      decide_eq_false_iff_not, List.mem_cons, List.not_mem_nil, or_false, not_or] at hw
    obtain ⟨⟨hnil, hdot, hup⟩, hfree⟩ := hw
    -- The path leads to its last name below the directory that was made for it.
    have hplace : (fs.makeAll (Path.start path) (Text.splitOn '/' path).dropLast).1 ++
        [(Text.splitOn '/' path).getLastD []] = place := by
      have hparts : (Text.splitOn '/' path).dropLast ++ [(Text.splitOn '/' path).getLastD []] =
          Text.splitOn '/' path := by
        rw [List.getLastD_eq_getLast?, List.getLast?_eq_some_getLast (Text.splitOn_ne_nil path),
          Option.getD_some, List.dropLast_concat_getLast]
      obtain ⟨-, -, hfollow⟩ := Path.leadsTo_eq_some_iff.mp hl
      rw [← hparts, Path.follow_append, Path.follow, if_neg (not_or.mpr ⟨hnil, hdot⟩),
        if_neg hup] at hfollow
      rw [place_makeAll]
      exact hfollow
    rw [write]
    dsimp only
    rw [hplace]
    refine changedAt_put (fs.at?_makeAll _ _) hl fun hdir => ?_
    rw [hfree] at hdir
    cases hdir

theorem changedAt_touch (fs : Files) (path : Text) (stamp : Stamp) :
    ChangedAt path fs (fs.touch path stamp) := by
  rw [touch]
  split
  · exact changedAt_of_nodes rfl
  · rename_i place hl
    split
    · exact changedAt_of_nodes rfl
    · rename_i n hn
      refine changedAt_put (fun q => .inl rfl) (leadsTo_of_locate hl) fun hdir => ?_
      simpa [isDirectoryAt, hn] using hdir

end Files

end BlockTemplate
