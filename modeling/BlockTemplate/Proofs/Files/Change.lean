import BlockTemplate.Proofs.Files.Walk

/-!
# Changes of files

What is read of files that differ at some places only, and what saves, writes and new times change.
No path goes on from a place that has no directory, so a difference at such places is seen by the
paths that lead there. A path that would go through one of them is lost either way, but may be told
so for another reason.
-/

namespace BlockTemplate

namespace Files

variable {fs fs' fs'' : Files} {path : Text} {place target : Place} {places places' : Place → Prop}

theorem at?_congr (h : fs'.nodes = fs.nodes) (q : Place) : fs'.at? q = fs.at? q :=
  congrArg (·.get? q) h

theorem at?_put (fs : Files) (target : Place) (n : Node) (q : Place) :
    (fs.put target n).at? q = if q = target then some n else fs.at? q :=
  Dict.get?_insert fs.nodes target q n

theorem isDirectoryAt_congr {q : Place} (h : fs'.at? q = fs.at? q) :
    fs'.isDirectoryAt q = fs.isDirectoryAt q := congrArg (Option.any _) h

inductive Step (fs : Files) : Place → Text → Place → Prop
  | stay {here : Place} {c : Text} (hdir : fs.isDirectoryAt here = true) (hc : c = [] ∨ c = ['.']) :
      Step fs here c here
  | up {here : Place} (hdir : fs.isDirectoryAt here = true) : Step fs here ['.', '.'] here.dropLast
  | down {here : Place} {c : Text} (hdir : fs.isDirectoryAt here = true)
      (hc : ¬ (c = [] ∨ c = ['.'])) (hup : c ≠ ['.', '.']) (hsize : ¬ Path.maxName < Text.size c)
      (hat : (fs.at? (here ++ [c])).isSome) : Step fs here c (here ++ [c])

theorem walk_cons_eq_ok_iff {here : Place} {c : Text} {rest : List Text} :
    fs.walk here (c :: rest) = .ok place ↔
      ∃ next, fs.Step here c next ∧ fs.walk next rest = .ok place := by
  constructor
  · intro h
    rw [walk] at h
    split at h
    · cases h
    · rename_i hdir
      rw [Bool.not_eq_false] at hdir
      split at h
      · exact ⟨here, .stay hdir ‹_›, h⟩
      · rename_i hc
        split at h
        · rename_i hup
          subst hup
          exact ⟨here.dropLast, .up hdir, h⟩
        · rename_i hup
          split at h
          · cases h
          · rename_i hsize
            dsimp only at h
            split at h
            · cases h
            · rename_i hat
              rw [← Option.not_isSome, Bool.not_eq_true, Bool.not_eq_false'] at hat
              exact ⟨here ++ [c], .down hdir hc hup hsize hat, h⟩
  · rintro ⟨next, hstep, h⟩
    rw [walk]
    cases hstep with
    | stay hdir hc => simpa [hdir, hc] using h
    | up hdir => simpa [hdir] using h
    | down hdir hc hup hsize hat =>
      simpa [hdir, hc, hup, hsize, Option.isNone_eq_false_iff.mpr hat] using h

theorem Step.follow {here next : Place} {c : Text} (h : fs.Step here c next) (rest : List Text) :
    Path.follow here (c :: rest) = Path.follow next rest := by
  rw [Path.follow]
  cases h with
  | stay hdir hc => rw [if_pos hc]
  | up hdir => simp
  | down hdir hc hup hsize hat => rw [if_neg hc, if_neg hup]

theorem follow_of_walk {here : Place} {parts : List Text} (h : fs.walk here parts = .ok place) :
    Path.follow here parts = place := by
  induction parts generalizing here with
  | nil =>
    cases h
    rfl
  | cons c rest ih =>
    obtain ⟨next, hstep, hrest⟩ := walk_cons_eq_ok_iff.mp h
    rw [hstep.follow, ih hrest]

theorem walk_append_eq_ok_iff {here : Place} {a b : List Text} :
    fs.walk here (a ++ b) = .ok place ↔
      ∃ mid, fs.walk here a = .ok mid ∧ fs.walk mid b = .ok place := by
  induction a generalizing here with
  | nil => simp [walk]
  | cons c a ih =>
    simp only [List.cons_append, walk_cons_eq_ok_iff, ih]
    constructor
    · rintro ⟨next, hstep, mid, ha, hb⟩
      exact ⟨mid, ⟨next, hstep, ha⟩, hb⟩
    · rintro ⟨mid, ⟨next, hstep, ha⟩, hb⟩
      exact ⟨next, hstep, mid, ha, hb⟩

theorem locate_eq_ok_iff : fs.locate path = .ok place ↔
    path.contains '\x00' = false ∧ path ≠ [] ∧
      fs.walk (Path.start path) (Text.splitOn '/' path) = .ok place := by
  rw [locate]
  split
  · simp_all
  · split <;> simp_all

theorem leadsTo_of_locate (h : fs.locate path = .ok place) : Path.leadsTo path = some place := by
  obtain ⟨hnul, hne, hw⟩ := locate_eq_ok_iff.mp h
  exact Path.leadsTo_eq_some_iff.mpr ⟨hnul, hne, follow_of_walk hw⟩

theorem Step.mono (hdir : ∀ q, fs.isDirectoryAt q = true → fs'.isDirectoryAt q = true)
    (hat : ∀ q, (fs.at? q).isSome → (fs'.at? q).isSome) {here next : Place} {c : Text}
    (h : fs.Step here c next) : fs'.Step here c next := by
  cases h with
  | stay hd hc => exact .stay (hdir _ hd) hc
  | up hd => exact .up (hdir _ hd)
  | down hd hc hup hsize ha => exact .down (hdir _ hd) hc hup hsize (hat _ ha)

theorem walk_mono (hdir : ∀ q, fs.isDirectoryAt q = true → fs'.isDirectoryAt q = true)
    (hat : ∀ q, (fs.at? q).isSome → (fs'.at? q).isSome) {here : Place} {parts : List Text}
    (h : fs.walk here parts = .ok place) : fs'.walk here parts = .ok place := by
  induction parts generalizing here with
  | nil => exact h
  | cons c rest ih =>
    obtain ⟨next, hstep, hrest⟩ := walk_cons_eq_ok_iff.mp h
    exact walk_cons_eq_ok_iff.mpr ⟨next, hstep.mono hdir hat, ih hrest⟩

theorem locate_mono (hdir : ∀ q, fs.isDirectoryAt q = true → fs'.isDirectoryAt q = true)
    (hat : ∀ q, (fs.at? q).isSome → (fs'.at? q).isSome) (h : fs.locate path = .ok place) :
    fs'.locate path = .ok place := by
  rw [locate_eq_ok_iff] at h ⊢
  exact ⟨h.1, h.2.1, walk_mono hdir hat h.2.2⟩

def DifferAt (places : Place → Prop) (fs fs' : Files) : Prop :=
  ∀ q, fs'.at? q = fs.at? q ∨
    places q ∧ fs.isDirectoryAt q = false ∧ fs'.isDirectoryAt q = false

namespace DifferAt

theorem of_nodes (h : fs'.nodes = fs.nodes) : DifferAt places fs fs' :=
  fun q => .inl (at?_congr h q)

theorem refl (fs : Files) : DifferAt places fs fs := of_nodes rfl

theorem mono (h : DifferAt places fs fs') (hsub : ∀ q, places q → places' q) :
    DifferAt places' fs fs' := by
  intro q
  rcases h q with hq | ⟨hq, hrest⟩
  · exact .inl hq
  · exact .inr ⟨hsub q hq, hrest⟩

theorem directory (h : DifferAt places fs fs') (q : Place) :
    fs'.isDirectoryAt q = fs.isDirectoryAt q := by
  rcases h q with hq | ⟨-, hl, hr⟩
  · exact isDirectoryAt_congr hq
  · rw [hl, hr]

theorem symm (h : DifferAt places fs fs') : DifferAt places fs' fs := by
  intro q
  rcases h q with hq | ⟨hq, hl, hr⟩
  · exact .inl hq.symm
  · exact .inr ⟨hq, hr, hl⟩

theorem trans (h : DifferAt places fs fs') (h' : DifferAt places fs' fs'') :
    DifferAt places fs fs'' := by
  intro q
  rcases h q with hq | ⟨hq, hl, hr⟩
  · rcases h' q with hq' | ⟨hq', hl', hr'⟩
    · exact .inl (hq'.trans hq)
    · exact .inr ⟨hq', by rw [← isDirectoryAt_congr hq, hl'], hr'⟩
  · exact .inr ⟨hq, hl, by rw [h'.directory, hr]⟩

theorem put (hfree : fs.isDirectoryAt target = false) (b : List UInt8) (stamp : Option Stamp) :
    DifferAt (· = target) fs (fs.put target ⟨.file b, stamp⟩) := by
  intro q
  rw [at?_put]
  by_cases hq : q = target
  · subst hq
    exact .inr ⟨rfl, hfree, by simp [isDirectoryAt, at?_put]⟩
  · exact .inl (if_neg hq)

end DifferAt

def Lost {α : Type} (r : Except ReadFailure α) : Prop :=
  r = .error .notFound ∨ r = .error .notDirectory

theorem DifferAt.walk (h : DifferAt places fs fs') {here : Place} {parts : List Text}
    (hoff : ¬ places (Path.follow here parts)) :
    fs'.walk here parts = fs.walk here parts ∨
      (∃ q ∈ Path.trail here parts, places q) ∧ Lost (fs.walk here parts) ∧
        Lost (fs'.walk here parts) := by
  induction parts generalizing here with
  | nil => exact .inl rfl
  | cons c rest ih =>
    rw [Path.follow] at hoff
    rw [Files.walk, Files.walk, Path.trail, h.directory]
    have hpass : ∀ {l : List Place}, (∃ q ∈ l, places q) → ∃ q ∈ here :: l, places q :=
      fun hl => hl.imp fun q hq => ⟨List.mem_cons_of_mem here hq.1, hq.2⟩
    split
    · exact .inl rfl
    · by_cases hc : c = [] ∨ c = ['.']
      · rw [if_pos hc] at hoff
        simp only [if_pos hc]
        exact (ih hoff).imp_right fun hlost => ⟨hpass hlost.1, hlost.2⟩
      · rw [if_neg hc] at hoff
        simp only [if_neg hc]
        by_cases hup : c = ['.', '.']
        · rw [if_pos hup] at hoff
          simp only [if_pos hup]
          exact (ih hoff).imp_right fun hlost => ⟨hpass hlost.1, hlost.2⟩
        · rw [if_neg hup] at hoff
          simp only [if_neg hup]
          split
          · exact .inl rfl
          · rcases h (here ++ [c]) with hnext | ⟨hnext, hl, hr⟩
            · rw [hnext]
              split
              · exact .inl rfl
              · exact (ih hoff).imp_right fun hlost => ⟨hpass hlost.1, hlost.2⟩
            · -- The way would go on from the place that differs, where there is no directory.
              cases rest with
              | nil => exact absurd hnext hoff
              | cons c' rest =>
                refine .inr ⟨hpass ⟨_, Path.mem_trail_self _ _, hnext⟩, ?_, ?_⟩
                · split
                  · exact .inl rfl
                  · rw [Files.walk, if_pos hl]
                    exact .inr rfl
                · split
                  · exact .inl rfl
                  · rw [Files.walk, if_pos hr]
                    exact .inr rfl

theorem DifferAt.locate (h : DifferAt places fs fs')
    (hoff : ∀ place, Path.leadsTo path = some place → ¬ places place) :
    fs'.locate path = fs.locate path ∨
      (∃ q ∈ Path.passes path, places q) ∧ Lost (fs.locate path) ∧ Lost (fs'.locate path) := by
  rw [Files.locate, Files.locate]
  split
  · exact .inl rfl
  · rename_i hnul
    split
    · exact .inl rfl
    · rename_i hne
      refine h.walk (hoff _ (Path.leadsTo_eq_some_iff.mpr ⟨?_, hne, rfl⟩))
      rwa [Bool.not_eq_true] at hnul

theorem node?_eq_some_iff {n : Node} :
    fs.node? path = some n ↔ ∃ place, fs.locate path = .ok place ∧ fs.at? place = some n := by
  rw [node?]
  cases fs.locate path with
  | error why => simp [Except.toOption]
  | ok place => simp [Except.toOption]

theorem bytes_eq_ok_iff {b : List UInt8} :
    fs.bytes path = .ok b ↔ ∃ stamp, fs.node? path = some ⟨.file b, stamp⟩ := by
  rw [bytes, node?]
  cases fs.locate path with
  | error why => simp [Except.toOption]
  | ok place =>
    simp only [Except.toOption, Option.bind_some]
    cases fs.at? place with
    | none => simp
    | some n =>
      obtain ⟨content, stamp⟩ := n
      cases content <;> simp

theorem modified_eq_some_iff {m : Stamp} :
    fs.modified path = some m ↔ ∃ content, fs.node? path = some ⟨content, some m⟩ := by
  rw [modified, Option.bind_eq_some_iff]
  constructor
  · rintro ⟨⟨content, stamp⟩, hn, rfl⟩
    exact ⟨content, hn⟩
  · rintro ⟨content, hn⟩
    exact ⟨_, hn, rfl⟩

namespace DifferAt

theorem at?_of_leadsTo (h : DifferAt places fs fs')
    (hoff : ∀ place, Path.leadsTo path = some place → ¬ places place)
    (hl : fs.locate path = .ok place) : fs'.at? place = fs.at? place := by
  rcases h place with hat | ⟨hat, -⟩
  · exact hat
  · exact absurd hat (hoff place (leadsTo_of_locate hl))

theorem node? (h : DifferAt places fs fs')
    (hoff : ∀ place, Path.leadsTo path = some place → ¬ places place) :
    fs'.node? path = fs.node? path := by
  rw [Files.node?, Files.node?]
  rcases h.locate hoff with hl | ⟨-, hl, hl'⟩
  · rw [hl]
    cases hp : fs.locate path with
    | error why => rfl
    | ok place => exact h.at?_of_leadsTo hoff hp
  · rcases hl with hl | hl <;> rcases hl' with hl' | hl' <;> rw [hl, hl'] <;> rfl

theorem modified (h : DifferAt places fs fs')
    (hoff : ∀ place, Path.leadsTo path = some place → ¬ places place) :
    fs'.modified path = fs.modified path := congrArg (Option.bind · _) (h.node? hoff)

theorem bytes (h : DifferAt places fs fs')
    (hoff : ∀ place, Path.leadsTo path = some place → ¬ places place) :
    fs'.bytes path = fs.bytes path ∨
      (∃ q ∈ Path.passes path, places q) ∧ Lost (fs.bytes path) ∧ Lost (fs'.bytes path) := by
  rw [Files.bytes, Files.bytes]
  rcases h.locate hoff with hl | ⟨hq, hl, hl'⟩
  · left
    rw [hl]
    cases hp : fs.locate path with
    | error why => rfl
    | ok place =>
      dsimp only
      rw [h.at?_of_leadsTo hoff hp]
  · refine .inr ⟨hq, ?_, ?_⟩
    · rcases hl with hl | hl <;> simp [hl, Lost]
    · rcases hl' with hl' | hl' <;> simp [hl', Lost]

theorem read (h : DifferAt places fs fs')
    (hoff : ∀ place, Path.leadsTo path = some place → ¬ places place) :
    fs'.read path = fs.read path ∨
      (∃ q ∈ Path.passes path, places q) ∧ Lost (fs.read path) ∧ Lost (fs'.read path) := by
  rw [Files.read, Files.read]
  rcases h.bytes hoff with hb | ⟨hq, hb, hb'⟩
  · exact .inl (by rw [hb])
  · refine .inr ⟨hq, ?_, ?_⟩
    · rcases hb with hb | hb <;> simp [hb, Lost]
    · rcases hb' with hb' | hb' <;> simp [hb', Lost]

end DifferAt

theorem save_cases (fs : Files) (dir name : Text) (b : List UInt8) (stamp : Option Stamp) :
    ((fs.save dir name b stamp).1 = false ∧ (fs.save dir name b stamp).2.nodes = fs.nodes) ∨
    ∃ place stamp', fs.locate dir = .ok place ∧ fs.target? dir name = some (place ++ [name]) ∧
      (fs.save dir name b stamp).2.nodes =
        (fs.put (place ++ [name]) ⟨.file b, stamp'⟩).nodes ∧
      ((fs.save dir name b stamp).1 = true ∧ stamp' = stamp ∨
        ∃ now, .unstamped now ∈ fs.fates ∧ stamp' = some now ∧
          (fs.save dir name b stamp).1 = stamp.isNone) := by
  rw [save]
  cases htarget : fs.target? dir name with
  | none => exact .inl ⟨rfl, rfl⟩
  | some target =>
    have hplace : ∃ place, fs.locate dir = .ok place ∧ target = place ++ [name] := by
      rw [target?] at htarget
      cases hl : fs.locate dir with
      | error why =>
        rw [hl] at htarget
        cases htarget
      | ok place =>
        rw [hl] at htarget
        dsimp only at htarget
        split at htarget
        · cases htarget
        · cases htarget
          exact ⟨place, rfl, rfl⟩
    obtain ⟨place, hl, rfl⟩ := hplace
    cases hfate : fs.fates.headD .saved with
    | saved => exact .inr ⟨place, stamp, hl, rfl, rfl, .inl ⟨rfl, rfl⟩⟩
    | refused => exact .inl ⟨rfl, rfl⟩
    | unstamped now =>
      refine .inr ⟨place, some now, hl, rfl, rfl, .inr ⟨now, ?_, rfl, rfl⟩⟩
      cases hfates : fs.fates with
      | nil =>
        rw [hfates] at hfate
        cases hfate
      | cons fate fates =>
        rw [hfates] at hfate
        exact hfate ▸ List.mem_cons_self

theorem fates_save (fs : Files) (dir name : Text) (b : List UInt8) (stamp : Option Stamp) :
    (fs.save dir name b stamp).2.fates = fs.fates.tail := by
  rw [save]
  split
  · rfl
  · split <;> rfl

structure Takes (fs : Files) (place : Place) (name : Text) : Prop where
  directory : fs.isDirectoryAt place = true
  clean : '\x00' ∉ name
  size : ¬ Path.maxName < Text.size name
  free : fs.isDirectoryAt (place ++ [name]) = false

theorem takes_of_target? {dir name : Text} (hl : fs.locate dir = .ok place)
    (h : fs.target? dir name = some (place ++ [name])) : fs.Takes place name := by
  rw [target?, hl] at h
  dsimp only at h
  split at h
  · cases h
  · rename_i hnot
    simp only [not_or, Bool.not_eq_true, Bool.not_eq_false, List.contains_eq_mem,
      decide_eq_false_iff_not] at hnot
    exact ⟨hnot.1, hnot.2.1, hnot.2.2.1, hnot.2.2.2⟩

theorem differAt_save (fs : Files) (dir : Text) {name : Text} (hname : Path.Plain name)
    (b : List UInt8) (stamp : Option Stamp) :
    DifferAt (fun q => Path.leadsTo (Path.join dir name) = some q) fs
      (fs.save dir name b stamp).2 := by
  rcases fs.save_cases dir name b stamp with ⟨-, hsame⟩ | ⟨place, stamp', hl, htarget, hput, -⟩
  · exact .of_nodes hsame
  · have htakes := takes_of_target? hl htarget
    refine ((DifferAt.put htakes.free b stamp').trans (.of_nodes hput)).mono ?_
    rintro q rfl
    exact Path.leadsTo_join hname htakes.clean (leadsTo_of_locate hl)

theorem locate_join {dir name : Text} (hname : Path.Plain name) (hl : fs.locate dir = .ok place)
    (hdir : fs.isDirectoryAt place = true) (hclean : '\x00' ∉ name)
    (hsize : ¬ Path.maxName < Text.size name) (hat : (fs.at? (place ++ [name])).isSome) :
    fs.locate (Path.join dir name) = .ok (place ++ [name]) := by
  rw [locate_eq_ok_iff] at hl ⊢
  obtain ⟨hnul, hne, hw⟩ := hl
  refine ⟨Path.join_clean hnul hclean, Path.join_ne_nil hname dir, ?_⟩
  obtain ⟨parts, hjoin, hparts⟩ := Path.splitOn_join hname hne
  have hparts : fs.walk (Path.start dir) parts = .ok place := by
    rcases hparts with hp | hp
    · rw [← hp]
      exact hw
    · -- The empty component behind a slash at the end stays where it is.
      rw [hp, walk_append_eq_ok_iff] at hw
      obtain ⟨mid, hmid, hlast⟩ := hw
      obtain ⟨next, hstep, hnext⟩ := walk_cons_eq_ok_iff.mp hlast
      cases hnext
      cases hstep with
      | stay => exact hmid
      | down _ hc => exact absurd (.inl rfl) hc
  have hstep : fs.Step place name (place ++ [name]) :=
    .down hdir (by simp [hname.ne_nil, hname.ne_dot]) hname.ne_up hsize hat
  rw [hjoin, Path.start_join hname hne, walk_append_eq_ok_iff]
  exact ⟨place, hparts, walk_cons_eq_ok_iff.mpr ⟨_, hstep, rfl⟩⟩

theorem node?_save {dir name : Text} (hname : Path.Plain name) {b : List UInt8}
    {stamp : Option Stamp} (h : (fs.save dir name b stamp).1 = true) :
    ∃ stamp', (fs.save dir name b stamp).2.node? (Path.join dir name) = some ⟨.file b, stamp'⟩ ∧
      ∀ m, stamp = some m → stamp' = some m := by
  rcases fs.save_cases dir name b stamp with ⟨hno, -⟩ | ⟨place, stamp', hl, htarget, hput, hor⟩
  · rw [hno] at h
    cases h
  · have htakes := takes_of_target? hl htarget
    have hat := fun q => at?_congr hput q
    simp only [at?_put] at hat
    have hdiff : DifferAt (· = place ++ [name]) fs (fs.save dir name b stamp).2 :=
      (DifferAt.put htakes.free b stamp').trans (.of_nodes hput)
    have hd := hdiff.directory
    refine ⟨stamp', node?_eq_some_iff.mpr ⟨place ++ [name], ?_, by rw [hat, if_pos rfl]⟩, ?_⟩
    · refine locate_join hname (locate_mono ?_ ?_ hl) (by rw [hd, htakes.directory]) htakes.clean
        htakes.size (by rw [hat, if_pos rfl]; rfl)
      · intro q hq
        rw [hd, hq]
      · intro q hq
        rw [hat]
        split
        · rfl
        · exact hq
    · rintro m rfl
      rcases hor with ⟨-, hstamp⟩ | ⟨now, -, -, hno⟩
      · exact hstamp
      · rw [hno] at h
        cases h

end Files

end BlockTemplate
