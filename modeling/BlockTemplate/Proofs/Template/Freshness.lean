import BlockTemplate.Proofs.Files.Kept
import BlockTemplate.Proofs.Files.Write
import BlockTemplate.Proofs.Template.Steps

/-!
# Snapshots over time

Template files are written, touched and loaded, and snapshots of them are saved or not. The invariant
is that a snapshot with a time is the export of what its file held when the file had that time, or
has the time of a save that could not stamp it. A file that never has such a time, nor one time with
two contents, is then the one its snapshot was taken of whenever the two times are equal, between the
loads and at each file that a load opens. A file that gets such a time is taken for one it is not.
-/

namespace BlockTemplate

inductive FileEvent where
  | write (file : Text) (bytes : List UInt8) (stamp : Stamp)
  | touch (file : Text) (stamp : Stamp)
  | fate (fates : List Fate)
  | load (t : Template) (edit : FileEdit)

namespace FileEvent

def apply (e : Engine) (fs : Files) : FileEvent → Files
  | .write file bytes stamp =>
    if fs.writable (e.path file) then fs.write (e.path file) bytes stamp else fs
  | .touch file stamp => fs.touch (e.path file) stamp
  | .fate fates => { fs with fates := fates }
  | .load t edit => (edit.run e t fs).2.2

def uses (e : Engine) (fs : Files) : FileEvent → List Text
  | .write file _ _ | .touch file _ => [file]
  | .fate _ => []
  | .load t edit => FileStep.opened (edit.steps e t fs)

def after (e : Engine) (fs : Files) (events : List FileEvent) : Files := events.foldl (apply e) fs

theorem after_append (e : Engine) (fs : Files) (l l' : List FileEvent) :
    after e fs (l ++ l') = after e (after e fs l) l' := List.foldl_append

theorem after_snoc (e : Engine) (fs : Files) (l : List FileEvent) (event : FileEvent) :
    after e fs (l ++ [event]) = event.apply e (after e fs l) := after_append e fs l [event]

inductive Moment (e : Engine) (fs : Files) (events : List FileEvent) : Files → Prop
  | between (pre : List FileEvent) (h : pre <+: events) : Moment e fs events (after e fs pre)
  | opening {pre : List FileEvent} {t : Template} {edit : FileEdit} {file : Text} {fs' : Files}
      (h : pre ++ [.load t edit] <+: events)
      (hopen : .opens file fs' ∈ edit.steps e t (after e fs pre)) : Moment e fs events fs'

/--
Events about files of these names, from when the directory for snapshots is empty. No two of the
names have one place for their snapshots, none is the path of such a place, and no file has the same
time twice with different contents.
-/
structure History (e : Engine) (dir : Text) (names : List Text) (fs : Files)
    (events : List FileEvent) : Prop where
  cacheDir : e.cacheDir = some dir
  empty : fs.list? dir = some []
  separate : e.Separate names
  uses : ∀ pre event, pre ++ [event] <+: events →
    ∀ f ∈ event.uses e (after e fs pre), f ∈ names
  sound : ∀ t edit, .load t edit ∈ events → t.tree.Sound
  steady : ∀ pre pre', pre <+: events → pre' <+: events → ∀ f ∈ names, ∀ m,
    (after e fs pre).modified (e.path f) = some m → (after e fs pre').modified (e.path f) = some m →
    (after e fs pre).bytes (e.path f) = (after e fs pre').bytes (e.path f)

/-- A snapshot may get this time from a save that cannot stamp it. -/
def Late (fs : Files) (events : List FileEvent) (now : Stamp) : Prop :=
  .unstamped now ∈ fs.fates ∨ ∃ fates, .fate fates ∈ events ∧ .unstamped now ∈ fates

variable {e : Engine} {dir f : Text} {names : List Text} {fs fs' base : Files}
  {events : List FileEvent} {was : Text → Stamp → Text → Prop} {late : Stamp → Prop}

/--
What these files hold as snapshots with a time was exported from a file as it once was, or has the
time of a save.
-/
def Fresh (e : Engine) (names : List Text) (was : Text → Stamp → Text → Prop)
    (late : Stamp → Prop) (fs : Files) : Prop :=
  ∀ f ∈ names, ∀ q n m, e.keptAt? f = some q → fs.at? q = some n → n.stamp = some m →
    late m ∨ ∃ text s, n.content = .file s.toBytes ∧ e.Exports text s ∧ was f m text

def SameSources (e : Engine) (names : List Text) (base fs : Files) : Prop :=
  ∀ g ∈ names, fs.node? (e.path g) = base.node? (e.path g)

theorem modified_of_node? {path : Text} (h : fs'.node? path = fs.node? path) :
    fs'.modified path = fs.modified path := congrArg (Option.bind · _) h

theorem read_of_node? {path text : Text} (h : fs'.node? path = fs.node? path)
    (hr : fs.read path = .ok text) : fs'.read path = .ok text := by
  rw [Files.read_eq_ok_iff, Files.bytes_eq_ok_iff] at hr ⊢
  rw [h]
  exact hr

theorem sameSources_saveSnapshot (hsep : e.Separate names) (hf : f ∈ names) (s : Snapshot)
    (fs : Files) : SameSources e names fs (Template.saveSnapshot e f s fs).2 := by
  intro g hg
  exact (Template.differAt_saveSnapshot e f s fs).node? (hsep.off hg (by simpa using hf))

structure Good (e : Engine) (names : List Text) (was : Text → Stamp → Text → Prop)
    (late : Stamp → Prop) (base fs : Files) : Prop where
  sources : SameSources e names base fs
  fates : ∀ now, .unstamped now ∈ fs.fates → late now
  fresh : Fresh e names was late fs

theorem Good.saveSnapshot (hsep : e.Separate names) (h : Good e names was late base fs)
    (hf : f ∈ names) {text : Text} {s : Snapshot} (hexports : e.Exports text s)
    (hwas : ∀ m, fs.modified (e.path f) = some m → was f m text) :
    Good e names was late base (Template.saveSnapshot e f s fs).2 where
  sources := fun g hg => (sameSources_saveSnapshot hsep hf s fs g hg).trans (h.sources g hg)
  fates := fun now hnow => h.fates now (Template.fates_saveSnapshot e f s fs hnow)
  fresh := by
    intro g hg q n m hkept hat hstamp
    rcases Template.at?_saveSnapshot e f s fs q with hsame | ⟨hkept', stamp, hput, hor⟩
    · exact h.fresh g hg q n m hkept (hsame.symm.trans hat) hstamp
    · obtain rfl := hsep.eq_of_keptAt? hf hg hkept' hkept
      rw [hput, Option.some.injEq] at hat
      subst hat
      rcases hor with rfl | ⟨now, hnow, rfl⟩
      · exact .inr ⟨text, s, rfl, hexports, hwas m hstamp⟩
      · cases hstamp
        exact .inl (h.fates m hnow)

theorem keptBySteps_good (late : Stamp → Prop) (hsep : e.Separate names)
    (hwas : ∀ f ∈ names, ∀ m text, base.modified (e.path f) = some m →
      base.read (e.path f) = .ok text → was f m text) :
    Template.KeptBySteps e (fun f _ => f ∈ names) fun l fs fs' =>
      SameSources e names fs fs' ∧ (Good e names was late base fs →
        Good e names was late base fs' ∧
          ∀ g fs'', .opens g fs'' ∈ l → Good e names was late base fs'') where
  none := fun fs => ⟨fun g hg => rfl, fun h => ⟨h, by simp⟩⟩
  opens := by
    refine fun file fs => ⟨fun g hg => rfl, fun h => ⟨h, ?_⟩⟩
    intro g fs'' hg
    cases List.mem_singleton.mp hg
    exact h
  append := by
    intro l l' fs fs' fs'' h h'
    refine ⟨fun g hg => (h'.1 g hg).trans (h.1 g hg), fun hgood => ?_⟩
    obtain ⟨hmid, hopens⟩ := h.2 hgood
    obtain ⟨hend, hopens'⟩ := h'.2 hmid
    refine ⟨hend, fun g files hg => ?_⟩
    exact (List.mem_append.mp hg).elim (hopens g files) (hopens' g files)
  saves := by
    intro file text s l fs fs' hfile _ hread hexports h
    refine ⟨sameSources_saveSnapshot hsep hfile s fs', fun hgood => ⟨?_, by simp⟩⟩
    refine hgood.saveSnapshot hsep hfile hexports fun m hm => ?_
    have hnode := hgood.sources file hfile
    refine hwas file hfile m text (modified_of_node? hnode ▸ hm) ?_
    exact read_of_node? (hnode.symm.trans (h.1 file hfile)) hread

theorem fresh_changedAt (hsep : e.Separate names) (h : Fresh e names was late fs) {file : Text}
    (hfile : file ∈ names) (hchanged : Files.ChangedAt (e.path file) fs fs') :
    Fresh e names was late fs' := by
  intro f hf q n m hkept hat hstamp
  have hoff : Path.leadsTo (e.path file) ≠ some q := by
    intro hq
    exact hsep.apart file hfile f hf (by rw [hq]; rfl) (hq.trans hkept.symm)
  rcases hchanged.elsewhere q hoff with hsame | ⟨-, hdir⟩
  · exact h f hf q n m hkept (hsame.symm.trans hat) hstamp
  · rw [hdir, Option.some.injEq] at hat
    subst hat
    cases hstamp

def Was (e : Engine) (fs : Files) (events : List FileEvent) (f : Text) (m : Stamp) (text : Text) :
    Prop :=
  ∃ pre, pre <+: events ∧ (after e fs pre).modified (e.path f) = some m ∧
    (after e fs pre).read (e.path f) = .ok text

theorem History.fresh_start (h : History e dir names fs events) : Fresh e names was late fs := by
  intro f hf q n m hkept hat
  rw [Engine.at?_of_list? h.cacheDir h.empty hkept] at hat
  cases hat

structure Settled (e : Engine) (names : List Text) (fs : Files) (events : List FileEvent)
    (now : Files) : Prop where
  fates : ∀ stamp, .unstamped stamp ∈ now.fates → Late fs events stamp
  fresh : Fresh e names (Was e fs events) (Late fs events) now

theorem History.good_load (h : History e dir names fs events) {pre : List FileEvent} {t : Template}
    {edit : FileEdit} (hpre : pre ++ [.load t edit] <+: events)
    (hsettled : Settled e names fs events (after e fs pre)) :
    Good e names (Was e fs events) (Late fs events) (after e fs pre)
        ((load t edit).apply e (after e fs pre)) ∧
      ∀ g fs', .opens g fs' ∈ edit.steps e t (after e fs pre) →
        Good e names (Was e fs events) (Late fs events) (after e fs pre) fs' := by
  have hsound : t.tree.Sound := h.sound t edit (hpre.subset (by simp))
  have hwas : ∀ f ∈ names, ∀ m text, (after e fs pre).modified (e.path f) = some m →
      (after e fs pre).read (e.path f) = .ok text → Was e fs events f m text :=
    fun f _ m text hm hr => ⟨pre, (List.prefix_append pre _).trans hpre, hm, hr⟩
  have hsteps := FileEdit.steps_run (keptBySteps_good (Late fs events) h.separate hwas) hsound
    (after e fs pre) edit fun f _ hf => h.uses pre _ hpre f (FileStep.mem_opened hf)
  exact hsteps.2 ⟨fun g hg => rfl, hsettled.fates, hsettled.fresh⟩

theorem fates_write (fs : Files) (path : Text) (b : List UInt8) (stamp : Stamp) :
    (fs.write path b stamp).fates = fs.fates := by
  rw [Files.write]
  exact Files.fates_makeAll fs _ _

theorem fates_touch (fs : Files) (path : Text) (stamp : Stamp) :
    (fs.touch path stamp).fates = fs.fates := by
  rw [Files.touch]
  split
  · rfl
  · split <;> rfl

theorem History.settled_after (h : History e dir names fs events) (pre : List FileEvent)
    (hpre : pre <+: events) : Settled e names fs events (after e fs pre) := by
  induction pre using List.reverseRecOn with
  | nil => exact ⟨fun _ => .inl, h.fresh_start⟩
  | append_singleton pre event ih =>
    have hsettled := ih ((List.prefix_append pre [event]).trans hpre)
    have huses := h.uses pre event hpre
    rw [after_snoc]
    cases event with
    | load t edit =>
      have hgood := (h.good_load hpre hsettled).1
      exact ⟨hgood.fates, hgood.fresh⟩
    | write file b stamp =>
      rw [apply]
      split
      · rename_i hw
        refine ⟨fun now hnow => hsettled.fates now (fates_write _ _ b stamp ▸ hnow), ?_⟩
        exact fresh_changedAt h.separate hsettled.fresh (huses file (by simp [FileEvent.uses]))
          (Files.changedAt_write hw b stamp)
      · exact hsettled
    | touch file stamp =>
      refine ⟨fun now hnow => hsettled.fates now (fates_touch _ _ stamp ▸ hnow), ?_⟩
      exact fresh_changedAt h.separate hsettled.fresh (huses file (by simp [FileEvent.uses]))
        (Files.changedAt_touch _ _ stamp)
    | fate fates =>
      refine ⟨fun now hnow => .inr ⟨fates, hpre.subset (by simp), hnow⟩, ?_⟩
      intro f hf q n m hkept hat hstamp
      exact hsettled.fresh f hf q n m hkept ((Files.at?_congr rfl q).symm.trans hat) hstamp

theorem History.good_moment (h : History e dir names fs events) (hm : Moment e fs events fs') :
    ∃ pre, pre <+: events ∧
      Good e names (Was e fs events) (Late fs events) (after e fs pre) fs' := by
  cases hm with
  | between pre hpre =>
    have hsettled := h.settled_after pre hpre
    exact ⟨pre, hpre, fun g hg => rfl, hsettled.fates, hsettled.fresh⟩
  | @opening pre t edit file _ hpre hopen =>
    have hbefore := (List.prefix_append pre [.load t edit]).trans hpre
    exact ⟨pre, hbefore, (h.good_load hpre (h.settled_after pre hbefore)).2 file fs' hopen⟩

theorem History.fresh_of_isCurrent (h : History e dir names fs events) (hf : f ∈ names)
    (htimes : ∀ now, Late fs events now → ∀ pre, pre <+: events →
      (after e fs pre).modified (e.path f) ≠ some now)
    (hm : Moment e fs events fs')
    (hcur : Engine.isCurrent fs' (e.path f) (Path.join dir (Engine.cachedName f)) = true) :
    ∃ text s, fs'.read (e.path f) = .ok text ∧ e.Exports text s ∧
      fs'.bytes (Path.join dir (Engine.cachedName f)) = .ok s.toBytes := by
  obtain ⟨pre, hpre, hgood⟩ := h.good_moment hm
  obtain ⟨m, hpath, hkept⟩ := Engine.isCurrent_iff.mp hcur
  obtain ⟨content, hnode⟩ := Files.modified_eq_some_iff.mp hkept
  obtain ⟨q, hl, hat⟩ := Files.node?_eq_some_iff.mp hnode
  have hq : e.keptAt? f = some q :=
    (Engine.keptAt?_eq h.cacheDir f).trans (Files.leadsTo_of_locate hl)
  have hsame := hgood.sources f hf
  rw [modified_of_node? hsame] at hpath
  have hlate : ¬ Late fs events m := fun hlate => htimes m hlate pre hpre hpath
  obtain ⟨text, s, hcontent, hexports, pre', hpre', hm', hread'⟩ :=
    (hgood.fresh f hf q _ m hq hat rfl).resolve_left hlate
  dsimp only at hcontent
  subst hcontent
  refine ⟨text, s, ?_, hexports, Files.bytes_eq_ok_iff.mpr ⟨_, hnode⟩⟩
  -- The file had this time when it had the text, so it has the text now.
  refine read_of_node? hsame ?_
  rw [Files.read_eq_ok_iff] at hread' ⊢
  rw [h.steady pre pre' hpre hpre' f hf m hpath hm', hread']

def Stamping (fs : Files) : Prop := ∀ now, .unstamped now ∉ fs.fates

theorem keptBySteps_current (hsep : e.Separate names) (hdir : e.cacheDir = some dir)
    (hf : f ∈ names) : Template.KeptBySteps e (fun f _ => f ∈ names) fun l fs fs' =>
      fs'.node? (e.path f) = fs.node? (e.path f) ∧ (Stamping fs → Stamping fs' ∧
        ∀ m, fs.modified (e.path f) = some m →
          (.saves f true ∈ l ∨ fs.modified (Path.join dir (Engine.cachedName f)) = some m) →
          fs'.modified (Path.join dir (Engine.cachedName f)) = some m) where
  none := fun fs => ⟨rfl, fun h => ⟨h, by simp⟩⟩
  opens := fun file fs => ⟨rfl, fun h => ⟨h, by simp⟩⟩
  append := by
    intro l l' fs fs' fs'' h h'
    refine ⟨h'.1.trans h.1, fun hstamping => ?_⟩
    obtain ⟨hmid, hfirst⟩ := h.2 hstamping
    obtain ⟨hend, hsecond⟩ := h'.2 hmid
    refine ⟨hend, fun m hm hor => ?_⟩
    have hm' : fs'.modified (e.path f) = some m := (modified_of_node? h.1).trans hm
    rcases hor with hmem | hcur
    · rcases List.mem_append.mp hmem with hmem | hmem
      · exact hsecond m hm' (.inr (hfirst m hm (.inl hmem)))
      · exact hsecond m hm' (.inl hmem)
    · exact hsecond m hm' (.inr (hfirst m hm (.inr hcur)))
  saves := by
    intro file text s l fs fs' hfile _ _ _ _
    refine ⟨sameSources_saveSnapshot hsep hfile s fs' f hf, fun hstamping => ⟨?_, ?_⟩⟩
    · exact fun now hnow => hstamping now (Template.fates_saveSnapshot e file s fs' hnow)
    intro m hm hor
    by_cases hsame : file = f
    · subst hsame
      cases hdone : (Template.saveSnapshot e file s fs').1.toBool with
      | true => exact Template.modified_saveSnapshot hdir hm hdone
      | false =>
        rw [hdone] at hor
        have hcur := hor.resolve_left (by simp)
        rw [Files.modified, Template.node?_unsaved hstamping hdone]
        exact hcur
    · have hcur := hor.resolve_left (by simp [Ne.symm hsame])
      rw [(Template.differAt_saveSnapshot e file s fs').modified, hcur]
      intro q hq hkept
      rw [← Engine.keptAt?_eq hdir] at hq
      exact hsame (hsep.eq_of_keptAt? hfile hf (Engine.keeps_singleton.mp hkept) hq)

theorem History.stamping_after (h : History e dir names fs events)
    (hlate : ∀ now, ¬ Late fs events now) {pre : List FileEvent} (hpre : pre <+: events) :
    Stamping (after e fs pre) := fun now hnow => hlate now ((h.settled_after pre hpre).fates now hnow)

theorem History.current_step (h : History e dir names fs events) (hf : f ∈ names)
    (hlate : ∀ now, ¬ Late fs events now)
    {pre : List FileEvent} {event : FileEvent} (hpre : pre ++ [event] <+: events) {m : Stamp}
    (hm : (after e fs pre).modified (e.path f) = some m)
    (hcur : (after e fs pre).modified (Path.join dir (Engine.cachedName f)) = some m) :
    (after e fs (pre ++ [event])).modified (Path.join dir (Engine.cachedName f)) = some m := by
  have huses := h.uses pre event hpre
  have hchanged : ∀ g ∈ names, ∀ {fs'}, Files.ChangedAt (e.path g) (after e fs pre) fs' →
      fs'.modified (Path.join dir (Engine.cachedName f)) = some m := by
    intro g hg fs' hfs
    obtain ⟨content, hnode⟩ := Files.modified_eq_some_iff.mp hcur
    refine Files.modified_eq_some_iff.mpr ⟨content, hfs.node? ?_ hnode⟩
    intro q hq hpath
    rw [← Engine.keptAt?_eq h.cacheDir] at hq
    exact h.separate.apart g hg f hf (by rw [hpath]; rfl) (hpath.trans hq.symm)
  rw [after_snoc]
  cases event with
  | load t edit =>
    have hsteps := FileEdit.steps_run (keptBySteps_current h.separate h.cacheDir hf)
      (h.sound t edit (hpre.subset (by simp))) (after e fs pre) edit
      fun f _ hf => huses f (FileStep.mem_opened hf)
    have hstamping := h.stamping_after hlate ((List.prefix_append pre _).trans hpre)
    exact (hsteps.2 hstamping).2 m hm (.inr hcur)
  | write file b stamp =>
    rw [apply]
    split
    · rename_i hw
      exact hchanged file (huses file (by simp [FileEvent.uses])) (Files.changedAt_write hw b stamp)
    · exact hcur
  | touch file stamp =>
    exact hchanged file (huses file (by simp [FileEvent.uses])) (Files.changedAt_touch _ _ stamp)
  | fate fates => exact hchanged f hf (Files.changedAt_of_nodes rfl)

theorem History.current_after (h : History e dir names fs events) (hf : f ∈ names)
    (hlate : ∀ now, ¬ Late fs events now)
    {pre post : List FileEvent} {t : Template} {edit : FileEdit}
    (hpre : pre ++ .load t edit :: post <+: events)
    (hsaved : .saves f true ∈ edit.steps e t (after e fs pre)) {m : Stamp}
    (hm : ∀ mid, mid <+: post →
      (after e fs (pre ++ .load t edit :: mid)).modified (e.path f) = some m) :
    (after e fs (pre ++ .load t edit :: post)).modified (Path.join dir (Engine.cachedName f)) =
      some m := by
  induction post using List.reverseRecOn with
  | nil =>
    have hload := h.uses pre (.load t edit) hpre
    have hsteps := FileEdit.steps_run (keptBySteps_current h.separate h.cacheDir hf)
      (h.sound t edit (hpre.subset (by simp))) (after e fs pre) edit
      fun f _ hf => hload f (FileStep.mem_opened hf)
    have hnow := hm [] List.prefix_rfl
    rw [after_snoc] at hnow ⊢
    have hstamping := h.stamping_after hlate ((List.prefix_append pre _).trans hpre)
    exact (hsteps.2 hstamping).2 m ((modified_of_node? hsteps.1).symm.trans hnow) (.inl hsaved)
  | append_singleton post event ih =>
    have hshape : pre ++ .load t edit :: (post ++ [event]) =
        (pre ++ .load t edit :: post) ++ [event] := by simp
    rw [hshape] at hpre ⊢
    have hbefore := (List.prefix_append _ [event]).trans hpre
    refine h.current_step hf hlate hpre (hm post (List.prefix_append post [event])) ?_
    exact ih hbefore fun mid hmid => hm mid (hmid.trans (List.prefix_append post [event]))

/--
While template files are written, touched and loaded, and snapshots are saved or not: a snapshot with
the time of its file is the export of what the file holds, unless that is the time of a save that
could not stamp it; if all that is saved is stamped, a snapshot that a load has saved has the time of
its file until that changes; and a file with another time than its snapshot is compiled.
-/
theorem snapshots_fresh (h : History e dir names fs events) (hf : f ∈ names) :
    ((∀ now, Late fs events now → ∀ pre, pre <+: events →
        (after e fs pre).modified (e.path f) ≠ some now) →
      ∀ fs', Moment e fs events fs' →
      Engine.isCurrent fs' (e.path f) (Path.join dir (Engine.cachedName f)) = true →
      ∃ text s, fs'.read (e.path f) = .ok text ∧ e.Exports text s ∧
        fs'.bytes (Path.join dir (Engine.cachedName f)) = .ok s.toBytes) ∧
    ((∀ now, ¬ Late fs events now) →
      ∀ pre t edit post m, events = pre ++ .load t edit :: post →
      .saves f true ∈ edit.steps e t (after e fs pre) →
      (∀ mid, mid <+: post →
        (after e fs (pre ++ .load t edit :: mid)).modified (e.path f) = some m) →
      Engine.isCurrent (after e fs events) (e.path f)
        (Path.join dir (Engine.cachedName f)) = true) ∧
    ∀ fs' : Files,
      fs'.modified (e.path f) ≠ fs'.modified (Path.join dir (Engine.cachedName f)) →
      ∀ t top replaced, Template.prepare e t fs' f top replaced =
        Template.prepareFile e t fs' f top replaced := by
  refine ⟨fun htimes fs' hm hcur => h.fresh_of_isCurrent hf htimes hm hcur, ?_, ?_⟩
  · intro hlate pre t edit post m hevents hsaved hm
    subst hevents
    have hcur := h.current_after hf hlate List.prefix_rfl hsaved hm
    exact Engine.isCurrent_iff.mpr ⟨m, hm post List.prefix_rfl, hcur⟩
  · intro fs' hne t top replaced
    have hnone : e.savedSnapshot? fs' f = none := by
      rw [Engine.savedSnapshot?, h.cacheDir]
      have hcur : ¬ Engine.isCurrent fs' (e.path f) (Path.join dir (Engine.cachedName f)) = true := by
        intro hcur
        obtain ⟨m, hp, hk⟩ := Engine.isCurrent_iff.mp hcur
        exact hne (hp.trans hk.symm)
      simp only [Option.bind_eq_bind, Option.bind_some, if_neg hcur]
    rw [Template.prepare, hnone]

theorem history_of_positions (hdir : e.cacheDir = some dir) (hempty : fs.list? dir = some [])
    (hsep : e.Separate names)
    (huses : ∀ i < events.length, ∀ event ∈ events[i]?,
      ∀ f ∈ event.uses e (after e fs (events.take i)), f ∈ names)
    (hsound : ∀ t edit, .load t edit ∈ events → t.tree.Sound)
    (hsteady : ∀ i ≤ events.length, ∀ j ≤ events.length, ∀ f ∈ names,
      (after e fs (events.take i)).modified (e.path f) =
          (after e fs (events.take j)).modified (e.path f) →
        (after e fs (events.take i)).bytes (e.path f) =
          (after e fs (events.take j)).bytes (e.path f)) :
    History e dir names fs events where
  cacheDir := hdir
  empty := hempty
  separate := hsep
  uses := by
    intro pre event hpre
    have hlen := hpre.length_le
    obtain ⟨post, hpost⟩ := hpre
    have htake : events.take pre.length = pre := by
      rw [← hpost, List.append_assoc, List.take_left]
    have hget : events[pre.length]? = some event := by
      rw [← hpost]
      simp
    rw [List.length_append] at hlen
    have h := huses pre.length hlen event hget
    rw [htake] at h
    exact h
  sound := hsound
  steady := by
    intro pre pre' hpre hpre' f hf m hm hm'
    have hlen := hpre.length_le
    have hlen' := hpre'.length_le
    rw [List.prefix_iff_eq_take] at hpre hpre'
    rw [hpre] at hm ⊢
    rw [hpre'] at hm' ⊢
    exact hsteady _ hlen _ hlen' f hf (hm.trans hm'.symm)

def pageEvents : List FileEvent :=
  [.load .empty (.load "page.html".toList), .write "part.html".toList (Text.utf8 ['z']) ⟨2, 0⟩]

theorem history_page : History .caching "cache".toList Files.pageNames Files.page pageEvents := by
  refine history_of_positions rfl (by decide +kernel) Engine.separate_page (by decide +kernel)
    (fun t edit hmem => ?_) (by decide +kernel)
  simp only [pageEvents, List.mem_cons, reduceCtorEq, List.not_mem_nil, or_false,
    FileEvent.load.injEq] at hmem
  rw [hmem.1]
  exact Tree.sound_empty

theorem snapshots_fresh_page :
    let fs := after .caching Files.page pageEvents
    (∃ text s, fs.read "page.html".toList = .ok text ∧ Engine.caching.Exports text s ∧
      fs.bytes "cache/page.html.it".toList = .ok s.toBytes) ∧
    ∀ t top replaced, Template.prepare .caching t fs "part.html".toList top replaced =
      Template.prepareFile .caching t fs "part.html".toList top replaced := by
  have hpage := snapshots_fresh history_page (f := "page.html".toList) (by decide)
  have hpart := snapshots_fresh history_page (f := "part.html".toList) (by decide)
  have hlate : ∀ now, ¬ Late Files.page pageEvents now := by
    rintro now (hnow | ⟨fates, hmem, -⟩)
    · cases hnow
    · simp [pageEvents] at hmem
  have hsaved : .saves "page.html".toList true ∈ (FileEdit.load "page.html".toList).steps .caching
      .empty Files.page := by decide +kernel
  have hkept : ∀ i < 2, (after .caching Files.page (.load .empty (.load "page.html".toList) ::
      (pageEvents.drop 1).take i)).modified "page.html".toList = some ⟨1, 0⟩ := by decide +kernel
  have hcur := hpage.2.1 hlate [] .empty (.load "page.html".toList) (pageEvents.drop 1) ⟨1, 0⟩ rfl
    hsaved (by
      intro mid hmid
      have hlen := hmid.length_le
      rw [List.prefix_iff_eq_take.mp hmid]
      exact hkept _ (Nat.lt_succ_of_le hlen))
  refine ⟨hpage.1 (fun now h => absurd h (hlate now)) _ (.between pageEvents List.prefix_rfl) hcur,
    ?_⟩
  exact hpart.2.2 _ (by decide +kernel)

def lateFiles : Files :=
  { (Files.empty.makeDirectory "cache".toList).write "page.html".toList (Text.utf8 "one".toList)
      ⟨1, 0⟩ with fates := [.unstamped ⟨2, 0⟩] }

def lateEvents : List FileEvent :=
  [.load .empty (.load "page.html".toList), .write "page.html".toList (Text.utf8 "two".toList)
    ⟨2, 0⟩]

/-- A snapshot that could not be stamped is taken for that of a text of the time of its save. -/
theorem late_snapshot_current :
    History .caching "cache".toList ["page.html".toList] lateFiles lateEvents ∧
    ((FileEdit.load "page.html".toList).run .caching .empty lateFiles).1 =
      .error (.cacheWrite "cache/page.html.it".toList) ∧
    (after .caching lateFiles lateEvents).read "page.html".toList = .ok "two".toList ∧
    Engine.isCurrent (after .caching lateFiles lateEvents) "page.html".toList
      "cache/page.html.it".toList = true ∧
    ((Template.empty.loadFile .caching "page.html".toList
      (after .caching lateFiles lateEvents)).2.1.output .caching rootName []).1 =
        .ok "one".toList := by
  refine ⟨?_, by decide +kernel⟩
  refine history_of_positions rfl (by decide +kernel) ⟨by decide +kernel, by decide +kernel⟩
    (by decide +kernel) (fun t edit hmem => ?_) (by decide +kernel)
  simp only [lateEvents, List.mem_cons, reduceCtorEq, List.not_mem_nil, or_false,
    FileEvent.load.injEq] at hmem
  rw [hmem.1]
  exact Tree.sound_empty

end FileEvent

end BlockTemplate
