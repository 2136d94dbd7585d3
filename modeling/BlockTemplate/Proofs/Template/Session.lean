import BlockTemplate.Proofs.Template.Load
import BlockTemplate.Template.Output

/-!
# Runs of operations

A session is a template with the files around it and the calls made so far. Whatever operations are
run one after another, failing ones included, and whatever the files hold at any time, the template
keeps its blocks, calls and marks in order.
-/

namespace BlockTemplate

/-- What may be asked of a template, and what may happen to the files in between. -/
inductive Operation where
  | compile (source : Text)
  | setTemplate (source : Text)
  | loadFile (file : Text)
  | addBlock (placeholder block source : Text)
  | addBlockFile (placeholder block file : Text)
  | replaceBlock (block source : Text) (keepOutput : Bool)
  | replaceBlockFile (block file : Text) (keepOutput : Bool)
  | setLocals (name : Option Text) (v : Value)
  | setGlobals (name : Option Text) (v : Value)
  | clearVariables
  | setCurrentBlock (block : Text)
  | touchBlock (block : Text)
  | hideBlock (block : Text)
  | render (block : Text)
  | renderCurrent
  | output (block : Text)
  | takeOutput (block : Text)
  | writeOutput (block : Text) (sink : Sink)
  | renderWith (block : Text) (v : Value)
  | files (fs : Files)

structure Session where
  template : Template
  files : Files
  log : CallLog

namespace Session

def start (fs : Files) : Session := ⟨.empty, fs, []⟩

def withTemplate (s : Session) (t : Template) : Session := { s with template := t }

def loaded {α : Type} (s : Session) (r : α × Template × Files) : Session :=
  { s with template := r.2.1, files := r.2.2 }

def rendered {α : Type} (s : Session) (r : α × Template × CallLog) : Session :=
  { s with template := r.2.1, log := r.2.2 }

def apply (e : Engine) (s : Session) : Operation → Session
  | .compile source =>
    match Template.compile e source with
    | .ok t => s.withTemplate t
    | .error _ => s
  | .setTemplate source => s.withTemplate (s.template.setTemplate e source).2
  | .loadFile file => s.loaded (s.template.loadFile e file s.files)
  | .addBlock placeholder block source =>
    s.withTemplate (s.template.addBlock e placeholder block source).2
  | .addBlockFile placeholder block file =>
    s.loaded (s.template.addBlockFile e placeholder block file s.files)
  | .replaceBlock block source keepOutput =>
    s.withTemplate (s.template.replaceBlock e block source keepOutput).2
  | .replaceBlockFile block file keepOutput =>
    s.loaded (s.template.replaceBlockFile e block file keepOutput s.files)
  | .setLocals name v => s.withTemplate (s.template.setLocals name v).2
  | .setGlobals name v => s.withTemplate (s.template.setGlobals name v).2
  | .clearVariables => s.withTemplate s.template.clearVariables
  | .setCurrentBlock block => s.withTemplate (s.template.setCurrentBlock block).2
  | .touchBlock block => s.withTemplate (s.template.touchBlock block).2
  | .hideBlock block => s.withTemplate (s.template.hideBlock block).2
  | .render block => s.rendered (s.template.render e block s.log)
  | .renderCurrent => s.rendered (s.template.renderCurrent e s.log)
  | .output block => s.rendered (s.template.output e block s.log)
  | .takeOutput block => s.rendered (s.template.takeOutput e block s.log)
  | .writeOutput block sink => s.rendered (s.template.writeOutput e block sink s.log)
  | .renderWith block v => s.rendered (s.template.renderWith e block v s.log)
  | .files fs => { s with files := fs }

def run (e : Engine) (s : Session) (ops : List Operation) : Session := ops.foldl (apply e) s

end Session

namespace Template

variable {t : Template} {e : Engine}

theorem sound_attachSource (h : t.Sound) {top : Text} (target : Target)
    (ht : t.Admits top target) (source : Text) : (t.attachSource e top source target).2.Sound := by
  rw [attachSource]
  have hfits := Fragment.fits_compile e.dialect t.tree top source target.replaced
  generalize Fragment.compile e.dialect t.tree top source target.replaced = r at hfits
  obtain ⟨r, calls⟩ := r
  have hcalls := h.carried (carried_withCalls h.tree hfits.grown (hfits.distinct h.tree.calls))
  cases r with
  | error fault => exact hcalls
  | ok f =>
    have hadmits : (t.withCalls calls).Admits top target :=
      (carried_withCalls h.tree hfits.grown (hfits.distinct h.tree.calls)).admits ht
    refine sound_attach e.dialect hcalls hadmits (hfits.ready f rfl) ?_
    have hn := hfits.named f rfl
    rw [withCalls, Tree.leavingNames_calls]
    exact ⟨hn.nodup, hn.leaving⟩

theorem lookup_root (h : t.tree.Sound) : t.tree.lookup rootName = .ok rootId :=
  Tree.lookup_eq_ok_iff.mpr ((Tree.find?_eq_some_iff h.distinct).mpr h.root_name)

theorem sound_setTemplate (h : t.Sound) (source : Text) : (t.setTemplate e source).2.Sound := by
  rw [setTemplate]
  have hfits := Fragment.fits_compile e.dialect .empty rootName source (some rootId)
  generalize Fragment.compile e.dialect .empty rootName source (some rootId) = r at hfits
  obtain ⟨r, calls⟩ := r
  cases r with
  | error fault => exact h
  | ok f =>
    have hempty := Tree.sound_empty.withCalls hfits.grown (hfits.distinct Tree.sound_empty.calls)
    have hnames : ∀ x b i c, ({ Tree.empty with calls := calls } : Tree).get? x = some b →
        x ≠ rootId → f.look i = some c → b.name ≠ c.name := by
      intro x b i c hx hne _
      have hx' : Tree.empty.get? x = some b := hx
      rw [Tree.get?_empty, if_neg hne] at hx'
      cases hx'
    have hroot : ({ Tree.empty with calls := calls } : Tree).get? rootId =
        some { name := rootName, content := [] } := rfl
    obtain ⟨htree, -⟩ := hempty.graftOver hroot rfl (hfits.ready f rfl)
      (hfits.named f rfl).distinct hnames
    exact ⟨htree, htree.live_root, State.within_fresh t.state⟩

theorem sound_compile {source : Text} (h : Template.compile e source = .ok t) : t.Sound := by
  have hs := sound_setTemplate (e := e) sound_empty source
  rw [Template.compile] at h
  split at h
  · rename_i hset
    cases h
    rw [hset] at hs
    exact hs
  · cases h

theorem owner_of_placeFor {placeholder block : Text} {p : BlockId}
    (hp : t.placeFor placeholder block = .ok p) : t.tree.owner placeholder = .ok p := by
  rw [placeFor] at hp
  split at hp
  · cases hp
  · exact hp

theorem live_of_placeFor {placeholder block : Text} {p : BlockId} (h : t.tree.Sound)
    (hp : t.placeFor placeholder block = .ok p) : t.tree.Live p := by
  obtain ⟨b, hb, -⟩ := Tree.live_of_owner h.tree (owner_of_placeFor hp)
  exact ⟨b, hb⟩

theorem sound_addBlock (h : t.Sound) (placeholder block source : Text) :
    (t.addBlock e placeholder block source).2.Sound := by
  rw [addBlock]
  split
  · exact h
  · rename_i p hp
    exact sound_attachSource h (.under p placeholder) (live_of_placeFor h.tree hp) source

theorem sound_replaceBlock (h : t.Sound) (block source : Text) (keepOutput : Bool) :
    (t.replaceBlock e block source keepOutput).2.Sound := by
  rw [replaceBlock]
  split
  · exact h
  · rename_i id hid
    exact sound_attachSource h (.over id keepOutput) (get?_of_lookup hid) source

theorem sound_addBlockFile (h : t.Sound) (placeholder block file : Text) (fs : Files) :
    (t.addBlockFile e placeholder block file fs).2.1.Sound := by
  rw [addBlockFile]
  split
  · exact h
  · rename_i p hp
    exact sound_load e _ file (.under p placeholder) h (live_of_placeFor h.tree hp) fs

theorem sound_replaceBlockFile (h : t.Sound) (block file : Text) (keepOutput : Bool) (fs : Files) :
    (t.replaceBlockFile e block file keepOutput fs).2.1.Sound := by
  rw [replaceBlockFile]
  split
  · exact h
  · rename_i id hid
    exact sound_load e _ file (.over id keepOutput) h (get?_of_lookup hid) fs

theorem sound_loadFile (h : t.Sound) (file : Text) (fs : Files) :
    (t.loadFile e file fs).2.1.Sound := by
  let blank : Template := { t with tree := .empty, state := {}, nextInclusion := 0 }
  have hblank : blank.tree.Sound := Tree.sound_empty
  have hroot : blank.Admits rootName (.over rootId false) :=
    ⟨{ name := rootName, content := [] }, rfl, rfl⟩
  have hload : (loadTop e file rootName (.over rootId false) blank fs).2.1.tree.Sound :=
    tree_load e _ file (.over rootId false) hblank hroot fs
  have hblank' : ({ t with tree := .empty, state := {}, nextInclusion := 0 } : Template) = blank := rfl
  rw [loadFile, hblank']
  generalize loadTop e file rootName (.over rootId false) blank fs = r at hload
  obtain ⟨r, u, fs'⟩ := r
  cases r with
  | ok x => exact sound_renew hload
  | error fault =>
    dsimp only
    split
    · exact sound_renew hload
    · exact h

theorem sound_onBlock (h : t.Sound) (name : Text) {f : BlockId → Template}
    (hf : ∀ id, t.tree.Live id → (f id).Sound) : (t.onBlock name f).2.Sound := by
  rw [onBlock]
  split
  · rename_i id hid
    obtain ⟨b, hb, -⟩ := get?_of_lookup hid
    exact hf id ⟨b, hb⟩
  · exact h

theorem renderAt_of_outline {id : BlockId} {o : Outline} (ho : t.tree.outline? id = some o)
    (s : State) (log : CallLog) :
    ({ t with state := s } : Template).renderAt e id log =
      ((Pass.run e t.tree.calls o s log).1,
        { t with state := (Pass.run e t.tree.calls o s log).2.state },
        (Pass.run e t.tree.calls o s log).2.log) := by
  simp only [renderAt, ho]

theorem render_of_outline {name : Text} {id : BlockId} {o : Outline}
    (hid : t.tree.lookup name = .ok id) (ho : t.tree.outline? id = some o) (s : State)
    (log : CallLog) :
    ({ t with state := s } : Template).render e name log =
      (.ok (Pass.run e t.tree.calls o s log).1,
        { t with state := (Pass.run e t.tree.calls o s log).2.state },
        (Pass.run e t.tree.calls o s log).2.log) := by
  simp only [render, hid, renderAt_of_outline ho]

theorem sound_renderAt (h : t.Sound) (id : BlockId) (log : CallLog) :
    (t.renderAt e id log).2.1.Sound := by
  rw [renderAt]
  split
  · exact h
  · rename_i o ho
    refine sound_of_state h (Pass.within_block e t.tree.calls false false o ?_ _ h.state)
    intro x hx
    have hlive : ∃ b, t.tree.get? id = some b := by
      cases hb : t.tree.get? id with
      | some b => exact ⟨b, rfl⟩
      | none => rw [Tree.outline?_of_vacant hb] at ho; cases ho
    obtain ⟨b, hb⟩ := hlive
    obtain ⟨o', ho', -, hm⟩ := Tree.outline?_of_live h.tree.tree hb
    rw [ho, Option.some.injEq] at ho'
    subst ho'
    exact ⟨x.2, (hm.sound hx).2⟩

theorem sound_render (h : t.Sound) (block : Text) (log : CallLog) :
    (t.render e block log).2.1.Sound := by
  rw [render]
  split
  · exact h
  · exact sound_renderAt h _ log

theorem sound_outputAt (h : t.Sound) (id : BlockId) (log : CallLog) :
    (t.outputAt e id log).2.1.Sound := by
  rw [outputAt]
  dsimp only
  split
  · exact sound_renderAt h id log
  · exact h

theorem sound_output (h : t.Sound) (block : Text) (log : CallLog) :
    (t.output e block log).2.1.Sound := by
  rw [output]
  split
  · exact h
  · exact sound_outputAt h _ log

theorem sound_takeOutput (h : t.Sound) (block : Text) (log : CallLog) :
    (t.takeOutput e block log).2.1.Sound := by
  rw [takeOutput]
  split
  · exact h
  · have ho := sound_outputAt (e := e) h ‹BlockId› log
    exact sound_of_state ho (ho.state.clearOutput _)

theorem sound_writeOutput (h : t.Sound) (block : Text) (sink : Sink) (log : CallLog) :
    (t.writeOutput e block sink log).2.1.Sound := by
  have ho := sound_output (e := e) h block log
  rw [writeOutput]
  split
  · rename_i hr
    rw [hr] at ho
    exact ho
  · rename_i hr
    rw [hr] at ho
    split <;> exact ho

theorem sound_setLocals (h : t.Sound) (name : Option Text) (v : Value) :
    (t.setLocals name v).2.Sound := sound_of_state h ⟨h.state.outputs, h.state.marks⟩

theorem sound_setGlobals (h : t.Sound) (name : Option Text) (v : Value) :
    (t.setGlobals name v).2.Sound := sound_of_state h ⟨h.state.outputs, h.state.marks⟩

theorem sound_renderWith (h : t.Sound) (block : Text) (v : Value) (log : CallLog) :
    (t.renderWith e block v log).2.1.Sound := by
  have hset := sound_setLocals h none v
  rw [renderWith]
  split
  · rename_i hr
    rw [setVariables] at hr
    rw [hr] at hset
    exact hset
  · rename_i u hr
    rw [setVariables] at hr
    rw [hr] at hset
    have hrender := sound_render (e := e) hset block log
    split
    · rename_i hr
      rw [hr] at hrender
      exact hrender
    · rename_i hr
      rw [hr] at hrender
      exact sound_takeOutput hrender block _

end Template

namespace Session

open Template

theorem sound_apply (e : Engine) {s : Session} (h : s.template.Sound) (op : Operation) :
    (s.apply e op).template.Sound := by
  cases op with
  | compile source =>
    rw [apply]
    split
    · rename_i ht
      exact sound_compile ht
    · exact h
  | setTemplate source => exact sound_setTemplate h source
  | loadFile file => exact sound_loadFile h file s.files
  | addBlock placeholder block source => exact sound_addBlock h placeholder block source
  | addBlockFile placeholder block file => exact sound_addBlockFile h placeholder block file s.files
  | replaceBlock block source keepOutput => exact sound_replaceBlock h block source keepOutput
  | replaceBlockFile block file keepOutput =>
    exact sound_replaceBlockFile h block file keepOutput s.files
  | setLocals name v => exact sound_setLocals h name v
  | setGlobals name v => exact sound_setGlobals h name v
  | clearVariables => exact sound_of_state h ⟨h.state.outputs, h.state.marks⟩
  | setCurrentBlock block =>
    exact sound_onBlock h block fun id hid => ⟨h.tree, hid, h.state⟩
  | touchBlock block =>
    exact sound_onBlock h block fun id hid => sound_of_state h (h.state.mark hid .touched)
  | hideBlock block =>
    exact sound_onBlock h block fun id hid => sound_of_state h (h.state.mark hid .hidden)
  | render block => exact sound_render h block s.log
  | renderCurrent => exact sound_renderAt h s.template.current s.log
  | output block => exact sound_output h block s.log
  | takeOutput block => exact sound_takeOutput h block s.log
  | writeOutput block sink => exact sound_writeOutput h block sink s.log
  | renderWith block v => exact sound_renderWith h block v s.log
  | files fs => exact h

theorem sound_run (e : Engine) {s : Session} (h : s.template.Sound) (ops : List Operation) :
    (s.run e ops).template.Sound := by
  induction ops generalizing s with
  | nil => exact h
  | cons op ops ih => exact ih (sound_apply e h op)

end Session

end BlockTemplate
