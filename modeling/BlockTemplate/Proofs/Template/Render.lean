import BlockTemplate.Proofs.Render.Refinement
import BlockTemplate.Proofs.Template.Session

/-!
# Rendering templates

In a tree every block below the rendered one is walked once, so rendering a template is what the
reference says of the state that it starts from.
-/

namespace BlockTemplate

namespace Pass

theorem substitute_eq_splice {e : Engine} (he : e.options.preserveData = false) (values : Pool)
    (t : Text) : substitute e values t = e.dialect.splice values.get? t := by
  have hvalue : (fun name => (values.get? name).map fun v =>
      if e.options.preserveData then e.dialect.protect v else v) = values.get? := by
    funext name
    rw [he]
    cases values.get? name with
    | none => rfl
    | some v => rfl
  rw [substitute, hvalue]

theorem run_refines {r : Reference} (he : r.engine.options.preserveData = false) {o : Outline}
    (horder : r.order = o.preorder) (hn : (o.preorder.map (·.1)).Nodup)
    (hcalls : ∀ x ∈ o.preorder, x.2.calls = []) (table : CallTable) (log : CallLog) :
    (run r.engine table o r.state log).1 = (!r.nonempty o) ∧
      (run r.engine table o r.state log).2.state.output o.id =
        r.state.output o.id ++ r.text o ∧
      (∀ x, (run r.engine table o r.state log).2.state.locals.get? x =
        if x ∈ Reference.listed o.preorder then none else r.state.locals.get? x) ∧
      (run r.engine table o r.state log).2.state.globals = r.state.globals := by
  have hstart : Follows r (Reference.listed []) [] ⟨r.state, ∅, log⟩ :=
    ⟨fun x hx => hx, fun x => rfl, rfl, fun x => rfl⟩
  have hplace : r.order = [] ++ (o.preorder ++ []) := by
    rw [horder, List.nil_append, List.append_nil]
  rw [← horder] at hn hcalls
  have h := rendered_block hn hcalls table false false o hplace hstart fun x _ => .refl x r.state
  have hfollows := h.follows
  rw [List.nil_append, List.nil_append, ← horder] at hfollows
  refine ⟨h.empty rfl, ?_, ?_, hfollows.globals⟩
  · have hvalue : (run r.engine table o r.state log).2.values.get? = r.value := by
      funext x
      rw [Reference.value]
      refine (hfollows.values x).trans ?_
      by_cases hx : x ∈ Reference.listed r.order
      · rw [if_pos hx, if_pos hx, if_pos (List.contains_iff_mem.mpr hx)]
      · rw [if_neg hx, if_neg hx, if_neg (fun hm => hx (List.contains_iff_mem.mp hm))]
        rfl
    have hout := h.output rfl
    rw [if_neg (by decide), substitute_eq_splice he] at hout
    rw [Reference.text, ← hvalue]
    exact hout
  · rw [← horder]
    exact hfollows.locals

end Pass

namespace Reference

variable {r : Reference} {o : Outline}

theorem text_of_not_emits (h : r.emits o.id (r.nonempty o) = false) : r.text o = [] := by
  cases o with
  | node id b cs =>
    rw [nonempty] at h
    rw [text, piece, show r.emits id _ = false from h, Dialect.splice, Dialect.names]
    rfl

end Reference

namespace Template

def reference (e : Engine) (t : Template) (id : BlockId) : Reference :=
  ⟨e, t.state, t.tree.preorder id⟩

/-- Rendering a block tells whether it is empty and adds its text to its output. -/
theorem render_refines_reference {e : Engine} (he : e.options.preserveData = false) {t : Template}
    (ht : t.tree.Sound) {name : Text} {id : BlockId} (hid : t.tree.lookup name = .ok id)
    (hcalls : ∀ x ∈ t.tree.preorder id, x.2.calls = []) (log : CallLog) :
    ∃ o, t.tree.outline? id = some o ∧
      (t.render e name log).1 = .ok (!(t.reference e id).nonempty o) ∧
      (t.render e name log).2.1.state.output id = t.state.output id ++
        (if (t.reference e id).emits id ((t.reference e id).nonempty o) then
          (t.reference e id).text o
        else []) ∧
      (∀ x, (t.render e name log).2.1.state.locals.get? x =
        if x ∈ Reference.listed (t.tree.preorder id) then none else t.state.locals.get? x) ∧
      (t.render e name log).2.1.state.globals = t.state.globals := by
  obtain ⟨b, hb, -⟩ := Tree.get?_of_find? (Tree.lookup_eq_ok_iff.mp hid)
  obtain ⟨o, ho, hoid, hm, hpre⟩ := Tree.preorder_of_live ht.tree hb
  rw [hpre] at hcalls
  obtain ⟨hempty, hout, hlocals, hglobals⟩ := Pass.run_refines (r := t.reference e id) he hpre
    (hm.nodup_preorder ht.tree) hcalls t.tree.calls log
  have hrender : t.render e name log = _ := render_of_outline hid ho t.state log
  rw [hrender, hpre]
  refine ⟨o, ho, congrArg Except.ok hempty, ?_, hlocals, hglobals⟩
  rw [hoid] at hout
  by_cases hemits : (t.reference e id).emits id ((t.reference e id).nonempty o) = true
  · rw [if_pos hemits]
    exact hout
  · rw [if_neg hemits]
    have hnothing : (t.reference e id).text o = [] := by
      refine Reference.text_of_not_emits ?_
      rw [hoid]
      simpa using hemits
    rw [← hnothing]
    exact hout

def rowSource : Text := "List:<!-- BEGIN row --> \x7bname\x7d<!-- END row -->".toList

def rowPage : Template :=
  let t := (compile .standard rowSource).toOption.getD .empty
  { t with state := { t.state with locals := Dict.ofList [("name".toList, "Ann".toList)] } }

theorem render_refines_reference_rowPage :
    (rowPage.render .standard rootName []).2.1.state.output rootId = "List: Ann".toList ∧
    ∃ o, rowPage.tree.outline? rootId = some o ∧
      (rowPage.render .standard rootName []).1 =
        .ok (!(rowPage.reference .standard rootId).nonempty o) := by
  have hsound : rowPage.tree.Sound := by
    rw [rowPage]
    cases hc : compile .standard rowSource with
    | ok t => exact (sound_compile hc).tree
    | error fault => exact sound_empty.tree
  have hid : rowPage.tree.lookup rootName = .ok rootId :=
    Tree.lookup_eq_ok_iff.mpr (by decide +kernel)
  have hcalls : ∀ x ∈ rowPage.tree.preorder rootId, x.2.calls = [] := by
    have hall : (rowPage.tree.preorder rootId).all (·.2.calls.isEmpty) = true := by decide +kernel
    intro x hx
    exact List.isEmpty_iff.mp (List.all_eq_true.mp hall x hx)
  obtain ⟨o, ho, hempty, -⟩ := render_refines_reference (e := .standard) rfl hsound hid hcalls []
  exact ⟨by decide +kernel, o, ho, hempty⟩

end Template

end BlockTemplate
