import BlockTemplate.Proofs.Call.Memo
import BlockTemplate.Proofs.Section.Dissolve
import BlockTemplate.Proofs.Template.Session

/-!
# Names that stand for something else

Children, results of calls and inclusions stand in content under names made for them. From such a
name what it stands for can be told, except that a child called `function_` and a number has the name
of a result. A scan lists no name of a child or a result as a variable; but a variable may have the
name that a child or an inclusion gets later, and nothing refuses it.
-/

namespace BlockTemplate

/-- What a made name stands for. -/
inductive Standin where
  | child (block : Text)
  | result (id : CallId)
  | inclusion (n : Nat)
  deriving DecidableEq

namespace Standin

def name : Standin → Text
  | .child block => childName block
  | .result id => id.memo
  | .inclusion n => Inclusion.numbered n

def twinOf (id : CallId) : Text := "function_".toList ++ Text.decimal id

theorem childName_twinOf (id : CallId) : childName (twinOf id) = id.memo := by
  have hstart : "__".toList ++ "function_".toList = "__function_".toList := by decide +kernel
  have hassoc : "__".toList ++ twinOf id = "__".toList ++ "function_".toList ++ Text.decimal id :=
    (List.append_assoc _ _ _).symm
  calc childName (twinOf id) = "__".toList ++ twinOf id ++ "__".toList := rfl
    _ = "__".toList ++ "function_".toList ++ Text.decimal id ++ "__".toList := by rw [hassoc]
    _ = id.memo := congrArg (· ++ Text.decimal id ++ "__".toList) hstart

theorem childName_eq_memo_iff {block : Text} {id : CallId} :
    childName block = id.memo ↔ block = twinOf id := by
  rw [← childName_twinOf]
  exact ⟨childName_inj, congrArg childName⟩

theorem name_eq_iff (a b : Standin) : a.name = b.name ↔ a = b ∨
    ∃ id, a = .child (twinOf id) ∧ b = .result id ∨ a = .result id ∧ b = .child (twinOf id) := by
  constructor
  · intro h
    cases a with
    | child m =>
      cases b with
      | child n => exact .inl (congrArg child (childName_inj h))
      | result id => exact .inr ⟨id, .inl ⟨congrArg child (childName_eq_memo_iff.mp h), rfl⟩⟩
      | inclusion n => cases (List.cons.inj h).1
    | result i =>
      cases b with
      | child n => exact .inr ⟨i, .inr ⟨rfl, congrArg child (childName_eq_memo_iff.mp h.symm)⟩⟩
      | result j => exact .inl (congrArg result (CallId.memo_inj h))
      | inclusion n => cases (List.cons.inj h).1
    | inclusion m =>
      cases b with
      | child n => cases (List.cons.inj h).1
      | result id => cases (List.cons.inj h).1
      | inclusion n => exact .inl (congrArg inclusion (Inclusion.numbered_inj h))
  · rintro (rfl | ⟨id, ⟨rfl, rfl⟩ | ⟨rfl, rfl⟩⟩)
    · rfl
    · exact childName_twinOf id
    · exact (childName_twinOf id).symm

end Standin

namespace Listing

variable {d : Dialect} {children : List Text} {l : Listing} {x : Text}

theorem vars_addCall (l : Listing) (c : Call) : (l.addCall c).2.vars = l.vars := rfl

theorem vars_takePlaceholders (ps : List (Piece Placeholder))
    (hl : ∀ x ∈ l.vars, reserved children x = false) :
    ∀ x ∈ (takePlaceholders d children ps l).2.vars, reserved children x = false := by
  induction ps generalizing l with
  | nil => exact hl
  | cons p ps ih =>
    cases p with
    | char c => exact ih hl
    | mark raw p =>
      have hv : ∀ x ∈ (if reserved children p.name then l else l.addVariable p.name).vars,
          reserved children x = false := by
        split
        · exact hl
        · rename_i hp
          intro x hx
          rcases mem_addNew.mp hx with hx | rfl
          · exact hl x hx
          · simpa using hp
      rw [takePlaceholders]
      cases p.filter with
      | none => exact ih hv
      | some f => exact ih (by rwa [vars_addCall])

theorem vars_takeCalls (ps : List (Piece (Except Arguments.Failure Call))) (l : Listing) :
    (takeCalls d ps l).2.vars = l.vars := by
  induction ps generalizing l with
  | nil => rfl
  | cons p ps ih =>
    cases p with
    | char c => exact ih l
    | mark raw r =>
      cases r with
      | ok c => exact ih (l.addCall c).2
      | error e => rfl

theorem vars_scan {table : CallTable} {b b' : Block} (h : (scan d children table b).1 = .ok b') :
    ∀ x ∈ b'.vars, reserved children x = false := by
  have hvars : ∀ x ∈ (takePlaceholders d children (d.placeholders b.content)
      { table := table }).2.vars, reserved children x = false := vars_takePlaceholders _ (by simp)
  rw [scan] at h
  generalize takePlaceholders d children (d.placeholders b.content) { table := table } = r
    at h hvars
  obtain ⟨content, l⟩ := r
  have hcalls := vars_takeCalls (d := d) (Text.pieces d.callMark Call.read content) l
  dsimp only at h
  generalize takeCalls d (Text.pieces d.callMark Call.read content) l = r at h hcalls
  obtain ⟨r, l'⟩ := r
  cases r with
  | error e => cases h
  | ok text =>
    cases h
    intro x hx
    dsimp only at hx hcalls
    rw [hcalls] at hx
    exact hvars x hx

theorem reserved_eq_false_iff : reserved children x = false ↔
    (∀ n ∈ children, x ≠ childName n) ∧ CallId.isMemo x = false := by
  rw [reserved, Bool.or_eq_false_iff, List.any_eq_false]
  refine and_congr_left fun _ => forall₂_congr fun n _ => ?_
  rw [beq_iff_eq, eq_comm]

end Listing

namespace Fragment

theorem vars_scanAll {d : Dialect} {whole f : Fragment} {bs : List Block} {table : CallTable}
    (h : (scanAll d whole bs table).1 = .ok f) :
    List.Forall₂ (fun b b' => ∀ x ∈ b'.vars, Listing.reserved (whole.childNames b) x = false)
      bs f := by
  induction bs generalizing table f with
  | nil =>
    cases h
    exact .nil
  | cons b bs ih =>
    rw [scanAll] at h
    split at h
    · cases h
    · rename_i b' table' hs
      cases hr : (scanAll d whole bs table').1 with
      | error fault =>
        simp only [hr] at h
        cases h
      | ok f' =>
        simp only [hr] at h
        cases h
        exact .cons (Listing.vars_scan (congrArg Prod.fst hs)) (ih hr)

theorem childNames_of_forall₂ {table : CallTable} {f g : Fragment}
    (h : List.Forall₂ (ScannedFrom table) f g) {b b' : Block} (hb : b'.children = b.children) :
    g.childNames b' = f.childNames b := by
  have hnames : ∀ i : Nat, (g[i]? : Option Block).map (·.name) =
      (f[i]? : Option Block).map (·.name) := by
    intro i
    rw [← List.getElem?_map, ← List.getElem?_map, names_of_forall₂ h]
  simp only [childNames, hb, hnames]

theorem vars_compile {d : Dialect} {t : Tree} {top source : Text} {replaced : Option BlockId}
    {f : Fragment} (h : (compile d t top source replaced).1 = .ok f) :
    ∀ b ∈ f, ∀ x ∈ b.vars, (∀ n ∈ f.childNames b, x ≠ (Standin.child n).name) ∧
      ∀ id, x ≠ (Standin.result id).name := by
  rw [compile] at h
  split at h
  · cases h
  · rename_i f₀ _
    split at h
    · cases h
    · obtain ⟨-, -, hscanned⟩ := scanAll_spec d f₀ f₀ t.calls
      have hforall := hscanned f h
      have hvars := vars_scanAll h
      intro b hb x hx
      obtain ⟨i, hi, rfl⟩ := List.getElem_of_mem hb
      have hi₀ : i < f₀.length := hforall.length_eq ▸ hi
      have hreserved := hvars.get hi₀ hi x hx
      rw [Listing.reserved_eq_false_iff] at hreserved
      have hchildren : f[i].children = f₀[i].children := (hforall.get hi₀ hi).children
      rw [childNames_of_forall₂ hforall hchildren]
      refine ⟨hreserved.1, fun id hid => ?_⟩
      have hmemo := CallId.isMemo_memo id
      rw [← show x = id.memo from hid, hreserved.2] at hmemo
      cases hmemo

end Fragment

namespace Template

variable {t : Template} {b : Block}

def standins (t : Template) (b : Block) : List Standin :=
  (b.children.filterMap t.nameOf).map .child ++ b.calls.map .result

/-- Unless a child is called like that, a made name stands for one thing. -/
theorem standin_eq (hno : ∀ n ∈ b.children.filterMap t.nameOf, ∀ id, n ≠ Standin.twinOf id)
    {x y : Standin} (hx : x ∈ t.standins b) (hy : y ∈ t.standins b) (h : x.name = y.name) :
    x = y := by
  have hchild : ∀ {n}, .child n ∈ t.standins b → ∀ id, n ≠ Standin.twinOf id := by
    intro n hn
    rcases List.mem_append.mp hn with hn | hn
    · obtain ⟨m, hm, hmn⟩ := List.mem_map.mp hn
      cases hmn
      exact hno n hm
    · obtain ⟨id, -, hid⟩ := List.mem_map.mp hn
      cases hid
  rcases (Standin.name_eq_iff x y).mp h with rfl | ⟨id, ⟨rfl, rfl⟩ | ⟨rfl, rfl⟩⟩
  · rfl
  · exact absurd rfl (hchild hx id)
  · exact absurd rfl (hchild hy id)

end Template

namespace Pass

variable {e : Engine} {table : CallTable} {x : Text}

theorem get?_evaluateAll (ids : List CallId) (parts : Pool) (p : Pass)
    (hx : ∀ id ∈ ids, x ≠ id.memo) :
    (evaluateAll e table ids parts p).1.get? x = parts.get? x := by
  induction ids generalizing parts p with
  | nil => rfl
  | cons id ids ih =>
    have hrest : ∀ id ∈ ids, x ≠ CallId.memo id := fun i hi => hx i (List.mem_cons_of_mem id hi)
    rw [evaluateAll]
    split
    · rw [ih _ _ hrest, Dict.get?_insert_ne _ _ (hx id List.mem_cons_self)]
    · exact ih _ _ hrest

theorem child_part {b : Block} {n : Text} (hn : ∀ id ∈ b.calls, n ≠ Standin.twinOf id)
    (parts : Pool) (p : Pass) :
    (evaluateAll e table b.calls parts p).1.get? (childName n) = parts.get? (childName n) :=
  get?_evaluateAll b.calls parts p fun id hid he => hn id hid (Standin.childName_eq_memo_iff.mp he)

end Pass

namespace Session

def shown (fs : Files) (steps : List Operation) : Except Fault Text :=
  (((start fs).run .standard steps).template.output .standard rootName []).1

def numberedFiles : Files :=
  (Files.empty.write "main.html".toList (Text.utf8 "\x7btrigger_0\x7d<!-- INCLUDE a.html -->".toList)
    ⟨1, 0⟩).write "a.html".toList (Text.utf8 ['x']) ⟨1, 0⟩

/--
A child has the name of a result, a variable that of an inclusion, and a variable that of a child that
is added. In each case one of the two is put out for both.
-/
theorem made_names_clash :
    shown .empty [.compile ("<!-- BEGIN function_0 -->\x7bw\x7d<!-- END function_0 -->" ++
      "func_h('x')").toList, .setLocals (some ['w']) (.text ['y'])] = .ok ['x', 'x'] ∧
    shown numberedFiles [.loadFile "main.html".toList,
      .setLocals (some "trigger_0".toList) (.text ['v'])] = .ok ['x', 'x'] ∧
    shown .empty [.compile "\x7b__c__\x7d\x7bp\x7d".toList, .addBlock ['p'] ['c'] "\x7bw\x7d".toList,
      .setLocals (some "__c__".toList) (.text ['v']), .setLocals (some ['w']) (.text ['y'])] =
        .ok ['y', 'y'] := by decide +kernel

end Session

end BlockTemplate
