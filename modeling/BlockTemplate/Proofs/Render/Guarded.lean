import BlockTemplate.Proofs.Render.Ink
import BlockTemplate.Proofs.Render.Results
import BlockTemplate.Proofs.Template.Render

/-!
# Data in the arguments of calls

Where data is kept from being read as placeholders, values are protected in the arguments of calls as
well, so a callback is passed marks where the values have braces. As long as no value and no result
has an opening delimiter, a render is the same with protection and without.
-/

namespace BlockTemplate

namespace Engine

def guarding (e : Engine) (yes : Bool) : Engine :=
  { e with options := { e.options with preserveData := yes } }

end Engine

namespace Page

open Dialect (standard markTail)

theorem unprotect_token {name : Text} (hn : isVariableName name = true) (t : Text) :
    standard.unprotect (Markup.token name ++ t) = Markup.token name ++ standard.unprotect t := by
  obtain ⟨c, cs, rfl⟩ := List.exists_cons_of_ne_nil (Markup.variableName_spec hn).1
  have hc : '%' ≠ c := by
    rintro rfl
    exact absurd ((Markup.variableName_spec hn).2 '%' List.mem_cons_self) (by decide)
  have hnone : Text.expect ('\x7b' :: markTail) ('\x7b' :: ((c :: cs ++ ['\x7d']) ++ t)) = none := by
    rw [Text.expect, if_pos rfl]
    exact if_neg hc
  have hrest : Text.replaceAll ('\x7b' :: markTail) ['\x7b'] ((c :: cs ++ ['\x7d']) ++ t) =
      (c :: cs ++ ['\x7d']) ++ Text.replaceAll ('\x7b' :: markTail) ['\x7b'] t :=
    replaceAll_append (brace_not_mem_name hn) ['\x7b'] t
  rw [token_append, List.singleton_append, Dialect.unprotect, Dialect.protectedMark_eq]
  refine (replaceAll_cons hnone _).trans ?_
  refine (congrArg ('\x7b' :: ·) hrest).trans ?_
  rw [Dialect.unprotect, Dialect.protectedMark_eq, ← brace_append]
  rfl

theorem unprotect_splice_protect {a : Text} (ha : Braced a) (f : Text → Option Text) :
    standard.unprotect (standard.splice (fun x => (f x).map standard.protect) a) =
      standard.splice f a := by
  refine braced_induction (motive := fun a => standard.unprotect (standard.splice
    (fun x => (f x).map standard.protect) a) = standard.splice f a) rfl ?_ ?_ ha
  · intro c t hc ih
    rw [splice_cons hc, splice_cons hc, Dialect.unprotect_cons hc, ih]
  · intro name t hn ih
    rw [splice_token hn, splice_token hn]
    cases f name with
    | none =>
      refine (unprotect_token hn _).trans ?_
      rw [ih]
      rfl
    | some v =>
      refine (Dialect.unprotect_protect v _).trans ?_
      rw [ih]
      rfl

end Page

namespace Pass

variable {e : Engine} {table : CallTable} {p : Pass} {c : Call}

theorem unprotect_arguments (hd : e.dialect = .standard) {values : Pool}
    (hargs : ∀ a ∈ c.args, Page.Braced a)
    (hkeeps : (e.callbacks.get? c.name).any (·.keepsArgs) = false) :
    (arguments (e.guarding true) values c).map Dialect.standard.unprotect =
      arguments (e.guarding false) values c := by
  have hkeeps' : ∀ yes, ((e.guarding yes).callbacks.get? c.name).any (·.keepsArgs) = false :=
    fun _ => hkeeps
  rw [arguments, arguments, hkeeps', hkeeps', if_neg Bool.false_ne_true, if_neg Bool.false_ne_true,
    List.map_map]
  refine List.map_congr_left fun a ha => ?_
  have hmarks : substitute (e.guarding true) values a =
      e.dialect.splice (fun x => (values.get? x).map e.dialect.protect) a := rfl
  have hplain : substitute (e.guarding false) values a = e.dialect.splice values.get? a :=
    substitute_eq_splice (e := e.guarding false) rfl values a
  rw [Function.comp_apply, hmarks, hplain, hd]
  exact Page.unprotect_splice_protect (hargs a ha) values.get?

def Unmarked (e : Engine) (_ v : Text) : Prop := e.dialect.protect v = v

theorem substitute_guarding {values : Pool} (h : ∀ x v, values.get? x = some v → Unmarked e x v)
    (t : Text) : substitute (e.guarding true) values t = substitute (e.guarding false) values t := by
  have hvalue : (fun x => (values.get? x).map e.dialect.protect) = values.get? := by
    funext x
    cases hx : values.get? x with
    | none => rfl
    | some v => exact congrArg some (h x v hx)
  rw [substitute_eq_splice (e := e.guarding false) rfl]
  exact congrArg (e.dialect.splice · t) hvalue

theorem evaluate_guarding (h : Supplied (Unmarked e) p) (id : CallId) :
    evaluate (e.guarding true) table id p = evaluate (e.guarding false) table id p := by
  have harguments : ∀ c, arguments (e.guarding true) p.values c =
      arguments (e.guarding false) p.values c := by
    intro c
    have hsubstitute := funext (substitute_guarding h.values)
    rw [arguments, arguments, hsubstitute]
    rfl
  rw [evaluate, evaluate]
  simp only [harguments]
  rfl

theorem evaluateAll_guarding (ids : List CallId) (parts : Pool) (h : Supplied (Unmarked e) p)
    (ha : Answers (e.guarding false) (Unmarked e) p.log
      (evaluateAll (e.guarding false) table ids parts p).2.log) :
    evaluateAll (e.guarding true) table ids parts p =
      evaluateAll (e.guarding false) table ids parts p := by
  induction ids generalizing parts p with
  | nil => rfl
  | cons id ids ih =>
    have hmoves := moves_evaluate (e.guarding false) table id p
    rw [evaluateAll] at ha ⊢
    rw [evaluateAll, evaluate_guarding h]
    generalize evaluate (e.guarding false) table id p = r at ha hmoves ⊢
    obtain ⟨result, q⟩ := r
    have hnext : ∀ parts', Answers (e.guarding false) (Unmarked e) p.log
        (evaluateAll (e.guarding false) table ids parts' q).2.log →
        evaluateAll (e.guarding true) table ids parts' q =
          evaluateAll (e.guarding false) table ids parts' q := by
      intro parts' ha
      obtain ⟨-, hq, hrest⟩ :=
        hmoves.split (moves_evaluateAll (e.guarding false) table ids parts' q) h ha
      exact ih parts' hq hrest
    cases result with
    | some v => exact hnext _ ha
    | none => exact hnext _ ha

theorem emit_guarding (inner : Bool) (id : BlockId) (b : Block) (parts : Pool)
    (h : Supplied (Unmarked e) p)
    (ha : Answers (e.guarding false) (Unmarked e) p.log
      (emit (e.guarding false) table inner id b parts p).log) :
    emit (e.guarding true) table inner id b parts p =
      emit (e.guarding false) table inner id b parts p := by
  have hall : Answers (e.guarding false) (Unmarked e) p.log
      (evaluateAll (e.guarding false) table b.calls parts p).2.log := ha
  have hvalues := (moves_evaluateAll (e.guarding false) table b.calls parts
    p).supplied h hall
  rw [emit, emit, evaluateAll_guarding b.calls parts h hall]
  dsimp only
  rw [substitute_guarding hvalues.values]
  rfl

mutual

theorem block_guarding (inner silent : Bool) (o : Outline) (p : Pass) (h : Supplied (Unmarked e) p)
    (ha : Answers (e.guarding false) (Unmarked e) p.log
      (block (e.guarding false) table inner silent o p).2.log) :
    block (e.guarding true) table inner silent o p =
      block (e.guarding false) table inner silent o p := by
  cases o with
  | node id b cs =>
    have htake := (moves_enter (e.guarding false) table id p).trans
      (moves_takeLocals (e.guarding false) table b.vars (p.enter id))
    rw [block] at ha ⊢
    rw [block]
    generalize takeLocals b.vars (p.enter id) = taken at ha htake ⊢
    obtain ⟨own, p₁⟩ := taken
    dsimp only at ha htake ⊢
    have hall := moves_blocks (e.guarding false) table silent cs false ∅ p₁
    have hsame := blocks_guarding silent cs false ∅ p₁
    generalize blocks (e.guarding false) table silent cs false ∅ p₁ = rest at ha hall hsame ⊢
    obtain ⟨full, parts, p₂⟩ := rest
    dsimp only at ha hall hsame ⊢
    have hadd := moves_addGlobals (e.guarding false) table b.vars p₂
    have hleft := hall.trans hadd
    -- The log of the whole is that of the children, and longer if the block is put out.
    have hparts : ∀ r : Pass, Moves (e.guarding false) table (addGlobals b.vars p₂) r →
        Answers (e.guarding false) (Unmarked e) p.log r.log →
        blocks (e.guarding true) table silent cs false ∅ p₁ = (full, parts, p₂) ∧
          Supplied (Unmarked e) (addGlobals b.vars p₂) ∧
          Answers (e.guarding false) (Unmarked e) (addGlobals b.vars p₂).log r.log := by
      intro r hr ha
      obtain ⟨-, htaken, ha⟩ := htake.split (hleft.trans hr) h ha
      obtain ⟨hchildren, hleaving⟩ := hleft.split hr htaken ha
      exact ⟨hsame htaken (hchildren.mono List.prefix_rfl hadd.log), hleaving⟩
    by_cases hquiet : (silent || !emits (e.guarding false) (addGlobals b.vars p₂).state id
        (!(own || full))) = true
    · rw [if_pos hquiet] at ha ⊢
      obtain ⟨hblocks, -⟩ := hparts _ (.refl _) ha
      rw [hblocks]
      exact if_pos hquiet
    · rw [if_neg hquiet] at ha ⊢
      obtain ⟨hblocks, hsupplied, hafter⟩ :=
        hparts _ (moves_emit (e.guarding false) table inner id b parts _) ha
      rw [hblocks]
      exact (if_neg hquiet).trans (congrArg _ (emit_guarding inner id b parts hsupplied hafter))

theorem blocks_guarding (silent : Bool) (os : List Outline) (full : Bool) (parts : Pool) (p : Pass)
    (h : Supplied (Unmarked e) p)
    (ha : Answers (e.guarding false) (Unmarked e) p.log
      (blocks (e.guarding false) table silent os full parts p).2.2.log) :
    blocks (e.guarding true) table silent os full parts p =
      blocks (e.guarding false) table silent os full parts p := by
  cases os with
  | nil => rfl
  | cons c cs =>
    -- A child is rendered, something is noted of it, and the others are rendered.
    have hstep : ∀ (quiet : Bool) (full' : Bool) (parts' : Pool) (s : State),
        s.locals = (block (e.guarding false) table true quiet c p).2.state.locals →
        s.globals = (block (e.guarding false) table true quiet c p).2.state.globals →
        Answers (e.guarding false) (Unmarked e) p.log
          (blocks (e.guarding false) table silent cs full' parts'
            { (block (e.guarding false) table true quiet c p).2 with state := s }).2.2.log →
        block (e.guarding true) table true quiet c p =
            block (e.guarding false) table true quiet c p ∧
          blocks (e.guarding true) table silent cs full' parts'
              { (block (e.guarding false) table true quiet c p).2 with state := s } =
            blocks (e.guarding false) table silent cs full' parts'
              { (block (e.guarding false) table true quiet c p).2 with state := s } := by
      intro quiet full' parts' s hl hg ha
      have hfirst := moves_block (e.guarding false) table true quiet c p
      have hrest := moves_blocks (e.guarding false) table silent cs full' parts'
        { (block (e.guarding false) table true quiet c p).2 with state := s }
      obtain ⟨hchild, hnoted, ha⟩ := (hfirst.trans (moves_note (s := s) hl hg)).split hrest h ha
      exact ⟨block_guarding true quiet c p h hchild,
        blocks_guarding silent cs full' parts' _ hnoted ha⟩
    rw [blocks] at ha ⊢
    rw [blocks]
    dsimp only at ha ⊢
    split at ha
    · rename_i hhidden
      obtain ⟨hfirst, hrest⟩ := hstep true full _
        ((block (e.guarding false) table true true c p).2.state.unmark c.id) rfl rfl ha
      rw [if_pos hhidden, if_pos hhidden, hfirst]
      exact hrest
    · rename_i hopen
      obtain ⟨hfirst, hrest⟩ := hstep silent _ _
        ((block (e.guarding false) table true silent c p).2.state.clearOutput c.id) rfl rfl ha
      rw [if_neg hopen, if_neg hopen, hfirst]
      exact hrest

end

end Pass

namespace Template

/--
Without an opening delimiter in values and results, the same calls are made with protection and
without, with the same arguments, and the same is put out.
-/
theorem renderAt_guarding {e : Engine} {t : Template} {id : BlockId} {log : CallLog}
    (hlocals : ∀ x v, t.state.locals.get? x = some v → Pass.Unmarked e x v)
    (hglobals : ∀ x v, t.state.globals.get? x = some v → Pass.Unmarked e x v)
    (hresults : Pass.Answers (e.guarding false) (Pass.Unmarked e) log
      (t.renderAt (e.guarding false) id log).2.2) :
    t.renderAt (e.guarding true) id log = t.renderAt (e.guarding false) id log := by
  have hstart : Pass.Supplied (Pass.Unmarked e) ⟨t.state, ∅, log⟩ :=
    ⟨hlocals, hglobals, fun x v hv => nomatch hv⟩
  rw [renderAt] at hresults ⊢
  rw [renderAt]
  cases ho : t.tree.outline? id with
  | none => rfl
  | some o =>
    rw [ho] at hresults
    have hrun : Pass.run (e.guarding true) t.tree.calls o t.state log =
        Pass.run (e.guarding false) t.tree.calls o t.state log :=
      Pass.block_guarding false false o _ hstart hresults
    simp only [hrun]

def counting (yes : Bool) : Engine :=
  { Engine.standard with
    callbacks := Engine.builtins.insert "len".toList (.unary fun t => Text.decimal t.length)
  }.guarding yes

def showBrace (yes : Bool) (source : Text) : Option Text × List (List Text) :=
  match compile (counting yes) source with
  | .error _ => (none, [])
  | .ok t =>
    let r := (t.setVariable "v".toList (.text "\x7b".toList)).2.output (counting yes) rootName []
    (r.1.toOption, r.2.2.map (·.args))

/-- With protection the callbacks are passed marks, and what becomes of a mark is not undone. -/
theorem marks_passed_to_callbacks :
    showBrace false "\x7bv:u\x7d".toList = (some "%7B".toList, [[['\x7b']]]) ∧
    showBrace true "\x7bv:u\x7d".toList =
      (some "%7B%25preserved%25%7D".toList, [["\x7b%preserved%\x7d".toList]]) ∧
    (showBrace false "\x7bv:len\x7d".toList).1 = some ['1'] ∧
    (showBrace true "\x7bv:len\x7d".toList).1 = some "13".toList ∧
    (showBrace false "func_h(\x7bv:h\x7d)".toList).1 = some ['\x7b'] ∧
    (showBrace true "func_h(\x7bv:h\x7d)".toList).1 = some "\x7b%preserved%\x7d".toList := by
  decide +kernel

end Template

end BlockTemplate
