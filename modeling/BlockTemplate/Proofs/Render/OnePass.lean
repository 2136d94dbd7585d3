import BlockTemplate.Proofs.Call.Memo
import BlockTemplate.Proofs.Document.Splice
import BlockTemplate.Proofs.Render.Invocation
import BlockTemplate.Proofs.Render.Results
import BlockTemplate.Proofs.Template.Render

/-!
# Filling in one pass

Results of calls are spliced into the content of a block before the values are written into what the
outermost block puts out, so a result is searched for placeholders once more. As long as no result
has a brace, this makes no difference: all placeholders are filled at once, and what they are filled
with is not searched.
-/

namespace BlockTemplate

mutual

/--
The text is the content of the block, and in place of the token of each child stands such a text for
the child, or nothing.
-/
def Outline.Spliced (d : Dialect) : Outline → Text → Prop
  | .node _ b cs, t => ∃ f, Outline.SplicedAll d cs f ∧ t = d.splice f b.content

def Outline.SplicedAll (d : Dialect) : List Outline → (Text → Option Text) → Prop
  | [], f => f = fun _ => none
  | c :: cs, f => ∃ g t, Outline.SplicedAll d cs g ∧ (t = [] ∨ Outline.Spliced d c t) ∧
    f = fun x => (g x).or (if x = childName c.block.name then some t else none)

end

theorem Outline.SplicedAll.of_eq_some {d : Dialect} {cs : List Outline} {f : Text → Option Text}
    (h : Outline.SplicedAll d cs f) {x t : Text} (hx : f x = some t) :
    ∃ c ∈ cs, x = childName c.block.name := by
  induction cs generalizing f t with
  | nil =>
    rw [SplicedAll] at h
    rw [h] at hx
    cases hx
  | cons c cs ih =>
    rw [SplicedAll] at h
    obtain ⟨g, s, hg, -, rfl⟩ := h
    rcases Option.or_eq_some_iff.mp hx with hgx | ⟨-, hname⟩
    · obtain ⟨c', hc', he⟩ := ih hg hgx
      exact ⟨c', List.mem_cons_of_mem c hc', he⟩
    · split at hname
      · rename_i he
        exact ⟨c, List.mem_cons_self, he⟩
      · cases hname

namespace Pass

open Dialect (standard)

variable {e : Engine} {table : CallTable} {V : Text → Option Text} {p q : Pass}

def Settled (V : Text → Option Text) (x v : Text) : Prop :=
  ∀ id : CallId, x = id.memo → V x = some v ∧ '\x7b' ∉ v

structure Resolves (V : Text → Option Text) (text piece : Text) : Prop where
  bracedText : Page.Braced text
  bracedPiece : Page.Braced piece
  splice : standard.splice V text = standard.splice V piece

theorem resolves_nil : Resolves V [] [] :=
  ⟨Page.braced_of_no_brace List.not_mem_nil, Page.braced_of_no_brace List.not_mem_nil, rfl⟩

theorem settled_evaluate {id : CallId} {result : Text}
    (h : Supplied (Settled V) (evaluate e table id p).2)
    (hr : (evaluate e table id p).1 = some result) : V id.memo = some result ∧ '\x7b' ∉ result := by
  refine h.values id.memo result ?_ id rfl
  rw [evaluate] at hr ⊢
  cases hv : p.values.get? id.memo with
  | some v =>
    rw [hv] at hr
    exact hv.trans hr
  | none =>
    cases hc : table.get? id with
    | none =>
      rw [hv, hc] at hr
      cases hr
    | some c =>
      rw [hv, hc] at hr
      exact (Dict.get?_insert_self _ _ _).trans hr

theorem parts_evaluateAll (ids : List CallId) (parts : Pool) (p : Pass)
    (h : Supplied (Settled V) p)
    (ha : Answers e (Settled V) p.log (evaluateAll e table ids parts p).2.log) (x : Text) :
    (evaluateAll e table ids parts p).1.get? x = parts.get? x ∨
      ∃ (id : CallId) (v : Text), x = id.memo ∧
        (evaluateAll e table ids parts p).1.get? x = some v ∧ V x = some v ∧ '\x7b' ∉ v := by
  induction ids generalizing parts p with
  | nil => exact .inl rfl
  | cons id ids ih =>
    have hmoves := moves_evaluate e table id p
    have hresult : ∀ v, Supplied (Settled V) (evaluate e table id p).2 →
        (evaluate e table id p).1 = some v → V id.memo = some v ∧ '\x7b' ∉ v :=
      fun v => settled_evaluate
    rw [evaluateAll] at ha ⊢
    generalize evaluate e table id p = r at ha hmoves hresult ⊢
    obtain ⟨result, q⟩ := r
    cases result with
    | none =>
      obtain ⟨-, hq, ha⟩ := hmoves.split (moves_evaluateAll e table ids parts q) h ha
      exact ih parts q hq ha
    | some v =>
      obtain ⟨-, hq, ha⟩ :=
        hmoves.split (moves_evaluateAll e table ids (parts.insert id.memo v) q) h ha
      rcases ih (parts.insert id.memo v) q hq ha with hkeep | hnew
      · by_cases hx : x = id.memo
        · rw [hx, Dict.get?_insert_self] at hkeep
          rw [hx]
          exact .inr ⟨id, v, rfl, hkeep, hresult v hq rfl⟩
        · rw [Dict.get?_insert_ne _ _ hx] at hkeep
          exact .inl hkeep
      · exact .inr hnew

theorem resolves_splice {content : Text} {parts parts' f : Text → Option Text}
    (hb : Page.Braced content) (hp : ∀ x, Option.Rel (Resolves V) (parts x) (f x))
    (hn : ∀ id : CallId, f id.memo = none)
    (hparts : ∀ x, parts' x = parts x ∨ ∃ (id : CallId) (v : Text),
      x = id.memo ∧ parts' x = some v ∧ V x = some v ∧ '\x7b' ∉ v) :
    Resolves V (standard.splice parts' content) (standard.splice f content) := by
  have hf : ∀ x v, f x = some v → Page.Braced v := by
    intro x v hv
    have h := hp x
    rw [hv] at h
    generalize parts x = part at h
    cases h with
    | some h => exact h.bracedPiece
  have hparts' : ∀ x v, parts' x = some v → Page.Braced v := by
    intro x v hv
    rcases hparts x with hsame | ⟨id, w, -, hw, -, hplain⟩
    · have h := hp x
      rw [← hsame, hv] at h
      generalize f x = piece at h
      cases h with
      | some h => exact h.bracedText
    · rw [Option.some.inj (hv.symm.trans hw)]
      exact Page.braced_of_no_brace hplain
  refine ⟨Page.braced_splice hb hparts', Page.braced_splice hb hf, ?_⟩
  rw [Page.splice_splice hb hparts', Page.splice_splice hb hf]
  congr 1
  funext x
  rcases hparts x with hsame | ⟨id, v, rfl, hv, hV, hplain⟩
  · have h := hp x
    rw [hsame]
    generalize parts x = part at h
    generalize f x = piece at h
    cases h with
    | some h => exact congrArg some h.splice
    | none => rfl
  · rw [hv, hn id, hV]
    exact congrArg some (Page.splice_of_no_brace hplain V)

theorem output_emit_eq (inner : Bool) (id : BlockId) (b : Block) (parts : Pool) (p : Pass) :
    (emit e table inner id b parts p).state.output id = p.state.output id ++
      (if inner then e.dialect.splice (evaluateAll e table b.calls parts p).1.get? b.content
      else substitute e (emit e table inner id b parts p).values
        (e.dialect.splice (evaluateAll e table b.calls parts p).1.get? b.content)) := by
  have hstate := state_evaluateAll e table b.calls parts p
  rw [emit]
  generalize evaluateAll e table b.calls parts p = evaluated at hstate
  obtain ⟨parts', p'⟩ := evaluated
  dsimp only at hstate ⊢
  have hout := p'.state.output_putOut id id (if inner then e.dialect.splice parts'.get? b.content
    else substitute e p'.values (e.dialect.splice parts'.get? b.content))
  rw [if_pos rfl, hstate] at hout
  rw [hstate]
  exact hout

structure Orderly (b : Block) : Prop where
  braced : Page.Braced b.content
  name : ∀ id : CallId, childName b.name ≠ id.memo

theorem rel_insert {parts : Pool} {g : Text → Option Text} {text piece : Text}
    (h : ∀ x, Option.Rel (Resolves V) (parts.get? x) (g x)) (ht : Resolves V text piece)
    (name x : Text) : Option.Rel (Resolves V) ((parts.insert name text).get? x)
      ((if x = name then some piece else none).or (g x)) := by
  rw [Dict.get?_insert]
  by_cases hx : x = name
  · rw [if_pos hx, if_pos hx]
    exact .some ht
  · rw [if_neg hx, if_neg hx]
    exact h x

def PutsOut (e : Engine) (V : Text → Option Text) (inner shown : Bool) (o : Outline) (q : Pass) :
    Prop :=
  ∃ text piece, (if shown then o.Spliced standard piece else piece = []) ∧ Resolves V text piece ∧
    q.state.output o.id = if inner then text else substitute e q.values text

theorem puts_out_nothing {inner : Bool} {o : Outline} (h : q.state.output o.id = []) :
    PutsOut e V inner false o q := by
  refine ⟨[], [], rfl, resolves_nil, ?_⟩
  have hnothing : substitute e q.values [] = [] := by
    rw [substitute, Dialect.splice, Dialect.names, Text.pieces_nil]
    rfl
  rw [h, hnothing, ite_self]

mutual

theorem puts_out_block (hd : e.dialect = standard) (inner silent : Bool) (o : Outline)
    (ho : ∀ x ∈ o.preorder, Orderly x.2) (hn : (o.preorder.map (·.1)).Nodup) (p : Pass)
    (hout : ∀ x ∈ o.preorder.map (·.1), p.state.output x = []) (h : Supplied (Settled V) p)
    (ha : Answers e (Settled V) p.log (block e table inner silent o p).2.log) :
    PutsOut e V inner (!silent && emits e p.state o.id (block e table inner silent o p).1) o
      (block e table inner silent o p).2 := by
  cases o with
  | node id b cs =>
    rw [Outline.preorder, List.map_cons, List.nodup_cons] at hn
    rw [Outline.preorder, List.map_cons, List.forall_mem_cons] at hout
    rw [Outline.preorder, List.forall_mem_cons] at ho
    have htake := (moves_enter e table id p).trans
      (moves_takeLocals e table b.vars (p.enter id))
    have hsame : ∀ x, (takeLocals b.vars (p.enter id)).2.state.SameAt x p.state := fun x =>
      (sameAt_takeLocals b.vars (p.enter id) x).trans (sameAt_enter id p x)
    rw [block] at ha ⊢
    generalize takeLocals b.vars (p.enter id) = taken at ha htake hsame ⊢
    obtain ⟨own, p₁⟩ := taken
    dsimp only at ha htake hsame ⊢
    have hall := moves_blocks e table silent cs false ∅ p₁
    have hkeep := (sameAt_blocks e table silent cs hn.1 false ∅ p₁).trans (hsame id)
    have hparts := puts_out_blocks hd silent cs ho.2 hn.2 false ∅ p₁
      (fun x hx => (hsame x).output.trans (hout.2 x hx)) (fun _ => none) fun _ => .none
    generalize blocks e table silent cs false ∅ p₁ = rest at ha hall hkeep hparts ⊢
    obtain ⟨full, parts, p₂⟩ := rest
    dsimp only at ha hall hkeep hparts ⊢
    have hadd := moves_addGlobals e table b.vars p₂
    have hempty : (addGlobals b.vars p₂).state.output id = [] := by
      rw [state_addGlobals]
      exact hkeep.output.trans hout.1
    have hshown : ∀ isEmpty, (!silent && emits e p.state id isEmpty) =
        !(silent || !emits e (addGlobals b.vars p₂).state id isEmpty) := by
      intro isEmpty
      rw [Bool.not_or, Bool.not_not, state_addGlobals, emits, emits, State.isTouched,
        State.isTouched, hkeep.marks]
    specialize hshown (!(own || full))
    by_cases hquiet : (silent || !emits e (addGlobals b.vars p₂).state id (!(own || full))) = true
    · rw [if_pos hquiet]
      rw [hquiet] at hshown
      exact hshown ▸ puts_out_nothing hempty
    · rw [if_neg hquiet] at ha ⊢
      rw [Bool.eq_false_iff.mpr hquiet] at hshown
      -- What holds of the results of the whole render is split between its stretches.
      have hemit := moves_emit e table inner id b parts (addGlobals b.vars p₂)
      obtain ⟨-, htaken, ha⟩ := htake.split ((hall.trans hadd).trans hemit) h ha
      obtain ⟨hchildren, hadded, ha⟩ := (hall.trans hadd).split hemit htaken ha
      obtain ⟨f, hf, hpaired⟩ := hparts htaken (hchildren.mono List.prefix_rfl hadd.log)
      have hresults := parts_evaluateAll b.calls parts (addGlobals b.vars p₂) hadded ha
      have hmemo : ∀ i : CallId, f i.memo = none := by
        intro i
        cases hfi : f i.memo with
        | none => rfl
        | some t =>
          obtain ⟨c, hc, hname⟩ := hf.of_eq_some hfi
          exact absurd hname.symm
            ((ho.2 _ (Outline.mem_preorderAll.mpr ⟨c, hc, c.head_mem_preorder⟩)).name i)
      refine ⟨_, standard.splice f b.content, (if_pos hshown).mpr ⟨f, hf, rfl⟩,
        resolves_splice ho.1.braced (fun x => by simpa using hpaired x) hmemo hresults, ?_⟩
      refine (output_emit_eq inner id b parts _).trans ?_
      rw [hempty, hd]
      rfl

theorem puts_out_blocks (hd : e.dialect = standard) (silent : Bool) (os : List Outline)
    (ho : ∀ x ∈ Outline.preorderAll os, Orderly x.2)
    (hn : ((Outline.preorderAll os).map (·.1)).Nodup) (full : Bool) (parts : Pool) (p : Pass)
    (hout : ∀ x ∈ (Outline.preorderAll os).map (·.1), p.state.output x = [])
    (g : Text → Option Text) (hg : ∀ x, Option.Rel (Resolves V) (parts.get? x) (g x))
    (h : Supplied (Settled V) p)
    (ha : Answers e (Settled V) p.log (blocks e table silent os full parts p).2.2.log) :
    ∃ f, Outline.SplicedAll standard os f ∧ ∀ x, Option.Rel (Resolves V)
      ((blocks e table silent os full parts p).2.1.get? x) ((f x).or (g x)) := by
  cases os with
  | nil => exact ⟨fun _ => none, rfl, hg⟩
  | cons c cs =>
    rw [Outline.preorderAll, List.map_append, List.nodup_append] at hn
    rw [Outline.preorderAll, List.map_append, List.forall_mem_append] at hout
    rw [Outline.preorderAll, List.forall_mem_append] at ho
    have happart : ∀ x ∈ (Outline.preorderAll cs).map (·.1), x ∉ c.preorder.map (·.1) :=
      fun x hx hm => hn.2.2 x hm x hx rfl
    have hcid : c.id ∈ c.preorder.map (·.1) := List.mem_map_of_mem c.head_mem_preorder
    -- A child is rendered and a text is taken for it, and the others are rendered.
    have hstep : ∀ (quiet : Bool) (full' : Bool) (text piece : Text) (s : State),
        s.locals = (block e table true quiet c p).2.state.locals →
        s.globals = (block e table true quiet c p).2.state.globals →
        (∀ x, x ≠ c.id → s.output x = (block e table true quiet c p).2.state.output x) →
        (piece = [] ∨ Outline.Spliced standard c piece) → Resolves V text piece →
        Answers e (Settled V) p.log (blocks e table silent cs full'
          (parts.insert (childName c.block.name) text)
          { (block e table true quiet c p).2 with state := s }).2.2.log →
        ∃ f, Outline.SplicedAll standard (c :: cs) f ∧ ∀ x, Option.Rel (Resolves V)
          ((blocks e table silent cs full' (parts.insert (childName c.block.name) text)
            { (block e table true quiet c p).2 with state := s }).2.1.get? x)
          ((f x).or (g x)) := by
      intro quiet full' text piece s hl hglobals hkeep hpiece htext ha
      have hnoted := (moves_block e table true quiet c p).trans
        (moves_note (s := s) hl hglobals)
      have hrest := moves_blocks e table silent cs full'
        (parts.insert (childName c.block.name) text)
        { (block e table true quiet c p).2 with state := s }
      have hothers : ∀ x ∈ (Outline.preorderAll cs).map (·.1), s.output x = [] := by
        intro x hx
        have hne : x ≠ c.id := fun he => happart x hx (he ▸ hcid)
        exact (hkeep x hne).trans
          ((sameAt_block e table true quiet c (happart x hx) p).output.trans (hout.2 x hx))
      obtain ⟨-, hsupplied, ha⟩ := hnoted.split hrest h ha
      obtain ⟨f, hf, hpaired⟩ := puts_out_blocks hd silent cs ho.2 hn.2.1 full'
        (parts.insert (childName c.block.name) text)
        { (block e table true quiet c p).2 with state := s } hothers _
        (rel_insert hg htext (childName c.block.name)) hsupplied ha
      refine ⟨_, ⟨f, piece, hf, hpiece, rfl⟩, fun x => ?_⟩
      rw [Option.or_assoc]
      exact hpaired x
    rw [blocks] at ha ⊢
    dsimp only at ha ⊢
    split at ha
    · rename_i hhidden
      rw [if_pos hhidden]
      exact hstep true full [] [] ((block e table true true c p).2.state.unmark c.id) rfl rfl
        (fun _ _ => rfl) (.inl rfl) resolves_nil ha
    · rename_i hopen
      rw [if_neg hopen]
      have hclear : ∀ x, x ≠ c.id → ((block e table true silent c p).2.state.clearOutput c.id).output
          x = (block e table true silent c p).2.state.output x := by
        intro x hx
        rw [State.output_clearOutput, if_neg hx]
      have hlog := (moves_blocks e table silent cs
        (full || (block e table true silent c p).2.state.output c.id ≠ [])
        (parts.insert (childName c.block.name) ((block e table true silent c p).2.state.output c.id))
        { (block e table true silent c p).2 with
          state := (block e table true silent c p).2.state.clearOutput c.id }).log
      obtain ⟨text, piece, hpiece, htext, houtput⟩ := puts_out_block hd true silent c ho.1 hn.1 p
        hout.1 h (ha.mono List.prefix_rfl hlog)
      have hpart : piece = [] ∨ Outline.Spliced standard c piece := by
        split at hpiece
        · exact .inr hpiece
        · exact .inl hpiece
      rw [if_pos rfl] at houtput
      rw [houtput] at ha ⊢
      exact hstep silent _ text piece _ rfl rfl hclear hpart htext ha

end

theorem Made.unique {log new : CallLog} {id : CallId} {v w : Text} (hn : (new.map (·.id)).Nodup)
    (hv : Made e log (log ++ new) id v) (hw : Made e log (log ++ new) id w) : v = w := by
  have hsplit : ∀ u, Made e log (log ++ new) id u → ∃ l i r, new = l ++ i :: r ∧ i.id = id ∧
      apply e (log ++ l) i.name i.args = u := by
    rintro u ⟨l, i, ⟨l, rfl⟩, ⟨r, hr⟩, hid, hu⟩
    rw [List.append_assoc, List.append_assoc, List.append_cancel_left_eq] at hr
    exact ⟨l, i, r, hr.symm, hid, hu⟩
  obtain ⟨l, i, r, rfl, hi, hv⟩ := hsplit v hv
  obtain ⟨l', i', r', hnew, hi', hw⟩ := hsplit w hw
  rw [List.map_append, List.map_cons, List.nodup_middle, List.nodup_cons, List.mem_append,
    not_or] at hn
  have hapart : ∀ js : CallLog, i.id ∉ js.map (·.id) → i' ∉ js := by
    intro js hjs hm
    refine hjs ?_
    rw [hi, ← hi']
    exact List.mem_map_of_mem hm
  obtain ⟨rfl, rfl, -⟩ :=
    (List.append_cons_inj_of_notMem (hapart l hn.1.1) (hapart r hn.1.2)).mp hnew
  exact hv.symm.trans hw

theorem memo_iff_made {new : List Invocation} (h : Moves e table p q)
    (heval : Evaluates e table new p q) (hfresh : Supplied (fun x _ => ∀ id : CallId, x ≠ id.memo) p)
    (id : CallId) (v : Text) : q.values.get? id.memo = some v ↔ Made e p.log q.log id v := by
  have hkept : Supplied (fun x v => ∀ id : CallId, x = id.memo → Made e p.log q.log id v) q := by
    refine h.supplied ⟨?_, ?_, ?_⟩ ?_
    · exact fun x v hx id he => absurd he (hfresh.locals x v hx id)
    · exact fun x v hx id he => absurd he (hfresh.globals x v hx id)
    · exact fun x v hx id he => absurd he (hfresh.values x v hx id)
    · exact fun id v hmade id' he => CallId.memo_inj he ▸ hmade
  refine ⟨fun hv => hkept.values _ _ hv id rfl, fun hmade => ?_⟩
  obtain ⟨w, hw⟩ : ∃ w, q.values.get? id.memo = some w := by
    obtain ⟨l, i, ⟨l, rfl⟩, ⟨r, hr⟩, rfl, -⟩ := hmade
    rw [heval.log, List.append_assoc, List.append_assoc, List.append_cancel_left_eq] at hr
    have hi : i ∈ new := hr ▸ List.mem_append_right l List.mem_cons_self
    exact Option.isSome_iff_exists.mp (heval.after i hi)
  have hsame := hkept.values _ _ hw id rfl
  rw [heval.log] at hmade hsame
  rw [hw, Made.unique heval.once hmade hsame]

def Agree (values values' : Pool) : Prop :=
  ∀ x, (∀ id : CallId, x ≠ id.memo) → values.get? x = values'.get? x

theorem Agree.insert {d d' : Pool} (h : Agree d d') (name v : Text) :
    Agree (d.insert name v) (d'.insert name v) := by
  intro x hx
  rw [Dict.get?_insert, Dict.get?_insert, h x hx]

theorem Agree.insert_memo {d d' : Pool} (h : Agree d d') (id : CallId) (v : Text) :
    Agree (d.insert id.memo v) d' := by
  intro x hx
  rw [Dict.get?_insert_ne _ _ (hx id), h x hx]

theorem agree_takeLocals (names : List Text) {d : Pool} (h : Agree p.values d) :
    ∃ d', (takeLocals names { p with values := d }).2 =
        { (takeLocals names p).2 with values := d' } ∧ Agree (takeLocals names p).2.values d' := by
  induction names generalizing p d with
  | nil => exact ⟨d, rfl, h⟩
  | cons name names ih =>
    rw [takeLocals, takeLocals]
    dsimp only
    cases hv : p.state.locals.get? name with
    | none => exact ih h
    | some v => exact ih (p := { p with
        state := { p.state with locals := p.state.locals.erase name }
        values := p.values.insert name v }) (h.insert name v)

theorem agree_addGlobals (names : List Text) {d : Pool} (h : Agree p.values d) :
    ∃ d', addGlobals names { p with values := d } =
        { addGlobals names p with values := d' } ∧ Agree (addGlobals names p).values d' := by
  induction names generalizing p d with
  | nil => exact ⟨d, rfl, h⟩
  | cons name names ih =>
    rw [addGlobals, addGlobals]
    dsimp only
    cases hv : p.state.globals.get? name with
    | none => exact ih h
    | some v => exact ih (p := { p with values := p.values.insert name v }) (h.insert name v)

theorem agree_evaluateAll (e : Engine) (table : CallTable) (ids : List CallId) (parts : Pool)
    {d : Pool} (h : Agree p.values d) :
    Agree (evaluateAll e table ids parts p).2.values d := by
  induction ids generalizing parts p with
  | nil => exact h
  | cons id ids ih =>
    have hfirst : Agree (evaluate e table id p).2.values d := by
      rw [evaluate]
      split
      · exact h
      · exact h
      · exact h.insert_memo id _
    rw [evaluateAll]
    generalize evaluate e table id p = r at hfirst
    obtain ⟨result, q⟩ := r
    cases result with
    | none => exact ih _ hfirst
    | some v => exact ih _ hfirst

def Tracks (r : Reference) (seen done : List Text) (p : Pass) : Prop :=
  ∃ d, Follows r seen done { p with values := d } ∧ Agree p.values d

section Tracks

open Reference (listed listed_append listed_cons)

variable {r : Reference} {seen done : List Text}

theorem Tracks.withState (h : Tracks r seen done p) {s : State}
    (hl : s.locals = p.state.locals) (hg : s.globals = p.state.globals) :
    Tracks r seen done { p with state := s } := by
  obtain ⟨d, hd, hagree⟩ := h
  exact ⟨d, hd.withState hl hg, hagree⟩

theorem Tracks.enter (h : Tracks r seen done p) (id : BlockId) :
    Tracks r seen done (p.enter id) := by
  rw [Pass.enter]
  split
  · exact h.withState rfl rfl
  · exact h

theorem Tracks.takeLocals (h : Tracks r seen done p) (names : List Text) :
    Tracks r (seen ++ names) done (takeLocals names p).2 := by
  obtain ⟨d, hd, hagree⟩ := h
  obtain ⟨d', htake, hagree'⟩ := agree_takeLocals names hagree
  exact ⟨d', htake ▸ (follows_takeLocals hd names).1, hagree'⟩

theorem Tracks.addGlobals (h : Tracks r seen done p) {names : List Text}
    (hn : ∀ x ∈ names, x ∈ seen) : Tracks r seen (done ++ names) (addGlobals names p) := by
  obtain ⟨d, hd, hagree⟩ := h
  obtain ⟨d', hadd, hagree'⟩ := agree_addGlobals names hagree
  exact ⟨d', hadd ▸ follows_addGlobals hd hn, hagree'⟩

theorem Tracks.emit (h : Tracks r seen done p) (inner : Bool) (id : BlockId) (b : Block)
    (parts : Pool) : Tracks r seen done (emit e table inner id b parts p) := by
  obtain ⟨d, hd, hagree⟩ := h
  have hall := agree_evaluateAll e table b.calls parts hagree
  have hstate := state_evaluateAll e table b.calls parts p
  rw [Pass.emit]
  generalize evaluateAll e table b.calls parts p = evaluated at hall hstate
  obtain ⟨parts', p'⟩ := evaluated
  dsimp only at hall hstate ⊢
  obtain ⟨hlocals, hglobals, -⟩ := p'.state.putOut_vars id (if inner then
    e.dialect.splice parts'.get? b.content
    else substitute e p'.values (e.dialect.splice parts'.get? b.content))
  rw [hstate] at hlocals hglobals ⊢
  have hput := hd.withState hlocals hglobals
  exact ⟨d, ⟨hput.covered, hput.locals, hput.globals, hput.values⟩, hall⟩

theorem Tracks.congr {seen' done' : List Text} (h : Tracks r seen done p)
    (hs : ∀ x, x ∈ seen' ↔ x ∈ seen) (hd : ∀ x, x ∈ done' ↔ x ∈ done) :
    Tracks r seen' done' p := by
  obtain ⟨d, hfollows, hagree⟩ := h
  exact ⟨d, hfollows.congr hs hd, hagree⟩

variable (e) (table)

mutual

theorem tracks_block (inner silent : Bool) (o : Outline) (seen done : List Text) (p : Pass)
    (h : Tracks r seen done p) : Tracks r (seen ++ listed o.preorder) (done ++ listed o.preorder)
      (block e table inner silent o p).2 := by
  cases o with
  | node id b cs =>
    have htake := (h.enter id).takeLocals b.vars
    rw [block]
    generalize takeLocals b.vars (p.enter id) = taken at htake
    obtain ⟨own, p₁⟩ := taken
    have hall := tracks_blocks silent cs false ∅ _ _ p₁ htake
    dsimp only at hall ⊢
    generalize blocks e table silent cs false ∅ p₁ = rest at hall
    obtain ⟨full, parts, p₂⟩ := rest
    have hleft : Tracks r (seen ++ listed (Outline.preorder (.node id b cs)))
        (done ++ listed (Outline.preorder (.node id b cs))) (addGlobals b.vars p₂) := by
      refine (hall.addGlobals ?_).congr ?_ ?_
      · intro x hx
        exact List.mem_append_left _ (List.mem_append_right _ hx)
      · intro x
        rw [Outline.preorder, listed_cons, List.append_assoc]
      · intro x
        simp only [Outline.preorder, listed_cons, List.mem_append]
        tauto
    dsimp only
    split
    · exact hleft
    · exact hleft.emit inner id b parts

theorem tracks_blocks (silent : Bool) (os : List Outline) (full : Bool) (parts : Pool)
    (seen done : List Text) (p : Pass) (h : Tracks r seen done p) :
    Tracks r (seen ++ listed (Outline.preorderAll os)) (done ++ listed (Outline.preorderAll os))
      (blocks e table silent os full parts p).2.2 := by
  cases os with
  | nil => simpa [blocks, Outline.preorderAll, Reference.listed] using h
  | cons c cs =>
    rw [Outline.preorderAll, listed_append, ← List.append_assoc, ← List.append_assoc, blocks]
    dsimp only
    split
    · exact tracks_blocks silent cs _ _ _ _ _
        ((tracks_block true true c seen done p h).withState rfl rfl)
    · exact tracks_blocks silent cs _ _ _ _ _
        ((tracks_block true silent c seen done p h).withState rfl rfl)

end

end Tracks

theorem run_one_pass (hd : e.dialect = standard) (hp : e.options.preserveData = false) {o : Outline}
    (ho : ∀ x ∈ o.preorder, Orderly x.2) (hn : (o.preorder.map (·.1)).Nodup) {s : State}
    (hout : ∀ id, s.output id = [])
    (hfresh : ∀ id : CallId, s.locals.get? id.memo = none ∧ s.globals.get? id.memo = none)
    {log : CallLog}
    (hplain : Answers e (fun _ v => '\x7b' ∉ v) log (run e table o s log).2.log) :
    ∃ piece, (if emits e s o.id (run e table o s log).1 then o.Spliced standard piece
        else piece = []) ∧ Page.Braced piece ∧
      (run e table o s log).2.state.output o.id =
        standard.splice (run e table o s log).2.values.get? piece ∧
      (∀ (id : CallId) v, (run e table o s log).2.values.get? id.memo = some v ↔
        Made e log (run e table o s log).2.log id v) ∧
      ∀ x, (∀ id : CallId, x ≠ id.memo) →
        (run e table o s log).2.values.get? x = (Reference.mk e s o.preorder).value x := by
  have hmoves := moves_block e table false false o ⟨s, ∅, log⟩
  obtain ⟨new, heval⟩ := evaluates_block e table false false o ⟨s, ∅, log⟩
  have hunset : ∀ {d : Pool}, (∀ id : CallId, d.get? id.memo = none) →
      ∀ x v, d.get? x = some v → ∀ id : CallId, x ≠ id.memo := by
    rintro d hnone x v hx id rfl
    rw [hnone id] at hx
    cases hx
  have hstart : Supplied (fun x _ => ∀ id : CallId, x ≠ id.memo) ⟨s, ∅, log⟩ :=
    ⟨hunset fun id => (hfresh id).1, hunset fun id => (hfresh id).2, fun x v hx => nomatch hx⟩
  have hmemo := memo_iff_made hmoves heval hstart
  have hsettled : Answers e (Settled (run e table o s log).2.values.get?) log
      (run e table o s log).2.log :=
    fun id v hmade _ _ => ⟨(hmemo id v).mpr hmade, hplain id v hmade⟩
  have hsupplied : Supplied (Settled (run e table o s log).2.values.get?) ⟨s, ∅, log⟩ :=
    ⟨fun x v hx id he => absurd he (hstart.locals x v hx id),
      fun x v hx id he => absurd he (hstart.globals x v hx id),
      fun x v hx => nomatch hx⟩
  obtain ⟨text, piece, hpiece, htext, houtput⟩ :=
    puts_out_block hd false false o ho hn _ (fun x _ => hout x) hsupplied hsettled
  have htracks := tracks_block (r := ⟨e, s, o.preorder⟩) e table false false o [] []
    ⟨s, ∅, log⟩ ⟨∅, ⟨fun x hx => hx, fun x => rfl, rfl, fun x => rfl⟩, fun x _ => rfl⟩
  obtain ⟨d, hfollows, hagree⟩ := htracks
  refine ⟨piece, hpiece, htext.bracedPiece, ?_, hmemo, ?_⟩
  · rw [if_neg Bool.false_ne_true, substitute_eq_splice hp, hd] at houtput
    exact houtput.trans htext.splice
  · intro x hx
    refine (hagree x hx).trans ((hfollows.values x).trans ?_)
    rw [Reference.value, List.nil_append]
    by_cases hm : x ∈ Reference.listed o.preorder
    · rw [if_pos hm, if_pos hm, if_pos (List.contains_iff_mem.mpr hm)]
    · rw [if_neg hm, if_neg hm, if_neg fun hc => hm (List.contains_iff_mem.mp hc)]
      rfl

end Pass

namespace Template

/--
Rendering a block with no output collected and no braces in the results of calls writes all results
and values into the content at once.
-/
theorem render_one_pass {e : Engine} (hd : e.dialect = .standard)
    (hp : e.options.preserveData = false) {t : Template} (ht : t.tree.Sound) {name : Text}
    {id : BlockId} (hid : t.tree.lookup name = .ok id)
    (hblocks : ∀ x ∈ t.tree.preorder id, Pass.Orderly x.2) (hout : ∀ x, t.state.output x = [])
    (hfresh : ∀ i : CallId, t.state.locals.get? i.memo = none ∧ t.state.globals.get? i.memo = none)
    {log : CallLog}
    (hplain : Pass.Answers e (fun _ v => '\x7b' ∉ v) log (t.render e name log).2.2) :
    ∃ (o : Outline) (isEmpty : Bool) (piece : Text) (values : Pool),
      t.tree.outline? id = some o ∧ (t.render e name log).1 = .ok isEmpty ∧
      (if Pass.emits e t.state id isEmpty then o.Spliced .standard piece else piece = []) ∧
      Page.Braced piece ∧
      (t.render e name log).2.1.state.output id = Dialect.standard.splice values.get? piece ∧
      (∀ (i : CallId) v, values.get? i.memo = some v ↔
        Pass.Made e log (t.render e name log).2.2 i v) ∧
      ∀ x, (∀ i : CallId, x ≠ i.memo) → values.get? x = (t.reference e id).value x := by
  obtain ⟨b, hb, -⟩ := Tree.get?_of_find? (Tree.lookup_eq_ok_iff.mp hid)
  obtain ⟨o, ho, hoid, hm, hpre⟩ := Tree.preorder_of_live ht.tree hb
  have hrender : t.render e name log = _ := render_of_outline hid ho t.state log
  rw [hrender] at hplain ⊢
  rw [hpre] at hblocks
  obtain ⟨piece, hpiece, hbraced, houtput, hresults, hvalues⟩ :=
    Pass.run_one_pass hd hp hblocks (hm.nodup_preorder ht.tree) hout hfresh hplain
  rw [hoid] at hpiece houtput
  rw [reference, hpre]
  exact ⟨o, _, piece, _, ho, rfl, hpiece, hbraced, houtput, hresults, hvalues⟩

def showPair (source : Text) : Option Text × List Text :=
  let e : Engine := { Engine.standard with options := { removeUnknown := false } }
  match compile e source with
  | .error _ => (none, [])
  | .ok t =>
    let t := (t.setVariable ['a'] (.text "\x7bb\x7d".toList)).2
    let t := (t.setVariable ['b'] (.text ['x'])).2
    let r := t.output e rootName []
    (r.1.toOption, r.2.2.map fun i => Pass.apply e [] i.name i.args)

/-- A value with a brace is written as it is, but the result of a call is read for placeholders. -/
theorem call_result_rescanned :
    showPair "\x7ba\x7d\x7bb\x7d".toList = (some "\x7bb\x7dx".toList, []) ∧
    showPair "\x7ba:h\x7d\x7bb\x7d".toList = (some "xx".toList, ["\x7bb\x7d".toList]) ∧
    showPair "func_f(\x7ba\x7d)\x7bb\x7d".toList = (some "xx".toList, ["\x7bb\x7d".toList]) := by
  decide +kernel

end Template

end BlockTemplate
