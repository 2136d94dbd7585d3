import BlockTemplate.Proofs.Call.Table
import BlockTemplate.Proofs.Fragment.Compile
import BlockTemplate.Render.Pass

/-!
# Tables that agree

Two tables that agree on every number give the next call the same number, so source is compiled
alike with both, and blocks are rendered alike. Free numbers at the end of a table do not matter.
Source whose calls a table knows is compiled with it as before, and adds nothing to it.
-/

namespace BlockTemplate

namespace CallTable

structure Agrees (t u : CallTable) : Prop where
  get : ∀ id, t.get? id = u.get? id
  distinct : t.Distinct

variable {t u : CallTable}

theorem Agrees.symm (h : t.Agrees u) : u.Agrees t where
  get := fun id => (h.get id).symm
  distinct := by
    intro i j c hi hj
    rw [← h.get] at hi hj
    exact h.distinct i j c hi hj

theorem Agrees.trans {v : CallTable} (h : t.Agrees u) (h' : u.Agrees v) : t.Agrees v where
  get := fun id => (h.get id).trans (h'.get id)
  distinct := h.distinct

theorem Agrees.eq_nil (h : t.Agrees .empty) {ids : List CallId}
    (hk : ∀ id ∈ ids, ∃ c, t.get? id = some c) : ids = [] := by
  refine List.eq_nil_iff_forall_not_mem.mpr fun id hid => ?_
  obtain ⟨c, hc⟩ := hk id hid
  rw [h.get] at hc
  cases hc

theorem Agrees.find?_eq (h : t.Agrees u) (c : Call) : t.find? c = u.find? c := by
  refine Option.ext fun id => ?_
  rw [find?_eq_some_iff h.distinct, find?_eq_some_iff h.symm.distinct, h.get]

theorem get?_of_lt_fresh {id : CallId} (h : id < t.fresh) : t.get? id ≠ none := by
  rw [fresh] at h
  cases hi : t.slots.idxOf? none with
  | none =>
    rw [hi, Option.getD_none] at h
    have hnot := idxOf?_eq_none hi
    intro hid
    rw [get?, List.getElem?_eq_getElem h, Option.join_some] at hid
    exact hnot (hid ▸ List.getElem_mem h)
  | some i =>
    rw [hi, Option.getD_some] at h
    rw [List.idxOf?, List.findIdx?_eq_some_iff_getElem] at hi
    obtain ⟨hlt, -, hfirst⟩ := hi
    have hid := hfirst id h
    rw [get?, List.getElem?_eq_getElem (Nat.lt_trans h hlt), Option.join_some]
    simpa using hid

theorem Agrees.fresh_le (h : t.Agrees u) : t.fresh ≤ u.fresh := by
  refine Nat.le_of_not_lt fun hlt => ?_
  refine get?_of_lt_fresh hlt ?_
  rw [h.get, u.fresh_spec.1]

theorem Agrees.fresh_eq (h : t.Agrees u) : t.fresh = u.fresh :=
  Nat.le_antisymm h.fresh_le h.symm.fresh_le

theorem Agrees.intern (h : t.Agrees u) (c : Call) :
    (t.intern c).1 = (u.intern c).1 ∧ (t.intern c).2.Agrees (u.intern c).2 := by
  have hfind := h.find?_eq c
  refine ⟨?_, ?_, h.distinct.intern c⟩
  · cases hf : t.find? c with
    | some id => rw [intern_of_found hf, intern_of_found (hfind ▸ hf)]
    | none => rw [intern_fst_of_new hf, intern_fst_of_new (hfind ▸ hf), h.fresh_eq]
  · intro id
    cases hf : t.find? c with
    | some i => rw [intern_of_found hf, intern_of_found (hfind ▸ hf), h.get]
    | none =>
      rw [get?_intern_of_new hf, get?_intern_of_new (hfind ▸ hf), h.fresh_eq, h.get]

end CallTable

namespace Listing

structure Agrees (l m : Listing) : Prop where
  table : l.table.Agrees m.table
  vars : l.vars = m.vars
  calls : l.calls = m.calls

variable {l m : Listing}

theorem Agrees.addVariable (h : l.Agrees m) (name : Text) :
    (l.addVariable name).Agrees (m.addVariable name) :=
  ⟨h.table, congrArg (addNew · name) h.vars, h.calls⟩

theorem Agrees.addCall (h : l.Agrees m) (c : Call) :
    (l.addCall c).1 = (m.addCall c).1 ∧ (l.addCall c).2.Agrees (m.addCall c).2 := by
  obtain ⟨hid, htable⟩ := h.table.intern c
  refine ⟨hid, htable, h.vars, ?_⟩
  change addNew l.calls (l.table.intern c).1 = addNew m.calls (m.table.intern c).1
  rw [h.calls, hid]

theorem Agrees.takePlaceholders (h : l.Agrees m) (d : Dialect) (children : List Text)
    (ps : List (Piece Placeholder)) :
    (takePlaceholders d children ps l).1 = (takePlaceholders d children ps m).1 ∧
      (takePlaceholders d children ps l).2.Agrees (takePlaceholders d children ps m).2 := by
  induction ps generalizing l m with
  | nil => exact ⟨rfl, h⟩
  | cons p ps ih =>
    cases p with
    | char c =>
      obtain ⟨htext, hrest⟩ := ih h
      exact ⟨congrArg (c :: ·) htext, hrest⟩
    | mark raw p =>
      have hv : (if reserved children p.name then l else l.addVariable p.name).Agrees
          (if reserved children p.name then m else m.addVariable p.name) := by
        split
        · exact h
        · exact h.addVariable p.name
      rw [Listing.takePlaceholders, Listing.takePlaceholders]
      cases p.filter with
      | none =>
        obtain ⟨htext, hrest⟩ := ih hv
        exact ⟨congrArg (raw ++ ·) htext, hrest⟩
      | some f =>
        obtain ⟨hid, hc⟩ := hv.addCall (filterCall d p.name f)
        obtain ⟨htext, hrest⟩ := ih hc
        dsimp only
        exact ⟨by rw [hid, htext], hrest⟩

theorem Agrees.takeCalls (h : l.Agrees m) (d : Dialect)
    (ps : List (Piece (Except Arguments.Failure Call))) :
    (takeCalls d ps l).1 = (takeCalls d ps m).1 ∧
      (takeCalls d ps l).2.Agrees (takeCalls d ps m).2 := by
  induction ps generalizing l m with
  | nil => exact ⟨rfl, h⟩
  | cons p ps ih =>
    cases p with
    | char c =>
      obtain ⟨htext, hrest⟩ := ih h
      exact ⟨congrArg (Scanned.after [c] [c]) htext, hrest⟩
    | mark raw r =>
      cases r with
      | ok c =>
        obtain ⟨hid, hc⟩ := h.addCall c
        obtain ⟨htext, hrest⟩ := ih hc
        rw [Listing.takeCalls, Listing.takeCalls]
        dsimp only
        exact ⟨by rw [hid, htext], hrest⟩
      | error e => exact ⟨rfl, h⟩

theorem scan_agrees {table table' : CallTable} (h : table.Agrees table') (d : Dialect)
    (children : List Text) (b : Block) :
    (scan d children table b).1 = (scan d children table' b).1 ∧
      (scan d children table b).2.Agrees (scan d children table' b).2 := by
  have hstart : Agrees { table := table } { table := table' } := ⟨h, rfl, rfl⟩
  obtain ⟨htext, hl⟩ := hstart.takePlaceholders d children (d.placeholders b.content)
  obtain ⟨hr, hm⟩ := hl.takeCalls d (Text.pieces d.callMark Call.read
    (takePlaceholders d children (d.placeholders b.content) { table := table }).1)
  rw [scan, scan]
  dsimp only
  rw [← htext, ← hr]
  split
  · exact ⟨by rw [hm.vars, hm.calls], hm.table⟩
  · exact ⟨rfl, hm.table⟩

theorem calls_subset_addCall (c : Call) : l.calls ⊆ (l.addCall c).2.calls := by
  intro id hid
  exact mem_addNew.mpr (.inl hid)

theorem calls_subset_takePlaceholders (d : Dialect) (children : List Text)
    (ps : List (Piece Placeholder)) : l.calls ⊆ (takePlaceholders d children ps l).2.calls := by
  induction ps generalizing l with
  | nil => exact fun _ hid => hid
  | cons p ps ih =>
    cases p with
    | char c => exact ih
    | mark raw p =>
      have hv : l.calls ⊆ (if reserved children p.name then l else l.addVariable p.name).calls := by
        split <;> exact fun _ hid => hid
      rw [Listing.takePlaceholders]
      cases p.filter with
      | none => exact List.Subset.trans hv ih
      | some f => exact List.Subset.trans (List.Subset.trans hv (calls_subset_addCall _)) ih

theorem calls_subset_takeCalls (d : Dialect)
    (ps : List (Piece (Except Arguments.Failure Call))) : l.calls ⊆ (takeCalls d ps l).2.calls := by
  induction ps generalizing l with
  | nil => exact fun _ hid => hid
  | cons p ps ih =>
    cases p with
    | char c => exact ih
    | mark raw r =>
      cases r with
      | ok c => exact List.Subset.trans (calls_subset_addCall c) ih
      | error e => exact fun _ hid => hid

def Knows (table : CallTable) (l : Listing) : Prop :=
  ∀ id ∈ l.calls, ∀ c, l.table.get? id = some c → table.find? c = some id

theorem Knows.addCall {table : CallTable} {m : Listing} (h : Knows table m) {c : Call}
    (hcalls : (l.addCall c).2.calls ⊆ m.calls) (hgrown : (l.addCall c).2.table.Extends m.table) :
    ({ l with table := table } : Listing).addCall c =
      ((l.addCall c).1, { (l.addCall c).2 with table := table }) := by
  have hmem : (l.addCall c).1 ∈ (l.addCall c).2.calls := mem_addNew.mpr (.inr rfl)
  have hfound := h _ (hcalls hmem) c (hgrown _ _ (l.table.get?_intern_self c))
  have hsame := CallTable.intern_of_found hfound
  simp only [Listing.addCall] at hsame ⊢
  rw [hsame]

theorem takePlaceholders_known {base table : CallTable} (hs : Sound base l) {d : Dialect}
    {children : List Text} {ps : List (Piece Placeholder)}
    (h : Knows table (takePlaceholders d children ps l).2) :
    takePlaceholders d children ps { l with table := table } =
      ((takePlaceholders d children ps l).1,
        { (takePlaceholders d children ps l).2 with table := table }) := by
  induction ps generalizing l with
  | nil => rfl
  | cons p ps ih =>
    cases p with
    | char c =>
      rw [Listing.takePlaceholders] at h ⊢
      rw [ih hs h]
      rfl
    | mark raw p =>
      rw [Listing.takePlaceholders] at h ⊢
      have hv : (if reserved children p.name then ({ l with table := table } : Listing)
          else ({ l with table := table } : Listing).addVariable p.name) =
          { (if reserved children p.name then l else l.addVariable p.name) with
            table := table } := by
        split <;> rfl
      have hsv : Sound base (if reserved children p.name then l else l.addVariable p.name) := by
        split
        · exact hs
        · exact hs.addVariable p.name
      rw [hv, Listing.takePlaceholders]
      generalize (if reserved children p.name then l else l.addVariable p.name) = m at h hsv ⊢
      cases hf : p.filter with
      | none =>
        simp only [hf] at h ⊢
        rw [ih hsv h]
      | some f =>
        simp only [hf] at h ⊢
        have hsc := hsv.addCall (filterCall d p.name f)
        rw [h.addCall (calls_subset_takePlaceholders d children ps)
          (hsc.own.takePlaceholders d children ps).grown]
        dsimp only
        rw [ih hsc h]

theorem takeCalls_known {base table : CallTable} (hs : Sound base l) {d : Dialect}
    {ps : List (Piece (Except Arguments.Failure Call))} (h : Knows table (takeCalls d ps l).2) :
    takeCalls d ps { l with table := table } =
      ((takeCalls d ps l).1, { (takeCalls d ps l).2 with table := table }) := by
  induction ps generalizing l with
  | nil => rfl
  | cons p ps ih =>
    cases p with
    | char c =>
      rw [Listing.takeCalls] at h ⊢
      rw [ih hs h]
      rfl
    | mark raw r =>
      cases r with
      | ok c =>
        rw [Listing.takeCalls] at h ⊢
        have hsc := hs.addCall c
        rw [h.addCall (calls_subset_takeCalls d ps) (hsc.own.takeCalls d ps).grown,
          Listing.takeCalls]
        dsimp only at h ⊢
        rw [ih hsc h]
      | error e => rfl

theorem scan_known {d : Dialect} {children : List Text} {b b' : Block} {table table' : CallTable}
    (h : (scan d children table b).1 = .ok b')
    (hknown : ∀ id ∈ b'.calls, ∀ c, (scan d children table b).2.get? id = some c →
      table'.find? c = some id) :
    scan d children table' b = (.ok b', table') := by
  rw [scan] at h hknown
  dsimp only at h
  split at h
  · rename_i content hr
    cases h
    dsimp only at hknown
    rw [hr] at hknown
    have hstart := sound_start table
    have hplaced := hstart.takePlaceholders d children (d.placeholders b.content)
    have hmid : Knows table' (takePlaceholders d children (d.placeholders b.content)
        { table := table }).2 := fun id hid c hc =>
      hknown id (calls_subset_takeCalls d _ hid) c
        ((hplaced.own.takeCalls d _).grown id c hc)
    have hplace := takePlaceholders_known hstart hmid
    have hcalls := takeCalls_known hplaced hknown
    rw [scan, hplace]
    dsimp only
    rw [hcalls, hr]
  · cases h

end Listing

namespace Fragment

theorem scanAll_agrees {table table' : CallTable} (h : table.Agrees table') (d : Dialect)
    (whole : Fragment) (bs : List Block) :
    (scanAll d whole bs table).1 = (scanAll d whole bs table').1 ∧
      (scanAll d whole bs table).2.Agrees (scanAll d whole bs table').2 := by
  induction bs generalizing table table' with
  | nil => exact ⟨rfl, h⟩
  | cons b bs ih =>
    obtain ⟨hr, ht⟩ := Listing.scan_agrees h d (whole.childNames b) b
    rw [scanAll, scanAll]
    generalize Listing.scan d (whole.childNames b) table b = s at hr ht ⊢
    generalize Listing.scan d (whole.childNames b) table' b = s' at hr ht ⊢
    obtain ⟨r, u⟩ := s
    obtain ⟨r', u'⟩ := s'
    cases hr
    cases r with
    | error fault => exact ⟨rfl, ht⟩
    | ok b' =>
      obtain ⟨hrest, hu⟩ := ih ht
      exact ⟨congrArg (Except.map (b' :: ·)) hrest, hu⟩

theorem scanAll_known {d : Dialect} {whole : Fragment} {bs f : List Block}
    {table table' : CallTable} (h : (scanAll d whole bs table).1 = .ok f)
    (hknown : ∀ b ∈ f, ∀ id ∈ b.calls, ∀ c, (scanAll d whole bs table).2.get? id = some c →
      table'.find? c = some id) :
    scanAll d whole bs table' = (.ok f, table') := by
  induction bs generalizing table f with
  | nil =>
    cases h
    rfl
  | cons b bs ih =>
    rw [scanAll] at h hknown
    split at h
    · cases h
    · rename_i b' rest hs
      have hgrown := (scanAll_spec d whole bs rest).1
      cases hr : (scanAll d whole bs rest).1 with
      | error fault =>
        simp only [hr] at h
        cases h
      | ok g =>
        simp only [hr] at h
        cases h
        rw [hs] at hknown
        have hscan : Listing.scan d (whole.childNames b) table' b = (.ok b', table') := by
          refine Listing.scan_known (congrArg Prod.fst hs) fun id hid c hc => ?_
          rw [hs] at hc
          exact hknown b' List.mem_cons_self id hid c (hgrown id c hc)
        rw [scanAll, hscan]
        dsimp only
        rw [ih hr fun x hx => hknown x (List.mem_cons_of_mem b' hx)]
        rfl

theorem scanAll_silent {d : Dialect} {whole : Fragment} {bs f : List Block} {table : CallTable}
    (h : (scanAll d whole bs table).1 = .ok f) (hno : ∀ b ∈ f, b.calls = [])
    (table' : CallTable) : scanAll d whole bs table' = (.ok f, table') := by
  refine scanAll_known h fun b hb id hid => ?_
  rw [hno b hb] at hid
  cases hid

end Fragment

namespace Pass

variable {table table' : CallTable}

theorem evaluateAll_agrees (h : table.Agrees table') (e : Engine) (ids : List CallId)
    (parts : Pool) (p : Pass) :
    evaluateAll e table ids parts p = evaluateAll e table' ids parts p := by
  induction ids generalizing parts p with
  | nil => rfl
  | cons id ids ih =>
    have hid : evaluate e table id p = evaluate e table' id p := by
      rw [evaluate, evaluate, h.get]
    rw [evaluateAll, evaluateAll, hid]
    split <;> exact ih _ _

theorem emit_agrees (h : table.Agrees table') (e : Engine) (inner : Bool) (id : BlockId) (b : Block)
    (parts : Pool) (p : Pass) :
    emit e table inner id b parts p = emit e table' inner id b parts p := by
  rw [emit, emit, evaluateAll_agrees h]

mutual

theorem block_agrees (h : table.Agrees table') (e : Engine) (inner silent : Bool) (o : Outline)
    (p : Pass) : block e table inner silent o p = block e table' inner silent o p := by
  cases o with
  | node id b cs =>
    rw [block, block]
    dsimp only
    rw [blocks_agrees h e silent cs, emit_agrees h]

theorem blocks_agrees (h : table.Agrees table') (e : Engine) (silent : Bool) (os : List Outline)
    (full : Bool) (parts : Pool) (p : Pass) :
    blocks e table silent os full parts p = blocks e table' silent os full parts p := by
  cases os with
  | nil => rfl
  | cons o os =>
    rw [blocks, blocks]
    dsimp only
    rw [block_agrees h e true true o, block_agrees h e true silent o]
    split <;> exact blocks_agrees h e silent os _ _ _

end

end Pass

end BlockTemplate
