import BlockTemplate.Proofs.Fragment.Extract
import BlockTemplate.Proofs.Tag.Grammar
import Mathlib.Logic.Relation

/-!
# What blocks were cut from

Taking blocks out of source loses none of it. The content of a block is literal text with the places
of its children between, and if each place is filled with the opening tag of the child, its own
source and its closing tag, the top block gives the source back, whatever tags were left unclosed.

While the source is read, the frames that are open spell what was read so far, outermost first
(`Stack`), and every finished block lies between two tags of its name (`Region`).
-/

namespace BlockTemplate

inductive Stretch where
  | text (t : Text)
  | child (i : Nat)

namespace Stretch

def write (f : Nat → Text) : Stretch → Text
  | .text t => t
  | .child i => f i

def child? : Stretch → Option Nat
  | .text _ => none
  | .child i => some i

end Stretch

def Tag.Reads (t : Text) (tag : Tag) : Prop := ∃ u, t = opening ++ u ∧ read u = some (tag, [])

def Fragment.nameAt (f : Fragment) (i : Nat) : Text := (f[i]?.map (·.name)).getD []

/-- The texts of the tags around each block of a fragment, and the parts of its content. -/
structure Cutting where
  begins : Nat → Text
  ends : Nat → Text
  parts : Nat → List Stretch

namespace Cutting

/-- The source of a block: its parts, with tags and source of a child in the place of the child. -/
inductive Expands (c : Cutting) : Nat → Text → Prop
  | block {i : Nat} {source : Nat → Text} :
    (∀ j ∈ (c.parts i).filterMap Stretch.child?, Expands c j (source j)) →
      Expands c i ((c.parts i).flatMap (Stretch.write fun j => c.begins j ++ source j ++ c.ends j))

theorem Expands.unique {c : Cutting} {i : Nat} {s t : Text} (hs : c.Expands i s)
    (ht : c.Expands i t) : s = t := by
  induction hs generalizing t with
  | @block i source _ ih =>
    obtain @⟨_, source', hsource'⟩ := ht
    refine List.flatMap_congr fun part hpart => ?_
    cases part with
    | text t => rfl
    | child j =>
      have hj : j ∈ (c.parts i).filterMap Stretch.child? := List.mem_filterMap.mpr ⟨_, hpart, rfl⟩
      rw [Stretch.write, Stretch.write, ih j hj (hsource' j hj)]

/-- The blocks of a fragment were cut in this way from the source. -/
structure Explains (c : Cutting) (d : Dialect) (f : Fragment) (source : Text) : Prop where
  begins : ∀ i b, f[i]? = some b → i ≠ 0 → Tag.Reads (c.begins i) (.opens b.name)
  ends : ∀ i b, f[i]? = some b → i ≠ 0 → Tag.Reads (c.ends i) (.closes b.name)
  content : ∀ i b, f[i]? = some b →
    b.content = (c.parts i).flatMap (Stretch.write fun j => d.token (childName (f.nameAt j)))
  children : ∀ i b, f[i]? = some b → b.children = (c.parts i).filterMap Stretch.child?
  expands : ∀ s, c.Expands 0 s ↔ s = source

end Cutting

inductive Spells (known : Nat → Text → Text → Prop) : List Stretch → Text → List Nat → Text → Prop
  | nil : Spells known [] [] [] []
  | text {ps : List Stretch} {content source : Text} {kids : List Nat} (t : Text) :
    Spells known ps content kids source →
      Spells known (ps ++ [.text t]) (content ++ t) kids (source ++ t)
  | child {ps : List Stretch} {content source token full : Text} {kids : List Nat} {i : Nat} :
    known i token full → Spells known ps content kids source →
      Spells known (ps ++ [.child i]) (content ++ token) (kids ++ [i]) (source ++ full)

namespace Spells

variable {known : Nat → Text → Text → Prop} {ps qs : List Stretch} {content content' : Text}
  {kids kids' : List Nat} {source source' : Text}

theorem append (h : Spells known ps content kids source)
    (h' : Spells known qs content' kids' source') :
    Spells known (ps ++ qs) (content ++ content') (kids ++ kids') (source ++ source') := by
  induction h' with
  | nil => simpa using h
  | text t _ ih => simpa only [List.append_assoc] using ih.text t
  | child hk _ ih => simpa only [List.append_assoc] using ih.child hk

theorem mono {more : Nat → Text → Text → Prop}
    (hm : ∀ i token full, known i token full → more i token full)
    (h : Spells known ps content kids source) : Spells more ps content kids source := by
  induction h with
  | nil => exact .nil
  | text t _ ih => exact ih.text t
  | child hk _ ih => exact ih.child (hm _ _ _ hk)

theorem write_eq {f g : Nat → Text}
    (hk : ∀ i token full, known i token full → token = f i ∧ full = g i)
    (h : Spells known ps content kids source) :
    content = ps.flatMap (Stretch.write f) ∧ kids = ps.filterMap Stretch.child? ∧
      source = ps.flatMap (Stretch.write g) := by
  induction h with
  | nil => exact ⟨rfl, rfl, rfl⟩
  | text t _ ih =>
    obtain ⟨rfl, rfl, rfl⟩ := ih
    simp [Stretch.write, Stretch.child?]
  | child hi _ ih =>
    obtain ⟨rfl, rfl, rfl⟩ := ih
    obtain ⟨rfl, rfl⟩ := hk _ _ _ hi
    simp [Stretch.write, Stretch.child?]

theorem known_of_mem (h : Spells known ps content kids source) {i : Nat} (hi : i ∈ kids) :
    ∃ token full, known i token full := by
  induction h with
  | nil => cases hi
  | text t _ ih => exact ih hi
  | child hk _ ih =>
    rcases List.mem_append.mp hi with hi | hi
    · exact ih hi
    · cases List.mem_singleton.mp hi
      exact ⟨_, _, hk⟩

end Spells

namespace Frame

def Holds (known : Nat → Text → Text → Prop) (f : Frame) (source : Text) : Prop :=
  ∃ ps, Spells known ps f.content f.children source

def Opens (f : Frame) : Prop := Tag.Reads f.tag (.opens f.name)

inductive Stack (known : Nat → Text → Text → Prop) (base : Frame) : List Frame → Text → Prop
  | base {source : Text} : base.Holds known source → Stack known base [] source
  | push {inner : Frame} {rest : List Frame} {before source : Text} :
    Stack known base rest before → inner.Opens → inner.Holds known source →
      Stack known base (inner :: rest) (before ++ (inner.tag ++ source))

variable {known : Nat → Text → Text → Prop} {base f outer inner : Frame} {source source' : Text}

theorem Holds.write (h : f.Holds known source) (t : Text) :
    (f.write t).Holds known (source ++ t) := by
  obtain ⟨ps, hs⟩ := h
  refine ⟨ps ++ [.text t], ?_⟩
  rw [content_write]
  exact hs.text t

theorem Holds.absorb (ho : outer.Holds known source) (hi : inner.Holds known source') :
    (outer.absorb inner).Holds known (source ++ (inner.tag ++ source')) := by
  obtain ⟨ps, hs⟩ := ho
  obtain ⟨qs, ht⟩ := hi
  refine ⟨ps ++ [.text inner.tag] ++ qs, ?_⟩
  have h := (hs.text inner.tag).append ht
  rw [List.append_assoc source] at h
  rw [content_absorb]
  exact h

theorem Holds.mono {more : Nat → Text → Text → Prop}
    (hm : ∀ i token full, known i token full → more i token full) (h : f.Holds known source) :
    f.Holds more source := by
  obtain ⟨ps, hs⟩ := h
  exact ⟨ps, hs.mono hm⟩

theorem Stack.mono {more : Nat → Text → Text → Prop} {opened : List Frame}
    (hm : ∀ i token full, known i token full → more i token full)
    (h : Stack known base opened source) : Stack more base opened source := by
  induction h with
  | base h => exact .base (h.mono hm)
  | push _ ho hi ih => exact .push ih ho (hi.mono hm)

theorem Stack.closing {name : Text} {rest around : List Frame} {frame : Frame}
    (h : Stack known base (inner :: rest) source)
    (hc : closing? name inner rest = some (frame, around)) :
    frame.name = name ∧ ∃ before inside, Stack known base around before ∧ frame.Opens ∧
      frame.Holds known inside ∧ source = before ++ (frame.tag ++ inside) := by
  induction rest generalizing inner source with
  | nil =>
    cases h with
    | push hb ho hi =>
      rw [closing?] at hc
      split at hc
      · rename_i hn
        cases hc
        exact ⟨hn, _, _, hb, ho, hi, rfl⟩
      · cases hc
  | cons outer rest ih =>
    cases h with
    | push hb ho hi =>
      rw [closing?] at hc
      split at hc
      · rename_i hn
        cases hc
        exact ⟨hn, _, _, hb, ho, hi, rfl⟩
      · cases hb with
        | push hb ho' hi' =>
          -- The two innermost frames become one, which spells what they spelled apart.
          have habsorbed : Stack known base (outer.absorb inner :: rest) _ :=
            .push hb ho' (hi'.absorb hi)
          obtain ⟨hn, before, inside, h₁, h₂, h₃, hs⟩ := ih habsorbed hc
          refine ⟨hn, before, inside, h₁, h₂, h₃, ?_⟩
          rw [← hs]
          simp only [List.append_assoc]
          rfl

theorem Stack.whole {rest : List Frame} (h : Stack known base (inner :: rest) source) :
    (base.absorb (rest.foldl (fun inner outer => outer.absorb inner) inner)).Holds known
      source := by
  induction rest generalizing inner source with
  | nil =>
    cases h with
    | push hb ho hi =>
      cases hb with
      | base hb => exact hb.absorb hi
  | cons outer rest ih =>
    cases h with
    | push hb ho hi =>
      cases hb with
      | push hb ho' hi' =>
        have habsorbed : Stack known base (outer.absorb inner :: rest) _ :=
          .push hb ho' (hi'.absorb hi)
        have hw := ih habsorbed
        simp only [List.append_assoc] at hw ⊢
        exact hw

end Frame

structure Region where
  block : Block
  before : Text
  inside : Text
  behind : Text
  parts : List Stretch

namespace Region

def Known (d : Dialect) (rs : List Region) (i : Nat) (token full : Text) : Prop :=
  ∃ j r, i = j + 1 ∧ rs[j]? = some r ∧ token = d.token (childName r.block.name) ∧
    full = r.before ++ r.inside ++ r.behind

structure Sound (d : Dialect) (rs : List Region) (r : Region) : Prop where
  before : Tag.Reads r.before (.opens r.block.name)
  behind : Tag.Reads r.behind (.closes r.block.name)
  spells : Spells (Known d rs) r.parts r.block.content r.block.children r.inside

variable {d : Dialect} {rs : List Region} {r : Region}

theorem Known.append (more : List Region) (i : Nat) (token full : Text)
    (h : Known d rs i token full) : Known d (rs ++ more) i token full := by
  obtain ⟨j, r, hi, hj, ht, hf⟩ := h
  refine ⟨j, r, hi, ?_, ht, hf⟩
  rw [List.getElem?_append_left (List.getElem?_eq_some_iff.mp hj).1, hj]

theorem Sound.append (h : Sound d rs r) (more : List Region) : Sound d (rs ++ more) r where
  before := h.before
  behind := h.behind
  spells := h.spells.mono (Known.append more)

end Region

namespace Extraction

open Region (Known Known.append)

structure Accounts (d : Dialect) (e : Extraction) (rs : List Region) (source : Text) : Prop where
  closed : e.closed = rs.map (·.block)
  sound : ∀ r ∈ rs, r.Sound d rs
  stack : Frame.Stack (Known d rs) e.base e.opened source
  distinct : (e.base.name :: e.closed.map (·.name)).Nodup

variable {d : Dialect} {e e' : Extraction} {rs : List Region} {source : Text}

theorem accounts_start (top : Text) : Accounts d (start top) [] [] where
  closed := rfl
  sound := by simp
  stack := .base ⟨[], .nil⟩
  distinct := by simp [start]

theorem stack_onInner {known : Nat → Text → Text → Prop} {f : Frame → Frame} {s : Text}
    (hn : ∀ x, (f x).name = x.name ∧ (f x).tag = x.tag)
    (hf : ∀ x u, Frame.Holds known x u → Frame.Holds known (f x) (u ++ s))
    (h : Frame.Stack known e.base e.opened source) :
    Frame.Stack known (e.onInner f).base (e.onInner f).opened (source ++ s) := by
  rw [onInner]
  cases ho : e.opened with
  | nil =>
    rw [ho] at h
    cases h with
    | base h =>
      exact .base (hf _ _ h)
  | cons inner rest =>
    rw [ho] at h
    cases h with
    | push hb hopens hi =>
      simp only [List.append_assoc]
      rw [← (hn inner).2]
      refine .push hb ?_ (hf _ _ hi)
      rw [Frame.Opens, (hn inner).1, (hn inner).2]
      exact hopens

theorem Accounts.write (h : Accounts d e rs source) (t : Text) :
    Accounts d (e.onInner (·.write t)) rs (source ++ t) where
  closed := by rw [closed_onInner, h.closed]
  sound := h.sound
  stack := stack_onInner (fun _ => ⟨rfl, rfl⟩) (fun _ _ hx => hx.write t) h.stack
  distinct := by
    have hbase : (e.onInner (·.write t)).base.name = e.base.name :=
      base_name_onInner (f := (·.write t)) (fun _ => rfl) e
    rw [closed_onInner, hbase]
    exact h.distinct

theorem Accounts.opens (h : Accounts d e rs source) {name raw : Text}
    (hr : Tag.Reads raw (.opens name)) :
    Accounts d { e with opened := ⟨name, raw, [], []⟩ :: e.opened } rs (source ++ raw) where
  closed := h.closed
  sound := h.sound
  stack := by
    have hs : Frame.Stack (Known d rs) e.base (⟨name, raw, [], []⟩ :: e.opened)
        (source ++ (raw ++ [])) := .push h.stack hr ⟨[], .nil⟩
    rwa [List.append_nil] at hs
  distinct := h.distinct

theorem exists_closing {known : Nat → Text → Text → Prop} {name : Text} {frame : Frame}
    {around : List Frame} (h : Frame.Stack known e.base e.opened source)
    (hc : e.closing? name = some (frame, around)) :
    frame.name = name ∧ ∃ before inside, Frame.Stack known e.base around before ∧ frame.Opens ∧
      frame.Holds known inside ∧ source = before ++ (frame.tag ++ inside) := by
  rw [closing?] at hc
  split at hc
  · cases hc
  · rename_i ho
    rw [ho] at h
    exact h.closing hc

theorem stack_finish {known : Nat → Text → Text → Prop} {frame : Frame} {around : List Frame}
    {full : Text} (hk : known (e.closed.length + 1) (d.token (childName frame.name)) full)
    (h : Frame.Stack known e.base around source) :
    Frame.Stack known (e.finish d frame around).base (e.finish d frame around).opened
      (source ++ full) := by
  rw [Extraction.finish]
  refine stack_onInner (fun _ => ⟨rfl, rfl⟩) ?_ h
  rintro x u ⟨qs, hqs⟩
  refine ⟨qs ++ [.child (e.closed.length + 1)], ?_⟩
  rw [List.length_append, List.length_singleton]
  have hchild := hqs.child hk
  rw [← Frame.content_write] at hchild
  exact hchild

theorem not_mem_of_names {name : Text} (h : e.names name = false) :
    name ∉ e.base.name :: e.closed.map (·.name) := by
  rw [Extraction.names, Bool.or_eq_false_iff] at h
  intro hm
  rcases List.mem_cons.mp hm with rfl | hm
  · simp at h
  · obtain ⟨b, hb, rfl⟩ := List.mem_map.mp hm
    simpa using List.any_eq_false.mp h.2 b hb

theorem Accounts.finish (h : Accounts d e rs source) {name raw : Text} {frame : Frame}
    {around : List Frame} (hr : Tag.Reads raw (.closes name))
    (hc : e.closing? name = some (frame, around)) (hnew : e.names name = false) :
    ∃ r, Accounts d (e.finish d frame around) (rs ++ [r]) (source ++ raw) := by
  obtain ⟨rfl, before, inside, hb, hopens, ⟨ps, hps⟩, rfl⟩ := exists_closing h.stack hc
  have hclosed := closed_finish d e frame around
  generalize hblock : Block.mk frame.name frame.content [] [] frame.children none = b at hclosed
  have hname : b.name = frame.name := by rw [← hblock]
  refine ⟨⟨b, frame.tag, inside, raw, ps⟩, ?_, ?_, ?_, ?_⟩
  · rw [hclosed, h.closed, List.map_append]
    rfl
  · intro r hm
    rcases List.mem_append.mp hm with hm | hm
    · exact (h.sound r hm).append _
    · cases List.mem_singleton.mp hm
      refine ⟨hname ▸ hopens, hname ▸ hr, ?_⟩
      rw [← hblock]
      exact hps.mono (Known.append _)
  · have hknown : Known d (rs ++ [⟨b, frame.tag, inside, raw, ps⟩]) (e.closed.length + 1)
        (d.token (childName frame.name)) (frame.tag ++ inside ++ raw) := by
      refine ⟨rs.length, ⟨b, frame.tag, inside, raw, ps⟩, ?_, by simp, by rw [hname], rfl⟩
      rw [h.closed, List.length_map]
    have hs := stack_finish hknown (hb.mono (Known.append _))
    simp only [List.append_assoc] at hs ⊢
    exact hs
  · have hbase : (e.finish d frame around).base.name = e.base.name := by
      rw [Extraction.finish]
      exact base_name_onInner (by simp [Frame.write]) _
    have hfresh : b.name ∉ e.base.name :: e.closed.map (·.name) := by
      rw [hname]
      exact not_mem_of_names hnew
    rw [hbase, hclosed, List.map_append, ← List.cons_append]
    exact List.nodup_append_comm.mpr (List.nodup_cons.mpr ⟨hfresh, h.distinct⟩)

theorem Accounts.step (h : Accounts d e rs source) {p : Piece Tag}
    (hp : ∀ raw tag, p = .mark raw tag → Tag.Reads raw tag) (hs : e.step d p = .ok e') :
    ∃ rs', Accounts d e' rs' (source ++ p.raw) := by
  rw [Extraction.step.eq_def] at hs
  split at hs
  · cases hs
    exact ⟨rs, h.opens (hp _ _ rfl)⟩
  · rename_i raw name
    split at hs
    · cases hs
      exact ⟨rs, h.write raw⟩
    · rename_i frame around hc
      split at hs
      · cases hs
      · rename_i hnew
        cases hs
        obtain ⟨r, hr⟩ := h.finish (hp _ _ rfl) hc (by simpa using hnew)
        exact ⟨rs ++ [r], hr⟩
  · cases hs
    exact ⟨rs, h.write _⟩

theorem Accounts.run {ps : List (Piece Tag)} (h : Accounts d e rs source)
    (hp : ∀ raw tag, .mark raw tag ∈ ps → Tag.Reads raw tag)
    (hr : ps.foldlM (Extraction.step d) e = .ok e') :
    ∃ rs', Accounts d e' rs' (source ++ ps.flatMap Piece.raw) := by
  induction ps generalizing e rs source with
  | nil =>
    cases hr
    exact ⟨rs, by simpa using h⟩
  | cons p ps ih =>
    rw [List.foldlM_cons] at hr
    cases hs : e.step d p with
    | error fault => rw [hs] at hr; cases hr
    | ok e₁ =>
      rw [hs] at hr
      obtain ⟨rs₁, h₁⟩ := h.step (fun raw tag he => hp raw tag (he ▸ List.mem_cons_self)) hs
      obtain ⟨rs', h'⟩ := ih h₁ (fun raw tag hm => hp raw tag (List.mem_cons_of_mem p hm)) hr
      exact ⟨rs', by simpa using h'⟩

theorem Accounts.whole (h : Accounts d e rs source) : e.whole.Holds (Known d rs) source := by
  have hs := h.stack
  rw [Extraction.whole]
  cases ho : e.opened with
  | nil =>
    rw [ho] at hs
    cases hs with
    | base hb => exact hb
  | cons inner rest =>
    rw [ho] at hs
    exact hs.whole

end Extraction

namespace Region

def cutting (parts : List Stretch) (rs : List Region) : Cutting where
  begins i := ((rs[i - 1]?).map (·.before)).getD []
  ends i := ((rs[i - 1]?).map (·.behind)).getD []
  parts i := if i = 0 then parts else ((rs[i - 1]?).map (·.parts)).getD []

end Region

namespace Cutting

open Region (Known cutting)

variable {d : Dialect} {e : Extraction} {ps : List Stretch} {rs : List Region}
  {content source text : Text} {kids : List Nat}

def inside (rs : List Region) (i : Nat) : Text := ((rs[i - 1]?).map (·.inside)).getD []

theorem known_eq (h : e.Accounts d rs text) (parts : List Stretch) {i : Nat} {token full : Text}
    (hk : Known d rs i token full) :
    token = d.token (childName (e.blocks.nameAt i)) ∧
      full = (cutting parts rs).begins i ++ inside rs i ++ (cutting parts rs).ends i := by
  obtain ⟨j, r, rfl, hj, rfl, rfl⟩ := hk
  simp [cutting, inside, Fragment.nameAt, Extraction.blocks, h.closed, hj]

theorem expands_of_spells (h : e.Accounts d rs text) {parts : List Stretch} {i : Nat}
    (hp : (cutting parts rs).parts i = ps) (hs : Spells (Known d rs) ps content kids source)
    (hkids : ∀ j r, j + 1 ∈ kids → rs[j]? = some r →
      (cutting parts rs).Expands (j + 1) r.inside) : (cutting parts rs).Expands i source := by
  obtain ⟨-, hk, hsource⟩ := hs.write_eq fun _ _ _ hk => known_eq h parts hk
  rw [hsource, ← hp]
  refine .block fun k hmem => ?_
  rw [hp, ← hk] at hmem
  obtain ⟨_, _, j, r, rfl, hj, -, -⟩ := hs.known_of_mem hmem
  have hinside : inside rs (j + 1) = r.inside := by simp [inside, hj]
  rw [hinside]
  exact hkids j r hmem hj

theorem expands_region (h : e.Accounts d rs text) (hb : e.Balanced) (parts : List Stretch) {j : Nat}
    {r : Region} (hj : rs[j]? = some r) : (cutting parts rs).Expands (j + 1) r.inside := by
  induction j using Nat.strong_induction_on generalizing r with
  | _ j ih =>
    have hparts : (cutting parts rs).parts (j + 1) = r.parts := by simp [cutting, hj]
    have hclosed : e.closed[j]? = some r.block := by simp [h.closed, hj]
    have hs := (h.sound r (List.mem_of_getElem? hj)).spells
    -- Blocks are finished after their children, so these expand by the induction.
    refine expands_of_spells h hparts hs fun k r' hk hr' => ?_
    exact ih k (hb.earlier j r.block _ hclosed hk) hr'

theorem exists_region (h : e.Accounts d rs text) {i : Nat} {b : Block}
    (hb : e.blocks[i]? = some b) (hi : i ≠ 0) :
    ∃ j r, i = j + 1 ∧ rs[j]? = some r ∧ b = r.block := by
  cases i with
  | zero => exact absurd rfl hi
  | succ j =>
    rw [Extraction.blocks, List.getElem?_cons_succ, h.closed, List.getElem?_map] at hb
    cases hr : rs[j]? with
    | none => rw [hr] at hb; cases hb
    | some r =>
      rw [hr] at hb
      cases hb
      exact ⟨j, r, rfl, hr, rfl⟩

theorem parts_of_block (h : e.Accounts d rs text) {parts : List Stretch}
    (hs : Spells (Known d rs) parts e.whole.content e.whole.children text) {i : Nat} {b : Block}
    (hb : e.blocks[i]? = some b) :
    b.content = ((cutting parts rs).parts i).flatMap
        (Stretch.write fun j => d.token (childName (e.blocks.nameAt j))) ∧
      b.children = ((cutting parts rs).parts i).filterMap Stretch.child? := by
  by_cases hi : i = 0
  · subst hi
    rw [Extraction.blocks, List.getElem?_cons_zero] at hb
    cases hb
    obtain ⟨hc, hk, -⟩ := hs.write_eq fun _ _ _ hk => known_eq h parts hk
    exact ⟨hc, hk⟩
  · obtain ⟨j, r, rfl, hj, rfl⟩ := exists_region h hb hi
    have hr := (h.sound r (List.mem_of_getElem? hj)).spells
    obtain ⟨hc, hk, -⟩ := hr.write_eq fun _ _ _ hk => known_eq h parts hk
    have hparts : (cutting parts rs).parts (j + 1) = r.parts := by simp [cutting, hj]
    rw [hparts]
    exact ⟨hc, hk⟩

theorem exists_explains (h : e.Accounts d rs source) (hb : e.Balanced) :
    ∃ c : Cutting, c.Explains d e.blocks source := by
  obtain ⟨parts, hs⟩ := h.whole
  have hexpands : (cutting parts rs).Expands 0 source :=
    expands_of_spells h rfl hs fun _ _ _ hr => expands_region h hb parts hr
  refine ⟨cutting parts rs, ?_, ?_, ?_, ?_, ?_⟩
  · intro i b hi h0
    obtain ⟨j, r, rfl, hj, rfl⟩ := exists_region h hi h0
    have hbegins : (cutting parts rs).begins (j + 1) = r.before := by simp [cutting, hj]
    rw [hbegins]
    exact (h.sound r (List.mem_of_getElem? hj)).before
  · intro i b hi h0
    obtain ⟨j, r, rfl, hj, rfl⟩ := exists_region h hi h0
    have hends : (cutting parts rs).ends (j + 1) = r.behind := by simp [cutting, hj]
    rw [hends]
    exact (h.sound r (List.mem_of_getElem? hj)).behind
  · intro i b hi
    exact (parts_of_block h hs hi).1
  · intro i b hi
    exact (parts_of_block h hs hi).2
  · intro s
    exact ⟨fun hx => hx.unique hexpands, fun hx => hx ▸ hexpands⟩

end Cutting

namespace Fragment

open Lookup (Reach IsTree)

def Under (f : Fragment) (i p : Nat) : Prop := ∃ b, f[i]? = some b ∧ b.parent = some p

variable {d : Dialect} {f : Fragment} {top source : Text}

theorem under_reaches (h : IsTree f.look 0) {i : Nat} (hr : Reach f.look 0 i) :
    Relation.ReflTransGen f.Under i 0 := by
  induction hr with
  | refl => exact .refl
  | child _ hp hc ih =>
    obtain ⟨b, hb, hparent⟩ := h.child_live hp hc
    exact .head ⟨b, hb, hparent⟩ ih

theorem exists_of_withParents {i : Nat} {b : Block} (h : (withParents f)[i]? = some b) :
    ∃ b', f[i]? = some b' ∧ b.name = b'.name ∧ b.content = b'.content ∧
      b.children = b'.children := by
  have hl := look_withParents f i
  rw [look, h] at hl
  obtain ⟨b', hb', rfl⟩ := Option.map_eq_some_iff.mp hl.symm
  exact ⟨b', hb', rfl, rfl, rfl⟩

theorem names_withParents (f : Fragment) : (withParents f).map (·.name) = f.map (·.name) := by
  refine List.ext_getElem? fun i => ?_
  have hl := look_withParents f i
  rw [look] at hl
  rw [List.getElem?_map, List.getElem?_map, hl, Option.map_map]
  rfl

theorem nameAt_withParents (f : Fragment) (i : Nat) : (withParents f).nameAt i = f.nameAt i := by
  rw [nameAt, nameAt, ← List.getElem?_map, ← List.getElem?_map, names_withParents]

theorem explains_withParents {c : Cutting} (h : c.Explains d f source) :
    c.Explains d (withParents f) source := by
  refine ⟨?_, ?_, ?_, ?_, h.expands⟩
  · intro i b hi h0
    obtain ⟨b', hb', hname, -, -⟩ := exists_of_withParents hi
    exact hname ▸ h.begins i b' hb' h0
  · intro i b hi h0
    obtain ⟨b', hb', hname, -, -⟩ := exists_of_withParents hi
    exact hname ▸ h.ends i b' hb' h0
  · intro i b hi
    obtain ⟨b', hb', -, hcontent, -⟩ := exists_of_withParents hi
    simp only [nameAt_withParents]
    exact hcontent.trans (h.content i b' hb')
  · intro i b hi
    obtain ⟨b', hb', -, -, hchildren⟩ := exists_of_withParents hi
    exact hchildren.trans (h.children i b' hb')

theorem reads_of_mem_pieces {raw : Text} {tag : Tag} (h : .mark raw tag ∈ Tag.pieces source) :
    Tag.Reads raw tag := by
  obtain ⟨used, hraw, hb⟩ := Tag.body_of_mem_pieces h
  have hread := Tag.read_of_body hb []
  rw [List.append_nil] at hread
  exact ⟨used, hraw, hread⟩

theorem exists_accounts (h : extract d top source = .ok f) :
    ∃ (e : Extraction) (rs : List Region),
      f = withParents e.blocks ∧ e.Balanced ∧ e.Accounts d rs source := by
  rw [extract] at h
  cases hr : (Tag.pieces source).foldlM (Extraction.step d) (Extraction.start top) with
  | error fault => rw [hr] at h; cases h
  | ok e =>
    rw [hr] at h
    cases h
    obtain ⟨hb, -⟩ := Extraction.run_spec (Extraction.balanced_start top) hr
    obtain ⟨rs, hrs⟩ := (Extraction.accounts_start top).run (fun _ _ => reads_of_mem_pieces) hr
    rw [List.nil_append, Tag.pieces, Text.flatMap_raw_pieces (by decide) Tag.leaves_read] at hrs
    exact ⟨e, rs, rfl, hb, hrs⟩

theorem listed_once (h : IsTree f.look 0) {i : Nat} {b : Block} (hi : f[i]? = some b)
    (h0 : i ≠ 0) :
    ∃ p outer, b.parent = some p ∧ f[p]? = some outer ∧ outer.children.count i = 1 ∧
      ∀ p' outer', f[p']? = some outer' → i ∈ outer'.children → p' = p := by
  cases hp : b.parent with
  | none => exact absurd (h.eq_root_of_orphan hi hp) h0
  | some p =>
    obtain ⟨outer, houter⟩ := h.parent_live i b p hi hp
    have hmem : i ∈ outer.children := h.mem_children houter hi hp
    have hcount := List.count_eq_one_of_mem (h.children_nodup p outer houter) hmem
    exact ⟨p, outer, rfl, houter, hcount, fun p' outer' hp' hm =>
      h.parent_unique hp' houter hm hmem⟩

/--
Taking blocks out of source makes a tree of blocks of different names and loses no text. Each block
but the top one stands between two tags of its name.
-/
theorem extract_explained (h : extract d top source = .ok f) :
    (∃ b, f[0]? = some b ∧ b.name = top ∧ b.parent = none) ∧
    (∀ i b, f[i]? = some b → i ≠ 0 → ∃ p outer, b.parent = some p ∧ f[p]? = some outer ∧
      outer.children.count i = 1 ∧ ∀ p' outer', f[p']? = some outer' → i ∈ outer'.children →
        p' = p) ∧
    (∀ i b, f[i]? = some b → Relation.ReflTransGen f.Under i 0) ∧
    (f.map (·.name)).Nodup ∧
    ∃ c : Cutting, c.Explains d f source := by
  obtain ⟨htree, b, hb, hname⟩ := extract_spec h
  obtain ⟨e, rs, rfl, hbalanced, hrs⟩ := exists_accounts h
  obtain ⟨c, hc⟩ := Cutting.exists_explains hrs hbalanced
  refine ⟨?_, fun i b hi h0 => listed_once htree hi h0, ?_, ?_, c, explains_withParents hc⟩
  · obtain ⟨b', hb', hparent⟩ := htree.top
    rw [hb] at hb'
    cases hb'
    exact ⟨b, hb, hname, hparent⟩
  · intro i b hi
    exact under_reaches htree (htree.reached i b hi)
  · rw [names_withParents, Extraction.blocks, List.map_cons]
    simp only [Extraction.whole_name]
    exact hrs.distinct

private def crossing : Text :=
  "<!-- BEGIN x -->a<!-- BEGIN y -->b<!-- END x -->c<!-- END y -->".toList

private def crossed (d : Dialect) : Fragment :=
  [⟨"t".toList, d.token "__x__".toList ++ "c<!-- END y -->".toList, [], [], [1], none⟩,
    ⟨"x".toList, "a<!-- BEGIN y -->b".toList, [], [], [], some 0⟩]

theorem extract_explained_crossing :
    extract .standard "t".toList crossing = .ok (crossed .standard) ∧
      ∃ c : Cutting, c.Explains .standard (crossed .standard) crossing := by
  have h : extract .standard "t".toList crossing = .ok (crossed .standard) := by decide +kernel
  obtain ⟨-, -, -, -, hc⟩ := extract_explained h
  exact ⟨h, hc⟩

end Fragment

end BlockTemplate
