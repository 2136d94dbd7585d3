import BlockTemplate.Proofs.Tree.Walk
import BlockTemplate.Template.Edit
import Mathlib.Data.List.Perm.Basic
import Mathlib.Data.List.ReduceOption

/-!
# The room that blocks take

What each edit of a tree does to the names of its blocks and to the number of its slots. Blocks go to
empty slots before new ones, so a graft makes new slots only if it has more blocks than there are
empty ones, and to take blocks away leaves the slots as many.
-/

namespace BlockTemplate

section Gaps

variable {α : Type} {xs : List (Option α)} {i : Nat} {a : α}

def gaps (xs : List (Option α)) : List Nat :=
  (List.range xs.length).filter fun i => xs[i]?.join.isNone

theorem length_reduceOption_add_gaps (xs : List (Option α)) :
    xs.reduceOption.length + (gaps xs).length = xs.length := by
  have hself : (List.range xs.length).map (fun i => xs[i]?.join) = xs := by
    refine List.ext_getElem? fun i => ?_
    rw [List.getElem?_map]
    by_cases hi : i < xs.length
    · rw [List.getElem?_range hi, Option.map_some, List.getElem?_eq_getElem hi, Option.join_some]
    · rw [List.getElem?_eq_none (by rw [List.length_range]; omega),
        List.getElem?_eq_none (by omega)]
      rfl
  have hcount : (xs.filter Option.isNone).length = (gaps xs).length := by
    conv_lhs => rw [← hself]
    rw [List.filter_map, List.length_map]
    rfl
  rw [← hcount]
  exact List.length_eq_reduceOption_length_add_filter_none.symm

theorem perm_reduceOption_fill (h : xs[i]? = some none) (a : α) :
    (xs.set i (some a)).reduceOption.Perm (a :: xs.reduceOption) := by
  obtain ⟨hi, hnone⟩ := List.getElem?_eq_some_iff.mp h
  have hold : xs = xs.take i ++ none :: xs.drop (i + 1) := by
    rw [← hnone, List.getElem_cons_drop, List.take_append_drop]
  have hleft : xs.reduceOption = (xs.take i).reduceOption ++ (xs.drop (i + 1)).reduceOption := by
    conv_lhs => rw [hold]
    rw [List.reduceOption_append, List.reduceOption_cons_of_none]
  rw [List.set_eq_take_append_cons_drop, if_pos hi, List.reduceOption_append,
    List.reduceOption_cons_of_some, hleft]
  exact List.perm_middle

theorem perm_reduceOption_empty (h : xs[i]? = some (some a)) :
    xs.reduceOption.Perm (a :: (xs.set i none).reduceOption) := by
  obtain ⟨hi, ha⟩ := List.getElem?_eq_some_iff.mp h
  have hgap : (xs.set i none)[i]? = some none := by rw [List.getElem?_set_self hi]
  have hback : (xs.set i none).set i (some a) = xs := by
    rw [List.set_set, ← ha, List.set_getElem_self]
  have hfill := perm_reduceOption_fill hgap a
  rwa [hback] at hfill

end Gaps

namespace Tree

variable {t : Tree} {id : BlockId} {b : Block}

def labels (t : Tree) : List (Option Text) := t.slots.map (Option.map (·.name))

def names (t : Tree) : List Text := t.labels.reduceOption

def liveCount (t : Tree) : Nat := t.names.length

@[simp] theorem length_labels (t : Tree) : t.labels.length = t.slots.length := List.length_map _

theorem labels_getElem? (t : Tree) (x : Nat) :
    t.labels[x]? = t.slots[x]?.map (Option.map (·.name)) := List.getElem?_map

theorem liveCount_add_vacant (t : Tree) : t.liveCount + t.vacant.length = t.slots.length := by
  have hcount : t.liveCount = t.slots.reduceOption.length := by
    rw [liveCount, names, labels, List.reduceOption_map, List.length_map]
  rw [hcount]
  exact length_reduceOption_add_gaps t.slots

theorem liveCount_le (t : Tree) : t.liveCount ≤ t.slots.length :=
  Nat.le.intro t.liveCount_add_vacant

theorem labels_eq_some_iff {id : Nat} {name : Text} :
    t.labels[id]? = some (some name) ↔ ∃ b, t.get? id = some b ∧ b.name = name := by
  rw [labels_getElem?, Option.map_eq_some_iff]
  constructor
  · rintro ⟨slot, hslot, hname⟩
    obtain ⟨b, rfl, hb⟩ := Option.map_eq_some_iff.mp hname
    exact ⟨b, get?_eq_some_iff.mpr hslot, hb⟩
  · rintro ⟨b, hb, rfl⟩
    exact ⟨some b, get?_eq_some_iff.mp hb, rfl⟩

theorem mem_names_iff {name : Text} :
    name ∈ t.names ↔ ∃ id b, t.get? id = some b ∧ b.name = name := by
  rw [names, List.reduceOption_mem_iff, List.mem_iff_getElem?]
  exact exists_congr fun id => labels_eq_some_iff

theorem nodup_names (h : Lookup.Distinct t.get?) : t.names.Nodup := by
  rw [names, List.reduceOption, List.Nodup, List.pairwise_filterMap, List.pairwise_iff_getElem]
  intro i j hi hj hlt n hn m hm hnm
  obtain ⟨b, hb, rfl⟩ := labels_eq_some_iff.mp ((List.getElem?_eq_getElem hi).trans (congrArg some hn))
  obtain ⟨c, hc, rfl⟩ := labels_eq_some_iff.mp ((List.getElem?_eq_getElem hj).trans (congrArg some hm))
  exact absurd (h i j b c hb hc hnm) (Nat.ne_of_lt hlt)

theorem labels_modify (t : Tree) (id : BlockId) {f : Block → Block}
    (hf : ∀ b, (f b).name = b.name) : (t.modify id f).labels = t.labels := by
  refine List.ext_getElem? fun x => ?_
  rw [labels_getElem?, labels_getElem?, modify, List.getElem?_modify]
  cases t.slots[x]? with
  | none => rfl
  | some slot =>
    by_cases hx : id = x
    · cases slot <;> simp [hx, hf]
    · simp [hx]

theorem labels_foldl_modify {f : Block → Block} (hf : ∀ b, (f b).name = b.name)
    (ids : List BlockId) (t : Tree) :
    (ids.foldl (fun t c => t.modify c f) t).labels = t.labels := by
  induction ids generalizing t with
  | nil => rfl
  | cons c ids ih => rw [List.foldl_cons, ih, labels_modify t c hf]

theorem labels_put_of_same {c : Block} (hc : t.get? id = some c) (hn : c.name = b.name) :
    (t.put id b).labels = t.labels := by
  have hslot : t.labels[id]? = some (some b.name) := labels_eq_some_iff.mpr ⟨c, hc, hn⟩
  obtain ⟨hi, hlabel⟩ := List.getElem?_eq_some_iff.mp hslot
  rw [put, if_pos (lt_of_get? hc), labels, List.map_set, Option.map_some, ← hlabel]
  exact List.set_getElem_self hi

theorem names_put_of_vacant (h : t.get? id = none) :
    (t.put id b).names.Perm (b.name :: t.names) := by
  by_cases hlt : id < t.slots.length
  · have hgap : t.labels[id]? = some none := by
      rw [get?, List.getElem?_eq_getElem hlt, Option.join_some] at h
      rw [labels_getElem?, List.getElem?_eq_getElem hlt, h]
      rfl
    rw [put, if_pos hlt, names, labels, List.map_set, Option.map_some]
    exact perm_reduceOption_fill hgap b.name
  · rw [put, if_neg hlt, names, labels, List.map_append, List.reduceOption_append]
    exact List.perm_append_singleton b.name _

theorem names_putAll {es : List (BlockId × Block)} (hf : Fits t.slots.length (es.map (·.1)))
    (hn : (es.map (·.1)).Nodup) (hv : ∀ id ∈ es.map (·.1), t.get? id = none) :
    (t.putAll es).names.Perm (es.map (·.2.name) ++ t.names) := by
  induction es generalizing t with
  | nil => exact .rfl
  | cons e es ih =>
    rw [List.map_cons] at hf hn hv
    obtain ⟨hnot, hn⟩ := List.nodup_cons.mp hn
    have hlen := length_put e.2 hf.1
    have hrest : ∀ id ∈ es.map (·.1), (t.put e.1 e.2).get? id = none := by
      intro id hid
      have hne : id ≠ e.1 := by
        rintro rfl
        exact hnot hid
      rw [get?_put e.2 hf.1, if_neg hne]
      exact hv id (List.mem_cons_of_mem _ hid)
    have hfirst := names_put_of_vacant (b := e.2) (hv e.1 List.mem_cons_self)
    rw [putAll_cons]
    exact (ih (hlen ▸ hf.2) hn hrest).trans ((hfirst.append_left _).trans List.perm_middle)

theorem clear_cons (t : Tree) (id : BlockId) (ids : List BlockId) :
    t.clear (id :: ids) = (t.clear [id]).clear ids := by
  refine congrArg (Tree.mk · t.calls) (List.ext_getElem? fun x => ?_)
  simp only [clear, List.getElem?_mapIdx, Option.map_map]
  refine congrArg (Option.map · t.slots[x]?) (funext fun slot => ?_)
  by_cases hx : x = id <;> simp [hx]

theorem labels_clear_one (t : Tree) (id : BlockId) :
    (t.clear [id]).labels = t.labels.set id none := by
  refine List.ext_getElem? fun x => ?_
  rw [List.getElem?_set, labels_getElem?, labels_getElem?, length_labels, clear,
    List.getElem?_mapIdx]
  by_cases hx : id = x
  · subst hx
    by_cases hlt : id < t.slots.length
    · simp [hlt]
    · simp [hlt]
  · have hx' : x ≠ id := fun he => hx he.symm
    simp [hx, hx']

theorem names_clear {es : List (BlockId × Block)} (hn : (es.map (·.1)).Nodup)
    (hes : ∀ e ∈ es, t.get? e.1 = some e.2) :
    t.names.Perm (es.map (·.2.name) ++ (t.clear (es.map (·.1))).names) := by
  induction es generalizing t with
  | nil =>
    have hsame : t.clear [] = t := by
      refine congrArg (Tree.mk · t.calls) (List.ext_getElem? fun x => ?_)
      rw [List.getElem?_mapIdx]
      cases t.slots[x]? <;> rfl
    rw [List.map_nil, List.map_nil, hsame]
    exact .rfl
  | cons e es ih =>
    rw [List.map_cons] at hn
    obtain ⟨hnot, hn⟩ := List.nodup_cons.mp hn
    have hlabel : t.labels[e.1]? = some (some e.2.name) :=
      labels_eq_some_iff.mpr ⟨e.2, hes e List.mem_cons_self, rfl⟩
    have hfirst : t.names.Perm (e.2.name :: (t.clear [e.1]).names) := by
      rw [names, names, labels_clear_one]
      exact perm_reduceOption_empty hlabel
    have hrest : ∀ d ∈ es, (t.clear [e.1]).get? d.1 = some d.2 := by
      intro d hd
      have hne : d.1 ≠ e.1 := fun he => hnot (he ▸ List.mem_map_of_mem hd)
      rw [get?_clear, if_neg (by simpa using hne)]
      exact hes d (List.mem_cons_of_mem _ hd)
    rw [List.map_cons, List.map_cons, clear_cons]
    exact hfirst.trans ((ih hn hrest).cons e.2.name)

def span (size : Nat) (ids : List Nat) : Nat := ids.foldl (fun size id => max size (id + 1)) size

theorem span_append (size : Nat) (ids rest : List Nat) :
    span size (ids ++ rest) = span (span size ids) rest := List.foldl_append

theorem span_of_lt {size : Nat} {ids : List Nat} (h : ∀ id ∈ ids, id < size) :
    span size ids = size := by
  induction ids with
  | nil => rfl
  | cons id ids ih =>
    have hid := h id List.mem_cons_self
    have hmax : max size (id + 1) = size := by omega
    rw [span, List.foldl_cons, hmax]
    exact ih fun x hx => h x (List.mem_cons_of_mem _ hx)

theorem span_range' (size n : Nat) : span size (List.range' size n) = size + n := by
  induction n generalizing size with
  | zero => rfl
  | succ n ih =>
    have hmax : max size (size + 1) = size + 1 := by omega
    rw [List.range'_succ, span, List.foldl_cons, hmax]
    exact (ih (size + 1)).trans (by omega)

theorem length_putAll {es : List (BlockId × Block)} (hf : Fits t.slots.length (es.map (·.1))) :
    (t.putAll es).slots.length = span t.slots.length (es.map (·.1)) := by
  induction es generalizing t with
  | nil => rfl
  | cons e es ih =>
    have hlen := length_put e.2 hf.1
    rw [putAll_cons, ih (hlen ▸ hf.2), hlen]
    rfl

theorem span_allocate (t : Tree) (n : Nat) :
    span t.slots.length (t.allocate n) = max t.slots.length (t.liveCount + n) := by
  have hcount := t.liveCount_add_vacant
  have hold : ∀ id ∈ t.vacant.take n, id < t.slots.length := fun id hid =>
    (mem_vacant_iff.mp (List.mem_of_mem_take hid)).1
  rw [allocate, List.take_append, span_append, span_of_lt hold,
    List.take_range'_of_length_ge (Nat.sub_le n _), span_range']
  omega

section Graft

variable {f : Fragment} {ids : List BlockId} {above : Option BlockId}

theorem map_name_zip {g : Block → Block} (hg : ∀ b, (g b).name = b.name)
    (hl : ids.length = f.length) : (ids.zip (f.map g)).map (·.2.name) = f.map (·.name) := by
  have hsnd : (ids.zip (f.map g)).map (·.2) = f.map g :=
    List.map_snd_zip (by rw [List.length_map]; exact Nat.le_of_eq hl.symm)
  calc (ids.zip (f.map g)).map (·.2.name)
      = ((ids.zip (f.map g)).map (·.2)).map (·.name) := by rw [List.map_map]; rfl
    _ = f.map (·.name) := by rw [hsnd, List.map_map]; exact List.map_congr_left fun b _ => hg b

theorem names_putAll_zip {g : Block → Block} (hg : ∀ b, (g b).name = b.name)
    (hl : ids.length = f.length) (hf : Fits t.slots.length ids) (hn : ids.Nodup)
    (hv : ∀ id ∈ ids, t.get? id = none) :
    (t.putAll (ids.zip (f.map g))).names.Perm (f.map (·.name) ++ t.names) := by
  have hfst : (ids.zip (f.map g)).map (·.1) = ids := fst_zip _ (by rw [List.length_map, hl])
  rw [← map_name_zip hg hl]
  exact names_putAll (hfst.symm ▸ hf) (hfst.symm ▸ hn) (hfst.symm ▸ hv)

theorem length_graftAt (hf : Fits t.slots.length ids) (hl : ids.length = f.length) :
    (t.graftAt ids above f).slots.length = span t.slots.length ids := by
  have hfst : (ids.zip (f.map (relocate (fun i => ids.getD i rootId) above))).map (·.1) = ids :=
    fst_zip _ (by rw [List.length_map, hl])
  rw [graftAt_eq, length_putAll (hfst.symm ▸ hf), hfst]

theorem names_graftUnder (t : Tree) (p : BlockId) (f : Fragment) :
    (t.graftUnder p f).2.names.Perm (f.map (·.name) ++ t.names) :=
  names_putAll_zip (fun _ => rfl) (t.length_allocate f.length) (t.fits_allocate f.length)
    (t.nodup_allocate f.length) fun _ hid => get?_of_mem_allocate hid

theorem length_graftUnder (t : Tree) (p : BlockId) (f : Fragment) :
    (t.graftUnder p f).2.slots.length = max t.slots.length (t.liveCount + f.length) :=
  (length_graftAt (t.fits_allocate f.length) (t.length_allocate f.length)).trans
    (t.span_allocate f.length)

theorem names_graftOver {b₀ : Block} {rest : List Block} (hb : t.get? id = some b)
    (hn : b.name = b₀.name) :
    (t.graftOver id (b₀ :: rest)).names.Perm (rest.map (·.name) ++ t.names) := by
  have hl : (t.allocate rest.length).length = rest.length := t.length_allocate rest.length
  let place := fun i => (id :: t.allocate rest.length).getD i rootId
  let top := relocate place b.parent b₀
  -- The top block goes over one of its name, the others into empty slots.
  have hfirst : t.graftOver id (b₀ :: rest) = (t.put id top).putAll
      ((t.allocate rest.length).zip (rest.map (relocate place b.parent))) := by
    rw [graftOver, graftAt_eq, hb]
    rfl
  have hfits := t.fits_allocate rest.length
  have hlen : (t.put id top).slots.length = t.slots.length := by
    rw [length_put top (Nat.le_of_lt (lt_of_get? hb))]
    have := lt_of_get? hb
    omega
  have hlabels : (t.put id top).names = t.names :=
    congrArg List.reduceOption (labels_put_of_same hb hn)
  have hvacant : ∀ x ∈ t.allocate rest.length, (t.put id top).get? x = none := by
    intro x hx
    have hnone := get?_of_mem_allocate hx
    have hne : x ≠ id := by
      rintro rfl
      rw [hb] at hnone
      cases hnone
    rw [get?_put top (Nat.le_of_lt (lt_of_get? hb)), if_neg hne, hnone]
  have hnames := names_putAll_zip (t := t.put id top) (g := relocate place b.parent)
    (fun _ => rfl) hl (hlen ▸ hfits) (t.nodup_allocate rest.length) hvacant
  rwa [hlabels, ← hfirst] at hnames

theorem length_graftOver (hb : t.get? id = some b) (hne : f ≠ []) :
    (t.graftOver id f).slots.length = max t.slots.length (t.liveCount + (f.length - 1)) := by
  have hpos := List.length_pos_of_ne_nil hne
  have hl := t.length_allocate (f.length - 1)
  have hid : ∀ x ∈ [id], x < t.slots.length := by
    intro x hx
    rw [List.mem_singleton.mp hx]
    exact lt_of_get? hb
  have hfits : Fits t.slots.length (id :: t.allocate (f.length - 1)) :=
    fits_append hid (t.fits_allocate _)
  have hspan : span t.slots.length ([id] ++ t.allocate (f.length - 1)) =
      span t.slots.length (t.allocate (f.length - 1)) := by
    rw [span_append, span_of_lt hid]
  rw [graftOver, length_graftAt hfits (by rw [List.length_cons, hl]; omega)]
  exact hspan.trans (t.span_allocate _)

theorem length_graftOver_of_same {c : Block} (hb : t.get? id = some b) (hc : f.head? = some c)
    (hn : b.name = c.name) :
    (t.graftOver id f).slots.length = max t.slots.length (t.graftOver id f).liveCount := by
  obtain ⟨rest, rfl⟩ := List.head?_eq_some_iff.mp hc
  have hnames : (t.graftOver id (c :: rest)).names.Perm _ := names_graftOver hb hn
  have hcount := hnames.length_eq
  rw [length_graftOver hb (List.cons_ne_nil c rest)]
  simp only [liveCount, List.length_append, List.length_map, List.length_cons] at hcount ⊢
  omega

end Graft

theorem names_prune (ht : Lookup.IsTree t.get? rootId) (hb : t.get? id = some b) :
    t.names.Perm ((t.namesUnder id).tail ++ (t.prune id).names) := by
  have hes : ∀ e ∈ (t.preorder id).tail, t.get? e.1 = some e.2 := fun e he =>
    ((mem_preorder_iff ht hb).mp (List.mem_of_mem_tail he)).2
  have hclear := names_clear (nodup_descendants ht hb) hes
  have hnames : (t.prune id).names = (t.clear (t.descendants id)).names :=
    congrArg List.reduceOption (labels_modify _ id fun _ => rfl)
  rw [namesUnder, ← List.map_tail, hnames]
  exact hclear

theorem names_dissolve (hb : t.get? id = some b) (token : Text) :
    t.names.Perm (b.name :: (t.dissolve id token).names) := by
  have hnodup : ([(id, b)].map (·.1)).Nodup := List.nodup_singleton id
  have hclear := names_clear (t := t) hnodup (by simpa using hb)
  have hlabels : (t.dissolve id token).labels = (t.clear [id]).labels := by
    simp only [dissolve, hb]
    cases b.parent with
    | none => rfl
    | some p =>
      dsimp only
      rw [labels_modify, labels_foldl_modify]
      · exact fun _ => rfl
      · exact fun _ => rfl
  rw [show (t.dissolve id token).names = _ from congrArg List.reduceOption hlabels]
  exact hclear

theorem length_modify (t : Tree) (id : BlockId) (f : Block → Block) :
    (t.modify id f).slots.length = t.slots.length := List.length_modify ..

theorem length_clear (t : Tree) (ids : List BlockId) :
    (t.clear ids).slots.length = t.slots.length := List.length_mapIdx

theorem length_foldl_modify (f : Block → Block) (ids : List BlockId) (t : Tree) :
    (ids.foldl (fun t c => t.modify c f) t).slots.length = t.slots.length := by
  induction ids generalizing t with
  | nil => rfl
  | cons c ids ih => rw [List.foldl_cons, ih, length_modify]

theorem length_dissolve (t : Tree) (id : BlockId) (token : Text) :
    (t.dissolve id token).slots.length = t.slots.length := by
  rw [dissolve]
  split
  · rfl
  · dsimp only
    split
    · exact t.length_clear _
    · rw [length_modify, length_foldl_modify, length_clear]

end Tree

end BlockTemplate
