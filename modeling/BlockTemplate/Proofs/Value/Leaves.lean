import BlockTemplate.Template.Basic
import Mathlib.Data.List.Infix

/-!
# Values as lists of leaves

A value is a tree whose leaves are scalars, and nodes that cannot be stored. `Value.leaves` lists
them from the left, each with the components of its name, and knows neither pools nor the name that
the value is stored under. Storing a value enters its leaves one after another, up to the first one
that cannot be stored.
-/

namespace BlockTemplate

theorem Dict.get?_foldl_insert_last {κ α : Type} [Ranked κ] [DecidableEq κ] (l : List (κ × α))
    (d : Dict κ α) (k : κ) :
    (l.foldl (fun d x => d.insert x.1 x.2) d).get? k =
      ((l.filter (·.1 = k)).getLast?.map (·.2)).or (d.get? k) := by
  induction l generalizing d with
  | nil => rfl
  | cons x l ih =>
    rw [List.foldl_cons, ih, Dict.get?_insert, List.filter_cons]
    by_cases hk : k = x.1
    · subst hk
      rw [if_pos rfl, if_pos (decide_eq_true rfl), List.getLast?_cons]
      cases (l.filter (·.1 = x.1)).getLast? with
      | none => rfl
      | some y => rfl
    · rw [if_neg hk, if_neg (by simpa using Ne.symm hk)]

/-- A scalar with its text, or a node that cannot be stored, below the components of its name. -/
structure Leaf where
  path : List Text
  content : Except ValueFault Text

namespace Leaf

def text (t : Text) : Leaf := ⟨[], .ok t⟩

def fault (e : ValueFault) : Leaf := ⟨[], .error e⟩

def under (part : Text) (l : Leaf) : Leaf := { l with path := part :: l.path }

def entry (name : Option Text) (l : Leaf) : Except ValueFault (Text × Text) :=
  match l.content with
  | .error e => .error e
  | .ok t =>
    match name.toList ++ l.path with
    | [] => .error .nameless
    | parts => .ok (Text.join ['.'] parts, t)

theorem entry_under (name : Option Text) (part : Text) (l : Leaf) :
    (l.under part).entry name = l.entry (some (Value.joinName name part)) := by
  obtain ⟨path, content⟩ := l
  cases content with
  | error e => rfl
  | ok t =>
    cases name with
    | none => rfl
    | some name =>
      cases path with
      | nil => simp [entry, under, Value.joinName, Text.join]
      | cons p path => simp [entry, under, Value.joinName, Text.join]

end Leaf

namespace Value

mutual

def leaves : Value → List Leaf
  | .bool b => [.text (if b then "true".toList else "false".toList)]
  | .int n => [.text (Text.signedDecimal n)]
  | .wide signed => [.fault (.wide signed)]
  | .float format bits => [.text (Decimal.floatText format bits)]
  | .char c => [.text [c]]
  | .text t => [.text t]
  | .bytes bs => bs.mapIdx fun i b => (Leaf.text (Text.decimal b.toNat)).under (Text.decimal i)
  | .unit => [.text []]
  | .none => [.text []]
  | .some v => leaves v
  | .wrapper v => leaves v
  | .seq vs => elementLeaves 0 vs
  | .map parts => mapLeaves .none parts
  | .record fields => fieldLeaves fields
  | .unitVariant variant => [.text variant]
  | .wrapperVariant variant v => (leaves v).map (.under variant)
  | .seqVariant variant vs => (elementLeaves 0 vs).map (.under variant)
  | .recordVariant variant fields => (fieldLeaves fields).map (.under variant)
  | .fail message => [.fault (.custom message)]

def elementLeaves (index : Nat) : List Value → List Leaf
  | [] => []
  | v :: vs => (leaves v).map (.under (Text.decimal index)) ++ elementLeaves (index + 1) vs

def fieldLeaves : List (Text × Value) → List Leaf
  | [] => []
  | (field, v) :: fields => (leaves v).map (.under field) ++ fieldLeaves fields

def mapLeaves (pending : Option Text) : List MapPart → List Leaf
  | [] => []
  | .key k :: parts =>
    match k.keyText with
    | .ok key => mapLeaves (.some key) parts
    | .error e => .fault e :: mapLeaves pending parts
  | .value v :: parts =>
    match pending with
    | .none => .fault .keyless :: mapLeaves .none parts
    | .some key => (leaves v).map (.under key) ++ mapLeaves .none parts

end

end Value

namespace Pool

def stored {α : Type} : List (Except ValueFault α) → List α
  | .ok a :: rest => a :: stored rest
  | _ => []

def outcome {α : Type} : List (Except ValueFault α) → Except ValueFault Unit
  | [] => .ok ()
  | .ok _ :: rest => outcome rest
  | .error e :: _ => .error e

theorem outcome_eq_error_iff {α : Type} {es : List (Except ValueFault α)} :
    (∃ e, outcome es = .error e) ↔ ∃ x ∈ es, ∃ e, x = .error e := by
  induction es with
  | nil => simp [outcome]
  | cons x es ih =>
    cases x with
    | ok a => simp [outcome, ih]
    | error e => simp [outcome]

def enter : List (Except ValueFault (Text × Text)) → Pool → Except ValueFault Unit × Pool
  | [], pool => (.ok (), pool)
  | .ok x :: rest, pool => enter rest (pool.insert x.1 x.2)
  | .error e :: _, pool => (.error e, pool)

theorem enter_eq (es : List (Except ValueFault (Text × Text))) (pool : Pool) :
    enter es pool = (outcome es, (stored es).foldl (fun d x => d.insert x.1 x.2) pool) := by
  induction es generalizing pool with
  | nil => rfl
  | cons x es ih =>
    cases x with
    | ok a => exact ih (pool.insert a.1 a.2)
    | error e => rfl

theorem enter_append (es fs : List (Except ValueFault (Text × Text))) (pool : Pool) :
    enter (es ++ fs) pool =
      match enter es pool with
      | (.ok (), pool) => enter fs pool
      | failed => failed := by
  induction es generalizing pool with
  | nil => rfl
  | cons x es ih =>
    cases x with
    | ok a => exact ih (pool.insert a.1 a.2)
    | error e => rfl

end Pool

namespace Value

open Pool (enter enter_append)

theorem mapIdx_from {α β : Type} (f : Nat → α → β) (index : Nat) (x : α) (xs : List α) :
    ((x :: xs).mapIdx fun i y => f (index + i) y) =
      f index x :: xs.mapIdx fun i y => f (index + 1 + i) y := by
  rw [List.mapIdx_cons, Nat.add_zero]
  congr 2
  funext i y
  rw [Nat.add_right_comm, Nat.add_assoc]

/-- What a value becomes below a name: variables, and failures where it cannot be stored. -/
def entries (name : Option Text) (v : Value) : List (Except ValueFault (Text × Text)) :=
  v.leaves.map (Leaf.entry name)

theorem map_entry_under (name : Option Text) (part : Text) (ls : List Leaf) :
    (ls.map (Leaf.under part)).map (Leaf.entry name) =
      ls.map (Leaf.entry (Option.some (joinName name part))) := by
  rw [List.map_map]
  exact List.map_congr_left fun l _ => l.entry_under name part

theorem enter_text (name : Option Text) (t : Text) (pool : Pool) :
    enter ([Leaf.text t].map (Leaf.entry name)) pool = store name t pool := by
  cases name with
  | none => rfl
  | some name => simp [enter, Leaf.entry, Leaf.text, store, Text.join]

theorem enter_bytes (name : Option Text) (index : Nat) (bs : List UInt8) (pool : Pool) :
    enter ((bs.mapIdx fun i b =>
        (Leaf.text (Text.decimal b.toNat)).under (Text.decimal (index + i))).map
          (Leaf.entry name)) pool = (.ok (), flattenBytes name index bs pool) := by
  induction bs generalizing index pool with
  | nil => rfl
  | cons b bs ih =>
    have hentry : ((Leaf.text (Text.decimal b.toNat)).under (Text.decimal index)).entry name =
        .ok (joinName name (Text.decimal index), Text.decimal b.toNat) := by
      rw [Leaf.entry_under]
      simp [Leaf.entry, Leaf.text, Text.join]
    rw [mapIdx_from fun n (b : UInt8) =>
      (Leaf.text (Text.decimal b.toNat)).under (Text.decimal n), List.map_cons, hentry, enter, flattenBytes]
    exact ih (index + 1) _

mutual

theorem flatten_eq (name : Option Text) (v : Value) (pool : Pool) :
    v.flatten name pool = enter (v.leaves.map (Leaf.entry name)) pool := by
  cases v with
  | bool b => exact (enter_text name _ pool).symm
  | int n => exact (enter_text name _ pool).symm
  | wide signed => rfl
  | float format bits => exact (enter_text name _ pool).symm
  | char c => exact (enter_text name _ pool).symm
  | text t => exact (enter_text name _ pool).symm
  | bytes bs =>
    have h := enter_bytes name 0 bs pool
    simp only [Nat.zero_add] at h
    exact h.symm
  | unit => exact (enter_text name _ pool).symm
  | none => exact (enter_text name _ pool).symm
  | some v => exact flatten_eq name v pool
  | wrapper v => exact flatten_eq name v pool
  | seq vs => exact flattenSeq_eq name 0 vs pool
  | map parts => exact flattenMap_eq name .none parts pool
  | record fields => exact flattenFields_eq name fields pool
  | unitVariant variant => exact (enter_text name _ pool).symm
  | wrapperVariant variant v =>
    rw [flatten, leaves, map_entry_under]
    exact flatten_eq _ v pool
  | seqVariant variant vs =>
    rw [flatten, leaves, map_entry_under]
    exact flattenSeq_eq _ 0 vs pool
  | recordVariant variant fields =>
    rw [flatten, leaves, map_entry_under]
    exact flattenFields_eq _ fields pool
  | fail message => rfl

theorem flattenSeq_eq (name : Option Text) (index : Nat) (vs : List Value) (pool : Pool) :
    flattenSeq name index vs pool = enter ((elementLeaves index vs).map (Leaf.entry name)) pool := by
  cases vs with
  | nil => rfl
  | cons v vs =>
    rw [flattenSeq, elementLeaves, List.map_append, enter_append, map_entry_under, ← flatten_eq]
    obtain ⟨r, pool'⟩ := flatten (.some (joinName name (Text.decimal index))) v pool
    cases r with
    | ok _ => exact flattenSeq_eq name (index + 1) vs pool'
    | error e => rfl

theorem flattenFields_eq (name : Option Text) (fields : List (Text × Value)) (pool : Pool) :
    flattenFields name fields pool = enter ((fieldLeaves fields).map (Leaf.entry name)) pool := by
  cases fields with
  | nil => rfl
  | cons f fields =>
    obtain ⟨field, v⟩ := f
    rw [flattenFields, fieldLeaves, List.map_append, enter_append, map_entry_under, ← flatten_eq]
    obtain ⟨r, pool'⟩ := flatten (.some (joinName name field)) v pool
    cases r with
    | ok _ => exact flattenFields_eq name fields pool'
    | error e => rfl

theorem flattenMap_eq (name pending : Option Text) (parts : List MapPart) (pool : Pool) :
    flattenMap name pending parts pool =
      enter ((mapLeaves pending parts).map (Leaf.entry name)) pool := by
  cases parts with
  | nil => rfl
  | cons part parts =>
    cases part with
    | key k =>
      rw [flattenMap, mapLeaves]
      cases k.keyText with
      | ok key => exact flattenMap_eq name (.some key) parts pool
      | error e => rfl
    | value v =>
      cases pending with
      | none => rfl
      | some key =>
        rw [flattenMap, mapLeaves, List.map_append, enter_append, map_entry_under, ← flatten_eq]
        obtain ⟨r, pool'⟩ := flatten (.some (joinName name key)) v pool
        cases r with
        | ok _ => exact flattenMap_eq name .none parts pool'
        | error e => rfl

end

def mapParts (pending : Option Text) : List MapPart → List (Except ValueFault (Text × Value))
  | [] => []
  | .key k :: parts =>
    match k.keyText with
    | .ok key => mapParts (.some key) parts
    | .error e => .error e :: mapParts pending parts
  | .value v :: parts =>
    match pending with
    | .none => .error .keyless :: mapParts .none parts
    | .some key => .ok (key, v) :: mapParts .none parts

def parts? : Value → Option (List (Except ValueFault (Text × Value)))
  | .seq vs => .some (vs.mapIdx fun i v => .ok (Text.decimal i, v))
  | .bytes bs => .some (bs.mapIdx fun i b => .ok (Text.decimal i, .int b.toNat))
  | .map parts => .some (mapParts .none parts)
  | .record fields => .some (fields.map .ok)
  | .some v => v.parts?
  | .wrapper v => v.parts?
  | _ => .none

def flattenEach : List (Except ValueFault (Text × Value)) → Pool → Except ValueFault Unit × Pool
  | [], pool => (.ok (), pool)
  | .error e :: _, pool => (.error e, pool)
  | .ok x :: rest, pool =>
    match x.2.flatten (.some x.1) pool with
    | (.ok (), pool) => flattenEach rest pool
    | failed => failed

theorem flattenSeq_nameless (index : Nat) (vs : List Value) (pool : Pool) :
    flattenSeq .none index vs pool =
      flattenEach (vs.mapIdx fun i v => .ok (Text.decimal (index + i), v)) pool := by
  induction vs generalizing index pool with
  | nil => rfl
  | cons v vs ih =>
    rw [mapIdx_from fun n (v : Value) => Except.ok (Text.decimal n, v), flattenSeq, flattenEach, joinName]
    dsimp only
    obtain ⟨r, pool'⟩ := v.flatten (.some (Text.decimal index)) pool
    cases r with
    | ok _ => exact ih (index + 1) pool'
    | error e => rfl

theorem flattenBytes_nameless (index : Nat) (bs : List UInt8) (pool : Pool) :
    (.ok (), flattenBytes .none index bs pool) =
      flattenEach (bs.mapIdx fun i b => .ok (Text.decimal (index + i), .int b.toNat)) pool := by
  induction bs generalizing index pool with
  | nil => rfl
  | cons b bs ih =>
    rw [mapIdx_from fun n (b : UInt8) => Except.ok (Text.decimal n, int b.toNat), flattenEach]
    exact ih (index + 1) _

theorem flattenFields_nameless (fields : List (Text × Value)) (pool : Pool) :
    flattenFields .none fields pool = flattenEach (fields.map .ok) pool := by
  induction fields generalizing pool with
  | nil => rfl
  | cons f fields ih =>
    obtain ⟨field, v⟩ := f
    rw [flattenFields, List.map_cons, flattenEach, joinName]
    obtain ⟨r, pool'⟩ := v.flatten (.some field) pool
    cases r with
    | ok _ => exact ih pool'
    | error e => rfl

theorem flattenMap_nameless (pending : Option Text) (parts : List MapPart) (pool : Pool) :
    flattenMap .none pending parts pool = flattenEach (mapParts pending parts) pool := by
  induction parts generalizing pending pool with
  | nil => rfl
  | cons part parts ih =>
    cases part with
    | key k =>
      rw [flattenMap, mapParts]
      cases k.keyText with
      | ok key => exact ih (.some key) pool
      | error e => rfl
    | value v =>
      cases pending with
      | none => rfl
      | some key =>
        rw [flattenMap, mapParts, flattenEach, joinName]
        dsimp only
        obtain ⟨r, pool'⟩ := v.flatten (.some key) pool
        cases r with
        | ok _ => exact ih .none pool'
        | error e => rfl

theorem flatten_nameless {v : Value} {es : List (Except ValueFault (Text × Value))}
    (h : v.parts? = .some es) (pool : Pool) : v.flatten .none pool = flattenEach es pool := by
  fun_induction parts? v with
  | case1 vs =>
    cases h
    have hseq := flattenSeq_nameless 0 vs pool
    simp only [Nat.zero_add] at hseq
    exact hseq
  | case2 bs =>
    cases h
    have hbytes := flattenBytes_nameless 0 bs pool
    simp only [Nat.zero_add] at hbytes
    exact hbytes
  | case3 parts =>
    cases h
    exact flattenMap_nameless .none parts pool
  | case4 fields =>
    cases h
    exact flattenFields_nameless fields pool
  | case5 v ih => exact ih h
  | case6 v ih => exact ih h
  | case7 => cases h

end Value

namespace Template

def setEach (t : Template) : List (Except ValueFault (Text × Value)) → Except Fault Unit × Template
  | [] => (.ok (), t)
  | .error e :: _ => (.error (.value e), t)
  | .ok x :: rest =>
    match t.setVariable x.1 x.2 with
    | (.ok (), t) => t.setEach rest
    | failed => failed

theorem setEach_eq (t : Template) (es : List (Except ValueFault (Text × Value))) :
    t.setEach es =
      ((Value.flattenEach es t.state.locals).1.mapError Fault.value,
        { t with state := { t.state with locals := (Value.flattenEach es t.state.locals).2 } }) := by
  induction es generalizing t with
  | nil => rfl
  | cons x es ih =>
    cases x with
    | error e => rfl
    | ok x =>
      rw [setEach, setVariable, setLocals, Value.flattenEach]
      obtain ⟨r, pool⟩ := x.2.flatten (some x.1) t.state.locals
      cases r with
      | ok _ => exact ih _
      | error e => rfl

end Template

namespace Value

open Pool (stored outcome)

/--
Storing a value under a name, or without one, enters its leaves in order, up to the first one that
cannot be stored: of leaves with one name the last one stays, and all other names keep what they
have. It fails if and only if some leaf cannot be stored, with what is wrong with the first one.
Setting the entries of a compound value as variables is the same as setting them one by one.
-/
theorem flatten_leaves (name : Option Text) (v : Value) (pool : Pool) :
    v.flatten name pool =
      (outcome (v.entries name),
        (stored (v.entries name)).foldl (fun d x => d.insert x.1 x.2) pool) ∧
    (∀ x, (v.flatten name pool).2.get? x =
      (((stored (v.entries name)).filter (·.1 = x)).getLast?.map (·.2)).or (pool.get? x)) ∧
    (∀ x, x ∉ (stored (v.entries name)).map (·.1) →
      (v.flatten name pool).2.get? x = pool.get? x) ∧
    ((∃ e, (v.flatten name pool).1 = .error e) ↔ ∃ l ∈ v.leaves, ∃ e, l.entry name = .error e) ∧
    ∀ (t : Template) (es : List (Except ValueFault (Text × Value))),
      v.parts? = .some es → t.setVariables v = t.setEach es := by
  have hflat : v.flatten name pool =
      (outcome (v.entries name),
        (stored (v.entries name)).foldl (fun d x => d.insert x.1 x.2) pool) :=
    (flatten_eq name v pool).trans (Pool.enter_eq _ pool)
  have hget : ∀ x, (v.flatten name pool).2.get? x =
      (((stored (v.entries name)).filter (·.1 = x)).getLast?.map (·.2)).or (pool.get? x) := by
    intro x
    rw [hflat]
    exact Dict.get?_foldl_insert_last _ pool x
  refine ⟨hflat, hget, ?_, ?_, ?_⟩
  · intro x hx
    have hnone : (stored (v.entries name)).filter (·.1 = x) = [] := by
      refine List.filter_eq_nil_iff.mpr fun y hy => ?_
      rw [decide_eq_true_eq]
      rintro rfl
      exact hx (List.mem_map_of_mem hy)
    rw [hget, hnone]
    rfl
  · rw [hflat]
    refine Pool.outcome_eq_error_iff.trans ⟨?_, ?_⟩
    · rintro ⟨_, hx, e, rfl⟩
      obtain ⟨l, hl, he⟩ := List.mem_map.mp hx
      exact ⟨l, hl, e, he⟩
    · rintro ⟨l, hl, e, he⟩
      exact ⟨_, List.mem_map_of_mem hl, e, he⟩
  · intro t es hes
    rw [Template.setEach_eq, Template.setVariables, Template.setLocals, flatten_nameless hes]

def profile : Value :=
  .record [("tags".toList, .seq [.int (-1), .some (.bool true)]),
    ("by".toList, .map [.key (.int 7), .value (.text ['x']), .value .unit, .value (.text ['y'])])]

theorem flatten_leaves_profile :
    (profile.leaves.map (·.path) =
      [["tags".toList, ['0']], ["tags".toList, ['1']], ["by".toList, ['7']], ["by".toList],
        ["by".toList]]) ∧
    (profile.flatten (.some ['p']) ∅).1 = .error .keyless ∧
    ((profile.flatten (.some ['p']) ∅).2.entries =
      [("p.by.7".toList, ['x']), ("p.tags.0".toList, "-1".toList),
        ("p.tags.1".toList, "true".toList)]) ∧
    ∃ es, profile.parts? = .some es ∧ es.length = 2 ∧
      Template.empty.setVariables profile = Template.empty.setEach es := by
  refine ⟨by decide +kernel, by rfl, by decide +kernel, _, rfl, rfl, ?_⟩
  exact (flatten_leaves (.some ['p']) profile ∅).2.2.2.2 .empty _ rfl

end Value

end BlockTemplate
