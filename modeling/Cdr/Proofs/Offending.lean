import Cdr.Proofs.Parts
import Cdr.Sample

/-! What is wrong with a value, and where.  A node is a value with the layout that it is written in.
Its objection is what it finds wrong itself before it comes to the parts of the value.  Its turns
are those parts in the order in which they are written, and the members that are missing among them.
The first fault of a node is its objection, or else that of the first turn that cannot be taken. -/

namespace Cdr

/-- A value with the layout that it is written in and the number of references that may be followed
from there on. -/
structure Node where
  budget : Nat
  layout : Layout
  value : Value

namespace Node

/-- Writes the node alone. -/
def write (c : Context) (n : Node) : Coding Unit :=
  n.layout.write c.types c.countWidth n.budget n.value

end Node

/-- A part of a node: the step of the path that leads there, if it takes one, and the part.  A
member that is missing has its turn all the same. -/
inductive Turn where
  | part (segment : Option String) (node : Node)
  | missing (typeName member : String)

/-- The part can be written alone, whatever the buffer holds. -/
def Turn.Taken (c : Context) : Turn → Prop
  | part _ node => ∀ b, ∃ b', node.write c b = .ok () b'
  | missing .. => False

/-- The name and the layout of the payload that a label selects, and of the default case without a
label. -/
def UnionLayout.arm? (u : UnionLayout Layout) : Option Label → Option (String × Layout)
  | some label =>
    if u.discriminator.contains label then
      (u.cases.find? (·.labels.contains label)).map fun c => (c.name, c.content)
    else none
  | none => u.fallback.map fun f => (f.name, f.content)

namespace Layout

/-- The layout of a declared type. -/
def IsBody : Layout → Prop
  | struct .. | union _ | enumeration .. => True
  | _ => False

def cause? {α : Type} : Except Cause α → Option Cause
  | .ok _ => none
  | .error cause => some cause

/-- More than the greatest length. -/
def tooLong? (member : String) (length greatest : Nat) : Option Cause :=
  if greatest < length then some (.boundExceeded member length greatest) else none

/-- More than the bound, if there is one. -/
def overBound? (member : String) (length : Nat) (bound : Option UInt64) : Option Cause :=
  bound.bind fun bound => tooLong? member length bound.toNat

/-- More than the bound, or more than can be counted. -/
def miscounted? (w : CountWidth) (member : String) (length : Nat) (bound : Option UInt64) :
    Option Cause :=
  (overBound? member length bound).or (tooLong? member length w.greatest)

def primitiveObjection? (p : Primitive) (v : Value) : Option Cause :=
  match p with
  | .bool =>
    match v with
    | .bool _ => none
    | v => some (kindMismatch "bool" v)
  | .char => cause? (charByte v)
  | .integer t => cause? (fittingNumber t v)
  | .float32 => cause? (floatBits "float32" v)
  | .float64 => cause? (floatBits "float64" v)

def stringObjection? (bound : Option UInt64) (v : Value) : Option Cause :=
  match v.asString? with
  | none => some (kindMismatch "string" v)
  | some text =>
    let length := (Text.Utf8.encode text).length
    (overBound? "string" length bound).or (tooLong? "string" length greatestText)

/-- The items of an array are bytes, all of them, before their number counts. -/
def bytesObjection? (w : CountWidth) (bound : Option UInt64) (v : Value) : Option Cause :=
  match v with
  | .bytes data => miscounted? w "bytes" data.length bound
  | .array items =>
    (items.findSome? fun item => cause? (fittingNumber .uint8 item)).or
      (miscounted? w "bytes" items.length bound)
  | v => some (kindMismatch "bytes" v)

end Layout

namespace Node

open Layout

/-- What a node finds wrong itself, before it comes to its parts. -/
def objection? (w : CountWidth) (n : Node) : Option Cause :=
  match n.layout with
  | .primitive p => primitiveObjection? p n.value
  | .string bound => stringObjection? bound n.value
  | .bytes bound => bytesObjection? w bound n.value
  | .array _ length =>
    match n.value.asItems? with
    | none => some (kindMismatch "array" n.value)
    | some items =>
      if items.length = length.toNat then none
      else some (.mismatch s!"array of {length.toNat} elements" s!"{items.length} elements")
  | .sequence _ bound =>
    match n.value.asItems? with
    | none => some (kindMismatch "sequence" n.value)
    | some items => miscounted? w "sequence" items.length bound
  | .map _ _ bound =>
    match n.value with
    | .map entries => miscounted? w "map" entries.length bound
    | v => some (kindMismatch "map" v)
  | .enumeration name enumerators =>
    match ordinalOf? enumerators n.value with
    | some _ => none
    | none => some (kindMismatch s!"enumerator of '{name}'" n.value)
  | .struct name _ =>
    match n.value.asMembers? with
    | some _ => none
    | none => some (kindMismatch s!"struct '{name}'" n.value)
  | .union u =>
    match n.value with
    | .union label _ =>
      match u.arm? label, label with
      | some _, _ => none
      | none, some label => some (.unknownLabel u.name label)
      | none, none =>
        some (.mismatch s!"case label of union '{u.name}'" "default (union has no default case)")
    | v => some (kindMismatch s!"union '{u.name}'" v)
  | .optional _ => none
  | .reference target => if n.budget = 0 then some (nestingCause target.name) else none

/-- Elements by their place. -/
def elementTurns (budget : Nat) (element : Layout) (i : Nat) (items : List Value) : List Turn :=
  (items.zipIdx i).map fun (item, i) => .part (some (elementName i)) ⟨budget, element, item⟩

/-- Entries by their place, the key of an entry before its value. -/
def entryTurns (budget : Nat) (key value : Layout) (i : Nat) (entries : List (Value × Value)) :
    List Turn :=
  (entries.zipIdx i).flatMap fun ((k, v), i) =>
    [.part (some (elementName i ++ ".key")) ⟨budget, key, k⟩,
      .part (some (elementName i ++ ".value")) ⟨budget, value, v⟩]

/-- Members as they are declared. -/
def memberTurns (budget : Nat) (name : String) (given : List (String × Value))
    (members : List (Member Layout)) : List Turn :=
  members.map fun m =>
    match Dictionary.find? m.name given with
    | some v => .part (some m.name) ⟨budget, m.content, v⟩
    | none => .missing name m.name

/-- The parts of a node in the order in which they are written.  What is optional or lies behind a
reference takes no step of a path. -/
def turns (types : Lookup) (n : Node) : List Turn :=
  match n.layout with
  | .array element _ | .sequence element _ =>
    elementTurns n.budget element 0 (n.value.asItems?.getD [])
  | .map key value _ =>
    match n.value with
    | .map entries => entryTurns n.budget key value 0 entries
    | _ => []
  | .struct name members =>
    match n.value.asMembers? with
    | some given => memberTurns n.budget name given members
    | none => []
  | .union u =>
    match n.value with
    | .union label payload =>
      if u.tagOnly then []
      else
        match u.arm? label with
        | some (name, content) => [.part (some name) ⟨n.budget, content, payload⟩]
        | none => []
    | _ => []
  | .optional inner => if n.value.isNull then [] else [.part none { n with layout := inner }]
  | .reference target =>
    match n.budget, types target.id target.role with
    | budget + 1, .ok l => [.part none ⟨budget, l, n.value⟩]
    | _, _ => []
  | .primitive _ | .string _ | .bytes _ | .enumeration .. => []

end Node

/-- The first node that cannot be written, in write order from the root on, with the path that leads
there and the cause. -/
inductive FirstFault (c : Context) : Node → List String → Node → Cause → Prop
  /-- The root itself objects. -/
  | own {root : Node} {cause : Cause} (hown : root.objection? c.countWidth = some cause) :
    FirstFault c root [] root cause
  /-- A member of the root is missing and all that has its turn before can be written. -/
  | missing {root : Node} {earlier later : List Turn} {typeName member : String}
    (hown : root.objection? c.countWidth = none)
    (hturns : root.turns c.types = earlier ++ .missing typeName member :: later)
    (hearlier : ∀ turn ∈ earlier, turn.Taken c) :
    FirstFault c root [] root (.missingMember typeName member)
  /-- A part of the root has the fault and all that has its turn before can be written. -/
  | part {root node origin : Node} {earlier later : List Turn} {segment : Option String}
    {path : List String} {cause : Cause}
    (hown : root.objection? c.countWidth = none)
    (hturns : root.turns c.types = earlier ++ .part segment node :: later)
    (hearlier : ∀ turn ∈ earlier, turn.Taken c)
    (hfault : FirstFault c node path origin cause) :
    FirstFault c root (segment.toList ++ path) origin cause

theorem UnionLayout.mem_arms_of_arm? {u : UnionLayout Layout} {label : Option Label} {name : String}
    {content : Layout} (h : u.arm? label = some (name, content)) : content ∈ u.arms := by
  rw [Layout.mem_arms]
  cases label with
  | some label =>
    simp only [arm?] at h
    split at h
    · obtain ⟨found, hfound, harm⟩ := Option.map_eq_some_iff.mp h
      cases harm
      exact Or.inl ⟨found, List.mem_of_find?_eq_some hfound, rfl⟩
    · cases h
  | none =>
    obtain ⟨f, hf, harm⟩ := Option.map_eq_some_iff.mp h
    cases harm
    exact Or.inr ⟨f, hf, rfl⟩

namespace Node

/-- Fewer references may be followed, or as many and the layout is smaller. -/
def Below (m n : Node) : Prop :=
  m.budget < n.budget ∨ m.budget = n.budget ∧ sizeOf m.layout < sizeOf n.layout

theorem Below.trans {m n o : Node} (h : Below m n) (h' : Below n o) : Below m o := by
  unfold Below at *
  omega

theorem Below.ne {m n : Node} (h : Below m n) : m ≠ n := by
  rintro rfl
  unfold Below at h
  omega

section Turns

variable {types : Lookup} {n m : Node} {segment : Option String}

/-- A part of a node has a layout that the layout of the node is made of, or the one behind it. -/
theorem layout_of_mem_turns (h : .part segment m ∈ n.turns types) :
    (m.budget = n.budget ∧ m.layout ∈ n.layout.children) ∨
      ∃ target, n.layout = .reference target ∧ n.budget = m.budget + 1 ∧
        types target.id target.role = .ok m.layout := by
  obtain ⟨budget, l, v⟩ := n
  cases l with
  | array element _ | sequence element _ =>
    obtain ⟨⟨item, i⟩, -, hpart⟩ := List.mem_map.mp h
    cases hpart
    exact Or.inl ⟨rfl, List.mem_singleton_self _⟩
  | map key value _ =>
    cases v with
    | map entries =>
      obtain ⟨⟨⟨k, v⟩, i⟩, -, hpart⟩ := List.mem_flatMap.mp h
      rcases List.mem_pair.mp hpart with hpart | hpart <;> cases hpart
      · exact Or.inl ⟨rfl, List.mem_pair.mpr (Or.inl rfl)⟩
      · exact Or.inl ⟨rfl, List.mem_pair.mpr (Or.inr rfl)⟩
    | _ => cases h
  | struct name members =>
    cases v with
    | struct given =>
      obtain ⟨member, hmember, hpart⟩ := List.mem_map.mp h
      split at hpart <;> cases hpart
      exact Or.inl ⟨rfl, List.mem_map_of_mem hmember⟩
    | _ => cases h
  | union u =>
    cases v with
    | union label payload =>
      simp only [turns] at h
      split at h
      · cases h
      · split at h
        · rename_i harm
          cases List.mem_singleton.mp h
          exact Or.inl ⟨rfl, UnionLayout.mem_arms_of_arm? harm⟩
        · cases h
    | _ => cases h
  | optional inner =>
    simp only [turns] at h
    split at h
    · cases h
    · cases List.mem_singleton.mp h
      exact Or.inl ⟨rfl, List.mem_singleton_self _⟩
  | reference target =>
    simp only [turns] at h
    split at h
    · rename_i hfound
      cases List.mem_singleton.mp h
      exact Or.inr ⟨target, rfl, rfl, hfound⟩
    · cases h
  | _ => cases h

theorem below_of_mem_turns (h : .part segment m ∈ n.turns types) : m.Below n := by
  rcases layout_of_mem_turns h with ⟨hbudget, hchild⟩ | ⟨target, -, hbudget, -⟩
  · exact Or.inr ⟨hbudget, Layout.sizeOf_lt_of_mem_children hchild⟩
  · exact Or.inl (by omega)

/-- Each part of the body of a type is a step of the path. -/
theorem isSome_of_mem_turns (hbody : n.layout.IsBody) (h : .part segment m ∈ n.turns types) :
    segment.isSome := by
  obtain ⟨budget, l, v⟩ := n
  cases l with
  | struct name members =>
    cases v with
    | struct given =>
      obtain ⟨member, -, hpart⟩ := List.mem_map.mp h
      split at hpart <;> cases hpart
      rfl
    | _ => cases h
  | union u =>
    cases v with
    | union label payload =>
      simp only [turns] at h
      split at h
      · cases h
      · split at h
        · cases List.mem_singleton.mp h
          rfl
        · cases h
    | _ => cases h
  | enumeration name enumerators => cases h
  | _ => cases hbody

/-- What holds of a node if it holds of its parts holds of every node. -/
@[elab_as_elim]
theorem induction_on_turns (types : Lookup) {motive : Node → Prop}
    (node : ∀ n, (∀ segment m, .part segment m ∈ n.turns types → motive m) → motive n) (n : Node) :
    motive n :=
  node n fun _ m _ => induction_on_turns types node m
termination_by (n.budget, sizeOf n.layout)
decreasing_by
  rename_i h
  exact Prod.lex_def.mpr (below_of_mem_turns h)

end Turns

end Node

end Cdr
