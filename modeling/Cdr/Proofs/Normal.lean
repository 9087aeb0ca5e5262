import Cdr.Layout.Basic
import Cdr.Value

/-! Normal forms.  A layout accepts values of several kinds and numbers of any integer type; the
normal form of such a value is the value that the layout declares for it.  A value that a layout
does not accept is left as it is. -/

namespace Cdr

namespace Value

/-- The value as one of a primitive type. -/
def asPrimitive (p : Primitive) (v : Value) : Value :=
  match p with
  | .bool => v
  | .char =>
    match v with
    | .integer ⟨.uint8, n, _⟩ => .char (Char.ofNat n.toNat)
    | v => v
  | .integer t =>
    match v.asInt?.bind (Integer.ofInt? t) with
    | some n => .integer n
    | none => v
  | .float32 =>
    match v.asFloat? with
    | some bits => .float32 (Real.narrow bits)
    | none => v
  | .float64 =>
    match v.asFloat? with
    | some bits => .float64 bits
    | none => v

/-- The byte that an integer stands for. -/
def asByte? (v : Value) : Option UInt8 :=
  match v.asInt? with
  | some n => if 0 ≤ n ∧ n < 256 then some (UInt8.ofNat n.toNat) else none
  | none => none

/-- An array of bytes as a byte string. -/
def asBytes (v : Value) : Value :=
  match v with
  | .array items =>
    match items.mapM asByte? with
    | some data => .bytes data
    | none => v
  | v => v

/-- An ordinal as the enumerator that it stands for. -/
def asEnumerator (enumerators : List Enumerator) (v : Value) : Value :=
  match v with
  | .integer n =>
    match enumerators.find? fun e => (e.ordinal.toNat : Int) == n.number with
    | some e => .enumerator e.name
    | none => v
  | v => v

/-- The elements of an array or a sequence, each turned into another. -/
def mapItems (f : Value → Value) (v : Value) : Value :=
  match v with
  | .array items => .array (items.map f)
  | v => v

/-- The entries of a map, with keys and values turned into others. -/
def mapEntries (f g : Value → Value) (v : Value) : Value :=
  match v with
  | .map entries => .map (entries.map fun e => (f e.1, g e.2))
  | v => v

theorem isNull_asPrimitive (p : Primitive) (v : Value) : (v.asPrimitive p).isNull = v.isNull := by
  unfold asPrimitive
  split
  · rfl
  · split <;> rfl
  · split
    · cases v <;> simp_all [asInt?, isNull]
    · rfl
  · split
    · cases v <;> simp_all [asFloat?, isNull]
    · rfl
  · split
    · cases v <;> simp_all [asFloat?, isNull]
    · rfl

theorem isNull_asBytes (v : Value) : v.asBytes.isNull = v.isNull := by
  unfold asBytes
  split
  · split <;> rfl
  · rfl

theorem isNull_asEnumerator (enumerators : List Enumerator) (v : Value) :
    (v.asEnumerator enumerators).isNull = v.isNull := by
  unfold asEnumerator
  split
  · split <;> rfl
  · rfl

end Value

namespace Layout

mutual

/-- The normal form of a value, with `follow` for what lies behind a reference. -/
def normalWith (follow : Reference → Value → Value) : Layout → Value → Value
  | primitive p, v => v.asPrimitive p
  | string _, v => v
  | bytes _, v => v.asBytes
  | array element _, v | sequence element _, v => v.mapItems (normalWith follow element)
  | map key value _, v => v.mapEntries (normalWith follow key) (normalWith follow value)
  | enumeration _ enumerators, v => v.asEnumerator enumerators
  | struct _ members, v =>
    match v.asMembers? with
    | some given => .ofMembers (normalMembers follow given members)
    | none => v
  | union ⟨_, _, cases, fallback, tagOnly⟩, v =>
    match v with
    | .union label payload =>
      .union label <|
        if tagOnly then .null
        else
          match label with
          | some label => normalCase follow label payload cases
          | none =>
            match fallback with
            | some ⟨_, _, content⟩ => normalWith follow content payload
            | none => payload
    | v => v
  | optional inner, v => if v.isNull then v else normalWith follow inner v
  | reference target, v => follow target v
termination_by structural l => l

/-- The normal forms of the members of a struct, each with its name. -/
def normalMembers (follow : Reference → Value → Value) (given : List (String × Value)) :
    List (Member Layout) → List (String × Value)
  | [] => []
  | ⟨field, content⟩ :: members =>
    match Dictionary.find? field given with
    | some v => (field, normalWith follow content v) :: normalMembers follow given members
    | none => normalMembers follow given members
termination_by structural members => members

/-- The normal form of the payload of the first case with a label. -/
def normalCase (follow : Reference → Value → Value) (label : Label) (payload : Value) :
    List (Case Layout) → Value
  | [] => payload
  | ⟨_, labels, content⟩ :: cases =>
    if labels.contains label then normalWith follow content payload
    else normalCase follow label payload cases
termination_by structural cases => cases

end

/-- A normal form is absent only where the value is. -/
theorem isNull_normalWith {follow : Reference → Value → Value}
    (hfollow : ∀ target v, (follow target v).isNull = v.isNull) (l : Layout) (v : Value) :
    (normalWith follow l v).isNull = v.isNull := by
  match l with
  | primitive p => exact v.isNull_asPrimitive p
  | string _ => rfl
  | bytes _ => exact v.isNull_asBytes
  | array _ _ | sequence _ _ => cases v <;> rfl
  | map _ _ _ => cases v <;> rfl
  | enumeration _ enumerators => exact v.isNull_asEnumerator enumerators
  | struct _ _ => cases v <;> rfl
  | union ⟨_, _, _, _, _⟩ =>
    rw [normalWith.eq_def]
    cases v <;> rfl
  | optional inner =>
    rw [normalWith]
    split
    · rfl
    · exact isNull_normalWith hfollow inner v
  | reference target => exact hfollow target v
termination_by structural l

end Layout

end Cdr
