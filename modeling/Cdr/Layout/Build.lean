import Cdr.Declaration.Basic
import Cdr.Layout.Basic

/-! Layouts of declared types.  A declaration gives three layouts: that of all members, that of the
key members where the type is reached along a key, and that of the type's own key.  The second and
the third differ only for a type without a key, which has no key of its own but counts with all its
members inside another key.  A reference needs the other type to be registered but not built. -/

namespace Cdr

/-- Why a declaration has no layouts. -/
inductive Obstacle where
  /-- A type that is referred to is not registered yet. -/
  | awaits (name : String)
  /-- The declaration can never be built. -/
  | fatal (fault : Fault)
deriving DecidableEq, Repr

/-- The layouts of a declared type. -/
structure Layouts where
  full : Layout
  memberKey : Layout
  key : Layout
deriving Repr, Inhabited

/-- What a build works with: the registered types by name, and the name of the declared type. -/
structure Site where
  resolve : String → Option (Nat × Declaration)
  typeName : String

namespace Site

/-- The declaration has a shape without a layout. -/
def unencodable (s : Site) (reason : String) : Obstacle :=
  .fatal (Cause.unencodable s.typeName reason).fault

/-- The place and the declaration of a registered type. -/
def lookup (s : Site) (name : String) : Except Obstacle (Nat × Declaration) :=
  match s.resolve name with
  | some found => .ok found
  | none => .error (.awaits name)

/-- Checks that no name and no ordinal stands twice, given those that came before. -/
def checkEnumerators (s : Site) (names : List String) (ordinals : List UInt32) :
    List Enumerator → Except Obstacle Unit
  | [] => .ok ()
  | e :: rest =>
    if e.name ∈ names then .error (s.unencodable s!"duplicate enumerator '{e.name}'")
    else if e.ordinal ∈ ordinals then
      .error (s.unencodable s!"duplicate ordinal {e.ordinal.toNat}")
    else checkEnumerators s (e.name :: names) (e.ordinal :: ordinals) rest

def checkEnumeration (s : Site) (name : String) (enumerators : List Enumerator) :
    Except Obstacle Unit :=
  if enumerators.isEmpty then .error (s.unencodable s!"enum '{name}' has no enumerators")
  else s.checkEnumerators [] [] enumerators

def discriminator (s : Site) (shape : Shape) : Except Obstacle Discriminator :=
  let unfit := s.unencodable (shape.describe ++ " cannot be a union discriminator")
  match shape with
  | .primitive p => if p.isDiscriminator then .ok (.primitive p) else .error unfit
  | .enumeration enumerators => do
    s.checkEnumeration s.typeName enumerators
    return .enumeration s.typeName enumerators
  | .named name => do
    let (_, declaration) ← s.lookup name
    match declaration.body with
    | .enumeration enumerators => do
      s.checkEnumeration name enumerators
      return .enumeration name enumerators
    | _ => throw (s.unencodable s!"discriminator '{name}' is not an enum")
  | _ => .error unfit

/-- Checks the labels of a case, given the labels that came before, and adds them to those. -/
def checkLabels (s : Site) (d : Discriminator) (case : String) (seen : List Label) :
    List Label → Except Obstacle (List Label)
  | [] => .ok seen
  | label :: rest =>
    if !d.contains label then
      .error (s.unencodable
        s!"label {label.toInt} of case '{case}' is outside the discriminator range")
    else if label ∈ seen then .error (s.unencodable s!"duplicate case label {label.toInt}")
    else checkLabels s d case (label :: seen) rest

/-- Checks the labels of all cases, given the labels that came before, and adds them to those. -/
def checkCases (s : Site) (d : Discriminator) (seen : List Label) :
    List (Case Shape) → Except Obstacle (List Label)
  | [] => .ok seen
  | ⟨name, labels, _⟩ :: cases =>
    if labels.isEmpty then .error (s.unencodable s!"case '{name}' has no labels")
    else do
      let seen ← s.checkLabels d name seen labels
      checkCases s d seen cases

/-- The tag of the default case of a union whose cases have the labels. -/
def sentinel (s : Site) (d : Discriminator) (labels : List Label) : Except Obstacle Label :=
  match d.sentinel? labels with
  | some label => .ok label
  | none => .error (.fatal (Cause.domainExhausted s.typeName).fault)

mutual

def layout (s : Site) (role : Role) : Shape → Except Obstacle Layout
  | .primitive p => .ok (.primitive p)
  | .string bound => .ok (.string bound)
  | .bytes bound => .ok (.bytes bound)
  | .array element length => do return .array (← layout s role element) length
  | .sequence element bound => do return .sequence (← layout s role element) bound
  | .map key value bound => do
    let key ← layout s role key
    let value ← layout s role value
    return .map key value bound
  | .enumeration enumerators => do
    s.checkEnumeration s.typeName enumerators
    return .enumeration s.typeName enumerators
  | .union ⟨discriminator, cases, fallback, keyedByLabel⟩ => do
    let d ← s.discriminator discriminator
    if cases.isEmpty && fallback.isNone then throw (s.unencodable "union declares no cases")
    let labels ← s.checkCases d [] cases
    let cases ← layoutCases s role cases
    let tagOnly := role == .key && keyedByLabel
    match fallback with
    | none => return .union ⟨s.typeName, d, cases, none, tagOnly⟩
    | some ⟨name, content⟩ => do
      let sentinel ← s.sentinel d labels
      let content ← layout s role content
      return .union ⟨s.typeName, d, cases, some ⟨name, sentinel, content⟩, tagOnly⟩
  | .optional inner => do return .optional (← layout s role inner)
  | .named name => do
    let (id, _) ← s.lookup name
    return .reference ⟨name, id, role⟩
termination_by structural shape => shape

def layoutCases (s : Site) (role : Role) :
    List (Case Shape) → Except Obstacle (List (Case Layout))
  | [] => .ok []
  | ⟨name, labels, content⟩ :: cases => do
    let content ← layout s role content
    let cases ← layoutCases s role cases
    return ⟨name, labels, content⟩ :: cases
termination_by structural cases => cases

end

def layoutMembers (s : Site) (role : Role) :
    List (Member Shape) → Except Obstacle (List (Member Layout))
  | [] => .ok []
  | m :: members => do
    let content ← s.layout role m.content
    let members ← layoutMembers s role members
    return ⟨m.name, content⟩ :: members

end Site

def Layouts.build (resolve : String → Option (Nat × Declaration)) (d : Declaration) :
    Except Obstacle Layouts := do
  let s : Site := ⟨resolve, d.name⟩
  let (full, memberKey) ←
    match d.body with
    | .struct members => do
      let full ← s.layoutMembers .full members
      let isKey (m : Member Shape) : Bool := !d.hasExplicitKeys || d.isKeyMember m.name
      let key ← s.layoutMembers .key (members.filter isKey)
      pure (Layout.struct d.name full, Layout.struct d.name key)
    | .union u => do
      let full ← s.layout .full (.union u)
      let key ← s.layout .key (.union u)
      pure (full, key)
    | .enumeration enumerators => do
      s.checkEnumeration d.name enumerators
      pure (Layout.enumeration d.name enumerators, Layout.enumeration d.name enumerators)
  return ⟨full, memberKey, if d.isKeyless then .struct d.name [] else memberKey⟩

end Cdr
