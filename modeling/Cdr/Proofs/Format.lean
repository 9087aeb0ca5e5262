import Cdr.Proofs.Resolved

/-! The wire format of declared types.  The image of a value under a declared type is read off the
declaration alone: what each part starts with, how it is aligned, and which number stands for the
default case of a union.  Each part is carried as it is declared, and a name stands for the type
that is registered under it. -/

namespace Cdr

/-- The numbers from the least to the greatest. -/
def upward (least greatest : Int) : List Int :=
  (List.range' 0 (greatest + 1 - least).toNat).map fun i : Nat => least + i

/-- The ordinals of enumerators, in the order of their declaration. -/
def ordinals (enumerators : List Enumerator) : List Int :=
  enumerators.map fun e => (e.ordinal.toNat : Int)

/-- The enumerators of a declared enumeration. -/
def Declaration.enumerators (d : Declaration) : List Enumerator :=
  match d.body with
  | .enumeration enumerators => enumerators
  | _ => []

namespace Shape

/-- The type of the number that stands for a tag. -/
def tagType : Shape → IntegerType
  | primitive (.integer t) => t
  | primitive _ => .uint8
  | _ => .uint32

/-- The image of a tag: a number at the alignment of its type. -/
def tag (s : Shape) (n : Int) : Image := Image.word s.tagType.size (s.tagType.toBits n)

/-- The numbers that a tag can be, in order: false before true, numbers upward, and ordinals as they
are declared. -/
def tagNumbers (lookup : String → Option Declaration) : Shape → List Int
  | primitive .bool => upward 0 1
  | primitive .char => upward 0 255
  | primitive (.integer t) => upward t.least t.greatest
  | enumeration enumerators => ordinals enumerators
  | named name =>
    match lookup name with
    | some d => ordinals d.enumerators
    | none => []
  | _ => []

end Shape

/-- The numbers of the labels of all cases. -/
def caseNumbers (cases : List (Case Shape)) : List Int :=
  cases.flatMap fun c => c.labels.map (·.toInt)

/-- The number that stands for the default case: the first that a tag can be and that is no
label. -/
def freeTag? (lookup : String → Option Declaration) (discriminator : Shape)
    (cases : List (Case Shape)) : Option Int :=
  (discriminator.tagNumbers lookup).find? fun n => !(caseNumbers cases).contains n

namespace Shape

mutual

/-- The alignment of what a value starts with.  A union is aligned for its tag and for all its
payloads; optional values and named types are not aligned as a whole. -/
def alignment (w : CountWidth) : Shape → Nat
  | primitive p => p.size
  | string _ | enumeration _ => 4
  | bytes _ | sequence .. | map .. => w.bytes
  | array element _ => alignment w element
  | union ⟨discriminator, cases, fallback, _⟩ =>
    max discriminator.tagType.size (max (casesAlignment w cases) (fallbackAlignment w fallback))
  | optional _ | named _ => 1
termination_by structural s => s

def casesAlignment (w : CountWidth) : List (Case Shape) → Nat
  | [] => 0
  | ⟨_, _, content⟩ :: cases => max (alignment w content) (casesAlignment w cases)
termination_by structural cases => cases

def fallbackAlignment (w : CountWidth) : Option (DefaultCase Shape) → Nat
  | none => 0
  | some ⟨_, content⟩ => alignment w content
termination_by structural fallback => fallback

end

section Wire

variable (w : CountWidth) (lookup : String → Option Declaration) (follow : String → Value → Image)

mutual

/-- The image of a value, with `follow` for the declared types that the shape names. -/
def wireWith : Shape → Value → Image
  | primitive p, v => Layout.wirePrimitive (v.asPrimitive p)
  | string _, v => Layout.wireString v
  | bytes _, v => Layout.wireBytes w v.asBytes
  | array element _, v =>
    match v with
    | .array items => Layout.wireEach (wireWith element) items
    | _ => Image.nil
  | sequence element _, v =>
    match v with
    | .array items => Image.word w.bytes items.length ++ Layout.wireEach (wireWith element) items
    | _ => Image.nil
  | map key value _, v =>
    match v with
    | .map entries =>
      Image.word w.bytes entries.length ++
        Layout.wireEntries (wireWith key) (wireWith value) entries
    | _ => Image.nil
  | enumeration enumerators, v =>
    Layout.wireEnumerator enumerators (v.asEnumerator enumerators)
  | union ⟨discriminator, cases, fallback, keyed⟩, v =>
    match v with
    | .union label payload =>
      Image.padding (alignment w (union ⟨discriminator, cases, fallback, keyed⟩)) ++
        match label with
        | some label => discriminator.tag label.toInt ++ wireCase label payload cases
        | none =>
          match fallback, freeTag? lookup discriminator cases with
          | some ⟨_, content⟩, some n => discriminator.tag n ++ wireWith content payload
          | _, _ => Image.nil
    | _ => Image.nil
  | optional inner, v =>
    if v.isNull then Image.raw [0] else Image.raw [1] ++ wireWith inner v
  | named name, v => follow name v
termination_by structural s => s

/-- The image of the payload of the first case with a label. -/
def wireCase (label : Label) (payload : Value) : List (Case Shape) → Image
  | [] => Image.nil
  | ⟨_, labels, content⟩ :: cases =>
    if labels.contains label then wireWith content payload else wireCase label payload cases
termination_by structural cases => cases

end

end Wire

end Shape

/-- The image of the members of a struct, in the order of their declaration. -/
def Declaration.wireMembers (w : CountWidth) (lookup : String → Option Declaration)
    (follow : String → Value → Image) (given : List (String × Value))
    (members : List (Member Shape)) : Image :=
  Image.concat <| members.map fun m =>
    match Dictionary.find? m.name given with
    | some v => m.content.wireWith w lookup follow v
    | none => Image.nil

/-- The image of a value of a declared type, with `follow` for the types that it names. -/
def Declaration.wireWith (w : CountWidth) (lookup : String → Option Declaration)
    (follow : String → Value → Image) (d : Declaration) (v : Value) : Image :=
  match d.body with
  | .struct members =>
    match v.asMembers? with
    | some given => wireMembers w lookup follow given members
    | none => Image.nil
  | .union u => (Shape.union u).wireWith w lookup follow v
  | .enumeration enumerators => Layout.wireEnumerator enumerators (v.asEnumerator enumerators)

/-- The image of a value of a registered type, nested through at most `budget` names. -/
def Catalog.wireNamed (c : Catalog) (w : CountWidth) : Nat → String → Value → Image
  | 0, _, _ => Image.nil
  | budget + 1, name, v =>
    match c.declared? name with
    | some d => d.wireWith w c.declared? (wireNamed c w budget) v
    | none => Image.nil

/-- The image of a value of a registered type, nested through at most `depth` names. -/
def Registry.wire (r : Registry) (h : Handle) (depth : Nat) (v : Value) : Image :=
  match r.catalog.declared? h.name with
  | some d =>
    d.wireWith r.config.countWidth r.catalog.declared?
      (r.catalog.wireNamed r.config.countWidth depth) v
  | none => Image.nil

end Cdr
