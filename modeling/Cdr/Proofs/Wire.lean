import Cdr.Layout.Write
import Cdr.Proofs.Normal
import Cdr.Proofs.Image

/-! The wire image of a normal form: the bytes that a layout writes for it, as a function of the
value alone. -/

namespace Cdr

/-- The image of a label as a tag. -/
def Discriminator.tag (d : Discriminator) (label : Label) : Image :=
  match d.tagType? with
  | some t => Image.word t.size (t.toBits label.toInt)
  | none => Image.nil

namespace Layout

/-- The image of a value of a primitive type. -/
def wirePrimitive : Value → Image
  | .bool b => Image.raw [if b then 1 else 0]
  | .char c => Image.raw [UInt8.ofNat c.toNat]
  | .integer n => Image.word n.type.size n.toBits
  | .float32 bits => Image.word 4 bits.toNat
  | .float64 bits => Image.word 8 bits.toNat
  | _ => Image.nil

/-- The image of a text: its count, its bytes and a zero byte. -/
def wireString : Value → Image
  | .string text =>
    Image.word 4 ((Text.Utf8.encode text).length + 1) ++ Image.raw (Text.Utf8.encode text ++ [0])
  | _ => Image.nil

/-- The image of a byte string behind its count. -/
def wireBytes (w : CountWidth) : Value → Image
  | .bytes data => Image.word w.bytes data.length ++ Image.raw data
  | _ => Image.nil

/-- The image of an enumerator. -/
def wireEnumerator (enumerators : List Enumerator) : Value → Image
  | .enumerator name =>
    match Enumerator.ordinalOf? name enumerators with
    | some ordinal => Image.word 4 ordinal.toNat
    | none => Image.nil
  | _ => Image.nil

/-- The images of the elements of a collection. -/
def wireEach (element : Value → Image) (items : List Value) : Image :=
  Image.concat (items.map element)

/-- The images of the entries of a map, the key of an entry before its value. -/
def wireEntries (key value : Value → Image) (entries : List (Value × Value)) : Image :=
  Image.concat (entries.map fun e => key e.1 ++ value e.2)

mutual

/-- The image of a value, with `follow` for what lies behind a reference. -/
def wireWith (w : CountWidth) (follow : Reference → Value → Image) : Layout → Value → Image
  | primitive _, v => wirePrimitive v
  | string _, v => wireString v
  | bytes _, v => wireBytes w v
  | array element _, v =>
    match v with
    | .array items => wireEach (wireWith w follow element) items
    | _ => Image.nil
  | sequence element _, v =>
    match v with
    | .array items =>
      Image.word w.bytes items.length ++ wireEach (wireWith w follow element) items
    | _ => Image.nil
  | map key value _, v =>
    match v with
    | .map entries =>
      Image.word w.bytes entries.length ++
        wireEntries (wireWith w follow key) (wireWith w follow value) entries
    | _ => Image.nil
  | enumeration _ enumerators, v => wireEnumerator enumerators v
  | struct _ members, v =>
    match v with
    | .struct given => wireMembers w follow given members
    | _ => Image.nil
  | union ⟨name, discriminator, cases, fallback, tagOnly⟩, v =>
    match v with
    | .union label payload =>
      Image.padding (unionAlignment w ⟨name, discriminator, cases, fallback, tagOnly⟩) ++
        match label with
        | some label =>
          discriminator.tag label ++
            if tagOnly then Image.nil else wireCase w follow label payload cases
        | none =>
          match fallback with
          | some ⟨_, sentinel, content⟩ =>
            discriminator.tag sentinel ++
              if tagOnly then Image.nil else wireWith w follow content payload
          | none => Image.nil
    | _ => Image.nil
  | optional inner, v =>
    if v.isNull then Image.raw [0] else Image.raw [1] ++ wireWith w follow inner v
  | reference target, v => follow target v
termination_by structural l => l

/-- The images of the members of a struct. -/
def wireMembers (w : CountWidth) (follow : Reference → Value → Image)
    (given : List (String × Value)) : List (Member Layout) → Image
  | [] => Image.nil
  | ⟨field, content⟩ :: members =>
    match Dictionary.find? field given with
    | some v => wireWith w follow content v ++ wireMembers w follow given members
    | none => wireMembers w follow given members
termination_by structural members => members

/-- The image of the payload of the first case with a label. -/
def wireCase (w : CountWidth) (follow : Reference → Value → Image) (label : Label)
    (payload : Value) : List (Case Layout) → Image
  | [] => Image.nil
  | ⟨_, labels, content⟩ :: cases =>
    if labels.contains label then wireWith w follow content payload
    else wireCase w follow label payload cases
termination_by structural cases => cases

end

/-- The image of a value that nests through at most `budget` references. -/
def wire (types : Lookup) (w : CountWidth) : Nat → Layout → Value → Image
  | 0 => wireWith w fun _ _ => Image.nil
  | budget + 1 => wireWith w fun target v =>
    match types target.id target.role with
    | .ok layout => wire types w budget layout v
    | .error _ => Image.nil

end Layout

end Cdr
