import Cdr.Declaration.Basic
import Cdr.Json.Basic

/-! Declarations as JSON documents.  A shape is an object that names its kind beside its other
fields; the body of a declaration is an object of one entry that names its kind. -/

namespace Cdr

open Json (ofInt ofOption)

namespace Enumerator

def toJson (e : Enumerator) : Json :=
  .object [("name", .string e.name), ("ordinal", ofInt e.ordinal.toNat)]

end Enumerator

namespace Shape

def boundToJson : Option UInt64 → Json := ofOption fun n => ofInt n.toNat

def kindField (kind : String) : String × Json := ("kind", .string kind)

mutual

def toJson : Shape → Json
  | primitive p => .object [kindField "primitive", ("primitive", .string p.name)]
  | string bound => .object [kindField "string", ("bound", boundToJson bound)]
  | bytes bound => .object [kindField "bytes", ("bound", boundToJson bound)]
  | array element length =>
    .object [kindField "array", ("element", toJson element), ("length", ofInt length.toNat)]
  | sequence element bound =>
    .object [kindField "sequence", ("element", toJson element), ("bound", boundToJson bound)]
  | map key value bound =>
    .object [kindField "map", ("key", toJson key), ("value", toJson value),
      ("bound", boundToJson bound)]
  | enumeration enumerators =>
    .object [kindField "enum", ("enumerators", .array (enumerators.map Enumerator.toJson))]
  | union ⟨discriminator, cases, fallback, keyedByLabel⟩ =>
    .object [kindField "union", ("discriminator", toJson discriminator),
      ("cases", .array (casesToJson cases)), ("default", fallbackToJson fallback),
      ("key_discriminator", .bool keyedByLabel)]
  | optional inner => .object [kindField "optional", ("inner", toJson inner)]
  | named name => .object [kindField "named", ("name", .string name)]
termination_by structural s => s

def casesToJson : List (Case Shape) → List Json
  | [] => []
  | ⟨name, labels, content⟩ :: cases =>
    .object [("name", .string name), ("labels", .array (labels.map fun l => ofInt l.toInt)),
      ("shape", toJson content)] :: casesToJson cases
termination_by structural cases => cases

/-- The document of a default case, which may be absent. -/
def fallbackToJson : Option (DefaultCase Shape) → Json
  | none => .null
  | some ⟨name, content⟩ => .object [("name", .string name), ("shape", toJson content)]
termination_by structural fallback => fallback

end

end Shape

namespace Body

def toJson : Body → Json
  | struct members =>
    .object [("struct", .object [("members", .array (members.map fun m =>
      .object [("name", .string m.name), ("shape", m.content.toJson)]))])]
  | union u =>
    .object [("union", .object [("discriminator", u.discriminator.toJson),
      ("cases", .array (Shape.casesToJson u.cases)), ("default", Shape.fallbackToJson u.fallback),
      ("key_discriminator", .bool u.keyedByLabel)])]
  | enumeration enumerators =>
    .object [("enum", .object [("enumerators", .array (enumerators.map Enumerator.toJson))])]

end Body

def Declaration.toJson (d : Declaration) : Json :=
  .object [("name", .string d.name), ("extensibility", .string d.extensibility.name),
    ("key_members", ofOption (fun keys => .array (keys.map .string)) d.keyMembers),
    ("body", d.body.toJson)]

end Cdr
