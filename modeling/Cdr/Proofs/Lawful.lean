import Cdr.Proofs.Awaiting
import Cdr.Proofs.Format

/-! The rules that a declared type has to keep so that it can be built.  Enumerators are told apart
by their names and by their ordinals, and the cases of a union by labels that its tag can hold.
They are rules of single shapes, and hold of a type if they hold of all shapes inside it.  One more
rule asks that the labels of a union leave a number for its default case. -/

namespace Cdr

/-- There are enumerators, and no name and no ordinal stands twice. -/
def Enumerator.Proper (enumerators : List Enumerator) : Prop :=
  enumerators ≠ [] ∧ Distinct enumerators

/-- The labels of all cases of a union. -/
def UnionOf.labels (u : UnionOf Shape) : List Label := u.cases.flatMap (·.labels)

namespace Shape

/-- The shapes that a shape is made of.  Those of a union are its discriminator and its payloads. -/
def parts : Shape → List Shape
  | array element _ | sequence element _ | optional element => [element]
  | map key value _ => [key, value]
  | union u =>
    u.discriminator :: (u.cases.map (·.content) ++ (u.fallback.map (·.content)).toList)
  | primitive _ | string _ | bytes _ | enumeration _ | named _ => []

/-- The shape is made of the other one, at any depth, or is that shape. -/
inductive Holds : Shape → Shape → Prop
  | here (s : Shape) : Holds s s
  | part {s part inner : Shape} (hpart : part ∈ s.parts) (h : Holds part inner) : Holds s inner

/-- A tag is a primitive that is no float, or an enumeration, given in place or by its name. -/
def IsTag (lookup : String → Option Declaration) : Shape → Prop
  | primitive p => p ≠ .float32 ∧ p ≠ .float64
  | enumeration _ => True
  | named name =>
    ∃ d enumerators, lookup name = some d ∧ d.body = .enumeration enumerators ∧
      Enumerator.Proper enumerators
  | _ => False

end Shape

namespace UnionOf

variable (lookup : String → Option Declaration) (u : UnionOf Shape)

/-- The number of a tag selects at most one case, and every case is selected by some number. -/
structure Lawful : Prop where
  tag : u.discriminator.IsTag lookup
  selectable : u.cases ≠ [] ∨ u.fallback ≠ none
  labelled : ∀ c ∈ u.cases, c.labels ≠ []
  distinct : u.labels.Nodup
  inDomain : ∀ label ∈ u.labels, label.toInt ∈ u.discriminator.tagNumbers lookup

theorem lawful_iff :
    u.Lawful lookup ↔ u.discriminator.IsTag lookup ∧ (u.cases ≠ [] ∨ u.fallback ≠ none) ∧
      (∀ c ∈ u.cases, c.labels ≠ []) ∧ u.labels.Nodup ∧
      ∀ label ∈ u.labels, label.toInt ∈ u.discriminator.tagNumbers lookup :=
  ⟨fun ⟨htag, hsome, hlabelled, hdistinct, hdomain⟩ =>
      ⟨htag, hsome, hlabelled, hdistinct, hdomain⟩,
    fun ⟨htag, hsome, hlabelled, hdistinct, hdomain⟩ =>
      ⟨htag, hsome, hlabelled, hdistinct, hdomain⟩⟩

/-- A default case has a label left that a tag can hold. -/
def Roomy : Prop :=
  u.fallback ≠ none →
    ∃ label : Label, label.toInt ∈ u.discriminator.tagNumbers lookup ∧ label ∉ u.labels

end UnionOf

namespace Shape

variable (lookup : String → Option Declaration)

/-- The shape itself keeps the rules, whatever its parts do. -/
def Lawful : Shape → Prop
  | enumeration enumerators => Enumerator.Proper enumerators
  | union u => u.Lawful lookup
  | _ => True

/-- The shape itself leaves a label for its default case, if it has one. -/
def Roomy : Shape → Prop
  | union u => u.Roomy lookup
  | _ => True

end Shape

namespace Declaration

/-- The shapes that the body of a declared type is made of. -/
def shapes (d : Declaration) : List Shape :=
  match d.body with
  | .struct members => members.map (·.content)
  | .union u => [.union u]
  | .enumeration enumerators => [.enumeration enumerators]

/-- The body of the declared type is made of the shape, at any depth. -/
def Holds (d : Declaration) (s : Shape) : Prop := ∃ top ∈ d.shapes, top.Holds s

end Declaration

namespace Shape

/-- Something holds of all shapes inside a shape just where it holds of the shape itself and of all
shapes inside its parts. -/
theorem forall_holds_iff {P : Shape → Prop} {s : Shape} :
    (∀ inner, s.Holds inner → P inner) ↔
      P s ∧ ∀ part ∈ s.parts, ∀ inner, part.Holds inner → P inner := by
  constructor
  · exact fun h => ⟨h s (.here s), fun part hpart inner hinner => h inner (.part hpart hinner)⟩
  · rintro ⟨hself, hparts⟩ inner hinner
    cases hinner with
    | here => exact hself
    | part hpart hrest => exact hparts _ hpart inner hrest

theorem forall_parts_union {P : Shape → Prop} {u : UnionOf Shape} :
    (∀ part ∈ (union u).parts, P part) ↔
      P u.discriminator ∧ (∀ c ∈ u.cases, P c.content) ∧ ∀ f ∈ u.fallback, P f.content := by
  obtain ⟨discriminator, cases, fallback, keyed⟩ := u
  cases fallback <;> simp [parts, or_imp, forall_and]

section Judgements

variable (lookup : String → Option Declaration)

/-- All shapes inside the shape keep the rules. -/
def AllLawful (s : Shape) : Prop := ∀ inner, s.Holds inner → inner.Lawful lookup

/-- All unions inside the shape leave a label for their default case. -/
def AllRoomy (s : Shape) : Prop := ∀ inner, s.Holds inner → inner.Roomy lookup

variable {lookup}

theorem allLawful_iff {s : Shape} :
    s.AllLawful lookup ↔ s.Lawful lookup ∧ ∀ part ∈ s.parts, part.AllLawful lookup :=
  forall_holds_iff

theorem allRoomy_iff {s : Shape} :
    s.AllRoomy lookup ↔ s.Roomy lookup ∧ ∀ part ∈ s.parts, part.AllRoomy lookup :=
  forall_holds_iff

end Judgements

end Shape

end Cdr
