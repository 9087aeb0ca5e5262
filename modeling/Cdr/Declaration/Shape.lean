import Cdr.Label
import Cdr.Primitive

/-! The shapes of declared types.  A shape says what a member, a union case or an element of a
collection looks like; a shape that names another declared type is a reference to it.  The parts of
a union are parametric in what its cases hold, so that layouts use them too. -/

namespace Cdr

/-- A name of an enumeration with the number that stands for it. -/
structure Enumerator where
  name : String
  ordinal : UInt32
deriving DecidableEq, Repr

namespace Enumerator

/-- Enumerators numbered from zero on. -/
def sequential (names : List String) : List Enumerator :=
  names.zipIdx.map fun (name, i) => ⟨name, UInt32.ofNat i⟩

def ordinalOf? (name : String) (enumerators : List Enumerator) : Option UInt32 :=
  (enumerators.find? (·.name == name)).map (·.ordinal)

def nameOf? (ordinal : UInt32) (enumerators : List Enumerator) : Option String :=
  (enumerators.find? (·.ordinal == ordinal)).map (·.name)

end Enumerator

/-- A named member of a struct. -/
structure Member (α : Type) where
  name : String
  content : α
deriving DecidableEq, Repr

/-- A case of a union, selected by any of its labels. -/
structure Case (α : Type) where
  name : String
  labels : List Label
  content : α
deriving DecidableEq, Repr

/-- The default case of a declared union. -/
structure DefaultCase (α : Type) where
  name : String
  content : α
deriving DecidableEq, Repr

/-- A declared union. -/
structure UnionOf (α : Type) where
  discriminator : α
  cases : List (Case α)
  fallback : Option (DefaultCase α)
  /-- Only the label takes part in a key. -/
  keyedByLabel : Bool
deriving DecidableEq, Repr

/-- The shape of a part of a declared type. -/
inductive Shape where
  | primitive (p : Primitive)
  /-- A text of at most `bound` bytes. -/
  | string (bound : Option UInt64)
  | bytes (bound : Option UInt64)
  /-- Exactly `length` elements. -/
  | array (element : Shape) (length : UInt64)
  | sequence (element : Shape) (bound : Option UInt64)
  | map (key value : Shape) (bound : Option UInt64)
  | enumeration (enumerators : List Enumerator)
  | union (u : UnionOf Shape)
  /-- A value that may be absent. -/
  | optional (inner : Shape)
  /-- Another declared type. -/
  | named (name : String)
deriving Repr, Inhabited

namespace Shape

/-- A short text for a shape, used in messages. -/
def describe : Shape → String
  | primitive p => p.name
  | string (some n) => "string<" ++ toString n.toNat ++ ">"
  | string none => "string"
  | bytes (some n) => "bytes<" ++ toString n.toNat ++ ">"
  | bytes none => "bytes"
  | array element length => describe element ++ "[" ++ toString length.toNat ++ "]"
  | sequence element (some n) => "sequence<" ++ describe element ++ ", " ++ toString n.toNat ++ ">"
  | sequence element none => "sequence<" ++ describe element ++ ">"
  | map key value _ => "map<" ++ describe key ++ ", " ++ describe value ++ ">"
  | enumeration _ => "enum"
  | union _ => "union"
  | optional inner => "optional<" ++ describe inner ++ ">"
  | named name => name

mutual

/-- The names that a shape refers to, in the order in which they appear, with repetitions. -/
def names : Shape → List String
  | primitive _ | string _ | bytes _ | enumeration _ => []
  | array element _ | sequence element _ => names element
  | map key value _ => names key ++ names value
  | union ⟨discriminator, cases, fallback, _⟩ =>
    names discriminator ++ caseNames cases ++ fallbackNames fallback
  | optional inner => names inner
  | named name => [name]
termination_by structural s => s

def caseNames : List (Case Shape) → List String
  | [] => []
  | ⟨_, _, content⟩ :: cases => names content ++ caseNames cases
termination_by structural cases => cases

def fallbackNames : Option (DefaultCase Shape) → List String
  | none => []
  | some ⟨_, content⟩ => names content
termination_by structural fallback => fallback

end

mutual

def same : Shape → Shape → Bool
  | primitive a, primitive b => a == b
  | string a, string b => a == b
  | bytes a, bytes b => a == b
  | array a m, array b n => same a b && m == n
  | sequence a m, sequence b n => same a b && m == n
  | map a c m, map b d n => same a b && same c d && m == n
  | enumeration a, enumeration b => a == b
  | union ⟨d, as, f, k⟩, union ⟨e, bs, g, l⟩ =>
    same d e && sameCases as bs && sameFallback f g && k == l
  | optional a, optional b => same a b
  | named a, named b => a == b
  | _, _ => false
termination_by structural s => s

def sameCases : List (Case Shape) → List (Case Shape) → Bool
  | [], [] => true
  | ⟨n, l, a⟩ :: as, ⟨m, k, b⟩ :: bs => n == m && l == k && same a b && sameCases as bs
  | _, _ => false
termination_by structural cases => cases

def sameFallback : Option (DefaultCase Shape) → Option (DefaultCase Shape) → Bool
  | none, none => true
  | some ⟨n, a⟩, some ⟨m, b⟩ => n == m && same a b
  | _, _ => false
termination_by structural fallback => fallback

end

mutual

theorem same_iff (a b : Shape) : same a b = true ↔ a = b := by
  match a with
  | primitive _ | string _ | bytes _ | enumeration _ | named _ => cases b <;> simp [same]
  | array e _ | sequence e _ => cases b <;> simp [same, same_iff e]
  | optional e => cases b <;> simp [same, same_iff e]
  | map k v _ => cases b <;> simp [same, same_iff k, same_iff v, and_assoc]
  | union ⟨d, as, f, k⟩ =>
    cases b <;> simp [same, same_iff d, sameCases_iff as, sameFallback_iff f]
    rename_i u
    cases u
    simp [and_assoc]
termination_by structural a

theorem sameCases_iff (as bs : List (Case Shape)) : sameCases as bs = true ↔ as = bs := by
  match as with
  | [] => cases bs <;> simp [sameCases]
  | ⟨n, l, a⟩ :: as =>
    match bs with
    | [] => simp [sameCases]
    | ⟨m, k, b⟩ :: bs => simp [sameCases, same_iff a, sameCases_iff as, and_assoc]
termination_by structural as

theorem sameFallback_iff (f g : Option (DefaultCase Shape)) :
    sameFallback f g = true ↔ f = g := by
  match f, g with
  | none, none => simp [sameFallback]
  | none, some _ => simp [sameFallback]
  | some ⟨n, a⟩, none => simp [sameFallback]
  | some ⟨n, a⟩, some ⟨m, b⟩ => simp [sameFallback, same_iff a]
termination_by structural f

end

instance : DecidableEq Shape := fun a b => decidable_of_iff _ (same_iff a b)

end Shape

end Cdr
