import Cdr.Label

/-! What can go wrong: the causes of a fault, their texts and named details, and the path of the
member that a fault arose in.  A fault found inside a member is wrapped with the member's name;
wrapping it again puts the outer name in front of the path, so a path reads from the outside in. -/

namespace Cdr

/-- The reason of a fault. -/
inductive Cause where
  /-- A string, byte string, sequence or map is longer than its bound. -/
  | boundExceeded (member : String) (length bound : Nat)
  /-- A type is used while names that it depends on are not registered. -/
  | unresolved (typeName : String) (missing : List String)
  /-- A declared shape has no layout. -/
  | unencodable (typeName reason : String)
  /-- Every value of a union's discriminator is a case label, so none is left for the default. -/
  | domainExhausted (typeName : String)
  /-- A union value carries a label that selects no case. -/
  | unknownLabel (typeName : String) (label : Label)
  /-- Fewer bytes are left than a read needs. -/
  | tooShort (requested available position : Nat)
  /-- The bytes read form no value. -/
  | invalidData (context message : String)
  /-- A value does not fit the layout that it is written with. -/
  | mismatch (expected found : String)
  /-- A struct value lacks a declared member. -/
  | missingMember (typeName member : String)
  /-- A declaration breaks a rule. -/
  | invalidSchema (schema reason : String)
  /-- No type of this name is registered. -/
  | unknownType (typeName : String)
  /-- A configuration cannot be read. -/
  | configuration (message : String)
  | other (message : String)
deriving DecidableEq, Repr

namespace Cause

def message : Cause → String
  | boundExceeded member length bound =>
    s!"Bounds violation in '{member}': length {length} exceeds bound {bound}"
  | unresolved typeName missing =>
    s!"Unresolved dependency for '{typeName}': missing " ++ ", ".intercalate missing
  | unencodable typeName reason => s!"Unencodable shape in '{typeName}': {reason}"
  | domainExhausted typeName =>
    s!"Union '{typeName}' has no discriminator value left for its default case"
  | unknownLabel typeName label =>
    s!"Invalid discriminator {label.toInt} for union '{typeName}'"
  | tooShort requested available position =>
    s!"Buffer too short: requested {requested} bytes at position {position}, " ++
      s!"but only {available} bytes available"
  | invalidData context message => s!"Invalid data in {context}: {message}"
  | mismatch expected found => s!"Type mismatch: expected {expected}, found {found}"
  | missingMember typeName member => s!"Struct '{typeName}' is missing member '{member}'"
  | invalidSchema schema reason => s!"Invalid schema '{schema}': {reason}"
  | unknownType typeName => s!"Type not found: '{typeName}'"
  | configuration message => s!"Config error: {message}"
  | other message => s!"Other error: {message}"

def details : Cause → List (String × String)
  | boundExceeded member length bound =>
    [("member", member), ("length", toString length), ("bound", toString bound)]
  | unresolved typeName missing => [("type", typeName), ("missing", ",".intercalate missing)]
  | unencodable typeName reason => [("type", typeName), ("reason", reason)]
  | domainExhausted typeName => [("type", typeName)]
  | unknownLabel typeName label => [("type", typeName), ("label", toString label.toInt)]
  | tooShort requested available position =>
    [("requested", toString requested), ("available", toString available),
      ("cursor", toString position)]
  | invalidData context message => [("context", context), ("message", message)]
  | mismatch expected found => [("expected", expected), ("found", found)]
  | missingMember typeName member => [("type", typeName), ("member", member)]
  | invalidSchema schema reason => [("schema", schema), ("reason", reason)]
  | unknownType typeName => [("type", typeName)]
  | configuration message => [("config", message)]
  | other message => [("message", message)]

/-- The cause says that the bytes read are no encoding of a value. -/
def isDecodeFailure : Cause → Bool
  | tooShort .. | invalidData .. => true
  | _ => false

end Cause

/-- A cause with the path of the member that it arose in, the outermost name first.  The path is
empty when the cause arose outside every member. -/
structure Fault where
  path : List String
  cause : Cause
deriving DecidableEq, Repr

/-- The fault of a cause outside every member. -/
def Cause.fault (cause : Cause) : Fault := ⟨[], cause⟩

namespace Fault

/-- The fault as seen from outside the member `field`. -/
def inField (field : String) (fault : Fault) : Fault := { fault with path := field :: fault.path }

/-- The names of the path joined with dots, if the fault arose inside a member. -/
def fieldPath? (fault : Fault) : Option String :=
  if fault.path.isEmpty then none else some (".".intercalate fault.path)

def message (fault : Fault) : String :=
  match fault.fieldPath? with
  | none => fault.cause.message
  | some path => s!"Failed to encode field '{path}': " ++ fault.cause.message

def details (fault : Fault) : List (String × String) :=
  match fault.fieldPath? with
  | none => fault.cause.details
  | some path => [("field", path), ("cause", fault.cause.message)]

/-- The fault says that the bytes read are no encoding of a value. -/
def isDecodeFailure (fault : Fault) : Bool := fault.cause.isDecodeFailure

end Fault

end Cdr
