import Cdr.Extent
import Cdr.Layout.Basic

/-! Bounds on the size of what a layout writes.  A measure moves an extent forward by the most that
any value could take.  A reference that is met again on its own path has no bound. -/

namespace Cdr.Layout

/-- The assumptions under which layouts are measured. -/
structure Assumptions where
  countWidth : CountWidth
  /-- The number of elements that an unbounded collection is assumed to have. -/
  unboundedLength : Nat
deriving DecidableEq, Repr

/-- The greatest number of elements of a collection. -/
def Assumptions.greatest (a : Assumptions) (bound : Option UInt64) : Nat :=
  match bound with
  | some n => n.toNat
  | none => a.unboundedLength

/-- The step, unless there is no bound any more. -/
def unlessUnbounded (step : Sizing Unit) : Sizing Unit := do
  if !(← get).isUnbounded then step

mutual

/-- Measures a layout, with `follow` for what lies behind a reference. -/
def measureWith (a : Assumptions) (follow : Reference → Sizing Unit) : Layout → Sizing Unit
  | primitive p => unlessUnbounded (modify (Extent.primitive p.size))
  | string bound => unlessUnbounded <|
    modify fun e => ((e.primitive 4).skip (a.greatest bound)).skip 1
  | bytes bound => unlessUnbounded <|
    modify fun e => (e.primitive a.countWidth.bytes).skip (a.greatest bound)
  | array element length =>
    unlessUnbounded (Sizing.times length.toNat (measureWith a follow element))
  | sequence element bound => unlessUnbounded do
    modify (Extent.primitive a.countWidth.bytes)
    Sizing.times (a.greatest bound) (measureWith a follow element)
  | map key value bound => unlessUnbounded do
    modify (Extent.primitive a.countWidth.bytes)
    Sizing.times (a.greatest bound) do
      measureWith a follow key
      measureWith a follow value
  | enumeration .. => unlessUnbounded (modify (Extent.primitive 4))
  | struct _ members => unlessUnbounded (measureMembers a follow members)
  | union ⟨name, discriminator, cases, fallback, tagOnly⟩ => unlessUnbounded do
    modify (Extent.align
      (unionAlignment a.countWidth ⟨name, discriminator, cases, fallback, tagOnly⟩))
    modify (Extent.primitive discriminator.alignment)
    if !tagOnly then
      let start ← get
      measureCases a follow start cases
      match fallback with
      | some ⟨_, _, content⟩ => Sizing.branch start (measureWith a follow content)
      | none => pure ()
  | optional inner => unlessUnbounded do
    modify (Extent.skip 1)
    measureWith a follow inner
  | reference target => unlessUnbounded (follow target)
termination_by structural l => l

/-- Measures the members of a struct, one after the other. -/
def measureMembers (a : Assumptions) (follow : Reference → Sizing Unit) :
    List (Member Layout) → Sizing Unit
  | [] => pure ()
  | ⟨_, content⟩ :: members => do
    measureWith a follow content
    measureMembers a follow members
termination_by structural members => members

/-- Merges the measures of the payloads of the cases, each from the same start. -/
def measureCases (a : Assumptions) (follow : Reference → Sizing Unit) (start : Extent) :
    List (Case Layout) → Sizing Unit
  | [] => pure ()
  | ⟨_, _, content⟩ :: cases => do
    Sizing.branch start (measureWith a follow content)
    measureCases a follow start cases
termination_by structural cases => cases

end

/-- Measures a layout.  The references on the path that leads to it are `visiting`, and `budget`
more may be followed: a longer chain of references has no bound. -/
def measure (types : Lookup) (a : Assumptions) :
    Nat → List (Nat × Role) → Layout → Sizing Unit
  | 0, _ => measureWith a fun _ => set Extent.unbounded
  | budget + 1, visiting => measureWith a fun target =>
    if (target.id, target.role) ∈ visiting then set Extent.unbounded
    else
      match types target.id target.role with
      | .ok layout => measure types a budget ((target.id, target.role) :: visiting) layout
      | .error fault => throw fault

end Cdr.Layout
