import Cdr.Fault

/-! Upper bounds on the size of an encoding.  An extent is an offset that moves forward the way a
writer's cursor does, but by the most that any value could take.  Its arithmetic stops at the
greatest word, which stands for no bound at all.  `Sizing` is a step that moves an extent and may
fail. -/

namespace Cdr

/-- The greatest offset reached so far. -/
structure Extent where
  offset : Nat
deriving DecidableEq, Repr, Inhabited

namespace Extent

/-- The offset that stands for no bound. -/
def limit : Nat := 2 ^ 64 - 1

def zero : Extent := ⟨0⟩

def isUnbounded (e : Extent) : Bool := e.offset == limit

def unbounded : Extent := ⟨limit⟩

/-- The extent after `n` more bytes. -/
def skip (n : Nat) (e : Extent) : Extent := ⟨min limit (e.offset + n)⟩

/-- The extent after padding to a multiple of `size`. -/
def align (size : Nat) (e : Extent) : Extent :=
  if size ≤ 1 ∨ e.isUnbounded then e
  else if e.offset % size = 0 then e
  else e.skip (size - e.offset % size)

/-- The extent after a number of `size` bytes at its alignment. -/
def primitive (size : Nat) (e : Extent) : Extent := (e.align size).skip size

def merge (e f : Extent) : Extent := ⟨max e.offset f.offset⟩

end Extent

/-- A step that moves an extent and may fail. -/
abbrev Sizing := EStateM Fault Extent

namespace Sizing

/-- The padding that a step needs repeats with this period. -/
def period : Nat := 8

/-- The step, `count` times in a row, as long as there is a bound. -/
def naive (step : Sizing Unit) : Nat → Sizing Unit
  | 0 => pure ()
  | count + 1 => do
    if (← get).isUnbounded then return
    step
    naive step count

/-- What is known of an earlier round: the offset modulo the period, the number of rounds that were
left, and the offset. -/
structure Round where
  residue : Nat
  left : Nat
  offset : Nat
deriving DecidableEq, Repr

/-- The step, as often as there are rounds left, after the rounds seen.  A step moves an offset by
an amount that depends on the offset modulo the period only, so once a residue comes back all whole
cycles of rounds that are left are taken at once. -/
def rounds (step : Sizing Unit) (seen : List Round) : Nat → Sizing Unit
  | 0 => pure ()
  | left + 1 => do
    let e ← get
    if e.isUnbounded then return
    match seen.find? (·.residue == e.offset % period) with
    | some start =>
      let cycle := start.left - (left + 1)
      let cycles := (left + 1) / cycle
      modify (Extent.skip (min Extent.limit ((e.offset - start.offset) * cycles)))
      naive step (left + 1 - cycles * cycle)
    | none =>
      step
      rounds step (⟨e.offset % period, left + 1, e.offset⟩ :: seen) left

/-- The step, `count` times in a row. -/
def times (count : Nat) (step : Sizing Unit) : Sizing Unit := rounds step [] count

/-- The extent with that of a branch merged in, which starts at `start`. -/
def branch (start : Extent) (step : Sizing Unit) : Sizing Unit := fun e =>
  match step start with
  | .ok _ f => .ok () (e.merge f)
  | .error fault _ => .error fault e

end Sizing

end Cdr
