import Cdr.Power

/-! The two byte orders of a multi-byte number, the flag that names one of them in the header of a
sample, and the bytes of a number in each order. -/

namespace Cdr

/-- The order in which the bytes of a number are written. -/
inductive ByteOrder where
  /-- The most significant byte comes first. -/
  | big
  /-- The least significant byte comes first. -/
  | little
deriving DecidableEq, Repr, Inhabited

namespace ByteOrder

/-- The flag that names the order in the second byte of a sample's header. -/
def headerFlag : ByteOrder → UInt8
  | big => 0
  | little => 1

def ofHeaderFlag? (flag : UInt8) : Option ByteOrder :=
  if flag = 0 then some big else if flag = 1 then some little else none

@[simp] theorem ofHeaderFlag?_headerFlag (order : ByteOrder) :
    ofHeaderFlag? order.headerFlag = some order := by
  cases order <;> rfl

/-- The lowest `width` bytes of `n`, the least significant first. -/
def ascending : Nat → Nat → List UInt8
  | 0, _ => []
  | width + 1, n => UInt8.ofNat n :: ascending width (n / 256)

/-- The number whose bytes are given, the least significant first. -/
def ofAscending : List UInt8 → Nat
  | [] => 0
  | b :: bs => b.toNat + 256 * ofAscending bs

/-- The lowest `width` bytes of `n` in the given order. -/
def encode (order : ByteOrder) (width n : Nat) : List UInt8 :=
  match order with
  | big => (ascending width n).reverse
  | little => ascending width n

/-- The number that the bytes stand for in the given order. -/
def decode (order : ByteOrder) (bytes : List UInt8) : Nat :=
  match order with
  | big => ofAscending bytes.reverse
  | little => ofAscending bytes

@[simp] theorem length_ascending (width n : Nat) : (ascending width n).length = width := by
  induction width generalizing n with
  | zero => rfl
  | succ width ih => simp [ascending, ih]

@[simp] theorem length_encode (order : ByteOrder) (width n : Nat) :
    (order.encode width n).length = width := by
  cases order <;> simp [encode]

theorem ofAscending_ascending (width n : Nat) :
    ofAscending (ascending width n) = n % 256 ^ width := by
  induction width generalizing n with
  | zero => simp [ascending, ofAscending, Nat.mod_one]
  | succ width ih =>
    rw [ascending, ofAscending, ih, Nat.pow_succ', Nat.mod_mul, UInt8.toNat_ofNat']

/-- Reading what was written gives the number back, modulo what the width can hold. -/
theorem decode_encode (order : ByteOrder) (width n : Nat) :
    order.decode (order.encode width n) = n % 256 ^ width := by
  cases order <;> simp [encode, decode, ofAscending_ascending]

theorem ofAscending_lt (bytes : List UInt8) : ofAscending bytes < 256 ^ bytes.length := by
  induction bytes with
  | nil => exact Nat.one_pos
  | cons b bs ih =>
    have hb := b.toNat_lt
    rw [ofAscending, List.length_cons, Nat.pow_succ]
    omega

/-- The number that bytes stand for is one that their width can hold. -/
theorem decode_lt (order : ByteOrder) (bytes : List UInt8) :
    order.decode bytes < 256 ^ bytes.length := by
  cases order with
  | big =>
    have h := ofAscending_lt bytes.reverse
    rwa [List.length_reverse] at h
  | little => exact ofAscending_lt bytes

end ByteOrder

end Cdr
