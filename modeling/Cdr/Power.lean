/-! Powers of numbers.  They are those of the core library, also in modules that import powers of
monoids, so that a definition means the same to a program and to a proof. -/

namespace Cdr

/-- Powers of natural numbers. -/
@[default_instance 20000] scoped instance (priority := 2000) natPow : Pow Nat Nat := instPowNat

/-- Powers of integers. -/
@[default_instance 15000] scoped instance (priority := 2000) intPow : Pow Int Nat := instPowNat

end Cdr
