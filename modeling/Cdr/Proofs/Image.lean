import Cdr.ByteOrder

/-! Images: the bytes that a step puts into a buffer, as a function of the byte order and of the
offset that they start at.  Joining two images starts the second where the first ends, so the
padding in front of a number comes out of the offset and of nothing else. -/

namespace Cdr

/-- The number of bytes from an offset to the next multiple of `size`. -/
def gap (size offset : Nat) : Nat := if size ≤ 1 then 0 else (size - offset % size) % size

@[simp] theorem gap_one (offset : Nat) : gap 1 offset = 0 := rfl

theorem dvd_add_gap {size : Nat} (hs : 0 < size) (offset : Nat) :
    size ∣ offset + gap size offset := by
  unfold gap
  split
  · obtain rfl : size = 1 := by omega
    exact Nat.one_dvd _
  · have hlt := Nat.mod_lt offset hs
    by_cases h0 : offset % size = 0
    · simpa [h0] using Nat.dvd_of_mod_eq_zero h0
    · rw [Nat.mod_eq_of_lt (by omega : size - offset % size < size)]
      have hdiv := Nat.div_add_mod offset size
      exact ⟨offset / size + 1, by rw [Nat.mul_add]; omega⟩

theorem gap_lt {size : Nat} (hs : 0 < size) (offset : Nat) : gap size offset < size := by
  unfold gap
  split
  · exact hs
  · exact Nat.mod_lt _ hs

/-- The padded offset is the least multiple of the size that is not below the offset. -/
theorem add_gap_le {size offset bound : Nat} (hs : 0 < size) (hd : size ∣ bound)
    (hle : offset ≤ bound) : offset + gap size offset ≤ bound := by
  obtain ⟨k, hk⟩ := dvd_add_gap hs offset
  obtain ⟨m, rfl⟩ := hd
  have hlt := gap_lt hs offset
  have hk1 : size * k < size * (m + 1) := by
    rw [Nat.mul_add]
    omega
  have hkm : k < m + 1 := Nat.lt_of_mul_lt_mul_left hk1
  rw [hk]
  exact Nat.mul_le_mul_left size (by omega)

theorem add_gap_mono {size offset other : Nat} (h : offset ≤ other) :
    offset + gap size offset ≤ other + gap size other := by
  by_cases hs : 0 < size
  · exact add_gap_le hs (dvd_add_gap hs other) (by omega)
  · have hz : ∀ n, gap size n = 0 := fun n => by simp [gap, show size ≤ 1 by omega]
    simpa [hz] using h

/-- Bytes that depend on the byte order and on the offset of the first of them. -/
@[ext] structure Image where
  bytes : ByteOrder → Nat → List UInt8

namespace Image

/-- No bytes. -/
def nil : Image := ⟨fun _ _ => []⟩

/-- The same bytes at every offset. -/
def raw (bytes : List UInt8) : Image := ⟨fun _ _ => bytes⟩

/-- Zero bytes up to the next multiple of a size. -/
def padding (size : Nat) : Image := ⟨fun _ offset => List.replicate (gap size offset) 0⟩

/-- One image behind another. -/
def append (f g : Image) : Image :=
  ⟨fun order offset =>
    f.bytes order offset ++ g.bytes order (offset + (f.bytes order offset).length)⟩

instance : Append Image := ⟨append⟩

@[simp] theorem bytes_nil (order : ByteOrder) (offset : Nat) : nil.bytes order offset = [] := rfl

@[simp] theorem bytes_raw (bytes : List UInt8) (order : ByteOrder) (offset : Nat) :
    (raw bytes).bytes order offset = bytes := rfl

@[simp] theorem bytes_append (f g : Image) (order : ByteOrder) (offset : Nat) :
    (f ++ g).bytes order offset =
      f.bytes order offset ++ g.bytes order (offset + (f.bytes order offset).length) := rfl

@[simp] theorem nil_append (f : Image) : nil ++ f = f := by ext1; funext order offset; simp

@[simp] theorem append_nil (f : Image) : f ++ nil = f := by ext1; funext order offset; simp

theorem append_assoc (f g h : Image) : f ++ g ++ h = f ++ (g ++ h) := by
  ext1; funext order offset; simp [Nat.add_assoc]

theorem raw_append (xs ys : List UInt8) : raw xs ++ raw ys = raw (xs ++ ys) := rfl

/-- A number of `width` bytes at its alignment. -/
def word (width n : Nat) : Image := padding width ++ ⟨fun order _ => order.encode width n⟩

theorem bytes_word (width n : Nat) (order : ByteOrder) (offset : Nat) :
    (word width n).bytes order offset =
      List.replicate (gap width offset) 0 ++ order.encode width n := by
  simp [word, padding]

/-- Images one behind the other. -/
def concat : List Image → Image
  | [] => nil
  | f :: fs => f ++ concat fs

end Image

end Cdr
