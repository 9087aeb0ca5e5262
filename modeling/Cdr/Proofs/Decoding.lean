import Cdr.Proofs.Encoding
import Cdr.Proofs.Quiet
import Cdr.Proofs.Samples
import Cdr.Proofs.Yielding

/-! Decoding of any bytes.  Bytes need not come from an encoder: they may choose a case by a label
that is not listed, mark a value as present that is absent, or go on behind the value.  Whatever is
decoded is nevertheless a value that the type admits as it is declared, which can be encoded and is
then decoded again. -/

namespace Cdr.Registry

variable {r : Registry} {h : Handle} {v : Value} {bytes : List UInt8}

theorem exists_maxKeySize_of_deserialize (hok : r.deserialize h bytes = .ok v) :
    ∃ size, r.maxKeySize h = .ok size := by
  obtain ⟨l, hl, -⟩ := except_bind_eq_ok.mp hok
  obtain ⟨size, hsize, -⟩ := sampleLayout_eq_ok.mp hl
  exact ⟨size, hsize⟩

theorem exists_maxKeySize_of_deserializeKey (hok : r.deserializeKey h bytes = .ok v) :
    ∃ size, r.maxKeySize h = .ok size := by
  obtain ⟨l, hl, -⟩ := except_bind_eq_ok.mp hok
  obtain ⟨size, hsize, -⟩ := keyLayout_eq_ok.mp hl
  exact ⟨size, hsize⟩

theorem accepts_of_admits (hv : r.Admits .declared h v) : r.Admits .accepted h v := by
  obtain ⟨d, hd, hadmits⟩ := hv
  exact ⟨d, hd, d.accepts_of_admits Form.writable_declared id
    (Catalog.acceptsNamed_of_admits Form.writable_declared id _) hadmits⟩

theorem acceptsKey_of_admitsKey (hv : r.AdmitsKey .declared h v) : r.AdmitsKey .accepted h v := by
  obtain ⟨d, hd, hadmits⟩ := hv
  refine ⟨d, hd, ?_⟩
  split
  · rename_i hkeyless
    rw [if_pos hkeyless] at hadmits
    obtain ⟨given, rfl, -⟩ := hadmits
    exact ⟨given, rfl, trivial⟩
  · rename_i hkeyless
    rw [if_neg hkeyless] at hadmits
    exact d.accepts_of_admits Form.writable_declared id
      (Catalog.acceptsNamed_of_admits Form.writable_declared id _) hadmits

/-- A value that a usable type admits as it is declared is serialized in both byte orders, and what
is read back is the value, up to what is not a number. -/
theorem Sound.serializeIn_of_admits (hr : r.Sound) {size : Nat} (hsize : r.maxKeySize h = .ok size)
    (hv : r.Admits .declared h v) (order : ByteOrder) :
    ∃ bytes v', r.serializeIn h order v = .ok bytes ∧ r.deserialize h bytes = .ok v' ∧
      v'.quieted = v.quieted := by
  obtain ⟨bytes, hok⟩ := (hr.exists_serializeIn order).mpr ⟨⟨size, hsize⟩, accepts_of_admits hv⟩
  obtain ⟨l, hl, hencode⟩ := except_bind_eq_ok.mp hok
  obtain ⟨hdecode, -⟩ := Sample.decode_encode (hr.roundTrips_sampleLayout hl v) hencode
  refine ⟨bytes, r.normal h v, hok, ?_, hr.quieted_normal hv⟩
  rw [deserialize, hl]
  exact hdecode

/-- A value that the key of a usable type admits as it is declared has a key, and what is read back
is the value, up to what is not a number. -/
theorem Sound.key_of_admitsKey (hr : r.Sound) {size : Nat} (hsize : r.maxKeySize h = .ok size)
    (hv : r.AdmitsKey .declared h v) :
    ∃ k v', r.key h v = .ok k ∧ r.deserializeKey h k = .ok v' ∧ v'.quieted = v.quieted := by
  obtain ⟨u, hu⟩ := hr.exists_unpaddedKey.mpr ⟨⟨size, hsize⟩, acceptsKey_of_admitsKey hv⟩
  exact ⟨padKey u, r.projection h v, key_of_unpaddedKey hu, hr.deserializeKey_append hu _,
    hr.quieted_projection hv⟩

/-- Whatever the bytes are, a value that is deserialized is one that the type admits as it is
declared; it can be serialized in both byte orders, and it is then deserialized again, up to what is
not a number.  The same holds of keys. -/
theorem admits_and_reencodes {config : Config} (hr : Reachable config r) :
    (∀ bytes v, r.deserialize h bytes = .ok v →
      r.Admits .declared h v ∧ ∀ order, ∃ bytes' v', r.serializeIn h order v = .ok bytes' ∧
        r.deserialize h bytes' = .ok v' ∧ v'.quieted = v.quieted) ∧
    ∀ bytes v, r.deserializeKey h bytes = .ok v →
      r.AdmitsKey .declared h v ∧ ∃ k v', r.key h v = .ok k ∧
        r.deserializeKey h k = .ok v' ∧ v'.quieted = v.quieted := by
  refine ⟨fun bytes v hok => ?_, fun bytes v hok => ?_⟩
  · have hv := hr.sound.admits_of_deserialize hok
    obtain ⟨size, hsize⟩ := exists_maxKeySize_of_deserialize hok
    exact ⟨hv, hr.sound.serializeIn_of_admits hsize hv⟩
  · have hv := hr.sound.admitsKey_of_deserializeKey hok
    obtain ⟨size, hsize⟩ := exists_maxKeySize_of_deserializeKey hok
    exact ⟨hv, hr.sound.key_of_admitsKey hsize hv⟩

/-- A type with an enumeration, a float, and a value that may be absent twice over. -/
def probe : Declaration :=
  { name := "Probe"
    body := .struct
      [⟨"code", .primitive .char⟩, ⟨"level", .primitive .float32⟩,
        ⟨"mode", .enumeration [⟨"OFF", 4⟩, ⟨"ON", 9⟩]⟩,
        ⟨"gap", .optional (.optional (.primitive .bool))⟩] }

/-- Bytes that no encoder gives: the padding is not zero, the float is a not-a-number that is not
quiet, a value that is absent is marked as present, and there is a byte too many. -/
def probed : List UInt8 :=
  [0, 1, 0, 0, 65, 0xAA, 0xBB, 0xCC, 1, 0, 0x80, 0x7F, 9, 0, 0, 0, 1, 0, 0xEE]

/-- What a probe holds, with the bits of its level. -/
def found (level : UInt32) : Value :=
  .struct
    [("code", .char 'A'), ("gap", .null), ("level", .float32 level), ("mode", .enumerator "ON")]

/-- The bytes give a value that the type admits, which is read back with a quiet not-a-number. -/
theorem admits_and_reencodes_probe :
    let r := afterRegister probe { config := { } }
    r.deserialize ⟨0, "Probe"⟩ probed = .ok (found 0x7F800001) ∧
      r.Admits .declared ⟨0, "Probe"⟩ (found 0x7F800001) ∧
      ∃ bytes v, r.serializeIn ⟨0, "Probe"⟩ .little (found 0x7F800001) = .ok bytes ∧
        r.deserialize ⟨0, "Probe"⟩ bytes = .ok v ∧ v.quieted = found 0x7FC00000 := by
  have hok : (afterRegister probe { config := { } }).deserialize ⟨0, "Probe"⟩ probed =
      .ok (found 0x7F800001) := by rfl
  have hquieted : (found 0x7F800001).quieted = found 0x7FC00000 := by rfl
  obtain ⟨hadmits, hagain⟩ :=
    (admits_and_reencodes (Reachable.new.register probe)).1 probed _ hok
  obtain ⟨bytes, v, hserialize, hdeserialize, hquiet⟩ := hagain .little
  exact ⟨hok, hadmits, bytes, v, hserialize, hdeserialize, hquiet.trans hquieted⟩

end Cdr.Registry
