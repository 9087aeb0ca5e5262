import Cdr.Proofs.Histories
import Cdr.Proofs.Thresholds

/-! Raw keyhashes identify instances.  Where unbounded collections are assumed to be long enough, a
type whose keys are measured to fit a keyhash has no keys that do not: a collection without a bound
counts in the measure unless its elements take no bytes.  So no byte of a key is cut off, and
keyhashes tell values apart as keys do. -/

namespace Cdr

theorem KeyHash.eq_iff {hash hash' : KeyHash} : hash = hash' ↔ hash.bytes = hash'.bytes := by
  constructor
  · exact fun heq => congrArg KeyHash.bytes heq
  · intro hbytes
    cases hash
    cases hash'
    cases hbytes
    rfl

namespace Registry

variable {r : Registry} {h : Handle}

/-- In raw mode the longest key fits a keyhash. -/
theorem size_le_of_raw {size : Nat} (hmode : r.keyHashMode h = .ok .raw)
    (hsize : r.maxKeySize h = .ok size) : size ≤ keyHashSize := by
  rw [keyHashMode, hsize] at hmode
  have hraw : KeyHashMode.ofMaxKeySize size = .raw := Except.ok.inj hmode
  unfold KeyHashMode.ofMaxKeySize at hraw
  by_contra hlong
  rw [if_neg hlong] at hraw
  cases hraw

/-- The keyhash of a type with short keys is its padded key. -/
theorem Sound.keyHash_of_raw (hr : r.Sound)
    (hlong : keyHashSize < r.config.countWidth.bytes + r.config.maxUnboundedLength)
    (hmode : r.keyHashMode h = .ok .raw) {v : Value} {k : List UInt8} (hk : r.key h v = .ok k) :
    ∃ hash, r.keyHash h v = .ok hash ∧ hash.bytes = k := by
  obtain ⟨size, u, hash, hsize, -, hhash, hraw, -⟩ := hr.thresholdLaw hlong h v k hk
  exact ⟨hash, hhash, (hraw (size_le_of_raw hmode hsize)).2⟩

/-- Where unbounded collections are assumed to have at least sixteen elements, two values of a type
in raw mode that have keys have the same keyhash just where they have the same key members in normal
form. -/
theorem keyHash_eq_iff {config : Config} {events : List Event} {h : Handle} {v v' : Value}
    {k k' : List UInt8} (hlong : 16 ≤ config.maxUnboundedLength)
    (hmode : (after { config := config } events).keyHashMode h = .ok .raw)
    (hk : (after { config := config } events).key h v = .ok k)
    (hk' : (after { config := config } events).key h v' = .ok k') :
    let r := after { config := config } events
    ∃ hash hash', r.keyHash h v = .ok hash ∧ r.keyHash h v' = .ok hash' ∧
      (hash = hash' ↔ r.projection h v = r.projection h v') := by
  intro r
  have hr : r.Sound := (steady_after config events).sound
  have hconfig : r.config = config := config_after config events
  have hcounts : 0 < config.countWidth.bytes := by
    cases config.countWidth <;> decide
  have hfits : keyHashSize < r.config.countWidth.bytes + r.config.maxUnboundedLength := by
    rw [hconfig, keyHashSize]
    omega
  obtain ⟨hash, hhash, hbytes⟩ := hr.keyHash_of_raw hfits hmode hk
  obtain ⟨hash', hhash', hbytes'⟩ := hr.keyHash_of_raw hfits hmode hk'
  refine ⟨hash, hash', hhash, hhash', ?_⟩
  rw [KeyHash.eq_iff, hbytes, hbytes']
  exact hr.key_eq_iff hk hk'

/-- A type without members, whose values take no bytes. -/
def mark : Declaration :=
  { name := "Mark", body := .struct [] }

/-- A type that holds any number of marks. -/
def tally : Declaration :=
  { name := "Tally"
    keyMembers := some ["marks"]
    body := .struct [⟨"marks", .sequence (.named "Mark") none⟩, ⟨"note", .string none⟩] }

/-- Tallies are in raw mode, since marks take no bytes, and those of different length have different
keyhashes. -/
theorem keyHash_tally :
    let r := after { } [.register mark, .register tally]
    let three := Value.struct
      [("marks", .array [.struct [], .struct [], .struct []]), ("note", .string "a")]
    let four := Value.struct
      [("marks", .array [.struct [], .struct [], .struct [], .struct []]), ("note", .string "a")]
    r.keyHashMode ⟨1, "Tally"⟩ = .ok .raw ∧
      (∃ hash hash', r.keyHash ⟨1, "Tally"⟩ three = .ok hash ∧
        r.keyHash ⟨1, "Tally"⟩ four = .ok hash' ∧ hash ≠ hash') ∧
      r.projection ⟨1, "Tally"⟩ three ≠ r.projection ⟨1, "Tally"⟩ four := by
  intro r three four
  have hmode : r.keyHashMode ⟨1, "Tally"⟩ = .ok .raw := by decide
  have hthree : r.key ⟨1, "Tally"⟩ three =
      .ok [0, 3, 0, 0, 0, 0, 0, 0, 0, 0, 0, 0, 0, 0, 0, 0] := by decide
  have hfour : r.key ⟨1, "Tally"⟩ four =
      .ok [0, 4, 0, 0, 0, 0, 0, 0, 0, 0, 0, 0, 0, 0, 0, 0] := by decide
  obtain ⟨hash, hash', hhash, hhash', hiff⟩ :=
    keyHash_eq_iff (by decide) hmode hthree hfour
  have hne : hash ≠ hash' := by
    intro heq
    rw [heq, ← hhash'] at hhash
    revert hhash
    decide
  exact ⟨hmode, ⟨hash, hash', hhash, hhash', hne⟩, fun hproj => hne (hiff.mpr hproj)⟩

end Registry

end Cdr
