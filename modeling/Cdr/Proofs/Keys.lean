import Cdr.Proofs.Resolved

/-! Keys are read back.  A key stands for the projection of a value to its key members, whatever
bytes follow it, so the zero bytes that pad a short key do no harm, and two values have the same key
just where they have the same projection. -/

namespace Cdr

namespace Key

/-- A buffer prepared for a key is empty and has the cursor at its start. -/
theorem prepare_eq (b : Buffer) :
    (prepare b).toList = [] ∧ (prepare b).cursor = 0 ∧ (prepare b).length = 0 ∧
      (prepare b).origin = 0 ∧ (prepare b).order = .big := by
  have hreserve : b.zeroOut.reserve 0 = b.zeroOut := by simp [Buffer.reserve]
  have hprepare : prepare b = { b.zeroOut with cursor := 0, origin := 0, order := .big } := by
    unfold prepare Buffer.seek
    rw [hreserve]
  rw [hprepare]
  exact ⟨by simp [Buffer.toList, Buffer.zeroOut], rfl, rfl, rfl, rfl⟩

theorem encode_apply (c : Context) (layout : Layout) (v : Value) (b : Buffer) :
    encode c layout v b =
      match c.write layout v (prepare b) with
      | .ok _ b => .ok b.toList b
      | .error fault b => .error fault b := by
  unfold encode
  rw [Coding.bind_apply]
  show (c.write layout v >>= fun _ => get >>= fun b => pure b.toList) (prepare b) = _
  rw [Coding.bind_apply]
  cases c.write layout v (prepare b) <;> rfl

theorem encode_eq_ok {c : Context} {layout : Layout} {v : Value} {b b' : Buffer}
    {key : List UInt8} (h : encode c layout v b = .ok key b') :
    c.write layout v (prepare b) = .ok () b' ∧ key = b'.toList := by
  unfold encode at h
  obtain ⟨⟨⟩, _, ⟨⟩, h⟩ := Coding.bind_eq_ok.mp h
  obtain ⟨⟨⟩, written, hwrite, h⟩ := Coding.bind_eq_ok.mp h
  cases h
  exact ⟨hwrite, rfl⟩

/-- The buffer that a key is read from. -/
def opened (bytes : List UInt8) : Buffer := { Buffer.ofBytes bytes with order := .big }

theorem rest_opened (bytes : List UInt8) : (opened bytes).rest = bytes := by
  simp [opened, Buffer.rest, Buffer.toList, Buffer.ofBytes]

theorem room_opened (bytes : List UInt8) : (opened bytes).length ≤ (opened bytes).capacity := by
  simp [opened, Buffer.ofBytes, Buffer.capacity]

theorem decode_eq_ok {c : Context} {layout : Layout} {bytes : List UInt8} {v : Value} :
    decode c layout bytes = .ok v ↔ ∃ b, c.read layout (opened bytes) = .ok v b := by
  unfold decode opened
  cases c.read layout { Buffer.ofBytes bytes with order := .big } <;> simp

section RoundTrip

variable {c : Context} {layout : Layout} {v x : Value} {image : Image} {key : List UInt8}

/-- A key is the image of the projection of a value. -/
theorem encode_eq_image {b b' : Buffer}
    (htrip : Coding.RoundTrips (c.write layout v) (c.read layout) image x)
    (h : encode c layout v b = .ok key b') : key = image.bytes .big 0 := by
  obtain ⟨hwrite, rfl⟩ := encode_eq_ok h
  obtain ⟨hlist, hcursor, hlength, horigin, horder⟩ := prepare_eq b
  obtain ⟨-, hstores⟩ := htrip (by omega) hwrite
  rw [horder, horigin, hcursor] at hstores
  have := hstores.toList_eq (by omega) (by omega)
  rwa [hlist] at this

/-- A key that is written ends where the cursor is. -/
theorem length_of_write {b b' : Buffer}
    (htrip : Coding.RoundTrips (c.write layout v) (c.read layout) image x)
    (h : c.write layout v (prepare b) = .ok () b') : b'.toList.length = b'.cursor := by
  obtain ⟨hlist, hcursor, hlength, horigin, -⟩ := prepare_eq b
  obtain ⟨-, hstores⟩ := htrip (by omega) h
  rw [hstores.toList_eq (by omega) (by omega), hlist, hstores.cursor, hcursor, List.nil_append,
    Nat.zero_add]

/-- A key is read where bytes start with it, and the reader stops behind it. -/
theorem read_encode {b b' : Buffer}
    (htrip : Coding.RoundTrips (c.write layout v) (c.read layout) image x)
    (h : encode c layout v b = .ok key b') {bytes : List UInt8} (hpre : key <+: bytes) :
    c.read layout (opened bytes) = .ok x ((opened bytes).advance key.length) := by
  obtain rfl := encode_eq_image htrip h
  obtain ⟨hwrite, -⟩ := encode_eq_ok h
  obtain ⟨-, hcursor, -, horigin, -⟩ := prepare_eq b
  obtain ⟨hread, -⟩ := htrip (by omega) hwrite
  exact hread (b := opened bytes) (Nat.le_refl _) (by rwa [rest_opened])

/-- A key is read back, whatever bytes follow it. -/
theorem decode_encode {b b' : Buffer}
    (htrip : Coding.RoundTrips (c.write layout v) (c.read layout) image x)
    (h : encode c layout v b = .ok key b') (tail : List UInt8) :
    decode c layout (key ++ tail) = .ok x :=
  decode_eq_ok.mpr ⟨_, read_encode htrip h (List.prefix_append key tail)⟩

end RoundTrip

end Key

namespace Registry

variable {r : Registry} {h : Handle}

/-- The key of a value without padding. -/
def unpaddedKey (r : Registry) (h : Handle) (v : Value) : Except Fault (List UInt8) :=
  r.onNewBuffer (r.writeKey h v)

theorem onNewBuffer_eq_ok {α : Type} {step : Coding α} {x : α} (hok : r.onNewBuffer step = .ok x) :
    ∃ b', step (Buffer.ofCapacity r.config.initialCapacity) = .ok x b' := by
  unfold onNewBuffer at hok
  split at hok
  · rename_i y b' hstep
    cases hok
    exact ⟨b', hstep⟩
  · cases hok

/-- A padded key is the unpadded one with zero bytes behind it. -/
theorem key_eq_ok {v : Value} {k : List UInt8} (hk : r.key h v = .ok k) :
    ∃ u, r.unpaddedKey h v = .ok u ∧ k = padKey u := by
  obtain ⟨b', hstep⟩ := onNewBuffer_eq_ok hk
  obtain ⟨u, c, hu, hpad⟩ := Coding.bind_eq_ok.mp hstep
  cases hpad
  exact ⟨u, by simp [unpaddedKey, onNewBuffer, hu], rfl⟩

theorem unpaddedKey_eq_ok {v : Value} {u : List UInt8} (hu : r.unpaddedKey h v = .ok u) :
    ∃ l b', r.keyLayout h = .ok l ∧
      Key.encode r.context l v (Buffer.ofCapacity r.config.initialCapacity) = .ok u b' := by
  obtain ⟨b', hstep⟩ := onNewBuffer_eq_ok hu
  unfold writeKey at hstep
  cases hl : r.keyLayout h with
  | ok l =>
    rw [hl] at hstep
    exact ⟨l, b', rfl, hstep⟩
  | error fault =>
    rw [hl] at hstep
    cases hstep

/-- An unpadded key is read back, whatever bytes follow it. -/
theorem Sound.deserializeKey_append (hr : r.Sound) {v : Value} {u : List UInt8}
    (hu : r.unpaddedKey h v = .ok u) (tail : List UInt8) :
    r.deserializeKey h (u ++ tail) = .ok (r.projection h v) := by
  obtain ⟨l, b', hl, hencode⟩ := unpaddedKey_eq_ok hu
  unfold deserializeKey
  rw [hl]
  exact Key.decode_encode (hr.roundTrips_keyLayout hl v) hencode tail

theorem Sound.unpaddedKey_eq (hr : r.Sound) {v v' : Value} {u u' : List UInt8}
    (hu : r.unpaddedKey h v = .ok u) (hu' : r.unpaddedKey h v' = .ok u')
    (hproj : r.projection h v = r.projection h v') : u = u' := by
  obtain ⟨l, b, hl, hencode⟩ := unpaddedKey_eq_ok hu
  obtain ⟨l', b', hl', hencode'⟩ := unpaddedKey_eq_ok hu'
  obtain rfl : l = l' := Except.ok.inj (hl.symm.trans hl')
  have himage := Key.encode_eq_image (hr.roundTrips_keyLayout hl v) hencode
  have himage' := Key.encode_eq_image (hr.roundTrips_keyLayout hl v') hencode'
  rw [himage, himage', hproj]

/-- A padded key is read back, with any bytes behind it too. -/
theorem Sound.deserializeKey_padded (hr : r.Sound) {v : Value} {k : List UInt8}
    (hk : r.key h v = .ok k) (tail : List UInt8) :
    r.deserializeKey h (k ++ tail) = .ok (r.projection h v) := by
  obtain ⟨u, hu, rfl⟩ := key_eq_ok hk
  rw [padKey, List.append_assoc]
  exact hr.deserializeKey_append hu _

/-- Keys tell values apart just where their projections differ. -/
theorem Sound.key_eq_iff (hr : r.Sound) {v v' : Value} {k k' : List UInt8}
    (hk : r.key h v = .ok k) (hk' : r.key h v' = .ok k') :
    k = k' ↔ r.projection h v = r.projection h v' := by
  constructor
  · intro heq
    have hread := hr.deserializeKey_padded hk []
    have hread' := hr.deserializeKey_padded hk' []
    rw [heq, hread'] at hread
    exact (Except.ok.inj hread).symm
  · intro hproj
    obtain ⟨u, hu, rfl⟩ := key_eq_ok hk
    obtain ⟨u', hu', rfl⟩ := key_eq_ok hk'
    rw [hr.unpaddedKey_eq hu hu' hproj]

/-- A key is read back as the projection of its value, without its padding and with any bytes behind
it too, and it tells values apart just where their projections differ. -/
theorem deserializeKey_key {config : Config} (hr : Reachable config r) {v : Value}
    {k : List UInt8} (hk : r.key h v = .ok k) :
    r.deserializeKey h k = .ok (r.projection h v) ∧
      (∀ tail, r.deserializeKey h (k ++ tail) = .ok (r.projection h v)) ∧
      (∃ u, r.unpaddedKey h v = .ok u ∧ k = padKey u ∧
        r.deserializeKey h u = .ok (r.projection h v)) ∧
      ∀ v' k', r.key h v' = .ok k' → (k = k' ↔ r.projection h v = r.projection h v') := by
  have hread := hr.sound.deserializeKey_padded hk
  obtain ⟨u, hu, hpad⟩ := key_eq_ok hk
  have hunpadded := hr.sound.deserializeKey_append hu []
  rw [List.append_nil] at hunpadded
  refine ⟨?_, hread, ⟨u, hu, hpad, hunpadded⟩, fun v' k' hk' => hr.sound.key_eq_iff hk hk'⟩
  simpa using hread []

/-- A type that is keyed by one of its members. -/
def sensor : Declaration :=
  { name := "Sensor"
    keyMembers := some ["id"]
    body := .struct [⟨"id", .primitive (.integer .uint16)⟩, ⟨"note", .string none⟩] }

/-- A type whose key holds that of another type and the label of a union. -/
def reading : Declaration :=
  { name := "Reading"
    keyMembers := some ["sensor", "kind"]
    body := .struct
      [⟨"sensor", .named "Sensor"⟩,
        ⟨"kind", .union
          ⟨.primitive .bool, [⟨"level", [1], .primitive .float64⟩], some ⟨"none", .string none⟩,
            true⟩⟩,
        ⟨"count", .primitive (.integer .uint32)⟩] }

/-- A reading of a sensor. -/
def sample : Value :=
  .struct
    [("count", .integer ⟨.uint8, 5, by decide⟩), ("kind", .union none (.string "idle")),
      ("sensor", .struct [("id", .integer ⟨.int32, 258, by decide⟩), ("note", .string "north")])]

/-- The key of the reading gives the number of the sensor and the absence of a label. -/
theorem deserializeKey_sample :
    let r := afterRegister sensor (afterRegister reading { config := { } })
    let k : List UInt8 := [1, 2, 0, 0, 0, 0, 0, 0, 0, 0, 0, 0, 0, 0, 0, 0]
    r.key ⟨0, "Reading"⟩ sample = .ok k ∧
      r.deserializeKey ⟨0, "Reading"⟩ k = .ok (.struct
        [("kind", .union none .null),
          ("sensor", .struct [("id", .integer ⟨.uint16, 258, by decide⟩)])]) :=
  have hk : (afterRegister sensor (afterRegister reading { config := { } })).key ⟨0, "Reading"⟩
      sample = .ok [1, 2, 0, 0, 0, 0, 0, 0, 0, 0, 0, 0, 0, 0, 0, 0] := by decide
  ⟨hk, (deserializeKey_key ((Reachable.new.register reading).register sensor) hk).1⟩

end Registry

end Cdr
