import Cdr.Proofs.Accepting
import Cdr.Proofs.Thresholds

/-! Which values can be encoded.  A value can be serialized where its type accepts it, and has a key
where the key of the type accepts it.  A key accepts all that its type accepts, so every value that
can be serialized has a key and a keyhash, with one exception: the key of a keyless type is laid out
as a struct without members, and a value of a keyless union or enumeration is not a struct. -/

namespace Cdr

namespace Declaration

variable {d : Declaration} {form : Form} {w : CountWidth} {role : Role}
  {follow : String → Value → Prop} {v : Value}

theorem asMembers?_of_accepts (hbody : d.members? = none)
    (h : d.AdmitsWith .accepted w role follow v) : v.asMembers? = none := by
  unfold AdmitsWith at h
  cases hb : d.body with
  | struct members => simp [members?, hb] at hbody
  | union u =>
    simp only [hb] at h
    rw [Shape.AdmitsWith.eq_def] at h
    obtain ⟨label, payload, rfl, -⟩ := h
    rfl
  | enumeration enumerators =>
    rw [hb] at h
    obtain ⟨ordinal, hordinal⟩ := h
    cases v <;> first | rfl | simp [Layout.ordinalOf?, Value.asInt?] at hordinal

theorem exists_struct_of_accepts (hbody : d.members? ≠ none)
    (h : d.AdmitsWith form w role follow v) : ∃ given, v = .struct given := by
  unfold AdmitsWith at h
  cases hb : d.body with
  | struct members =>
    rw [hb] at h
    obtain ⟨given, rfl, -⟩ := h
    exact ⟨given, rfl⟩
  | union u => simp [members?, hb] at hbody
  | enumeration enumerators => simp [members?, hb] at hbody

end Declaration

theorem Layout.write_nothing (types : Lookup) (w : CountWidth) (budget : Nat) (name : String)
    (given : List (String × Value)) :
    write types w budget (.struct name []) (.struct given) = pure () := by
  cases budget <;> rfl

theorem Layout.write_nothing_of_asMembers? (types : Lookup) (w : CountWidth) (budget : Nat)
    (name : String) {v : Value} (hv : v.asMembers? = none) :
    write types w budget (.struct name []) v =
      Coding.fail (kindMismatch s!"struct '{name}'" v) := by
  cases budget <;> rw [write, writeWith, hv]

theorem Sample.encode_eq_ok {c : Context} {layout : Layout} {order : ByteOrder} {capacity : Nat}
    {v : Value} {bytes : List UInt8} : encode c layout order capacity v = .ok bytes ↔
      ∃ b, c.write layout v (start order capacity) = .ok () b ∧ bytes = (b.align 4).toList := by
  unfold encode
  cases c.write layout v (start order capacity) <;> simp [eq_comm]

namespace Registry

variable {r : Registry} {h : Handle} {v : Value} {d : Declaration} {size : Nat} {fault : Fault}
  {l : Layout}

/-- A type whose longest key is known has layouts for samples and for keys. -/
theorem Sound.exists_layouts (hr : r.Sound) (hsize : r.maxKeySize h = .ok size) :
    (∃ l, r.sampleLayout h = .ok l) ∧ ∃ l, r.keyLayout h = .ok l := by
  obtain ⟨key, hkey, -⟩ :=
    Catalog.measureKey_eq_ok.mp (hr.sized.measureKey (maxKeySize_eq_ok.mp hsize).2)
  obtain ⟨e, layouts, he, hbuild, rfl⟩ := hr.coherent.keyLayout_eq_ok.mp hkey
  have hfull : r.catalog.layout h.id .full = .ok (layouts.ofRole .full) :=
    hr.coherent.layout_eq_ok.mpr ⟨e, layouts, he, hbuild, rfl⟩
  exact ⟨⟨_, sampleLayout_eq_ok.mpr ⟨size, hsize, hfull⟩⟩,
    ⟨_, keyLayout_eq_ok.mpr ⟨size, hsize, hkey⟩⟩⟩

/-- A value can be serialized just where its type can be used and accepts it. -/
theorem Sound.exists_serializeIn (hr : r.Sound) (order : ByteOrder) :
    (∃ bytes, r.serializeIn h order v = .ok bytes) ↔
      (∃ size, r.maxKeySize h = .ok size) ∧ r.Admits .accepted h v := by
  unfold serializeIn
  simp only [except_bind_eq_ok, Sample.encode_eq_ok]
  constructor
  · rintro ⟨bytes, l, hl, b, hwrite, -⟩
    obtain ⟨size, hsize, -⟩ := sampleLayout_eq_ok.mp hl
    exact ⟨⟨size, hsize⟩, (hr.passes_sampleLayout hl v _).mp ⟨b, hwrite⟩⟩
  · rintro ⟨⟨size, hsize⟩, hadmits⟩
    obtain ⟨l, hl⟩ := (hr.exists_layouts hsize).1
    obtain ⟨b, hwrite⟩ := (hr.passes_sampleLayout hl v
      (Sample.start order r.config.initialCapacity)).mpr hadmits
    exact ⟨_, l, hl, b, hwrite, rfl⟩

theorem unpaddedKey_of_write (hl : r.keyLayout h = .ok l) {b : Buffer}
    (hwrite : r.context.write l v (Key.prepare (Buffer.ofCapacity r.config.initialCapacity)) =
      .ok () b) : r.unpaddedKey h v = .ok b.toList := by
  simp only [unpaddedKey, onNewBuffer, writeKey, hl, Key.encode_apply, hwrite]

/-- Where a key cannot be written, neither the key nor the keyhash is there. -/
theorem key_of_write_error (hl : r.keyLayout h = .ok l) {b : Buffer}
    (hwrite : r.context.write l v (Key.prepare (Buffer.ofCapacity r.config.initialCapacity)) =
      .error fault b) : r.key h v = .error fault ∧ r.keyHash h v = .error fault := by
  simp only [key, keyHash, onNewBuffer, writePaddedKey, writeKeyHash, writeKey, hl,
    Coding.bind_apply, Key.encode_apply, hwrite, and_self]

/-- A value has a key just where its type can be used and the key of the type accepts it. -/
theorem Sound.exists_unpaddedKey (hr : r.Sound) :
    (∃ u, r.unpaddedKey h v = .ok u) ↔
      (∃ size, r.maxKeySize h = .ok size) ∧ r.AdmitsKey .accepted h v := by
  constructor
  · rintro ⟨u, hu⟩
    obtain ⟨l, b, hl, hencode⟩ := unpaddedKey_eq_ok hu
    exact ⟨exists_maxKeySize hu, (hr.passes_keyLayout hl v _).mp ⟨b, (Key.encode_eq_ok hencode).1⟩⟩
  · rintro ⟨⟨size, hsize⟩, hadmits⟩
    obtain ⟨l, hl⟩ := (hr.exists_layouts hsize).2
    obtain ⟨b, hwrite⟩ := (hr.passes_keyLayout hl v
      (Key.prepare (Buffer.ofCapacity r.config.initialCapacity))).mpr hadmits
    exact ⟨_, unpaddedKey_of_write hl hwrite⟩

/-- The key of a type accepts all that the type accepts, other than a value of a keyless union or
enumeration. -/
theorem Sound.acceptsKey_of_accepts (hd : r.catalog.declared? h.name = some d)
    (hkey : d.isKeyless = false ∨ d.members? ≠ none) (hadmits : r.Admits .accepted h v) :
    r.AdmitsKey .accepted h v := by
  rw [admitsKey_iff hd]
  rw [admits_iff hd] at hadmits
  split
  · rename_i hkeyless
    obtain ⟨given, rfl⟩ :=
      Declaration.exists_struct_of_accepts (hkey.resolve_left (by simp [hkeyless])) hadmits
    exact ⟨given, rfl, trivial⟩
  · have hkept : Role.full = .key → Role.key = .key := fun _ => rfl
    exact d.accepts_of_admits Form.writable_accepted hkept
      (Catalog.acceptsNamed_of_admits Form.writable_accepted hkept _) hadmits

/-- The layout of the key of a keyless type is that of nothing. -/
theorem Sound.keyLayout_of_keyless (hr : r.Sound) (hl : r.keyLayout h = .ok l)
    (hd : r.catalog.declared? h.name = some d) (hkeyless : d.isKeyless = true) :
    l = .struct d.name [] := by
  obtain ⟨e, layouts, -, hdeclared, hbuild, rfl⟩ := hr.build_of_keyLayout hl
  obtain rfl : d = e.declaration := Option.some.inj (hd.symm.trans hdeclared)
  rw [Layouts.key_eq hbuild, if_pos hkeyless]

theorem Sound.unpaddedKey_of_keyless (hr : r.Sound) (hl : r.keyLayout h = .ok l)
    (hd : r.catalog.declared? h.name = some d) (hkeyless : d.isKeyless = true)
    (given : List (String × Value)) : r.unpaddedKey h (.struct given) = .ok [] := by
  obtain rfl := hr.keyLayout_of_keyless hl hd hkeyless
  have hwrite : r.context.write (.struct d.name []) (.struct given)
      (Key.prepare (Buffer.ofCapacity r.config.initialCapacity)) =
        .ok () (Key.prepare (Buffer.ofCapacity r.config.initialCapacity)) := by
    rw [Context.write, Layout.write_nothing]
    rfl
  rw [unpaddedKey_of_write hl hwrite, (Key.prepare_eq _).1]

/-- A value that can be serialized has a key and a keyhash, and the key of a keyless type is sixteen
zero bytes, but no value of a keyless union or enumeration has either: its key is written as that of
a struct, which the value is not. -/
theorem key_of_serializeIn {config : Config} (hr : Reachable config r) {order : ByteOrder}
    {bytes : List UInt8} (hok : r.serializeIn h order v = .ok bytes) :
    ∃ d, r.catalog.declared? h.name = some d ∧
      if d.isKeyless ∧ d.members? = none then
        r.key h v = .error (Layout.kindMismatch s!"struct '{d.name}'" v).fault ∧
          r.keyHash h v = .error (Layout.kindMismatch s!"struct '{d.name}'" v).fault
      else
        ∃ k hash, r.key h v = .ok k ∧ r.keyHash h v = .ok hash ∧
          (d.isKeyless → k = List.replicate 16 0) := by
  obtain ⟨⟨size, hsize⟩, hadmits⟩ := (hr.sound.exists_serializeIn order).mp ⟨bytes, hok⟩
  obtain ⟨l, hl⟩ := (hr.sound.exists_layouts hsize).2
  obtain ⟨d, hd, haccepts⟩ := id hadmits
  refine ⟨d, hd, ?_⟩
  split
  · -- The key of a keyless type is laid out as a struct, and the value is none.
    rename_i hcase
    obtain rfl := hr.sound.keyLayout_of_keyless hl hd hcase.1
    refine key_of_write_error hl (b := Key.prepare (Buffer.ofCapacity r.config.initialCapacity)) ?_
    rw [Context.write, Layout.write_nothing_of_asMembers? _ _ _ _
      (Declaration.asMembers?_of_accepts hcase.2 haccepts)]
    rfl
  · rename_i hcase
    have hkey : d.isKeyless = false ∨ d.members? ≠ none := by
      by_cases hkeyless : d.isKeyless = true
      · exact Or.inr fun hnone => hcase ⟨hkeyless, hnone⟩
      · exact Or.inl (by simpa using hkeyless)
    obtain ⟨u, hu⟩ := hr.sound.exists_unpaddedKey.mpr
      ⟨⟨size, hsize⟩, Sound.acceptsKey_of_accepts hd hkey hadmits⟩
    refine ⟨_, _, key_of_unpaddedKey hu, keyHash_eq_ok hu hsize, fun hkeyless => ?_⟩
    obtain ⟨given, rfl⟩ :=
      Declaration.exists_struct_of_accepts (hkey.resolve_left (by simp [hkeyless])) haccepts
    rw [hr.sound.unpaddedKey_of_keyless hl hd hkeyless given] at hu
    cases hu
    rfl

/-- An enumeration that is declared to be keyless. -/
def phase : Declaration :=
  { name := "Phase"
    keyMembers := some []
    body := .enumeration [⟨"IDLE", 0⟩, ⟨"BUSY", 1⟩] }

/-- A value of a keyless enumeration can be serialized, but it has neither a key nor a keyhash. -/
theorem key_of_serializeIn_phase :
    let r := afterRegister phase { config := { } }
    let fault := (Layout.kindMismatch "struct 'Phase'" (.enumerator "BUSY")).fault
    r.serializeIn ⟨0, "Phase"⟩ .little (.enumerator "BUSY") = .ok [0, 1, 0, 0, 1, 0, 0, 0] ∧
      r.key ⟨0, "Phase"⟩ (.enumerator "BUSY") = .error fault ∧
      r.keyHash ⟨0, "Phase"⟩ (.enumerator "BUSY") = .error fault := by
  decide

/-- A struct that is declared to be keyless. -/
def tick : Declaration :=
  { name := "Tick"
    keyMembers := some []
    body := .struct [⟨"count", .primitive (.integer .uint32)⟩] }

/-- The key of a value of a keyless struct is sixteen zero bytes. -/
theorem key_of_serializeIn_tick :
    let r := afterRegister tick { config := { } }
    let v := Value.struct [("count", .integer ⟨.uint32, 7, by decide⟩)]
    r.serializeIn ⟨0, "Tick"⟩ .little v = .ok [0, 1, 0, 0, 7, 0, 0, 0] ∧
      ∃ k hash, r.key ⟨0, "Tick"⟩ v = .ok k ∧ r.keyHash ⟨0, "Tick"⟩ v = .ok hash ∧
        k = List.replicate 16 0 := by
  intro r v
  have hok : r.serializeIn ⟨0, "Tick"⟩ .little v = .ok [0, 1, 0, 0, 7, 0, 0, 0] := by decide
  obtain ⟨d, hd, hcase⟩ := key_of_serializeIn (Reachable.new.register tick) hok
  obtain rfl : tick = d := Option.some.inj hd
  rw [if_neg (by decide)] at hcase
  obtain ⟨k, hash, hk, hhash, hzero⟩ := hcase
  exact ⟨hok, k, hash, hk, hhash, hzero rfl⟩

end Registry

end Cdr
