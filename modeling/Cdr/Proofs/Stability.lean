import Cdr.Proofs.Agreeing
import Cdr.Proofs.Histories
import Cdr.Proofs.Keys
import Cdr.Proofs.Uniform

/-! Keys are stable.  A key depends on the key members of a value and on the types that are
registered.  Members that the key does not have, the byte order of samples, the capacity of buffers
and the places of the types have no part in it, nor in the fault of a value without a key. -/

namespace Cdr

/-- A key does not depend on the buffer that it is written in. -/
theorem Key.uniform_encode {c : Context} {layout : Layout} {v x : Value} {image : Image}
    (hwrite : (c.write layout v).Uniform)
    (htrip : Coding.RoundTrips (c.write layout v) (c.read layout) image x) :
    (encode c layout v).Uniform := by
  have hkey : ∀ b, (encode c layout v).outcome b =
      ((c.write layout v).outcome (prepare b)).map fun _ => image.bytes .big 0 := by
    intro b
    have himage : ∀ key b', encode c layout v b = .ok key b' → key = image.bytes .big 0 :=
      fun _ _ => encode_eq_image htrip
    unfold Coding.outcome
    rw [encode_apply] at himage ⊢
    cases hb : c.write layout v (prepare b) with
    | ok _ written =>
      rw [hb] at himage
      exact congrArg Except.ok (himage _ _ rfl)
    | error fault b' => rfl
  intro b b'
  rw [hkey, hkey, hwrite (prepare b) (prepare b')]

namespace Registry

theorem onNewBuffer_eq {α : Type} (r : Registry) (step : Coding α) :
    r.onNewBuffer step = step.outcome (Buffer.ofCapacity r.config.initialCapacity) := rfl

section Uniform

variable {r : Registry} (hr : r.Sound) (h : Handle) (v : Value)

include hr

theorem Sound.uniform_writeKey : (r.writeKey h v).Uniform := by
  unfold writeKey
  cases hl : r.keyLayout h with
  | error fault => exact Coding.Uniform.throw fault
  | ok l =>
    have hwrite : (r.context.write l v).Uniform := Layout.uniform_write _ _ l v
    exact Key.uniform_encode hwrite (hr.roundTrips_keyLayout hl v)

theorem Sound.uniform_writePaddedKey : (r.writePaddedKey h v).Uniform :=
  (hr.uniform_writeKey h v).bind fun _ => Coding.Uniform.pure _

theorem Sound.uniform_writeKeyHash : (r.writeKeyHash h v).Uniform := by
  apply (hr.uniform_writeKey h v).bind
  intro key
  split
  · exact Coding.Uniform.pure _
  · exact Coding.Uniform.throw _

end Uniform

section Limits

variable {config config' : Config} (hlimits : config.SameLimits config')

include hlimits

/-- Key sizes are kept alike under the same limits. -/
theorem keepKeySize_of_limits : Catalog.keepKeySize config' = Catalog.keepKeySize config := by
  have hmeasure : ∀ (c : Catalog) i, c.measureKey config' i = c.measureKey config i := by
    intro c i
    simp only [Catalog.measureKey, hlimits.countWidth, hlimits.maxUnboundedLength,
      hlimits.maxDepth]
  funext c i
  unfold Catalog.keepKeySize Catalog.maxKeySize
  rw [hmeasure]

theorem step_of_limits (event : Event) (c : Catalog) :
    step ⟨config', c⟩ event = ⟨config', (step ⟨config, c⟩ event).catalog⟩ := by
  cases event with
  | register d =>
    have hadd : add config' c d = add config c d := by
      unfold add
      rw [keepKeySize_of_limits hlimits]
    simp only [step, afterRegister, register, hadd]
    cases d.validate with
    | error fault => rfl
    | ok _ =>
      cases c.resolve d.name with
      | none => cases add config c d <;> rfl
      | some found =>
        obtain ⟨id, known⟩ := found
        by_cases hknown : known = d
        · simp only [if_pos hknown]
        · simp only [if_neg hknown]
  | use id =>
    simp only [step, keepKeySize_of_limits hlimits]

/-- The same events lead to the same catalog under the same limits. -/
theorem after_of_limits (events : List Event) (c : Catalog) :
    after ⟨config', c⟩ events = ⟨config', (after ⟨config, c⟩ events).catalog⟩ := by
  induction events generalizing c with
  | nil => rfl
  | cons event events ih =>
    have hfirst : step ⟨config, c⟩ event = ⟨config, (step ⟨config, c⟩ event).catalog⟩ :=
      congrArg (Registry.mk · (step ⟨config, c⟩ event).catalog) (config_step ⟨config, c⟩ event)
    show after (step ⟨config', c⟩ event) events =
      ⟨config', (after (step ⟨config, c⟩ event) events).catalog⟩
    rw [step_of_limits hlimits, ih, ← hfirst]

end Limits

/-- A registry with the types of another and the same limits gives the same key and the same keyhash
to all values that agree on the key members of a type that can be used, or the same fault. -/
theorem key_eq_of_agrees {config config' : Config} {events events' : List Event} {h : Handle}
    {size : Nat} {v v' : Value} (hlimits : config.SameLimits config')
    (hwithin : Catalog.Within (after { config := config } events).catalog
      (after { config := config' } events').catalog)
    (hsize : (after { config := config } events).maxKeySize h = .ok size)
    (hagrees : (after { config := config } events).AgreesOnKey h v v') :
    let r := after { config := config } events
    let r' := after { config := config' } events'
    ∃ h', r'.handle h.name = .ok h' ∧ r'.key h' v' = r.key h v ∧
      r'.keyHash h' v' = r.keyHash h v := by
  intro r r'
  have hr : r.Steady := steady_after config events
  have hr' : r'.Sound := (steady_after config' events').sound
  have hsame : r.config.SameLimits r'.config := by
    rw [config_after, config_after]
    exact hlimits
  obtain ⟨h', hhandle', hm⟩ :=
    hr.sound.exists_moved hr' hsame hwithin (maxKeySize_eq_ok.mp hsize).1 (hr.whole hsize)
  have hwrite := hr.sound.writeKey_eq_of_agrees hagrees
  have hkey : r'.writePaddedKey h' v' = r.writePaddedKey h v := by
    rw [hm.writePaddedKey_eq, writePaddedKey, ← hwrite, writePaddedKey]
  have hhash : r'.writeKeyHash h' v' = r.writeKeyHash h v := by
    rw [hm.writeKeyHash_eq, writeKeyHash, ← hwrite, writeKeyHash]
  refine ⟨h', hhandle', ?_, ?_⟩
  · rw [key, onNewBuffer_eq, hkey, key, onNewBuffer_eq]
    exact hr.sound.uniform_writePaddedKey h v _ _
  · rw [keyHash, onNewBuffer_eq, hhash, keyHash, onNewBuffer_eq]
    exact hr.sound.uniform_writeKeyHash h v _ _

/-- A reading without its count, with another payload of its union, and of a sensor that has a
surplus member instead of its note, which is no string. -/
def sparse : Value :=
  .struct
    [("kind", .union none (.array [])),
      ("sensor", .struct [("id", .integer (.ofBits .int32 258)), ("place", .null)])]

/-- The readings agree on the number of the sensor and on the absence of a label, so they have one
key, in big order too and with small buffers. -/
theorem key_sparse :
    let events : List Event := [.register reading, .register sensor]
    let r := after { } events
    let r' := after { config := { order := .big, initialCapacity := 1 } } events
    let k : List UInt8 := [1, 2, 0, 0, 0, 0, 0, 0, 0, 0, 0, 0, 0, 0, 0, 0]
    r.AgreesOnKey ⟨0, "Reading"⟩ sample sparse ∧ r.key ⟨0, "Reading"⟩ sample = .ok k ∧
      ∃ h', r'.handle "Reading" = .ok h' ∧ r'.key h' sparse = .ok k ∧
        r'.keyHash h' sparse = r.keyHash ⟨0, "Reading"⟩ sample := by
  intro events r r' k
  have hlimits : ({ } : Config).SameLimits { order := .big, initialCapacity := 1 } :=
    ⟨rfl, rfl, rfl⟩
  have hwithin : Catalog.Within r.catalog r'.catalog := by
    have hafter : r' = ⟨_, r.catalog⟩ := after_of_limits hlimits events { }
    rw [hafter]
    exact fun _ _ hname => hname
  have hsize : r.maxKeySize ⟨0, "Reading"⟩ = .ok 9 := by decide
  have hkey : r.key ⟨0, "Reading"⟩ sample = .ok k := by decide
  have hsensor : ∀ budget, r.catalog.AgreesOnKey (budget + 1) "Sensor"
      (.struct [("id", .integer ⟨.int32, 258, by decide⟩), ("note", .string "north")])
      (.struct [("id", .integer (.ofBits .int32 258)), ("place", .null)]) := by
    intro budget d hd
    obtain rfl : sensor = d := Option.some.inj hd
    refine Or.inl ⟨_, _, rfl, rfl, ?_⟩
    exact List.forall_mem_cons.mpr ⟨Option.Rel.some rfl, List.forall_mem_nil _⟩
  have hagrees : r.AgreesOnKey ⟨0, "Reading"⟩ sample sparse := by
    intro d hd
    obtain rfl : reading = d := Option.some.inj hd
    rw [if_neg (by decide)]
    refine Or.inl ⟨_, _, rfl, rfl, ?_⟩
    refine List.forall_mem_cons.mpr ⟨Option.Rel.some (hsensor _), ?_⟩
    refine List.forall_mem_cons.mpr ⟨Option.Rel.some ?_, List.forall_mem_nil _⟩
    exact Or.inl ⟨_, _, rfl, rfl, rfl, fun hkeyed => nomatch hkeyed⟩
  obtain ⟨h', hhandle', hsame, hhash⟩ := key_eq_of_agrees hlimits hwithin hsize hagrees
  exact ⟨hagrees, hkey, h', hhandle', hsame.trans hkey, hhash⟩

end Registry

end Cdr
