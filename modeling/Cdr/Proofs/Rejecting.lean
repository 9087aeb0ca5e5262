import Cdr.Proofs.Encoding
import Cdr.Proofs.Readers
import Cdr.Proofs.Samples
import Cdr.Proofs.Usability

/-! Bytes that are refused.  A reader refuses bytes that end too early or that are no data, and a
value that nests too deep, and fails in no other way.  So does deserialization, since nothing that a
usable type leads to is missing or broken. -/

namespace Cdr

/-- The fault says that bytes are no encoding, and it arose outside every member. -/
def Fault.Undecodable (fault : Fault) : Prop := fault.path = [] ∧ fault.isDecodeFailure = true

namespace Coding

/-- The step fails only at bytes that are no encoding. -/
def Rejects {α : Type} (step : Coding α) : Prop :=
  ∀ ⦃b b' : Buffer⦄ ⦃fault : Fault⦄, step b = .error fault b' → fault.Undecodable

namespace Rejects

protected theorem pure {α : Type} (x : α) : Rejects (pure x) := fun _ _ _ hfault => nomatch hfault

protected theorem bind {α β : Type} {step : Coding α} {rest : α → Coding β} (h : Rejects step)
    (hrest : ∀ x, Rejects (rest x)) : Rejects (step >>= rest) := by
  intro b b' fault hfault
  rw [bind_apply] at hfault
  cases hstep : step b with
  | ok x c =>
    rw [hstep] at hfault
    exact hrest x hfault
  | error first c =>
    rw [hstep] at hfault
    cases hfault
    exact h hstep

protected theorem fail {α : Type} {cause : Cause} (hcause : cause.isDecodeFailure = true) :
    Rejects (Coding.fail cause : Coding α) := by
  rintro b b' fault ⟨⟩
  exact ⟨rfl, hcause⟩

theorem take (count : Nat) : Rejects (Coding.take count) := by
  intro b b' fault hfault
  unfold Coding.take at hfault
  split at hfault
  · cases hfault
    exact ⟨rfl, rfl⟩
  · cases hfault

theorem compositional : Compositional Rejects :=
  compositional_of_get_bind (R := Eq) (fun h _ _ => h ▸ rfl) (fun h => h ▸ rfl) Rejects.pure
    Rejects.bind (fun _ _ => Rejects.fail rfl) take fun _ h b _ _ hfault => h b hfault

end Rejects

end Coding

theorem Sample.undecodable_headerOrder {bytes : List UInt8} {fault : Fault}
    (hfault : headerOrder bytes = .error fault) : fault.Undecodable := by
  unfold headerOrder at hfault
  split at hfault
  · dsimp only at hfault
    split at hfault
    · cases hfault
      exact ⟨rfl, rfl⟩
    · split at hfault
      · cases hfault
      · cases hfault
        exact ⟨rfl, rfl⟩
  · cases hfault
    exact ⟨rfl, rfl⟩

theorem Sample.undecodable_decode {c : Context} {layout : Layout} {bytes : List UInt8}
    {fault : Fault} (h : Coding.Rejects (c.read layout))
    (hfault : decode c layout bytes = .error fault) : fault.Undecodable := by
  cases horder : headerOrder bytes with
  | error first =>
    rw [decode, horder] at hfault
    cases hfault
    exact undecodable_headerOrder horder
  | ok order =>
    rw [decode_of_headerOrder horder] at hfault
    split at hfault
    · cases hfault
    · rename_i hread
      cases hfault
      exact h hread

theorem Key.undecodable_decode {c : Context} {layout : Layout} {bytes : List UInt8}
    {fault : Fault} (h : Coding.Rejects (c.read layout))
    (hfault : decode c layout bytes = .error fault) : fault.Undecodable := by
  unfold decode at hfault
  split at hfault
  · cases hfault
  · rename_i hread
    cases hfault
    exact h hread

namespace Registry

/-- Whatever the bytes are, a usable type gives a value for them or refuses them as no encoding,
whether they are read as a sample or as a key. -/
theorem decodes_or_rejects {config : Config} {events : List Event} {h : Handle}
    (hcheck : (after { config := config } events).checkHandle h = .ok ())
    (hwhole : (after { config := config } events).catalog.Whole h.id) (bytes : List UInt8) :
    let r := after { config := config } events
    ((∃ v, r.deserialize h bytes = .ok v) ∨
        ∃ fault : Fault, r.deserialize h bytes = .error fault ∧ fault.path = [] ∧
          fault.isDecodeFailure = true) ∧
      ((∃ v, r.deserializeKey h bytes = .ok v) ∨
        ∃ fault : Fault, r.deserializeKey h bytes = .error fault ∧ fault.path = [] ∧
          fault.isDecodeFailure = true) := by
  intro r
  have hr : r.Steady := steady_after config events
  obtain ⟨⟨_, _, size, -, -, -, hserved⟩, -⟩ := (hr.serves_iff_whole hcheck).mpr hwhole
  obtain ⟨⟨l, hl⟩, ⟨key, hkey⟩⟩ := hr.sound.exists_layouts hserved.maxKeySize
  have hread := hr.compositional_sampleLayout Coding.Rejects.compositional hl
  have hreadKey := hr.compositional_keyLayout Coding.Rejects.compositional hkey
  constructor
  · rw [deserialize_of_sampleLayout hl]
    cases hdecode : Sample.decode r.context l bytes with
    | ok v => exact Or.inl ⟨v, rfl⟩
    | error fault => exact Or.inr ⟨fault, rfl, Sample.undecodable_decode hread hdecode⟩
  · rw [deserializeKey_of_keyLayout hkey]
    cases hdecode : Key.decode r.context key bytes with
    | ok v => exact Or.inl ⟨v, rfl⟩
    | error fault => exact Or.inr ⟨fault, rfl, Key.undecodable_decode hreadKey hdecode⟩

/-- A type that contains itself, so that no value of it ends. -/
def endless : Declaration :=
  { name := "Endless"
    body := .struct [⟨"count", .primitive (.integer .uint8)⟩, ⟨"again", .named "Endless"⟩] }

/-- A type without values can be used: it refuses the bytes for their nesting, or because they end
too early. -/
theorem decodes_or_rejects_endless :
    let r := after { config := { maxDepth := 2 } } [.register endless]
    r.checkHandle ⟨0, "Endless"⟩ = .ok () ∧ r.catalog.Whole 0 ∧
      r.deserialize ⟨0, "Endless"⟩ [0, 1, 0, 0, 1, 2, 3, 4] =
        .error (Layout.nestingCause "Endless").fault ∧
      r.deserialize ⟨0, "Endless"⟩ [0, 1, 0, 0, 1] = .error (Cause.tooShort 1 0 5).fault ∧
      ∀ bytes, (∃ v, r.deserialize ⟨0, "Endless"⟩ bytes = .ok v) ∨
        ∃ fault : Fault, r.deserialize ⟨0, "Endless"⟩ bytes = .error fault ∧ fault.path = [] ∧
          fault.isDecodeFailure = true := by
  intro r
  have hcheck : r.checkHandle ⟨0, "Endless"⟩ = .ok () := rfl
  have hsize : ∃ size, r.maxKeySize ⟨0, "Endless"⟩ = .ok size := ⟨_, rfl⟩
  obtain ⟨size, hsize⟩ := hsize
  have hwhole : r.catalog.Whole 0 := (steady_after _ _).whole hsize
  exact ⟨hcheck, hwhole, by rfl, by rfl,
    fun bytes => (decodes_or_rejects hcheck hwhole bytes).1⟩

end Registry

end Cdr
