import Cdr.Proofs.Writers

/-! Steps that treat all buffers alike.  Writing a value looks at the value only, so whether it
fails, and how, does not depend on the bytes, the cursor, the capacity or the byte order that it
starts with. -/

namespace Cdr

namespace Coding

/-- The step gives the same whatever the buffer holds. -/
def Uniform {α : Type} (step : Coding α) : Prop := ∀ b b', step.outcome b = step.outcome b'

namespace Uniform

variable {α β : Type} {step : Coding α} {rest : α → Coding β}

protected theorem pure (x : α) : Uniform (pure x) := fun _ _ => rfl

protected theorem throw (fault : Fault) : Uniform (throw fault : Coding α) := fun _ _ => rfl

protected theorem modify (f : Buffer → Buffer) : Uniform (modify f : Coding Unit) := fun _ _ => rfl

protected theorem bind (h : Uniform step) (hrest : ∀ x, Uniform (rest x)) :
    Uniform (step >>= rest) := by
  intro b b'
  rw [outcome_bind, outcome_bind]
  rcases runs_cases id (congrArg _ (h b b')) with ⟨x, hb', hb⟩ | ⟨fault', fault, hb', hb, hfault⟩
  · rw [hb, hb']
    exact hrest x _ _
  · rw [hb, hb']
    exact congrArg Except.error hfault

theorem inField (h : Uniform step) (field : String) : Uniform (Coding.inField field step) := by
  intro b b'
  rw [outcome_inField, outcome_inField, h b b']

theorem assembled : Assembled Uniform where
  pure := Uniform.pure
  bind := Uniform.bind
  throw := Uniform.throw
  inField field h := h.inField field
  put _ := Uniform.modify _
  align _ _ := Uniform.modify _
  putWord _ _ _ := Uniform.modify _

end Uniform

end Coding

/-- Whether and how a layout fails to write a value does not depend on the buffer. -/
theorem Layout.uniform_write {w : CountWidth} (types : Lookup) (budget : Nat) (l : Layout)
    (v : Value) : (write types w budget l v).Uniform :=
  assembled_write Coding.Uniform.assembled types budget l v

end Cdr
