import Cdr.Proofs.Framing
import Cdr.Proofs.Uniform

/-! Where a value stands.  What is written for a value, and what is read from bytes, depends on the
place only through its offset from the origin modulo the period of alignments.  So a key, which is
aligned from its first byte, and a sample, which is aligned from behind its header, hold the same
bytes at the same residues. -/

namespace Cdr

/-- Offsets that are the same modulo the period need the same padding for each word. -/
theorem gap_congr {size m n : Nat} (hsize : size ∣ Sizing.period)
    (h : m % Sizing.period = n % Sizing.period) : gap size m = gap size n := by
  have hmod : m % size = n % size := by
    rw [← Nat.mod_mod_of_dvd m hsize, h, Nat.mod_mod_of_dvd n hsize]
  unfold gap
  rw [hmod]

namespace Cause

/-- The cause without the place at which bytes were missing. -/
def unplaced : Cause → Cause
  | tooShort requested available _ => tooShort requested available 0
  | cause => cause

end Cause

/-- The fault without the place at which bytes were missing. -/
def Fault.unplaced (fault : Fault) : Fault := { fault with cause := fault.cause.unplaced }

namespace Buffer

/-- The buffers have the same byte order and stand at offsets that are the same modulo the period,
neither in front of its origin. -/
structure InStep (b c : Buffer) : Prop where
  order : c.order = b.order
  origin_le : b.origin ≤ b.cursor
  origin_le' : c.origin ≤ c.cursor
  offset : (c.cursor - c.origin) % Sizing.period = (b.cursor - b.origin) % Sizing.period

variable {b c : Buffer}

namespace InStep

theorem padding_eq (h : b.InStep c) {size : Nat} (hsize : size ∣ Sizing.period) :
    c.padding size = b.padding size := by
  rw [padding_eq_gap, padding_eq_gap, gap_congr hsize h.offset]

/-- Moving both cursors forward alike keeps the buffers in step. -/
theorem moved (h : b.InStep c) {b' c' : Buffer} {n : Nat} (hb : b'.cursor = b.cursor + n)
    (hc : c'.cursor = c.cursor + n) (hb' : b'.origin = b.origin) (hc' : c'.origin = c.origin)
    (horder : c'.order = b'.order) : b'.InStep c' where
  order := horder
  origin_le := by
    rw [hb, hb']
    exact Nat.le_add_right_of_le h.origin_le
  origin_le' := by
    rw [hc, hc']
    exact Nat.le_add_right_of_le h.origin_le'
  offset := by
    rw [hb, hc, hb', hc', Nat.sub_add_comm h.origin_le, Nat.sub_add_comm h.origin_le']
    rw [Nat.add_mod, h.offset, ← Nat.add_mod]

theorem stores (h : b.InStep c) {b' c' : Buffer} {bytes : List UInt8} (hb : b.Stores b' bytes)
    (hc : c.Stores c' bytes) : b'.InStep c' :=
  h.moved hb.cursor hc.cursor hb.origin hc.origin (hc.order.trans (h.order.trans hb.order.symm))

theorem advance (h : b.InStep c) (n : Nat) : (b.advance n).InStep (c.advance n) :=
  h.moved rfl rfl rfl rfl h.order

end InStep

end Buffer

namespace Coding

open Buffer

variable {α β : Type} {step : Coding α} {rest : α → Coding β}

/-- Two buffers that are in step get the same bytes and give the same outcome. -/
def WritesInStep (step : Coding α) : Prop := ∀ ⦃b c : Buffer⦄, b.InStep c →
  ∃ bytes, b.Stores (step.final b) bytes ∧ c.Stores (step.final c) bytes ∧
    step.outcome c = step.outcome b

namespace WritesInStep

protected theorem pure (x : α) : WritesInStep (pure x) :=
  fun b c _ => ⟨[], Buffer.Stores.refl b, Buffer.Stores.refl c, rfl⟩

protected theorem throw (fault : Fault) : WritesInStep (throw fault : Coding α) :=
  fun b c _ => ⟨[], Buffer.Stores.refl b, Buffer.Stores.refl c, rfl⟩

protected theorem bind (h : WritesInStep step) (hrest : ∀ x, WritesInStep (rest x)) :
    WritesInStep (step >>= rest) := by
  intro b c hbc
  obtain ⟨xs, hb, hc, houtcome⟩ := h hbc
  rw [final_bind, final_bind, outcome_bind, outcome_bind]
  rcases runs_cases id (congrArg _ houtcome) with
    ⟨x, hokb, hokc⟩ | ⟨fault, fault', hfb, hfc, hfault⟩
  · rw [hokb, hokc]
    obtain ⟨ys, hb', hc', hnext⟩ := hrest x (hbc.stores hb hc)
    exact ⟨xs ++ ys, hb.trans hb', hc.trans hc', hnext⟩
  · rw [hfb, hfc]
    exact ⟨xs, hb, hc, congrArg Except.error hfault⟩

theorem inField (field : String) (h : WritesInStep step) :
    WritesInStep (Coding.inField field step) := by
  intro b c hbc
  obtain ⟨xs, hb, hc, houtcome⟩ := h hbc
  rw [final_inField, final_inField]
  refine ⟨xs, hb, hc, ?_⟩
  rw [outcome_inField, outcome_inField, houtcome]

theorem assembled : Assembled WritesInStep where
  pure := WritesInStep.pure
  bind := WritesInStep.bind
  throw := WritesInStep.throw
  inField := inField
  put bytes b c _ := ⟨bytes, Buffer.stores_put bytes b, Buffer.stores_put bytes c, rfl⟩
  align size hsize b c hbc := by
    refine ⟨_, Buffer.stores_align size b, ?_, rfl⟩
    rw [← hbc.padding_eq hsize]
    exact Buffer.stores_align size c
  putWord width n hwidth b c hbc := by
    refine ⟨_, Buffer.stores_putWord width n b, ?_, rfl⟩
    rw [← hbc.padding_eq hwidth, ← hbc.order]
    exact Buffer.stores_putWord width n c

end WritesInStep

/-- Two buffers that are in step and have the same bytes from the cursor to the end give the same
outcome, up to the place of a fault, and their cursors move alike. -/
def ReadsInStep (step : Coding α) : Prop := ∀ ⦃b c : Buffer⦄, b.InStep c →
  c.remaining = b.remaining → c.rest = b.rest →
    ∃ n, step.final b = b.advance n ∧ step.final c = c.advance n ∧
      (step.outcome c).mapError Fault.unplaced = (step.outcome b).mapError Fault.unplaced

namespace ReadsInStep

protected theorem pure (x : α) : ReadsInStep (pure x) := fun _ _ _ _ _ => ⟨0, rfl, rfl, rfl⟩

protected theorem throw (fault : Fault) : ReadsInStep (throw fault : Coding α) :=
  fun _ _ _ _ _ => ⟨0, rfl, rfl, rfl⟩

protected theorem bind (h : ReadsInStep step) (hrest : ∀ x, ReadsInStep (rest x)) :
    ReadsInStep (step >>= rest) := by
  intro b c hbc hremaining hbytes
  obtain ⟨m, hb, hc, houtcome⟩ := h hbc hremaining hbytes
  rw [final_bind, final_bind, outcome_bind, outcome_bind]
  rcases runs_cases _ houtcome with ⟨x, hokb, hokc⟩ | ⟨fault, fault', hfb, hfc, hfault⟩
  · rw [hokb, hokc, hb, hc]
    obtain ⟨n, hb', hc', hnext⟩ := hrest x (hbc.advance m)
      (by rw [remaining_advance, remaining_advance, hremaining])
      (by rw [rest_advance, rest_advance, hbytes])
    exact ⟨m + n, hb'.trans (advance_advance m n b), hc'.trans (advance_advance m n c), hnext⟩
  · rw [hfb, hfc]
    exact ⟨m, hb, hc, congrArg Except.error hfault⟩

/-- Bytes that are missing are missing at another place. -/
theorem take (count : Nat) : ReadsInStep (Coding.take count) := by
  intro b c _ hremaining hbytes
  simp only [final, outcome, take_eq, hremaining, hbytes]
  by_cases hshort : b.remaining < count
  · exact ⟨0, by simp only [if_pos hshort]; exact ⟨rfl, rfl, rfl⟩⟩
  · exact ⟨count, by simp only [if_neg hshort, and_self]⟩

/-- A step may look at the buffer as far as it is the same for buffers that are in step. -/
theorem get_bind {next : Buffer → Coding α}
    (hsame : ∀ {b c : Buffer}, b.InStep c → next c = next b) (h : ∀ b, ReadsInStep (next b)) :
    ReadsInStep (get >>= next) := by
  intro b c hbc hremaining hbytes
  have hc : next c = next b := hsame hbc
  show ∃ n, (next b).final b = _ ∧ (next c).final c = _ ∧
    ((next c).outcome c).mapError _ = ((next b).outcome b).mapError _
  rw [hc]
  exact h b hbc hremaining hbytes

theorem compositional : Compositional ReadsInStep :=
  compositional_of_get_bind (fun h _ => h.padding_eq) Buffer.InStep.order ReadsInStep.pure
    ReadsInStep.bind (fun _ _ => ReadsInStep.throw _) take get_bind

end ReadsInStep

end Coding

namespace Layout

/-- Whatever the layout, the types and the value, at offsets that are the same modulo the period the
same bytes are written, with the same answer.  The answer to the same bytes ahead, and as many, is
the same too, and as many of them are gone over.  Only a fault that says where bytes were missing
shows the place. -/
theorem depends_on_residue (types : Lookup) (w : CountWidth) (budget : Nat) (l : Layout)
    {b c : Buffer} (h : b.InStep c) :
    (∀ v, ∃ bytes, b.Stores ((l.write types w budget v).final b) bytes ∧
        c.Stores ((l.write types w budget v).final c) bytes ∧
        (l.write types w budget v).outcome c = (l.write types w budget v).outcome b) ∧
      (c.remaining = b.remaining → c.rest = b.rest →
        ∃ n, (l.read types w budget).final b = b.advance n ∧
          (l.read types w budget).final c = c.advance n ∧
          ((l.read types w budget).outcome c).mapError Fault.unplaced =
            ((l.read types w budget).outcome b).mapError Fault.unplaced) := by
  constructor
  · intro v
    exact assembled_write Coding.WritesInStep.assembled types budget l v h
  · exact compositional_read_any Coding.ReadsInStep.compositional Coding.ReadsInStep.throw
      types budget l h

/-- A list of moments. -/
def moments : Layout := .sequence (.primitive (.integer .uint64)) none

/-- Two moments are announced at an odd offset, and one follows. -/
def announced : List UInt8 := [0, 2, 0, 0, 0, 0, 0, 5, 0, 0, 0, 0, 0, 0, 0]

/-- The moments behind one byte. -/
def near : Buffer := ⟨(9 :: announced).toArray, 1, 16, 0, .little⟩

/-- The moments nine bytes behind a header. -/
def far : Buffer := ⟨(List.replicate 13 0 ++ announced).toArray, 13, 28, 4, .little⟩

def moment : Value := .array [.integer ⟨.uint64, 5, by decide⟩]

/-- A moment is written alike at both places.  At both the second of the announced moments is
missing, at the end of what counts. -/
theorem depends_on_residue_moments :
    near.InStep far ∧ far.remaining = near.remaining ∧ far.rest = near.rest ∧
      (∃ bytes, near.Stores ((moments.write untyped .u16 1 moment).final near) bytes ∧
        far.Stores ((moments.write untyped .u16 1 moment).final far) bytes ∧
        (moments.write untyped .u16 1 moment).outcome far = .ok ()) ∧
      moments.read untyped .u16 1 near = .error (Cause.tooShort 8 0 16).fault (near.advance 15) ∧
      moments.read untyped .u16 1 far = .error (Cause.tooShort 8 0 28).fault (far.advance 15) ∧
      ((moments.read untyped .u16 1).outcome far).mapError Fault.unplaced =
        ((moments.read untyped .u16 1).outcome near).mapError Fault.unplaced := by
  have hstep : near.InStep far := ⟨rfl, by decide, by decide, by decide⟩
  have hremaining : far.remaining = near.remaining := by rfl
  have hrest : far.rest = near.rest := by rfl
  have hwrite : (moments.write untyped .u16 1 moment).outcome near = .ok () := by rfl
  obtain ⟨hwrites, hreads⟩ := depends_on_residue untyped .u16 1 moments hstep
  obtain ⟨bytes, hnear, hfar, houtcome⟩ := hwrites moment
  obtain ⟨_, _, _, hsame⟩ := hreads hremaining hrest
  exact ⟨hstep, hremaining, hrest, ⟨bytes, hnear, hfar, houtcome.trans hwrite⟩, by rfl, by rfl,
    hsame⟩

end Layout

end Cdr
