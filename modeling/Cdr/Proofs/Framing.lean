import Cdr.Proofs.Readers
import Cdr.Proofs.Writers

/-! What reading and writing leave alone.  Whether it succeeds or fails, a writer changes bytes only
between the cursor that it starts with and the one that it ends with, and a reader changes none: it
moves the cursor over bytes that count. -/

namespace Cdr

namespace Coding

variable {α β : Type} {step : Coding α} {rest : α → Coding β}

/-- The step stores bytes at the cursor, those that it has come to if it fails. -/
def Deposits (step : Coding α) : Prop := ∀ b : Buffer, ∃ bytes, b.Stores (step.final b) bytes

namespace Deposits

protected theorem pure (x : α) : Deposits (pure x) := fun b => ⟨[], Buffer.Stores.refl b⟩

protected theorem throw (fault : Fault) : Deposits (throw fault : Coding α) :=
  fun b => ⟨[], Buffer.Stores.refl b⟩

protected theorem bind (h : Deposits step) (hrest : ∀ x, Deposits (rest x)) :
    Deposits (step >>= rest) := by
  intro b
  obtain ⟨xs, hxs⟩ := h b
  rw [final_bind]
  rcases step.apply_cases b with ⟨x, hok⟩ | ⟨fault, herror⟩
  · rw [hok]
    obtain ⟨ys, hys⟩ := hrest x (step.final b)
    exact ⟨xs ++ ys, hxs.trans hys⟩
  · rw [herror]
    exact ⟨xs, hxs⟩

theorem inField (field : String) (h : Deposits step) : Deposits (Coding.inField field step) := by
  intro b
  rw [final_inField]
  exact h b

theorem assembled : Assembled Deposits where
  pure := Deposits.pure
  bind := Deposits.bind
  throw := Deposits.throw
  inField := inField
  put bytes b := ⟨bytes, Buffer.stores_put bytes b⟩
  align size _ b := ⟨_, Buffer.stores_align size b⟩
  putWord width n _ b := ⟨_, Buffer.stores_putWord width n b⟩

end Deposits

/-- The step moves the cursor over bytes that count, and does nothing else to the buffer. -/
def Skims (step : Coding α) : Prop :=
  ∀ b : Buffer, ∃ n ≤ b.remaining, step.final b = b.advance n

namespace Skims

protected theorem pure (x : α) : Skims (pure x) := fun _ => ⟨0, Nat.zero_le _, rfl⟩

protected theorem throw (fault : Fault) : Skims (throw fault : Coding α) :=
  fun _ => ⟨0, Nat.zero_le _, rfl⟩

protected theorem bind (h : Skims step) (hrest : ∀ x, Skims (rest x)) : Skims (step >>= rest) := by
  intro b
  obtain ⟨m, hm, hfinal⟩ := h b
  rw [final_bind]
  rcases step.apply_cases b with ⟨x, hok⟩ | ⟨fault, herror⟩
  · rw [hok, hfinal]
    obtain ⟨n, hn, hnext⟩ := hrest x (b.advance m)
    rw [Buffer.remaining_advance] at hn
    exact ⟨m + n, by omega, hnext.trans (Buffer.advance_advance m n b)⟩
  · rw [herror]
    exact ⟨m, hm, hfinal⟩

theorem take (count : Nat) : Skims (Coding.take count) := by
  intro b
  by_cases hshort : b.remaining < count
  · exact ⟨0, Nat.zero_le _, by rw [final, take_eq, if_pos hshort]; rfl⟩
  · exact ⟨count, Nat.le_of_not_lt hshort, by rw [final, take_eq, if_neg hshort]⟩

theorem compositional : Compositional Skims :=
  compositional_of_get_bind (R := Eq) (fun h _ _ => h ▸ rfl) (fun h => h ▸ rfl) Skims.pure
    Skims.bind (fun _ _ => Skims.throw _) take fun _ h b => h b b

end Skims

end Coding

namespace Buffer

/-- The byte at a place, if it counts, and zero behind the logical end. -/
theorem getD_toList (b : Buffer) (i : Nat) :
    b.toList.getD i 0 = if i < b.length then b.byteAt i else 0 := by
  simp only [toList, byteAt, List.getD_eq_getElem?_getD, List.getElem?_take,
    Array.getElem?_toList, Array.getD_eq_getD_getElem?]
  split <;> rfl

/-- What a writer has made of a buffer: bytes differ between the two cursors only, be it among those
that count, where all behind the end are zero, or among those that are stored. -/
structure Overlaid (before after : Buffer) : Prop where
  forward : before.cursor ≤ after.cursor
  counted : ∀ i, i < before.cursor ∨ after.cursor ≤ i →
    after.toList.getD i 0 = before.toList.getD i 0
  stored : ∀ i, i < before.cursor ∨ after.cursor ≤ i → after.byteAt i = before.byteAt i
  length : after.length = max before.length after.cursor
  origin : after.origin = before.origin
  order : after.order = before.order

/-- What a reader has made of a buffer: the cursor stands further on among the bytes that count. -/
structure Scanned (before after : Buffer) : Prop where
  forward : before.cursor ≤ after.cursor
  within : after.cursor ≤ after.length
  storage : after.storage = before.storage
  length : after.length = before.length
  origin : after.origin = before.origin
  order : after.order = before.order

variable {b b' : Buffer}

theorem Stores.overlaid {bytes : List UInt8} (h : b.Stores b' bytes) (hb : b.cursor ≤ b.length) :
    b.Overlaid b' where
  forward := by
    rw [h.cursor]
    exact Nat.le_add_right _ _
  counted i hi := by
    have hlength := h.length hb
    rw [getD_toList, getD_toList, h.outside i hi]
    by_cases hcounts : i < b.length
    · rw [if_pos hcounts, if_pos (by omega)]
    · rw [if_neg hcounts, if_neg (by omega)]
  stored := h.outside
  length := h.length hb
  origin := h.origin
  order := h.order

theorem scanned_advance {n : Nat} (hn : n ≤ b.remaining) (hb : b.cursor ≤ b.length) :
    b.Scanned (b.advance n) where
  forward := Nat.le_add_right _ _
  within := by
    rw [remaining] at hn
    show b.cursor + n ≤ b.length
    omega
  storage := rfl
  length := rfl
  origin := rfl
  order := rfl

end Buffer

namespace Layout

/-- Whatever the layout, the types, the value and the buffer, writing changes nothing outside of the
bytes that it has moved the cursor over, and reading only moves the cursor, neither beyond the end
nor back, also where they fail. -/
theorem touches_own_region (types : Lookup) (w : CountWidth) (budget : Nat) (l : Layout)
    {b : Buffer} (hb : b.cursor ≤ b.length) :
    (∀ v, b.Overlaid ((l.write types w budget v).final b)) ∧
      b.Scanned ((l.read types w budget).final b) := by
  constructor
  · intro v
    obtain ⟨bytes, hstores⟩ := assembled_write Coding.Deposits.assembled types budget l v b
    exact hstores.overlaid hb
  · obtain ⟨n, hn, hfinal⟩ := compositional_read_any Coding.Skims.compositional
      Coding.Skims.throw types budget l b
    rw [hfinal]
    exact Buffer.scanned_advance hn hb

/-- A count and a flag. -/
def turnstile : Layout :=
  .struct "Turnstile" [⟨"count", .primitive (.integer .uint32)⟩, ⟨"flag", .primitive .bool⟩]

/-- A turnstile whose flag is no truth value. -/
def flagless : Value := .struct [("count", .integer ⟨.uint32, 7, by decide⟩), ("flag", .null)]

/-- Ten bytes, of which nine count. -/
def stale : Buffer := ⟨#[1, 2, 3, 4, 5, 6, 7, 8, 9, 10], 1, 9, 0, .little⟩

def untyped : Lookup := fun _ _ => .error (Cause.unknownType "").fault

/-- The flag is met when the padding and the count are written.  They stand in the middle of older
bytes, and those in front and behind are as they were.  The reader goes over all bytes that count
and fails at the flag too. -/
theorem touches_own_region_turnstile :
    let written : Buffer := ⟨#[1, 0, 0, 0, 7, 0, 0, 0, 9, 10], 8, 9, 0, .little⟩
    stale.cursor ≤ stale.length ∧
      turnstile.write untyped .u16 1 flagless stale =
        .error ⟨["flag"], .mismatch "bool" "null"⟩ written ∧
      turnstile.read untyped .u16 1 stale =
        .error (Cause.invalidData "bool" "byte 9 is neither 0 nor 1").fault (stale.advance 8) ∧
      stale.Overlaid written ∧ stale.Scanned (stale.advance 8) := by
  intro written
  have hstale : stale.cursor ≤ stale.length := by decide
  have hwrite : turnstile.write untyped .u16 1 flagless stale =
      .error ⟨["flag"], .mismatch "bool" "null"⟩ written := by rfl
  have hread : turnstile.read untyped .u16 1 stale =
      .error (Cause.invalidData "bool" "byte 9 is neither 0 nor 1").fault (stale.advance 8) := by
    rfl
  obtain ⟨hoverlaid, hscanned⟩ := touches_own_region untyped .u16 1 turnstile hstale
  have hwritten := hoverlaid flagless
  rw [Coding.final, hwrite] at hwritten
  rw [Coding.final, hread] at hscanned
  exact ⟨hstale, hwrite, hread, hwritten, hscanned⟩

end Layout

end Cdr
