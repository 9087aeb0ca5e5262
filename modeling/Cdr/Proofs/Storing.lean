import Cdr.Buffer
import Cdr.Proofs.Image

/-! Steps that write.  `Buffer.Stores` says which bytes lie between two states of a buffer, without
reference to its capacity, and `Coding.Lays` says of a step that whenever it succeeds it stores an
image at the cursor.  Together with the image a step hands a fact on to the steps after it, such as
that a length is within its bound. -/

namespace Cdr

namespace Buffer

/-- The byte at a place, which is zero behind the capacity. -/
def byteAt (b : Buffer) (i : Nat) : UInt8 := b.storage.getD i 0

/-- `after` is `before` with bytes stored at the cursor and the cursor behind them. -/
structure Stores (before after : Buffer) (bytes : List UInt8) : Prop where
  cursor : after.cursor = before.cursor + bytes.length
  origin : after.origin = before.origin
  order : after.order = before.order
  length : before.cursor ≤ before.length → after.length = max before.length after.cursor
  inside : ∀ i (h : i < bytes.length), after.byteAt (before.cursor + i) = bytes[i]
  outside : ∀ i, i < before.cursor ∨ after.cursor ≤ i → after.byteAt i = before.byteAt i
  room : before.length ≤ before.capacity → after.length ≤ after.capacity

theorem Stores.refl (b : Buffer) : b.Stores b [] where
  cursor := rfl
  origin := rfl
  order := rfl
  length h := (Nat.max_eq_left h).symm
  inside i h := absurd h (Nat.not_lt_zero i)
  outside _ _ := rfl
  room h := h

theorem Stores.trans {a b c : Buffer} {xs ys : List UInt8} (h : a.Stores b xs)
    (h' : b.Stores c ys) : a.Stores c (xs ++ ys) where
  cursor := by rw [h'.cursor, h.cursor, List.length_append, Nat.add_assoc]
  origin := h'.origin.trans h.origin
  order := h'.order.trans h.order
  length hle := by
    have hb := h.length hle
    have hc := h'.length (by omega)
    have := h'.cursor
    omega
  inside i hi := by
    by_cases hx : i < xs.length
    · rw [h'.outside _ (Or.inl (by rw [h.cursor]; omega)), h.inside i hx,
        List.getElem_append_left hx]
    · rw [List.length_append] at hi
      have := h'.inside (i - xs.length) (by omega)
      rw [h.cursor, show a.cursor + xs.length + (i - xs.length) = a.cursor + i by omega] at this
      rw [this, List.getElem_append_right (by omega)]
  outside i hi := by
    have hb := h.cursor
    have hc := h'.cursor
    rw [h'.outside i (by omega), h.outside i (by omega)]
  room hr := h'.room (h.room hr)

@[simp] theorem size_overwrite (bytes : List UInt8) (storage : Array UInt8) (i : Nat) :
    (overwrite storage i bytes).size = storage.size := by
  induction bytes generalizing storage i with
  | nil => rfl
  | cons x bytes ih => rw [overwrite, ih, Array.size_setIfInBounds]

theorem getD_overwrite_outside (bytes : List UInt8) (storage : Array UInt8) {i j : Nat}
    (hj : j < i ∨ i + bytes.length ≤ j) :
    (overwrite storage i bytes).getD j 0 = storage.getD j 0 := by
  induction bytes generalizing storage i with
  | nil => rfl
  | cons x bytes ih =>
    rw [List.length_cons] at hj
    rw [overwrite, ih _ (by omega)]
    simp only [Array.getD_eq_getD_getElem?, Array.getElem?_setIfInBounds]
    rw [if_neg (by omega)]

theorem getD_overwrite_inside (bytes : List UInt8) {storage : Array UInt8} {i : Nat}
    (hroom : i + bytes.length ≤ storage.size) {j : Nat} (hj : j < bytes.length) :
    (overwrite storage i bytes).getD (i + j) 0 = bytes[j] := by
  induction bytes generalizing storage i j with
  | nil => exact absurd hj (Nat.not_lt_zero j)
  | cons x bytes ih =>
    rw [List.length_cons] at hroom hj
    cases j with
    | zero =>
      rw [overwrite, getD_overwrite_outside _ _ (by omega), Array.getD_eq_getD_getElem?,
        Nat.add_zero, Array.getElem?_setIfInBounds_self_of_lt (by omega)]
      rfl
    | succ j =>
      rw [overwrite, show i + (j + 1) = i + 1 + j by omega,
        ih (by rw [Array.size_setIfInBounds]; omega) (by omega)]
      rfl

theorem size_reserve (needed : Nat) (b : Buffer) :
    needed ≤ (b.reserve needed).storage.size ∧
      b.storage.size ≤ (b.reserve needed).storage.size := by
  unfold reserve
  split
  · simp
    omega
  · exact ⟨by omega, Nat.le_refl _⟩

theorem byteAt_reserve (needed : Nat) (b : Buffer) (i : Nat) :
    (b.reserve needed).byteAt i = b.byteAt i := by
  unfold reserve
  split
  · simp only [byteAt, Array.getD_eq_getD_getElem?]
    by_cases hi : i < b.storage.size
    · rw [Array.getElem?_append_left hi]
    · rw [Array.getElem?_append_right (by omega),
        Array.getElem?_eq_none (by omega : b.storage.size ≤ i), Array.getElem?_replicate]
      split <;> rfl
  · rfl

@[simp] theorem cursor_reserve (needed : Nat) (b : Buffer) :
    (b.reserve needed).cursor = b.cursor := by
  unfold reserve
  split <;> rfl

@[simp] theorem length_reserve (needed : Nat) (b : Buffer) :
    (b.reserve needed).length = b.length := by
  unfold reserve
  split <;> rfl

@[simp] theorem origin_reserve (needed : Nat) (b : Buffer) :
    (b.reserve needed).origin = b.origin := by
  unfold reserve
  split <;> rfl

@[simp] theorem order_reserve (needed : Nat) (b : Buffer) :
    (b.reserve needed).order = b.order := by
  unfold reserve
  split <;> rfl

theorem toList_ofBytes (bytes : List UInt8) : (ofBytes bytes).toList = bytes := List.take_length

theorem length_toList {b : Buffer} (hroom : b.length ≤ b.capacity) :
    b.toList.length = b.length := by
  rw [toList, List.length_take, Array.length_toList]
  exact Nat.min_eq_left hroom

/-- Growing leaves what counts, as far as there was room for it. -/
theorem toList_reserve (needed : Nat) {b : Buffer} (hroom : b.length ≤ b.capacity) :
    (b.reserve needed).toList = b.toList := by
  simp only [capacity] at hroom
  simp only [toList, length_reserve]
  unfold reserve
  split
  · rw [Array.toList_append, List.take_append_of_le_length (by simpa using hroom)]
  · rfl

theorem stores_put (bytes : List UInt8) (b : Buffer) : b.Stores (b.put bytes) bytes where
  cursor := rfl
  origin := origin_reserve _ b
  order := order_reserve _ b
  length _ := by simp [put]
  inside i hi := by
    have hsize := (size_reserve (b.cursor + bytes.length) b).1
    simp only [byteAt, put, cursor_reserve]
    exact getD_overwrite_inside bytes hsize hi
  outside i hi := by
    have hside : i < b.cursor ∨ b.cursor + bytes.length ≤ i := hi
    rw [← byteAt_reserve (b.cursor + bytes.length) b i]
    simp only [byteAt, put, cursor_reserve]
    exact getD_overwrite_outside bytes _ hside
  room hr := by
    have hsize := size_reserve (b.cursor + bytes.length) b
    simp only [capacity] at hr
    simp only [capacity, put, size_overwrite, length_reserve]
    omega

theorem padding_eq_gap (size : Nat) (b : Buffer) :
    b.padding size = gap size (b.cursor - b.origin) := rfl

theorem stores_align (size : Nat) (b : Buffer) :
    b.Stores (b.align size) (List.replicate (b.padding size) 0) := by
  simp only [align]
  split
  · rename_i h
    rw [h]
    exact Stores.refl b
  · exact stores_put _ b

theorem stores_putWord (width n : Nat) (b : Buffer) :
    b.Stores (b.putWord width n)
      (List.replicate (b.padding width) 0 ++ b.order.encode width n) := by
  have halign := stores_align width b
  have hput := stores_put ((b.align width).order.encode width n) (b.align width)
  rw [halign.order] at hput
  exact halign.trans (by simpa [putWord, halign.order] using hput)

/-- The offset behind stored bytes, where the cursor was not in front of the origin. -/
theorem Stores.offset {a b : Buffer} {bytes : List UInt8} (h : a.Stores b bytes)
    (ha : a.origin ≤ a.cursor) : b.cursor - b.origin = a.cursor - a.origin + bytes.length := by
  rw [h.cursor, h.origin]
  omega

theorem Stores.origin_le {a b : Buffer} {bytes : List UInt8} (h : a.Stores b bytes)
    (ha : a.origin ≤ a.cursor) : b.origin ≤ b.cursor := by
  rw [h.cursor, h.origin]
  omega

/-- What counts of a buffer after bytes were stored at its end. -/
theorem Stores.toList_eq {a b : Buffer} {bytes : List UInt8} (h : a.Stores b bytes)
    (hend : a.cursor = a.length) (hroom : a.length ≤ a.capacity) :
    b.toList = a.toList ++ bytes := by
  have hlen := h.length (by omega)
  have hcur := h.cursor
  have hcap := h.room hroom
  simp only [capacity] at hroom hcap
  apply List.ext_getElem
  · simp [toList]
    omega
  · intro i hi hi'
    simp only [toList, List.length_append, List.length_take, Array.length_toList] at hi hi'
    by_cases hia : i < a.length
    · have hout := h.outside i (by omega)
      simp only [byteAt, Array.getD_eq_getD_getElem?] at hout
      rw [Array.getElem?_eq_getElem (by omega), Array.getElem?_eq_getElem (by omega)] at hout
      rw [List.getElem_append_left (by simp [toList]; omega)]
      simpa [toList] using hout
    · have hin := h.inside (i - a.length) (by omega)
      rw [hend, show a.length + (i - a.length) = i by omega] at hin
      simp only [byteAt, Array.getD_eq_getD_getElem?] at hin
      rw [Array.getElem?_eq_getElem (by omega)] at hin
      rw [List.getElem_append_right (by simp [toList]; omega)]
      simp only [toList, List.getElem_take, Array.getElem_toList, List.length_take,
        Array.length_toList, Nat.min_eq_left hroom]
      simpa using hin

end Buffer

namespace Coding

theorem bind_apply {α β : Type} (step : Coding α) (rest : α → Coding β) (b : Buffer) :
    (step >>= rest) b =
      match step b with
      | .ok x b => rest x b
      | .error fault b => .error fault b := by
  show EStateM.bind step rest b = _
  unfold EStateM.bind
  cases step b <;> rfl

/-- A step that comes first has succeeded where the whole has. -/
theorem bind_eq_ok {α β : Type} {step : Coding α} {rest : α → Coding β} {b b' : Buffer} {y : β} :
    (step >>= rest) b = .ok y b' ↔ ∃ x c, step b = .ok x c ∧ rest x c = .ok y b' := by
  rw [bind_apply]
  constructor
  · intro h
    cases hs : step b with
    | ok x c => exact ⟨x, c, rfl, by rwa [hs] at h⟩
    | error fault c => rw [hs] at h; cases h
  · rintro ⟨x, c, hs, hr⟩
    rw [hs]
    exact hr

section Runs

variable {α β : Type} (step : Coding α) (rest : α → Coding β) (field : String) (b : Buffer)

/-- What a step that starts with a buffer gives. -/
def outcome : Except Fault α :=
  match step b with
  | .ok x _ => .ok x
  | .error fault _ => .error fault

/-- The buffer that the step ends with, whether it succeeds or fails. -/
def final : Buffer :=
  match step b with
  | .ok _ c => c
  | .error _ c => c

/-- The step succeeds or fails with the buffer that it ends with. -/
theorem apply_cases :
    (∃ x, step b = .ok x (step.final b)) ∨ ∃ fault, step b = .error fault (step.final b) := by
  unfold final
  cases step b with
  | ok x c => exact Or.inl ⟨x, rfl⟩
  | error fault c => exact Or.inr ⟨fault, rfl⟩

theorem outcome_bind :
    (step >>= rest).outcome b =
      match step b with
      | .ok x c => (rest x).outcome c
      | .error fault _ => .error fault := by
  unfold outcome
  rw [bind_apply]
  cases step b <;> rfl

theorem final_bind :
    (step >>= rest).final b =
      match step b with
      | .ok x c => (rest x).final c
      | .error _ c => c := by
  unfold final
  rw [bind_apply]
  cases step b <;> rfl

theorem outcome_inField :
    (inField field step).outcome b = (step.outcome b).mapError (·.inField field) := by
  unfold outcome inField
  cases step b <;> rfl

theorem final_inField : (inField field step).final b = step.final b := by
  unfold final inField
  cases step b <;> rfl

end Runs

/-- Where a step gives the same with two buffers, up to what `f` makes of faults, both runs succeed
with one value or both fail, with faults that are the same for `f`. -/
theorem runs_cases {α : Type} {step : Coding α} {b c : Buffer} (f : Fault → Fault)
    (h : (step.outcome c).mapError f = (step.outcome b).mapError f) :
    (∃ x, step b = .ok x (step.final b) ∧ step c = .ok x (step.final c)) ∨
      ∃ fault fault', step b = .error fault (step.final b) ∧
        step c = .error fault' (step.final c) ∧ f fault' = f fault := by
  unfold outcome at h
  rcases step.apply_cases b with ⟨x, hb⟩ | ⟨fault, hb⟩ <;>
    rcases step.apply_cases c with ⟨y, hc⟩ | ⟨fault', hc⟩ <;> rw [hb, hc] at h
  · obtain rfl := Except.ok.inj h
    exact Or.inl ⟨y, hb, hc⟩
  · cases h
  · cases h
  · exact Or.inr ⟨fault, fault', hb, hc, Except.error.inj h⟩

/-- Whenever the step succeeds, `fact` holds and the image is stored at the cursor. -/
def Lays (step : Coding Unit) (fact : Prop) (image : Image) : Prop :=
  ∀ ⦃b b' : Buffer⦄, b.origin ≤ b.cursor → step b = .ok () b' →
    fact ∧ b.Stores b' (image.bytes b.order (b.cursor - b.origin))

namespace Lays

variable {step next : Coding Unit} {fact other : Prop} {image tail : Image}

theorem imp (h : Lays step fact image) (himp : fact → other) : Lays step other image :=
  fun _ _ hb hs => ⟨himp (h hb hs).1, (h hb hs).2⟩

protected theorem pure : Lays (pure ()) True Image.nil := by
  intro b b' _ hs
  obtain ⟨⟩ := hs
  exact ⟨trivial, Buffer.Stores.refl b⟩

protected theorem fail {cause : Cause} : Lays (fail cause) fact image :=
  fun _ _ _ hs => nomatch hs

/-- The fact of the first step is at hand for the second. -/
protected theorem bind (h : Lays step fact image) (hn : fact → Lays next other tail) :
    Lays (step >>= fun _ => next) other (image ++ tail) := by
  intro b b' hb hs
  obtain ⟨⟨⟩, c, h1, h2⟩ := bind_eq_ok.mp hs
  obtain ⟨hf, hst⟩ := h hb h1
  obtain ⟨ho, hst'⟩ := hn hf (hst.origin_le hb) h2
  refine ⟨ho, ?_⟩
  rw [hst.order, hst.offset hb] at hst'
  exact hst.trans hst'

/-- A check gives way to the step that it guards. -/
theorem bind_nil (h : Lays step fact Image.nil) (hn : fact → Lays next other tail) :
    Lays (step >>= fun _ => next) other tail := by
  simpa using h.bind hn

theorem inField (h : Lays step fact image) (field : String) :
    Lays (inField field step) fact image := by
  intro b b' hb hs
  unfold Coding.inField at hs
  cases hstep : step b with
  | ok x c =>
    rw [hstep] at hs
    obtain ⟨⟩ := hs
    exact h hb hstep
  | error fault c =>
    rw [hstep] at hs
    cases hs

theorem put (bytes : List UInt8) : Lays (put bytes) True (Image.raw bytes) := by
  intro b b' _ hs
  obtain ⟨⟩ := hs
  exact ⟨trivial, Buffer.stores_put bytes b⟩

theorem align (size : Nat) : Lays (align size) True (Image.padding size) := by
  intro b b' _ hs
  obtain ⟨⟩ := hs
  exact ⟨trivial, Buffer.stores_align size b⟩

theorem putWord (width n : Nat) : Lays (putWord width n) True (Image.word width n) := by
  intro b b' hb hs
  obtain ⟨⟩ := hs
  rw [Image.bytes_word]
  exact ⟨trivial, Buffer.stores_putWord width n b⟩

end Lays

end Coding

end Cdr
