import Cdr.Proofs.Storing

/-! Steps that read.  `Coding.Reads` says of a step that wherever the bytes at the cursor start with
an image, the step gives a value and moves the cursor behind the image, and changes nothing else. -/

namespace Cdr

namespace Buffer

/-- The bytes that count from the cursor on. -/
def rest (b : Buffer) : List UInt8 := b.toList.drop b.cursor

/-- The buffer with the cursor moved forward. -/
def advance (n : Nat) (b : Buffer) : Buffer := { b with cursor := b.cursor + n }

@[simp] theorem advance_advance (m n : Nat) (b : Buffer) :
    (b.advance m).advance n = b.advance (m + n) := by
  simp [advance, Nat.add_assoc]

@[simp] theorem cursor_advance (n : Nat) (b : Buffer) : (b.advance n).cursor = b.cursor + n := rfl

@[simp] theorem origin_advance (n : Nat) (b : Buffer) : (b.advance n).origin = b.origin := rfl

@[simp] theorem order_advance (n : Nat) (b : Buffer) : (b.advance n).order = b.order := rfl

theorem remaining_advance (n : Nat) (b : Buffer) :
    (b.advance n).remaining = b.remaining - n := by
  simp only [remaining, advance]
  omega

theorem rest_advance (n : Nat) (b : Buffer) : (b.advance n).rest = b.rest.drop n := by
  simp [rest, advance, toList]

theorem length_rest (b : Buffer) : b.rest.length = min b.length b.capacity - b.cursor := by
  simp [rest, toList, capacity]

end Buffer

namespace Coding

/-- The bytes at the cursor are taken, if there are as many that count. -/
theorem take_eq (count : Nat) (b : Buffer) :
    take count b =
      if b.remaining < count then .error (Cause.tooShort count b.remaining b.cursor).fault b
      else .ok (b.rest.take count) (b.advance count) := by
  unfold take
  split
  · rfl
  · rename_i henough
    rw [Buffer.remaining] at henough
    rw [Buffer.rest, Buffer.toList, List.drop_take, List.take_take, Nat.min_eq_left (by omega),
      Array.toList_extract, List.extract_eq_take_drop, Nat.add_sub_cancel_left]
    rfl

/-- Bytes that stand at the cursor are taken. -/
theorem take_of_prefix {b : Buffer} {bytes : List UInt8} (hpre : bytes <+: b.rest) :
    take bytes.length b = .ok bytes (b.advance bytes.length) := by
  have hlen := hpre.length_le
  rw [Buffer.length_rest] at hlen
  rw [take_eq, if_neg (by rw [Buffer.remaining]; omega), ← List.prefix_iff_eq_take.mp hpre]

/-- Padding is skipped where its zeros stand at the cursor. -/
theorem skipTo_of_prefix {b : Buffer} {size : Nat}
    (hpre : List.replicate (b.padding size) 0 <+: b.rest) :
    skipTo size b = .ok () (b.advance (b.padding size)) := by
  unfold skipTo
  rw [bind_apply]
  show (if b.padding size ≠ 0 then discard (take (b.padding size)) else pure ()) b = _
  split
  · have htake := take_of_prefix hpre
    rw [List.length_replicate] at htake
    show EStateM.map (fun _ => ()) (take (b.padding size)) b = _
    rw [EStateM.map, htake]
  · rename_i hnone
    rw [Decidable.not_not.mp hnone]
    rfl

/-- A word is read where it stands behind its padding, be it in front of the origin or behind it. -/
theorem takeWord_of_prefix {b : Buffer} {width n : Nat} (hn : n < 256 ^ width)
    (hpre : List.replicate (b.padding width) 0 ++ b.order.encode width n <+: b.rest) :
    takeWord width b = .ok n (b.advance (b.padding width + width)) := by
  have hskip := skipTo_of_prefix ((List.prefix_append _ _).trans hpre)
  have hword : b.order.encode width n <+: (b.advance (b.padding width)).rest := by
    obtain ⟨tail, htail⟩ := hpre
    refine ⟨tail, ?_⟩
    rw [Buffer.rest_advance, ← htail, List.append_assoc,
      List.drop_left' List.length_replicate]
  have htake := take_of_prefix hword
  rw [ByteOrder.length_encode] at htake
  rw [takeWord, bind_apply, hskip]
  show (take width >>= fun bytes => pure (b.order.decode bytes)) (b.advance (b.padding width)) = _
  rw [bind_apply, htake, ← Buffer.advance_advance]
  show EStateM.Result.ok (b.order.decode (b.order.encode width n)) _ = _
  rw [ByteOrder.decode_encode, Nat.mod_eq_of_lt hn]

/-- Where the bytes at the cursor start with the image, the step gives `x` and moves the cursor
behind the image. -/
def Reads {α : Type} (step : Coding α) (image : Image) (x : α) : Prop :=
  ∀ ⦃b : Buffer⦄, b.origin ≤ b.cursor →
    image.bytes b.order (b.cursor - b.origin) <+: b.rest →
    step b = .ok x (b.advance (image.bytes b.order (b.cursor - b.origin)).length)

namespace Reads

variable {α β : Type} {x : α} {y : β} {step : Coding α} {image tail : Image}

protected theorem pure (x : α) : Reads (pure x) Image.nil x := fun _ _ _ => rfl

protected theorem bind {rest : α → Coding β} (h : Reads step image x)
    (hr : Reads (rest x) tail y) : Reads (step >>= rest) (image ++ tail) y := by
  intro b hb hpre
  rw [Image.bytes_append] at hpre ⊢
  have h1 := h hb ((List.prefix_append _ _).trans hpre)
  generalize image.bytes b.order (b.cursor - b.origin) = xs at hpre h1 ⊢
  obtain ⟨zs, hzs⟩ := hpre
  have h2 := hr (b := b.advance xs.length) (by simp; omega) (by
    refine ⟨zs, ?_⟩
    rw [Buffer.rest_advance, ← hzs, List.append_assoc, List.drop_left]
    simp [Nat.sub_add_comm hb])
  rw [bind_apply, h1]
  simpa [Nat.sub_add_comm hb] using h2

/-- The step after the last of the image reads nothing. -/
theorem bind_end {rest : α → Coding β} (h : Reads step image x)
    (hr : Reads (rest x) Image.nil y) : Reads (step >>= rest) image y := by
  simpa using h.bind hr

theorem map (h : Reads step image x) (f : α → β) :
    Reads (step >>= fun a => pure (f a)) image (f x) :=
  h.bind_end (Reads.pure (f x))

theorem take {bytes : List UInt8} {count : Nat} (hc : bytes.length = count) :
    Reads (take count) (Image.raw bytes) bytes := by
  intro b _ hpre
  subst hc
  exact take_of_prefix hpre

theorem skipTo (size : Nat) : Reads (skipTo size) (Image.padding size) () := by
  intro b _ hpre
  simp only [Image.padding, List.length_replicate] at hpre ⊢
  exact skipTo_of_prefix hpre

theorem takeWord {width n : Nat} (hn : n < 256 ^ width) :
    Reads (takeWord width) (Image.word width n) n := by
  intro b _ hpre
  rw [Image.bytes_word] at hpre ⊢
  rw [List.length_append, List.length_replicate, ByteOrder.length_encode]
  exact takeWord_of_prefix hn hpre

end Reads

end Coding

end Cdr
