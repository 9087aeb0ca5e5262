import Cdr.Proofs.Retrieving
import Cdr.Scalar

/-! Scripts.  A script writes scalars and bytes one behind the other, with padding and with changes
of the byte order and of the origin between any two of them.  The bytes do not tell where one item
ends and the next starts, but a reader that knows the form of the script, which is the script less
the values, gets back all that was written and no byte more. -/

namespace Cdr

namespace Buffer

/-- The buffer with the cursor, the origin and the byte order of the other one. -/
def alongside (b w : Buffer) : Buffer :=
  { b with cursor := w.cursor, origin := w.origin, order := w.order }

/-- The cursor is behind the last byte that counts. -/
structure AtEnd (w : Buffer) : Prop where
  cursor_eq : w.cursor = w.length
  length_le : w.length ≤ w.capacity

variable {w w' : Buffer} {bytes : List UInt8}

theorem atEnd_ofCapacity (capacity : Nat) : (ofCapacity capacity).AtEnd := ⟨rfl, Nat.zero_le _⟩

theorem alongside_ofCapacity (bytes : List UInt8) (capacity : Nat) :
    (ofBytes bytes).alongside (ofCapacity capacity) = ofBytes bytes := rfl

theorem AtEnd.length_toList (h : w.AtEnd) : w.toList.length = w.cursor := by
  rw [Buffer.length_toList h.length_le, h.cursor_eq]

/-- A reader of what was written has read all of it where the writer has come to the end. -/
theorem AtEnd.remaining_alongside (h : w.AtEnd) :
    ((ofBytes w.toList).alongside w).remaining = 0 := by
  show w.toList.length - w.cursor = 0
  rw [h.length_toList, Nat.sub_self]

/-- Bytes that are stored at the end go behind all others, and the cursor behind them. -/
theorem Stores.atEnd (h : w.Stores w' bytes) (hw : w.AtEnd) :
    w'.AtEnd ∧ w'.toList = w.toList ++ bytes := by
  refine ⟨⟨?_, h.room hw.length_le⟩, h.toList_eq hw.cursor_eq hw.length_le⟩
  have hcursor := h.cursor
  have hend := hw.cursor_eq
  have hlength := h.length (by omega)
  omega

/-- A reader in the place of the writer moves on over what the writer stores. -/
theorem Stores.alongside (h : w.Stores w' bytes) (b : Buffer) :
    (b.alongside w).advance bytes.length = b.alongside w' := by
  simp only [Buffer.alongside, advance, h.cursor, h.origin, h.order]

/-- What the writer stores is next for a reader in its place, if all that was written is there. -/
theorem AtEnd.prefix_rest (hw : w.AtEnd) {b : Buffer} (hpre : w.toList ++ bytes <+: b.toList) :
    bytes <+: (b.alongside w).rest := by
  obtain ⟨tail, htail⟩ := hpre
  refine ⟨tail, ?_⟩
  show bytes ++ tail = b.toList.drop w.cursor
  rw [← htail, List.append_assoc, List.drop_left' hw.length_toList]

end Buffer

namespace Coding

variable {α β : Type} {x : α} {y : β} {write next : Coding Unit} {read : Coding α}

/-- From the end of a buffer `write` goes on to the end of what it makes of the buffer.  A reader
whose bytes start with all that is then written, and that stands where the writer stood, gets `x`
from `read` and stands where the writer stands. -/
def Echoes (write : Coding Unit) (read : Coding α) (x : α) : Prop :=
  ∀ ⦃w : Buffer⦄, w.AtEnd → ∃ w' : Buffer, write w = .ok () w' ∧ w'.AtEnd ∧
    w.toList <+: w'.toList ∧
    ∀ b : Buffer, w'.toList <+: b.toList → read (b.alongside w) = .ok x (b.alongside w')

namespace Echoes

protected theorem pure (x : α) : Echoes (pure ()) (pure x) x :=
  fun w hw => ⟨w, rfl, hw, List.prefix_rfl, fun _ _ => rfl⟩

protected theorem bind {rest : α → Coding β} (h : Echoes write read x)
    (hnext : Echoes next (rest x) y) : Echoes (write >>= fun _ => next) (read >>= rest) y := by
  intro w hw
  obtain ⟨w₁, hwrite, hw₁, hpre, hread⟩ := h hw
  obtain ⟨w₂, hwrite', hw₂, hpre', hread'⟩ := hnext hw₁
  refine ⟨w₂, ?_, hw₂, hpre.trans hpre', fun b hb => ?_⟩
  · rw [bind_apply, hwrite]
    exact hwrite'
  · -- The reader's bytes start with all that is written in the end, so with the first part too.
    rw [bind_apply, hread b (hpre'.trans hb)]
    exact hread' b hb

theorem map (h : Echoes write read x) (f : α → β) : Echoes write (do return f (← read)) (f x) := by
  intro w hw
  obtain ⟨w', hwrite, hw', hpre, hread⟩ := h hw
  refine ⟨w', hwrite, hw', hpre, fun b hb => ?_⟩
  rw [bind_apply, hread b hb]
  rfl

/-- A step that stores bytes is echoed by one that reads them where the writer stood. -/
theorem of_stores {f : Buffer → Buffer} {bytes : Buffer → List UInt8}
    (hstores : ∀ w : Buffer, w.Stores (f w) (bytes w))
    (hread : ∀ w b : Buffer, bytes w <+: (b.alongside w).rest →
      read (b.alongside w) = .ok x ((b.alongside w).advance (bytes w).length)) :
    Echoes (modify f) read x := by
  intro w hw
  obtain ⟨hend, htoList⟩ := (hstores w).atEnd hw
  refine ⟨f w, rfl, hend, ?_, fun b hb => ?_⟩
  · rw [htoList]
    exact List.prefix_append _ _
  · rw [htoList] at hb
    rw [hread w b (hw.prefix_rest hb), (hstores w).alongside b]

theorem put (bytes : List UInt8) : Echoes (put bytes) (take bytes.length) bytes :=
  of_stores (Buffer.stores_put bytes) fun _ _ hpre => take_of_prefix hpre

theorem align (size : Nat) : Echoes (align size) (skipTo size) () := by
  refine of_stores (Buffer.stores_align size) fun w b hpre => ?_
  rw [List.length_replicate]
  exact skipTo_of_prefix hpre

theorem putWord {width n : Nat} (hn : n < 256 ^ width) :
    Echoes (putWord width n) (takeWord width) n := by
  refine of_stores (Buffer.stores_putWord width n) fun w b hpre => ?_
  rw [List.length_append, List.length_replicate, ByteOrder.length_encode]
  exact takeWord_of_prefix hn hpre

theorem putScalar (x : Scalar) : Echoes (putScalar x) (takeScalar x.kind) x := by
  have h := (putWord x.toBits_lt).map x.kind.ofBits
  rwa [x.ofBits_toBits] at h

/-- The byte order is no part of the bytes: a reader has to change it as the writer did. -/
theorem setOrder (order : ByteOrder) :
    Echoes (modify ({ · with order })) (modify ({ · with order })) () :=
  fun w hw => ⟨{ w with order }, rfl, ⟨hw.cursor_eq, hw.length_le⟩, List.prefix_rfl, fun _ _ => rfl⟩

/-- The origin may lie anywhere, since a reader counts from it as the writer did. -/
theorem setOrigin (origin : Nat) :
    Echoes (modify ({ · with origin })) (modify ({ · with origin })) () :=
  fun w hw => ⟨{ w with origin }, rfl, ⟨hw.cursor_eq, hw.length_le⟩, List.prefix_rfl,
    fun _ _ => rfl⟩

end Echoes

end Coding

/-- What is written in one piece: a scalar at its alignment, or bytes as they are. -/
inductive Item where
  | scalar (x : Scalar)
  | bytes (data : List UInt8)
deriving DecidableEq

/-- What is known of an item before it is read: the kind of a scalar, or a number of bytes. -/
inductive Item.Form where
  | scalar (kind : Scalar.Kind)
  | bytes (count : Nat)
deriving DecidableEq

namespace Item

def form : Item → Form
  | scalar x => .scalar x.kind
  | bytes data => .bytes data.length

def write : Item → Coding Unit
  | scalar x => Coding.putScalar x
  | bytes data => Coding.put data

def Form.read : Form → Coding Item
  | scalar kind => return .scalar (← Coding.takeScalar kind)
  | bytes count => return .bytes (← Coding.take count)

theorem echoes (x : Item) : Coding.Echoes x.write x.form.read x := by
  cases x with
  | scalar x => exact (Coding.Echoes.putScalar x).map Item.scalar
  | bytes data => exact (Coding.Echoes.put data).map Item.bytes

end Item

/-- A step of a script over items, or over their forms. -/
inductive Script.Step (α : Type) where
  | item (x : α)
  /-- Padding up to a multiple of the size, counted from the origin. -/
  | align (size : Nat)
  | setOrder (order : ByteOrder)
  | setOrigin (origin : Nat)
deriving DecidableEq

abbrev Script (α : Type) := List (Script.Step α)

namespace Script

namespace Step

/-- The step with the value left out. -/
def form : Step Item → Step Item.Form
  | item x => item x.form
  | align size => align size
  | setOrder order => setOrder order
  | setOrigin origin => setOrigin origin

def item? : Step Item → Option Item
  | item x => some x
  | _ => none

def write : Step Item → Coding Unit
  | item x => x.write
  | align size => Coding.align size
  | setOrder order => modify ({ · with order })
  | setOrigin origin => modify ({ · with origin })

/-- Reads the item of the step, if it has one. -/
def read : Step Item.Form → Coding (Option Item)
  | item form => return some (← form.read)
  | align size => do Coding.skipTo size; return none
  | setOrder order => do modify ({ · with order }); return none
  | setOrigin origin => do modify ({ · with origin }); return none

theorem echoes (s : Step Item) : Coding.Echoes s.write s.form.read s.item? := by
  cases s with
  | item x => exact x.echoes.map some
  | align size => exact (Coding.Echoes.align size).map fun _ => none
  | setOrder order => exact (Coding.Echoes.setOrder order).map fun _ => none
  | setOrigin origin => exact (Coding.Echoes.setOrigin origin).map fun _ => none

end Step

/-- The script with the values left out. -/
def form (script : Script Item) : Script Item.Form := script.map Step.form

def items (script : Script Item) : List Item := script.filterMap Step.item?

def write : Script Item → Coding Unit
  | [] => pure ()
  | s :: script => do
    s.write
    write script

/-- Reads the items of all steps. -/
def read : Script Item.Form → Coding (List Item)
  | [] => return []
  | s :: script => do
    let x ← s.read
    return x.toList ++ (← read script)

theorem items_cons (s : Step Item) (script : Script Item) :
    items (s :: script) = s.item?.toList ++ script.items := by
  cases s <;> rfl

/-- A reader stays where the writer was, from one step to the next. -/
theorem echoes (script : Script Item) :
    Coding.Echoes script.write script.form.read script.items := by
  induction script with
  | nil => exact Coding.Echoes.pure []
  | cons s script ih =>
    rw [items_cons]
    exact s.echoes.bind (ih.map (s.item?.toList ++ ·))

/-- Whatever a script writes to a new buffer, and whatever the capacity of the buffer is, a reader
that is given the bytes and the form of the script reads exactly the items of the script.  No byte
is left then, and alignment and byte order are those that the writer ended with. -/
theorem read_form_written (script : Script Item) (capacity : Nat) :
    ∃ written, script.write (Buffer.ofCapacity capacity) = .ok () written ∧
      ∃ last, script.form.read (Buffer.ofBytes written.toList) = .ok script.items last ∧
        last.remaining = 0 ∧ last.origin = written.origin ∧ last.order = written.order := by
  obtain ⟨written, hwrite, hend, -, hread⟩ := script.echoes (Buffer.atEnd_ofCapacity capacity)
  have hall : written.toList <+: (Buffer.ofBytes written.toList).toList :=
    ⟨[], by rw [Buffer.toList_ofBytes, List.append_nil]⟩
  have hitems := hread (Buffer.ofBytes written.toList) hall
  rw [Buffer.alongside_ofCapacity] at hitems
  exact ⟨written, hwrite, _, hitems, hend.remaining_alongside, rfl, rfl⟩

/-- In front of its origin a scalar is not padded, and a float that is not a number keeps its
bits. -/
example :
    let script : Script Item := [.item (.bytes [7]),
      .item (.scalar (.integer ⟨.int16, -2, by decide⟩)), .setOrigin 20, .setOrder .big,
      .item (.bytes [8]), .item (.scalar (.float32 0x7fa00001)), .setOrigin 2, .align 4]
    let bytes := (script.write.final (Buffer.ofCapacity 0)).toList
    bytes = [7, 0, 254, 255, 8, 0x7f, 0xa0, 0, 1, 0] ∧
      (script.form.read.outcome (Buffer.ofBytes bytes)).toOption = some script.items :=
  ⟨by decide +kernel, by decide +kernel⟩

end Script

end Cdr
