import Cdr.Proofs.Framing

/-! The buffer as a string of bytes.  A tape is a string of bytes with a cursor; behind its end all
bytes are zero, and it has no capacity.  Whatever is asked of a buffer, one command after the other,
is answered as a tape answers it, so the capacity and its growth never show, and a byte that does
not count any more never comes back. -/

namespace Cdr

/-- A string of bytes with a cursor, which may stand behind the end. -/
@[ext]
structure Tape where
  bytes : List UInt8
  cursor : Nat
  origin : Nat
  order : ByteOrder

namespace Tape

def ofBytes (bytes : List UInt8) : Tape := ⟨bytes, 0, 0, .little⟩

def remaining (t : Tape) : Nat := t.bytes.length - t.cursor

/-- The bytes take the places from the cursor on.  Up to the cursor the string is filled with
zeros. -/
def put (xs : List UInt8) (t : Tape) : Tape :=
  { t with
    bytes := t.bytes.take t.cursor ++ List.replicate (t.cursor - t.bytes.length) 0 ++ xs ++
      t.bytes.drop (t.cursor + xs.length)
    cursor := t.cursor + xs.length }

def padding (size : Nat) (t : Tape) : Nat := gap size (t.cursor - t.origin)

/-- Where no padding is needed, the string is not filled up to the cursor either. -/
def align (size : Nat) (t : Tape) : Tape :=
  if t.padding size = 0 then t else t.put (List.replicate (t.padding size) 0)

def putWord (width n : Nat) (t : Tape) : Tape :=
  (t.align width).put (t.order.encode width n)

def seek (position : Nat) (t : Tape) : Tape := { t with cursor := position }

def setOrigin (origin : Nat) (t : Tape) : Tape := { t with origin }

def setOrder (order : ByteOrder) (t : Tape) : Tape := { t with order }

def zeroOut (t : Tape) : Tape := { t with bytes := [] }

def reset (t : Tape) : Tape := { t with bytes := [], cursor := 0, origin := 0 }

def take (count : Nat) : EStateM Fault Tape (List UInt8) := fun t =>
  if t.remaining < count then .error (Cause.tooShort count t.remaining t.cursor).fault t
  else .ok ((t.bytes.drop t.cursor).take count) { t with cursor := t.cursor + count }

def skipTo (size : Nat) : EStateM Fault Tape Unit := do
  let n := (← get).padding size
  if n ≠ 0 then discard (take n)

def takeWord (width : Nat) : EStateM Fault Tape Nat := do
  skipTo width
  let order := (← get).order
  return order.decode (← take width)

/-- The bytes in front of the cursor, be they filled up with zeros, are as many as it says. -/
theorem length_front (t : Tape) :
    (t.bytes.take t.cursor ++ List.replicate (t.cursor - t.bytes.length) 0).length = t.cursor := by
  simp only [List.length_append, List.length_take, List.length_replicate]
  omega

theorem length_put (xs : List UInt8) (t : Tape) :
    (t.put xs).bytes.length = max t.bytes.length (t.cursor + xs.length) := by
  rw [put, List.length_append, List.length_append, length_front, List.length_drop]
  omega

/-- Places behind the end count as zero, before and after. -/
theorem getD_put (xs : List UInt8) (t : Tape) (i : Nat) :
    (t.put xs).bytes.getD i 0 =
      if t.cursor ≤ i ∧ i < t.cursor + xs.length then xs.getD (i - t.cursor) 0
      else t.bytes.getD i 0 := by
  have hfront := length_front t
  simp only [put, List.getD_eq_getElem?_getD]
  by_cases hlow : i < t.cursor
  · rw [if_neg (by omega), List.append_assoc, List.getElem?_append_left (by omega)]
    by_cases hend : i < t.bytes.length
    · rw [List.getElem?_append_left (by rw [List.length_take]; omega),
        List.getElem?_take_of_lt hlow]
    · rw [List.getElem?_append_right (by rw [List.length_take]; omega), List.getElem?_replicate,
        List.getElem?_eq_none (by omega)]
      split <;> rfl
  · rw [List.append_assoc, List.getElem?_append_right (by omega), hfront]
    by_cases hhigh : i < t.cursor + xs.length
    · rw [if_pos (by omega), List.getElem?_append_left (by omega)]
    · rw [if_neg (by omega), List.getElem?_append_right (by omega), List.getElem?_drop,
        show t.cursor + xs.length + (i - t.cursor - xs.length) = i by omega]

end Tape

/-- What can be asked of a buffer.  Numbers of every type are written and read as words. -/
inductive Command where
  | put (bytes : List UInt8)
  | putWord (width n : Nat)
  | align (size : Nat)
  | take (count : Nat)
  | takeWord (width : Nat)
  | skipTo (size : Nat)
  | seek (position : Nat)
  | setOrigin (origin : Nat)
  | setOrder (order : ByteOrder)
  | zeroOut
  | reset

inductive Reply where
  | done
  | bytes (data : List UInt8)
  | word (n : Nat)
deriving DecidableEq

/-- All that can be seen of a buffer, but for its capacity. -/
structure View where
  cursor : Nat
  length : Nat
  remaining : Nat
  bytes : List UInt8
  origin : Nat
  order : ByteOrder
deriving DecidableEq

/-- How commands are carried out on states of a kind, and what is seen of a state. -/
structure Machine (σ : Type) where
  run : Command → EStateM Fault σ Reply
  view : σ → View

namespace Machine

variable {σ τ : Type}

/-- The state after commands, be they answered or refused. -/
def after (m : Machine σ) : List Command → σ → σ
  | [], s => s
  | c :: cs, s =>
    match m.run c s with
    | .ok _ s' => m.after cs s'
    | .error _ s' => m.after cs s'

/-- The answer to each of the commands, and what is seen after it. -/
def trace (m : Machine σ) : List Command → σ → List (Except Fault Reply × View)
  | [], _ => []
  | c :: cs, s =>
    match m.run c s with
    | .ok reply s' => (.ok reply, m.view s') :: m.trace cs s'
    | .error fault s' => (.error fault, m.view s') :: m.trace cs s'

end Machine

def Tape.machine : Machine Tape where
  run
    | .put bytes => do modify (put bytes); return .done
    | .putWord width n => do modify (putWord width n); return .done
    | .align size => do modify (align size); return .done
    | .take count => return .bytes (← take count)
    | .takeWord width => return .word (← takeWord width)
    | .skipTo size => do skipTo size; return .done
    | .seek position => do modify (seek position); return .done
    | .setOrigin origin => do modify (setOrigin origin); return .done
    | .setOrder order => do modify (setOrder order); return .done
    | .zeroOut => do modify zeroOut; return .done
    | .reset => do modify reset; return .done
  view t := ⟨t.cursor, t.bytes.length, t.remaining, t.bytes, t.origin, t.order⟩

def Buffer.machine : Machine Buffer where
  run
    | .put bytes => do Coding.put bytes; return .done
    | .putWord width n => do Coding.putWord width n; return .done
    | .align size => do Coding.align size; return .done
    | .take count => return .bytes (← Coding.take count)
    | .takeWord width => return .word (← Coding.takeWord width)
    | .skipTo size => do Coding.skipTo size; return .done
    | .seek position => do modify (seek position); return .done
    | .setOrigin origin => do modify ({ · with origin }); return .done
    | .setOrder order => do modify ({ · with order }); return .done
    | .zeroOut => do modify zeroOut; return .done
    | .reset => do modify reset; return .done
  view b := ⟨b.cursor, b.length, b.remaining, b.toList, b.origin, b.order⟩

namespace Buffer

/-- The string of bytes that the buffer stands for. -/
def tape (b : Buffer) : Tape := ⟨b.toList, b.cursor, b.origin, b.order⟩

/-- The cursor and the end are within the storage, and what is stored behind the end is zero. -/
structure Clean (b : Buffer) : Prop where
  cursor_le : b.cursor ≤ b.capacity
  length_le : b.length ≤ b.capacity
  blank : ∀ i, b.length ≤ i → b.byteAt i = 0

variable {b : Buffer}

namespace Clean

theorem length_toList (h : b.Clean) : b.toList.length = b.length :=
  Buffer.length_toList h.length_le

theorem getD_toList (h : b.Clean) (i : Nat) : b.toList.getD i 0 = b.byteAt i := by
  rw [Buffer.getD_toList]
  split
  · rfl
  · rename_i hi
    exact (h.blank i (Nat.le_of_not_lt hi)).symm

/-- What counts is known from its length and from the byte at each place. -/
theorem toList_eq (h : b.Clean) {bytes : List UInt8} (hlength : bytes.length = b.length)
    (hbytes : ∀ i, bytes.getD i 0 = b.byteAt i) : b.toList = bytes := by
  refine List.ext_getElem (h.length_toList.trans hlength.symm) fun i hi hi' => ?_
  have hbyte : b.toList.getD i 0 = bytes.getD i 0 := (h.getD_toList i).trans (hbytes i).symm
  simpa [List.getD_eq_getElem?_getD, hi, hi'] using hbyte

/-- Growing leaves all but the capacity. -/
theorem reserve (h : b.Clean) (needed : Nat) :
    (b.reserve needed).Clean ∧ (b.reserve needed).tape = b.tape := by
  have hsize : b.capacity ≤ (b.reserve needed).capacity := (size_reserve needed b).2
  refine ⟨⟨?_, ?_, ?_⟩, ?_⟩
  · rw [cursor_reserve]
    exact h.cursor_le.trans hsize
  · rw [length_reserve]
    exact h.length_le.trans hsize
  · intro i hi
    rw [length_reserve] at hi
    rw [byteAt_reserve, h.blank i hi]
  · simp [tape, toList_reserve needed h.length_le]

theorem put (h : b.Clean) (xs : List UInt8) :
    (b.put xs).Clean ∧ (b.put xs).tape = b.tape.put xs := by
  have hstores := stores_put xs b
  have hlength : (b.put xs).length = max b.length (b.cursor + xs.length) := by simp [Buffer.put]
  have hclean : (b.put xs).Clean := by
    refine ⟨?_, hstores.room h.length_le, fun i hi => ?_⟩
    · simpa [capacity, Buffer.put] using (size_reserve (b.cursor + xs.length) b).1
    · rw [hlength] at hi
      rw [hstores.outside i (Or.inr (by rw [hstores.cursor]; omega)), h.blank i (by omega)]
  have hbytes : (b.put xs).toList = (b.tape.put xs).bytes := by
    refine hclean.toList_eq ?_ fun i => ?_
    · rw [Tape.length_put, hlength]
      show max b.toList.length _ = _
      rw [h.length_toList]
      rfl
    · rw [Tape.getD_put]
      show (if b.cursor ≤ i ∧ i < b.cursor + xs.length then xs.getD (i - b.cursor) 0
        else b.toList.getD i 0) = _
      split
      · rename_i hi
        have hinside := hstores.inside (i - b.cursor) (by omega)
        rw [Nat.add_sub_cancel' hi.1] at hinside
        rw [hinside, List.getD_eq_getElem?_getD, List.getElem?_eq_getElem (by omega)]
        rfl
      · rename_i hi
        rw [h.getD_toList, hstores.outside i (by rw [hstores.cursor]; omega)]
  exact ⟨hclean, Tape.ext hbytes hstores.cursor hstores.origin hstores.order⟩

theorem align (h : b.Clean) (size : Nat) :
    (b.align size).Clean ∧ (b.align size).tape = b.tape.align size := by
  unfold Buffer.align Tape.align
  show (if b.padding size = 0 then b else _).Clean ∧ (if b.padding size = 0 then b else _).tape =
    if b.padding size = 0 then b.tape else _
  split
  · exact ⟨h, rfl⟩
  · exact h.put _

theorem putWord (h : b.Clean) (width n : Nat) :
    (b.putWord width n).Clean ∧ (b.putWord width n).tape = b.tape.putWord width n := by
  obtain ⟨hclean, htape⟩ := h.align width
  obtain ⟨hput, hputs⟩ := hclean.put ((b.align width).order.encode width n)
  have horder : (b.align width).order = b.order := (stores_align width b).order
  refine ⟨hput, hputs.trans ?_⟩
  rw [htape, horder]
  rfl

theorem seek (h : b.Clean) (position : Nat) :
    (b.seek position).Clean ∧ (b.seek position).tape = b.tape.seek position := by
  obtain ⟨hclean, htape⟩ := h.reserve position
  refine ⟨⟨(size_reserve position b).1, hclean.length_le, hclean.blank⟩, ?_⟩
  rw [← htape]
  rfl

theorem setOrigin (h : b.Clean) (origin : Nat) :
    { b with origin }.Clean ∧ { b with origin }.tape = b.tape.setOrigin origin :=
  ⟨⟨h.cursor_le, h.length_le, h.blank⟩, rfl⟩

theorem setOrder (h : b.Clean) (order : ByteOrder) :
    { b with order }.Clean ∧ { b with order }.tape = b.tape.setOrder order :=
  ⟨⟨h.cursor_le, h.length_le, h.blank⟩, rfl⟩

theorem zeroOut (h : b.Clean) :
    b.zeroOut.Clean ∧ b.zeroOut.tape = b.tape.zeroOut := by
  refine ⟨⟨?_, Nat.zero_le _, fun i _ => ?_⟩, rfl⟩
  · simpa [Buffer.zeroOut, capacity] using h.cursor_le
  · simp only [Buffer.zeroOut, byteAt, Array.getD_eq_getD_getElem?, Array.getElem?_replicate]
    split <;> rfl

theorem reset (h : b.Clean) :
    b.reset.Clean ∧ b.reset.tape = b.tape.reset :=
  have hclean := h.zeroOut.1
  ⟨⟨Nat.zero_le _, hclean.length_le, hclean.blank⟩, rfl⟩

theorem advance (h : b.Clean) {n : Nat} (hn : n ≤ b.remaining) :
    (b.advance n).Clean ∧ (b.advance n).tape = { b.tape with cursor := b.cursor + n } := by
  have hcursor := h.cursor_le
  have hlength := h.length_le
  rw [remaining] at hn
  refine ⟨⟨?_, hlength, h.blank⟩, rfl⟩
  show b.cursor + n ≤ b.capacity
  omega

theorem remaining_tape (h : b.Clean) : b.tape.remaining = b.remaining := by
  rw [Tape.remaining, Buffer.remaining, tape, h.length_toList]

end Clean

theorem clean_ofBytes (bytes : List UInt8) : (ofBytes bytes).Clean where
  cursor_le := Nat.zero_le _
  length_le := Nat.le_refl _
  blank i hi := by
    have hi : bytes.length ≤ i := hi
    simp [byteAt, ofBytes, hi]

theorem clean_ofCapacity (capacity : Nat) : (ofCapacity capacity).Clean where
  cursor_le := Nat.zero_le _
  length_le := Nat.zero_le _
  blank i _ := by
    simp only [ofCapacity, byteAt, Array.getD_eq_getD_getElem?, Array.getElem?_replicate]
    split <;> rfl

end Buffer

namespace Coding

variable {α β : Type} {step : Coding α} {rest : α → Coding β} {onTape : EStateM Fault Tape α}
  {restOnTape : α → EStateM Fault Tape β}

/-- With a clean buffer the step gives what the step on tapes gives, and ends with a clean buffer
that stands for the tape. -/
def Follows (step : Coding α) (onTape : EStateM Fault Tape α) : Prop :=
  ∀ ⦃b : Buffer⦄, b.Clean → ∃ c : Buffer, c.Clean ∧
    ((∃ x, step b = .ok x c ∧ onTape b.tape = .ok x c.tape) ∨
      ∃ fault, step b = .error fault c ∧ onTape b.tape = .error fault c.tape)

namespace Follows

protected theorem pure (x : α) : Follows (pure x) (pure x) :=
  fun b hb => ⟨b, hb, Or.inl ⟨x, rfl, rfl⟩⟩

protected theorem bind (h : Follows step onTape)
    (hrest : ∀ x, Follows (rest x) (restOnTape x)) :
    Follows (step >>= rest) (onTape >>= restOnTape) := by
  intro b hb
  obtain ⟨c, hc, ⟨x, hstep, htape⟩ | ⟨fault, hstep, htape⟩⟩ := h hb
  · have hbind : (step >>= rest) b = rest x c := by rw [bind_apply, hstep]
    have hbindTape : (onTape >>= restOnTape) b.tape = restOnTape x c.tape := by
      show EStateM.bind onTape restOnTape b.tape = _
      rw [EStateM.bind, htape]
    rw [hbind, hbindTape]
    exact hrest x hc
  · refine ⟨c, hc, Or.inr ⟨fault, by rw [bind_apply, hstep], ?_⟩⟩
    show EStateM.bind onTape restOnTape b.tape = _
    rw [EStateM.bind, htape]

protected theorem modify {f : Buffer → Buffer} {g : Tape → Tape}
    (h : ∀ ⦃b : Buffer⦄, b.Clean → (f b).Clean ∧ (f b).tape = g b.tape) :
    Follows (modify f) (modify g) := by
  intro b hb
  obtain ⟨hclean, htape⟩ := h hb
  refine ⟨f b, hclean, Or.inl ⟨(), rfl, ?_⟩⟩
  rw [htape]
  rfl

theorem answer (h : Follows step onTape) (reply : α → β) :
    Follows (do return reply (← step)) (do return reply (← onTape)) :=
  h.bind fun _ => Follows.pure _

/-- A step may look at the buffer as far as the tape shows it. -/
theorem get_bind {next : Buffer → Coding α} {nextOnTape : Tape → EStateM Fault Tape α}
    (h : ∀ b, Follows (next b) (nextOnTape b.tape)) : Follows (get >>= next) (get >>= nextOnTape) :=
  fun b hb => h b hb

theorem take (count : Nat) : Follows (Coding.take count) (Tape.take count) := by
  intro b hb
  rw [take_eq, Tape.take, hb.remaining_tape]
  by_cases hshort : b.remaining < count
  · rw [if_pos hshort, if_pos hshort]
    exact ⟨b, hb, Or.inr ⟨_, rfl, rfl⟩⟩
  · rw [if_neg hshort, if_neg hshort]
    have hadvance := hb.advance (Nat.le_of_not_lt hshort)
    exact ⟨b.advance count, hadvance.1, Or.inl ⟨_, rfl, by rw [hadvance.2]; rfl⟩⟩

theorem skipTo (size : Nat) : Follows (Coding.skipTo size) (Tape.skipTo size) := by
  refine get_bind fun b => ?_
  show Follows (if b.padding size ≠ 0 then _ else _) (if b.padding size ≠ 0 then _ else _)
  split
  · exact (take _).bind fun _ => Follows.pure ()
  · exact Follows.pure ()

theorem takeWord (width : Nat) : Follows (Coding.takeWord width) (Tape.takeWord width) :=
  (skipTo width).bind fun _ => get_bind fun _ => (take width).bind fun _ => Follows.pure _

end Follows

end Coding

namespace Buffer

/-- Each command is carried out on a clean buffer as on its tape. -/
theorem follows_run (c : Command) : Coding.Follows (machine.run c) (Tape.machine.run c) := by
  have done {f : Buffer → Buffer} {g : Tape → Tape}
      (h : ∀ ⦃b : Buffer⦄, b.Clean → (f b).Clean ∧ (f b).tape = g b.tape) :=
    (Coding.Follows.modify h).answer fun _ => Reply.done
  cases c with
  | put bytes => exact done fun b hb => hb.put bytes
  | putWord width n => exact done fun b hb => hb.putWord width n
  | align size => exact done fun b hb => hb.align size
  | take count => exact (Coding.Follows.take count).answer Reply.bytes
  | takeWord width => exact (Coding.Follows.takeWord width).answer Reply.word
  | skipTo size => exact (Coding.Follows.skipTo size).answer fun _ => Reply.done
  | seek position => exact done fun b hb => hb.seek position
  | setOrigin origin => exact done fun b hb => hb.setOrigin origin
  | setOrder order => exact done fun b hb => hb.setOrder order
  | zeroOut => exact done fun b hb => hb.zeroOut
  | reset => exact done fun b hb => hb.reset

theorem Clean.view_tape {b : Buffer} (h : b.Clean) : Tape.machine.view b.tape = machine.view b := by
  show View.mk b.cursor b.toList.length b.tape.remaining _ _ _ = _
  rw [h.length_toList, h.remaining_tape]
  rfl

/-- A whole run is answered as on the tape, and ends with a clean buffer. -/
theorem Clean.trace_eq {b : Buffer} (h : b.Clean) (cs : List Command) :
    machine.trace cs b = Tape.machine.trace cs b.tape ∧ (machine.after cs b).Clean := by
  induction cs generalizing b with
  | nil => exact ⟨rfl, h⟩
  | cons c cs ih =>
    obtain ⟨b', hb', ⟨x, hrun, htape⟩ | ⟨fault, hrun, htape⟩⟩ := follows_run c h
    all_goals
      obtain ⟨htrace, hafter⟩ := ih hb'
      simp only [Machine.trace, Machine.after, hrun, htape, htrace, hb'.view_tape]
      exact ⟨trivial, hafter⟩

/-- Whatever commands are carried out one after the other, a buffer gives the answers and shows the
bytes of a tape, and so do all buffers that start empty, whatever their capacity.  At every point
the cursor and the end are within the storage, and all behind the end is zero. -/
theorem refines_tape (cs : List Command) :
    (∀ capacity, machine.trace cs (ofCapacity capacity) = Tape.machine.trace cs (Tape.ofBytes []) ∧
        (machine.after cs (ofCapacity capacity)).Clean) ∧
      ∀ bytes, machine.trace cs (ofBytes bytes) = Tape.machine.trace cs (Tape.ofBytes bytes) ∧
        (machine.after cs (ofBytes bytes)).Clean := by
  refine ⟨fun capacity => ?_, fun bytes => ?_⟩
  · exact (clean_ofCapacity capacity).trace_eq cs
  · have htape : (ofBytes bytes).tape = Tape.ofBytes bytes := by
      simp [tape, ofBytes, Tape.ofBytes, toList]
    rw [← htape]
    exact (clean_ofBytes bytes).trace_eq cs

/-- Neither the bytes that no longer count nor the capacity show behind a jump over the end. -/
example (capacity : Fin 8) :
    (machine.after [.put [9, 9, 9], .zeroOut, .seek 2, .put [1]] (ofCapacity capacity)).toList =
      [0, 0, 1] := by
  decide +revert

end Buffer

end Cdr
