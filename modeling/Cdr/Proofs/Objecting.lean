import Cdr.Proofs.Offending
import Cdr.Proofs.Uniform

/-! What writing a node gives.  A node with a well formed layout fails with its objection, and
otherwise gives what its parts give one after the other, each with the step that leads to it in
front of its fault.  That holds of every buffer, so each part may as well be written alone. -/

namespace Cdr

namespace Coding

/-- The step gives `out`, whatever the buffer holds. -/
def Gives (step : Coding Unit) (out : Except Fault Unit) : Prop := ∀ b, step.outcome b = out

namespace Gives

variable {step next : Coding Unit} {out out' : Except Fault Unit}

protected theorem pure : Gives (pure ()) (.ok ()) := fun _ => rfl

protected theorem fail (cause : Cause) : Gives (Coding.fail cause) (.error cause.fault) :=
  fun _ => rfl

protected theorem modify (f : Buffer → Buffer) : Gives (modify f) (.ok ()) := fun _ => rfl

theorem of_uniform (h : step.Uniform) : Gives step (step.outcome Buffer.empty) := fun b => h b _

theorem iff_ok : Gives step (.ok ()) ↔ ∀ b, ∃ b', step b = .ok () b' := by
  refine forall_congr' fun b => ?_
  unfold outcome
  cases step b <;> simp

protected theorem bind (h : Gives step out) (hnext : Gives next out') :
    Gives (step >>= fun _ => next) (out >>= fun _ => out') := by
  intro b
  rw [outcome_bind]
  have hb := h b
  unfold outcome at hb
  cases hstep : step b with
  | ok x c =>
    rw [hstep] at hb
    rw [← hb]
    exact hnext c
  | error fault c =>
    rw [hstep] at hb
    rw [← hb]
    rfl

/-- A step that cannot fail leaves the outcome to the next one. -/
theorem andThen (h : Gives step (.ok ())) (hnext : Gives next out) :
    Gives (step >>= fun _ => next) out := h.bind hnext

theorem fail_bind {α : Type} (cause : Cause) (rest : α → Coding Unit) :
    Gives (Coding.fail cause >>= rest) (.error cause.fault) := fun _ => rfl

theorem inField (h : Gives step out) (field : String) :
    Gives (Coding.inField field step) (out.mapError (·.inField field)) := by
  intro b
  rw [← h b]
  unfold outcome Coding.inField
  cases step b <;> rfl

end Gives

end Coding

/-- The fault of the cause, or the outcome if there is none. -/
def Cause.before (out : Except Fault Unit) : Option Cause → Except Fault Unit
  | none => out
  | some cause => .error cause.fault

theorem Cause.before_or (out : Except Fault Unit) (first next : Option Cause) :
    before out (first.or next) = before (before out next) first := by
  cases first <;> rfl

namespace Layout

open Coding

variable {w : CountWidth} {next : Coding Unit} {out : Except Fault Unit}

theorem gives_orFail {α : Type} {e : Except Cause α} {next : α → Coding Unit}
    (h : ∀ x, e = .ok x → Gives (next x) out) :
    Gives (orFail e >>= next) (Cause.before out (cause? e)) := by
  cases e with
  | ok x => exact h x rfl
  | error cause => exact Gives.fail_bind cause next

theorem gives_checkBound {member : String} {length : Nat} {bound : Option UInt64}
    (h : Gives next out) :
    Gives (checkBound member length bound >>= fun _ => next)
      (Cause.before out (overBound? member length bound)) := by
  unfold checkBound
  cases bound with
  | none => exact h
  | some greatest =>
    simp only [overBound?, tooLong?, Option.bind_some]
    split
    · exact Gives.fail_bind _ _
    · exact h

theorem gives_writeCount {member : String} {count : Nat} (h : Gives next out) :
    Gives (writeCount w member count >>= fun _ => next)
      (Cause.before out (tooLong? member count w.greatest)) := by
  unfold writeCount tooLong?
  split
  · exact Gives.fail_bind _ _
  · exact (Gives.modify _).andThen h

theorem gives_counted {member : String} {length : Nat} {bound : Option UInt64}
    (h : Gives next out) :
    Gives (do checkBound member length bound; writeCount w member length; next)
      (Cause.before out (miscounted? w member length bound)) := by
  rw [miscounted?, Cause.before_or]
  exact gives_checkBound (gives_writeCount h)

theorem gives_writePrimitive (p : Primitive) (v : Value) :
    Gives (writePrimitive p v) (Cause.before (.ok ()) (primitiveObjection? p v)) := by
  cases p with
  | bool =>
    cases v with
    | bool b => exact Gives.modify _
    | _ => exact Gives.fail _
  | char | integer t | float32 | float64 => exact gives_orFail fun _ _ => Gives.modify _

theorem gives_writeString (bound : Option UInt64) (v : Value) :
    Gives (writeString bound v) (Cause.before (.ok ()) (stringObjection? bound v)) := by
  unfold writeString stringObjection?
  cases v.asString? with
  | none => exact Gives.fail _
  | some text =>
    have htext : Gives (do Coding.putWord 4 ((Text.Utf8.encode text).length + 1)
                           Coding.put (Text.Utf8.encode text)
                           putByte 0) (.ok ()) :=
      (Gives.modify _).andThen ((Gives.modify _).andThen (Gives.modify _))
    rw [Cause.before_or]
    refine gives_checkBound ?_
    unfold tooLong?
    split
    · exact Gives.fail_bind _ _
    · exact htext

theorem itemBytes_eq_error (done : List UInt8) {items : List Value} {cause : Cause}
    (h : (items.findSome? fun item => cause? (fittingNumber .uint8 item)) = some cause) :
    itemBytes done items = .error cause := by
  induction items generalizing done with
  | nil => cases h
  | cons item items ih =>
    rw [List.findSome?_cons] at h
    rw [itemBytes]
    cases hitem : fittingNumber .uint8 item with
    | ok n =>
      rw [hitem] at h
      exact ih _ h
    | error found =>
      rw [hitem] at h
      cases h
      rfl

theorem exists_itemBytes (done : List UInt8) {items : List Value}
    (h : (items.findSome? fun item => cause? (fittingNumber .uint8 item)) = none) :
    ∃ data, itemBytes done items = .ok data ∧ data.length = done.length + items.length := by
  induction items generalizing done with
  | nil => exact ⟨done.reverse, rfl, List.length_reverse⟩
  | cons item items ih =>
    rw [List.findSome?_cons] at h
    rw [itemBytes]
    cases hitem : fittingNumber .uint8 item with
    | ok n =>
      rw [hitem] at h
      obtain ⟨data, hdata, hlength⟩ := ih (UInt8.ofNat n.toNat :: done) h
      refine ⟨data, hdata, ?_⟩
      rw [hlength, List.length_cons, List.length_cons]
      omega
    | error found =>
      rw [hitem] at h
      cases h

theorem gives_writeBytes (bound : Option UInt64) (v : Value) :
    Gives (writeBytes w bound v) (Cause.before (.ok ()) (bytesObjection? w bound v)) := by
  have hdata : ∀ data : List UInt8,
      Gives (do checkBound "bytes" data.length bound
                writeCount w "bytes" data.length
                Coding.put data)
        (Cause.before (.ok ()) (miscounted? w "bytes" data.length bound)) :=
    fun data => gives_counted (Gives.modify _)
  unfold writeBytes
  cases v with
  | bytes data => exact hdata data
  | array items =>
    simp only [bytesObjection?, Cause.before_or]
    cases hbad : items.findSome? fun item => cause? (fittingNumber .uint8 item) with
    | some cause =>
      rw [itemBytes_eq_error [] hbad]
      exact Gives.fail_bind _ _
    | none =>
      obtain ⟨data, hitems, hlength⟩ := exists_itemBytes [] hbad
      rw [hitems, ← (by simpa using hlength : data.length = items.length)]
      exact hdata data
  | _ => exact Gives.fail_bind _ _

theorem gives_writeEnumerator (name : String) (enumerators : List Enumerator) (v : Value) :
    Gives (writeEnumerator name enumerators v) (Cause.before (.ok ())
      (match ordinalOf? enumerators v with
        | some _ => none
        | none => some (kindMismatch s!"enumerator of '{name}'" v))) := by
  unfold writeEnumerator
  cases ordinalOf? enumerators v with
  | some ordinal => exact Gives.modify _
  | none => exact Gives.fail _

/-- Writes what lies behind a reference. -/
def behind (c : Context) : Nat → Reference → Value → Coding Unit
  | 0, target, _ => Coding.fail (nestingCause target.name)
  | budget + 1, target, v =>
    match c.types target.id target.role with
    | .ok l => l.write c.types c.countWidth budget v
    | .error fault => throw fault

theorem write_eq (c : Context) (budget : Nat) :
    write c.types c.countWidth budget = writeWith c.countWidth (behind c budget) := by
  cases budget <;> rfl

end Layout

namespace Turn

variable (c : Context)

/-- What writing the part alone gives, seen from the node. -/
def outcome : Turn → Except Fault Unit
  | part none node => (node.write c).outcome Buffer.empty
  | part (some segment) node =>
    ((node.write c).outcome Buffer.empty).mapError (·.inField segment)
  | missing typeName member => .error (Cause.missingMember typeName member).fault

/-- The fault of a part is that of the node alone, behind the step that leads to the node. -/
theorem outcome_part_eq_error {segment : Option String} {node : Node} {fault : Fault} :
    (part segment node).outcome c = .error fault ↔
      ∃ inner : Fault, (node.write c).outcome Buffer.empty = .error inner ∧
        fault = ⟨segment.toList ++ inner.path, inner.cause⟩ := by
  cases segment with
  | none => simp [outcome]
  | some segment =>
    simp only [outcome]
    cases (node.write c).outcome Buffer.empty with
    | ok _ => simp [Except.mapError]
    | error inner => simp [Except.mapError, Fault.inField, eq_comm]

/-- What the parts give one after the other. -/
def inTurn : List Turn → Except Fault Unit
  | [] => .ok ()
  | turn :: turns => do
    turn.outcome c
    inTurn turns

theorem inTurn_singleton (turn : Turn) : inTurn c [turn] = turn.outcome c := by
  unfold inTurn
  cases turn.outcome c <;> rfl

theorem inTurn_append (turns turns' : List Turn) :
    inTurn c (turns ++ turns') = (inTurn c turns >>= fun _ => inTurn c turns') := by
  induction turns with
  | nil => rfl
  | cons turn turns ih =>
    simp only [List.cons_append, inTurn, ih]
    cases turn.outcome c <;> rfl

/-- A part that can be written alone is one that gives no fault. -/
theorem taken_iff {turn : Turn} : turn.Taken c ↔ turn.outcome c = .ok () := by
  cases turn with
  | missing typeName member => simp [Taken, outcome]
  | part segment node =>
    have hnode : (Turn.part segment node).Taken c ↔
        (node.write c).outcome Buffer.empty = .ok () := by
      refine Coding.Gives.iff_ok.symm.trans ⟨fun h => h _, fun h => ?_⟩
      rw [← h]
      exact Coding.Gives.of_uniform (Layout.uniform_write _ _ _ _)
    rw [hnode]
    cases segment with
    | none => exact Iff.rfl
    | some segment =>
      show _ ↔ ((node.write c).outcome Buffer.empty).mapError _ = .ok ()
      cases (node.write c).outcome Buffer.empty <;> simp [Except.mapError]

theorem inTurn_eq_ok {turns : List Turn} (h : ∀ turn ∈ turns, turn.Taken c) :
    inTurn c turns = .ok () := by
  induction turns with
  | nil => rfl
  | cons turn turns ih =>
    rw [List.forall_mem_cons] at h
    rw [inTurn, (taken_iff c).mp h.1]
    exact ih h.2

/-- The fault of parts one after the other is that of the first part that cannot be written. -/
theorem inTurn_eq_error {turns : List Turn} {fault : Fault} :
    inTurn c turns = .error fault ↔ ∃ earlier turn later, turns = earlier ++ turn :: later ∧
      (∀ turn ∈ earlier, turn.Taken c) ∧ turn.outcome c = .error fault := by
  constructor
  · intro h
    induction turns with
    | nil => cases h
    | cons turn turns ih =>
      rw [inTurn] at h
      cases hturn : turn.outcome c with
      | error found =>
        rw [hturn] at h
        exact ⟨[], turn, turns, rfl, by simp, hturn.trans h⟩
      | ok _ =>
        rw [hturn] at h
        obtain ⟨earlier, bad, later, rfl, hearlier, hbad⟩ := ih h
        exact ⟨turn :: earlier, bad, later, rfl,
          List.forall_mem_cons.mpr ⟨(taken_iff c).mpr hturn, hearlier⟩, hbad⟩
  · rintro ⟨earlier, turn, later, rfl, hearlier, hturn⟩
    rw [inTurn_append, inTurn_eq_ok c hearlier]
    show inTurn c (turn :: later) = _
    rw [inTurn, hturn]
    rfl

/-- Two parts that are the first that cannot be written are the same part. -/
theorem eq_of_first {earlier earlier' later later' : List Turn} {turn turn' : Turn}
    (h : earlier ++ turn :: later = earlier' ++ turn' :: later')
    (hearlier : ∀ t ∈ earlier, t.Taken c) (hturn : ¬ turn.Taken c)
    (hearlier' : ∀ t ∈ earlier', t.Taken c) (hturn' : ¬ turn'.Taken c) : turn = turn' := by
  induction earlier generalizing earlier' with
  | nil =>
    cases earlier' with
    | nil => exact (List.cons.inj h).1
    | cons t' ts' =>
      obtain ⟨rfl, -⟩ := List.cons.inj h
      exact absurd (hearlier' turn List.mem_cons_self) hturn
  | cons t ts ih =>
    rw [List.forall_mem_cons] at hearlier
    cases earlier' with
    | nil =>
      obtain ⟨rfl, -⟩ := List.cons.inj h
      exact absurd hearlier.1 hturn'
    | cons t' ts' =>
      rw [List.forall_mem_cons] at hearlier'
      exact ih (List.cons.inj h).2 hearlier.2 hearlier'.2

end Turn

namespace Node

open Layout Coding Turn

variable {c : Context}

theorem gives_write (c : Context) (n : Node) :
    Gives (n.write c) ((n.write c).outcome Buffer.empty) :=
  Gives.of_uniform (uniform_write _ _ _ _)

theorem gives_elements (budget : Nat) (element : Layout) (i : Nat) (items : List Value) :
    Gives (writeEach (writeWith c.countWidth (behind c budget) element) i items)
      (inTurn c (elementTurns budget element i items)) := by
  rw [← write_eq]
  induction items generalizing i with
  | nil => exact Gives.pure
  | cons item items ih =>
    exact ((gives_write c ⟨budget, element, item⟩).inField _).bind (ih (i + 1))

theorem gives_entries (budget : Nat) (key value : Layout) (i : Nat)
    (entries : List (Value × Value)) :
    Gives (writeEntries (writeWith c.countWidth (behind c budget) key)
        (writeWith c.countWidth (behind c budget) value) i entries)
      (inTurn c (entryTurns budget key value i entries)) := by
  rw [← write_eq]
  induction entries generalizing i with
  | nil => exact Gives.pure
  | cons entry entries ih =>
    exact ((gives_write c ⟨budget, key, entry.1⟩).inField _).bind
      (((gives_write c ⟨budget, value, entry.2⟩).inField _).bind (ih (i + 1)))

theorem gives_members (budget : Nat) (name : String) (given : List (String × Value))
    (members : List (Member Layout)) :
    Gives (writeMembers c.countWidth (behind c budget) name given members)
      (inTurn c (memberTurns budget name given members)) := by
  induction members with
  | nil => exact Gives.pure
  | cons m members ih =>
    rw [writeMembers, memberTurns, List.map_cons]
    cases Dictionary.find? m.name given with
    | none => exact Gives.fail _
    | some v =>
      simp only [← write_eq]
      exact ((gives_write c ⟨budget, m.content, v⟩).inField _).bind ih

section Closed

variable {good : Reference → Prop}

/-- A tag that can be held is written, and the payload behind it unless only the tag is. -/
theorem gives_tagged {d : Discriminator} {label : Label} (hcontains : d.contains label = true)
    {content : Coding Unit} {turns : List Turn} (h : Gives content (inTurn c turns))
    (tagOnly : Bool) :
    Gives (do d.write label; if !tagOnly then content)
      (inTurn c (if tagOnly then [] else turns)) := by
  obtain ⟨t, ht, -⟩ := Discriminator.exists_tagType? hcontains
  simp only [Discriminator.write, ht]
  refine (Gives.modify _).andThen ?_
  cases tagOnly with
  | true => exact Gives.pure
  | false => exact h

theorem gives_union {u : UnionLayout Layout} (h : (union u).WellFormed good) (budget : Nat)
    (v : Value) :
    let n : Node := ⟨budget, .union u, v⟩
    Gives (n.write c) (Cause.before (inTurn c (n.turns c.types)) (n.objection? c.countWidth)) := by
  intro n
  show Gives (Layout.write _ _ _ _ _) _
  rw [write_eq]
  obtain ⟨name, d, cases, fallback, tagOnly⟩ := u
  cases v with
  | union label payload =>
    have hpart : ∀ (field : String) (content : Layout),
        Gives (Coding.inField field (writeWith c.countWidth (behind c budget) content payload))
          (inTurn c [.part (some field) ⟨budget, content, payload⟩]) := by
      intro field content
      rw [← write_eq, inTurn_singleton]
      exact (gives_write c ⟨budget, content, payload⟩).inField field
    rw [writeWith.eq_def]
    refine (Gives.modify _).andThen ?_
    cases label with
    | some label =>
      simp only [n, objection?, turns, UnionLayout.arm?, writeCase_eq]
      cases hcontains : d.contains label with
      | false => cases cases.find? (·.labels.contains label) <;> exact Gives.fail _
      | true =>
        cases cases.find? (·.labels.contains label) with
        | none => exact Gives.fail _
        | some found => exact gives_tagged hcontains (hpart found.name found.content) tagOnly
    | none =>
      simp only [n, objection?, turns, UnionLayout.arm?]
      cases fallback with
      | none => exact Gives.fail _
      | some f => exact gives_tagged h.2.1 (hpart f.name f.content) tagOnly
  | _ => exact Gives.fail _

variable (hlookup : ∀ target, good target →
  ∃ l, c.types target.id target.role = .ok l ∧ l.WellFormed good)

include hlookup

/-- A node whose layout is well formed fails with its objection, and otherwise gives what its parts
give one after the other. -/
theorem gives_turns {n : Node} (hn : n.layout.WellFormed good) :
    Gives (n.write c) (Cause.before (inTurn c (n.turns c.types)) (n.objection? c.countWidth)) := by
  obtain ⟨budget, l, v⟩ := n
  have hwrite : write c ⟨budget, l, v⟩ = writeWith c.countWidth (behind c budget) l v := by
    rw [← write_eq]
    rfl
  cases l with
  | union u => exact gives_union hn budget v
  | reference target =>
    obtain ⟨l, hl, -⟩ := hlookup target hn
    rw [hwrite, writeWith]
    cases budget with
    | zero => exact Gives.fail _
    | succ budget =>
      simp only [behind, objection?, turns, hl]
      rw [if_neg (Nat.succ_ne_zero budget), Cause.before, inTurn_singleton]
      exact gives_write c ⟨budget, l, v⟩
  | optional inner =>
    rw [hwrite, writeWith]
    simp only [objection?, turns]
    split
    · exact Gives.modify _
    · refine (Gives.modify _).andThen ?_
      rw [Cause.before, inTurn_singleton, ← write_eq]
      exact gives_write c ⟨budget, inner, v⟩
  | primitive p =>
    rw [hwrite, writeWith]
    exact gives_writePrimitive p v
  | string bound =>
    rw [hwrite, writeWith]
    exact gives_writeString bound v
  | bytes bound =>
    rw [hwrite, writeWith]
    exact gives_writeBytes bound v
  | enumeration name enumerators =>
    rw [hwrite, writeWith]
    exact gives_writeEnumerator name enumerators v
  | array element length =>
    rw [hwrite, writeWith]
    simp only [objection?, turns]
    cases v.asItems? with
    | none => exact Gives.fail _
    | some items =>
      simp only
      split
      · exact gives_elements budget element 0 items
      · exact Gives.fail _
  | sequence element bound =>
    rw [hwrite, writeWith]
    simp only [objection?, turns]
    cases v.asItems? with
    | none => exact Gives.fail _
    | some items => exact gives_counted (gives_elements budget element 0 items)
  | map key value bound =>
    rw [hwrite, writeWith.eq_def]
    cases v with
    | map entries => exact gives_counted (gives_entries budget key value 0 entries)
    | _ => exact Gives.fail _
  | struct name members =>
    rw [hwrite, writeWith]
    simp only [objection?, turns]
    cases v.asMembers? with
    | none => exact Gives.fail _
    | some given => exact gives_members budget name given members

theorem wellFormed_of_mem_turns {n m : Node} {segment : Option String}
    (hn : n.layout.WellFormed good) (h : .part segment m ∈ n.turns c.types) :
    m.layout.WellFormed good := by
  rcases layout_of_mem_turns h with ⟨-, hchild⟩ | ⟨target, hlayout, -, hfound⟩
  · exact hn.of_mem_children hchild
  · rw [hlayout] at hn
    obtain ⟨l, hl, hwell⟩ := hlookup target hn
    obtain rfl : l = m.layout := Except.ok.inj (hl.symm.trans hfound)
    exact hwell

end Closed

end Node

end Cdr
