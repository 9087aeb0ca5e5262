import Cdr.Proofs.Parts
import Cdr.Proofs.Repeating

/-! What holds of every writer.  Writers put bytes, align to words and fail, one after the other,
and name the place of a fault.  A property of steps that these have, and that is kept where one step
follows another, is a property of writing any value with any layout. -/

namespace Cdr

/-- A property of steps that a writer has because the steps that it is made of have it. -/
structure Coding.Assembled (P : ∀ {α : Type}, Coding α → Prop) : Prop where
  pure : ∀ {α : Type} (x : α), P (pure x : Coding α)
  bind : ∀ {α β : Type} {step : Coding α} {rest : α → Coding β},
    P step → (∀ x, P (rest x)) → P (step >>= rest)
  throw : ∀ {α : Type} (fault : Fault), P (throw fault : Coding α)
  inField : ∀ {α : Type} {step : Coding α} (field : String), P step → P (Coding.inField field step)
  put : ∀ bytes, P (Coding.put bytes)
  align : ∀ size, size ∣ Sizing.period → P (Coding.align size)
  putWord : ∀ width n, width ∣ Sizing.period → P (Coding.putWord width n)

namespace Layout

variable {P : ∀ {α : Type}, Coding α → Prop} {w : CountWidth}
  {follow : Reference → Value → Coding Unit} (hP : Coding.Assembled P)

include hP

theorem assembled_orFail {α : Type} (e : Except Cause α) : P (orFail e) := by
  cases e with
  | ok x => exact hP.pure x
  | error cause => exact hP.throw _

theorem assembled_checkBound (member : String) (length : Nat) (bound : Option UInt64) :
    P (checkBound member length bound) := by
  unfold checkBound
  split
  · split
    · exact hP.throw _
    · exact hP.pure _
  · exact hP.pure _

theorem assembled_writeCount (member : String) (count : Nat) :
    P (writeCount w member count) := by
  unfold writeCount
  split
  · exact hP.throw _
  · exact hP.putWord _ _ (bytes_dvd_period w)

theorem assembled_writePrimitive (p : Primitive) (v : Value) : P (writePrimitive p v) := by
  cases p with
  | bool =>
    cases v with
    | bool b => exact hP.put _
    | _ => exact hP.throw _
  | char => exact hP.bind (assembled_orFail hP _) fun _ => hP.put _
  | integer t =>
    exact hP.bind (assembled_orFail hP _) fun _ => hP.putWord _ _ (size_dvd_period (.integer t))
  | float32 | float64 =>
    exact hP.bind (assembled_orFail hP _) fun _ => hP.putWord _ _ (by decide)

theorem assembled_writeString (bound : Option UInt64) (v : Value) : P (writeString bound v) := by
  have htext : ∀ bytes : List UInt8,
      P (do Coding.putWord 4 (bytes.length + 1); Coding.put bytes; putByte 0) := fun bytes =>
    hP.bind (hP.putWord _ _ (by decide)) fun _ => hP.bind (hP.put _) fun _ => hP.put _
  unfold writeString
  split
  · exact hP.throw _
  · refine hP.bind (assembled_checkBound hP _ _ _) fun _ => ?_
    split
    · exact hP.bind (hP.throw _) fun _ => htext _
    · exact htext _

theorem assembled_writeBytes (bound : Option UInt64) (v : Value) : P (writeBytes w bound v) :=
  hP.bind (assembled_orFail hP _) fun _ => hP.bind (assembled_checkBound hP _ _ _) fun _ =>
    hP.bind (assembled_writeCount hP _ _) fun _ => hP.put _

theorem assembled_writeEnumerator (name : String) (enumerators : List Enumerator) (v : Value) :
    P (writeEnumerator name enumerators v) := by
  unfold writeEnumerator
  split
  · exact hP.putWord _ _ (by decide)
  · exact hP.throw _

theorem assembled_writeEach {element : Value → Coding Unit} (h : ∀ v, P (element v)) (i : Nat)
    (items : List Value) : P (writeEach element i items) := by
  induction items generalizing i with
  | nil => exact hP.pure _
  | cons v items ih => exact hP.bind (hP.inField _ (h v)) fun _ => ih (i + 1)

theorem assembled_writeEntries {key value : Value → Coding Unit} (hkey : ∀ v, P (key v))
    (hvalue : ∀ v, P (value v)) (i : Nat) (entries : List (Value × Value)) :
    P (writeEntries key value i entries) := by
  induction entries generalizing i with
  | nil => exact hP.pure _
  | cons e entries ih =>
    exact hP.bind (hP.inField _ (hkey e.1)) fun _ =>
      hP.bind (hP.inField _ (hvalue e.2)) fun _ => ih (i + 1)

theorem assembled_writeMembers {members : List (Member Layout)}
    (h : ∀ m ∈ members, ∀ v, P (writeWith w follow m.content v)) (name : String)
    (given : List (String × Value)) : P (writeMembers w follow name given members) := by
  induction members with
  | nil => exact hP.pure _
  | cons m members ih =>
    rw [List.forall_mem_cons] at h
    rw [writeMembers]
    split
    · exact hP.throw _
    · exact hP.bind (hP.inField _ (h.1 _)) fun _ => ih h.2

/-- A tag and what follows it, unless only the tag is written. -/
theorem assembled_tagged {content : Coding Unit} (h : P content) (d : Discriminator)
    (label : Label) (tagOnly : Bool) : P (do d.write label; if !tagOnly then content) := by
  have htag : P (d.write label) := by
    unfold Discriminator.write
    split
    · rename_i t _
      exact hP.putWord _ _ (size_dvd_period (.integer t))
    · exact hP.throw _
  refine hP.bind htag fun _ => ?_
  split
  · exact h
  · exact hP.pure _

theorem assembled_union {u : UnionLayout Layout}
    (h : ∀ arm ∈ u.arms, ∀ v, P (writeWith w follow arm v)) (v : Value) :
    P (writeWith w follow (.union u) v) := by
  have hcase : ∀ {label : Label} {payload : Value} {content : Coding Unit},
      writeCase w follow label payload u.cases = some content → P content := by
    intro label payload content hcontent
    rw [writeCase_eq] at hcontent
    obtain ⟨c, hc, rfl⟩ := Option.map_eq_some_iff.mp hcontent
    exact hP.inField _ (h _ (mem_arms.mpr (Or.inl ⟨c, List.mem_of_find?_eq_some hc, rfl⟩)) _)
  obtain ⟨name, d, cases, fallback, tagOnly⟩ := u
  cases v with
  | union label payload =>
    rw [writeWith.eq_def]
    refine hP.bind (hP.align _ (alignment_dvd w _)) fun _ => ?_
    cases label with
    | some label =>
      simp only
      split
      · rename_i hcontent _
        exact assembled_tagged hP (hcase hcontent) d label tagOnly
      · exact hP.throw _
    | none =>
      cases fallback with
      | none => exact hP.throw _
      | some f =>
        have hcontent := h _ (mem_arms.mpr (Or.inr ⟨f, rfl, rfl⟩)) payload
        exact assembled_tagged hP (hP.inField f.name hcontent) d f.sentinel tagOnly
  | _ => exact hP.throw _

/-- Writing with a layout has the property where it holds of what lies behind its references. -/
theorem assembled_writeWith (l : Layout)
    (hfollow : ∀ target, l.Holds (.reference target) → ∀ v, P (follow target v)) (v : Value) :
    P (writeWith w follow l v) := by
  induction l using induction_on_children generalizing v with
  | layout l ih =>
    have hchild : ∀ child ∈ l.children, ∀ v, P (writeWith w follow child v) :=
      fun child hmem => ih child hmem fun target htarget => hfollow target (.child hmem htarget)
    cases l with
    | primitive p => exact assembled_writePrimitive hP p v
    | string bound => exact assembled_writeString hP bound v
    | bytes bound => exact assembled_writeBytes hP bound v
    | array element length =>
      rw [writeWith]
      split
      · exact hP.throw _
      · split
        · exact assembled_writeEach hP (hchild element (List.mem_singleton_self _)) _ _
        · exact hP.throw _
    | sequence element bound =>
      rw [writeWith]
      split
      · exact hP.throw _
      · exact hP.bind (assembled_checkBound hP _ _ _) fun _ =>
          hP.bind (assembled_writeCount hP _ _) fun _ =>
            assembled_writeEach hP (hchild element (List.mem_singleton_self _)) _ _
    | map key value bound =>
      have hkey := hchild key (List.mem_pair.mpr (Or.inl rfl))
      have hvalue := hchild value (List.mem_pair.mpr (Or.inr rfl))
      rw [writeWith.eq_def]
      cases v with
      | map entries =>
        exact hP.bind (assembled_checkBound hP _ _ _) fun _ =>
          hP.bind (assembled_writeCount hP _ _) fun _ =>
            assembled_writeEntries hP hkey hvalue _ _
      | _ => exact hP.throw _
    | enumeration name enumerators => exact assembled_writeEnumerator hP name enumerators v
    | struct name members =>
      rw [writeWith]
      split
      · exact assembled_writeMembers hP (List.forall_mem_map.mp hchild) name _
      · exact hP.throw _
    | union u => exact assembled_union hP hchild v
    | optional inner =>
      rw [writeWith]
      split
      · exact hP.put _
      · exact hP.bind (hP.put _) fun _ => hchild inner (List.mem_singleton_self _) v
    | reference target => exact hfollow target (.here _) v

/-- Whatever the references lead to and however deep, writing has the property. -/
theorem assembled_write (types : Lookup) (budget : Nat) (l : Layout) (v : Value) :
    P (write types w budget l v) := by
  induction budget generalizing l v with
  | zero => exact assembled_writeWith hP l (fun _ _ _ => hP.throw _) v
  | succ budget ih =>
    refine assembled_writeWith hP l (fun target _ v => ?_) v
    split
    · exact ih _ v
    · exact hP.throw _

end Layout

end Cdr
