import Cdr.Proofs.Blaming

/-! Faults of writing that pass for faults of reading.  No bytes are read where a value is written,
and what a node finds wrong with its value is no fault of reading, with one exception: a reference
that may not be followed any more gives the cause that it gives in reading.  So a value that nests
too deep is reported as if bytes could not be decoded, and no other value is. -/

namespace Cdr

/-- The cause, if there is one, does not say that bytes could not be decoded. -/
def Cause.Plain (cause : Option Cause) : Prop := ∀ found ∈ cause, found.isDecodeFailure = false

namespace Layout

open Cause

variable {first next : Option Cause}

theorem plain_none : Plain none := nofun

theorem plain_mismatch (expected found : String) : Plain (some (.mismatch expected found)) := by
  rintro _ ⟨⟩
  rfl

theorem plain_or (h : Plain first) (hnext : Plain next) : Plain (first.or next) := by
  intro cause hcause
  rcases Option.or_eq_some_iff.mp hcause with hfirst | ⟨-, hnone⟩
  · exact h cause hfirst
  · exact hnext cause hnone

theorem plain_charByte (v : Value) : Plain (cause? (charByte v)) := by
  unfold charByte
  split
  · split
    · exact plain_none
    · exact plain_mismatch _ _
  · exact plain_none
  · exact plain_mismatch _ _

theorem plain_fittingNumber (t : IntegerType) (v : Value) : Plain (cause? (fittingNumber t v)) := by
  unfold fittingNumber
  split
  · exact plain_mismatch _ _
  · split
    · exact plain_none
    · exact plain_mismatch _ _

theorem plain_floatBits (expected : String) (v : Value) :
    Plain (cause? (floatBits expected v)) := by
  unfold floatBits
  split
  · exact plain_none
  · exact plain_mismatch _ _

theorem plain_primitive (p : Primitive) (v : Value) : Plain (primitiveObjection? p v) := by
  cases p with
  | bool =>
    cases v with
    | bool b => exact plain_none
    | _ => exact plain_mismatch _ _
  | char => exact plain_charByte v
  | integer t => exact plain_fittingNumber t v
  | float32 | float64 => exact plain_floatBits _ v

theorem plain_tooLong (member : String) (length greatest : Nat) :
    Plain (tooLong? member length greatest) := by
  unfold tooLong?
  split
  · rintro _ ⟨⟩
    rfl
  · exact plain_none

theorem plain_overBound (member : String) (length : Nat) (bound : Option UInt64) :
    Plain (overBound? member length bound) := by
  cases bound with
  | none => exact plain_none
  | some greatest => exact plain_tooLong member length greatest.toNat

theorem plain_miscounted (w : CountWidth) (member : String) (length : Nat) (bound : Option UInt64) :
    Plain (miscounted? w member length bound) :=
  plain_or (plain_overBound _ _ _) (plain_tooLong _ _ _)

theorem plain_string (bound : Option UInt64) (v : Value) : Plain (stringObjection? bound v) := by
  unfold stringObjection?
  split
  · exact plain_mismatch _ _
  · exact plain_or (plain_overBound _ _ _) (plain_tooLong _ _ _)

theorem plain_bytes (w : CountWidth) (bound : Option UInt64) (v : Value) :
    Plain (bytesObjection? w bound v) := by
  unfold bytesObjection?
  split
  · exact plain_miscounted _ _ _ _
  · refine plain_or (fun cause hcause => ?_) (plain_miscounted _ _ _ _)
    obtain ⟨item, -, hitem⟩ := List.exists_of_findSome?_eq_some hcause
    exact plain_fittingNumber .uint8 item cause hitem
  · exact plain_mismatch _ _

end Layout

namespace Node

open Layout

variable {w : CountWidth} {n : Node} {name : String}

/-- The node is a reference to the type of the name, which may not be followed. -/
def Overnested (n : Node) (name : String) : Prop :=
  n.budget = 0 ∧ ∃ target, n.layout = .reference target ∧ target.name = name

theorem objection?_of_overnested (h : n.Overnested name) :
    n.objection? w = some (nestingCause name) := by
  obtain ⟨budget, l, v⟩ := n
  obtain ⟨hbudget, target, rfl, rfl⟩ := h
  exact if_pos hbudget

/-- Only a reference that may not be followed objects as if bytes could not be decoded. -/
theorem plain_objection? (h : ∀ name, ¬ n.Overnested name) : Cause.Plain (n.objection? w) := by
  obtain ⟨budget, l, v⟩ := n
  cases l with
  | primitive p => exact plain_primitive p v
  | string bound => exact plain_string bound v
  | bytes bound => exact plain_bytes w bound v
  | array element length =>
    simp only [objection?]
    split
    · exact plain_mismatch _ _
    · split
      · exact plain_none
      · exact plain_mismatch _ _
  | sequence element bound =>
    simp only [objection?]
    split
    · exact plain_mismatch _ _
    · exact plain_miscounted _ _ _ _
  | map key value bound =>
    cases v with
    | map entries => exact plain_miscounted _ _ _ _
    | _ => exact plain_mismatch _ _
  | enumeration typeName enumerators =>
    simp only [objection?]
    split
    · exact plain_none
    · exact plain_mismatch _ _
  | struct typeName members =>
    simp only [objection?]
    split
    · exact plain_none
    · exact plain_mismatch _ _
  | union u =>
    cases v with
    | union label payload =>
      simp only [objection?]
      split
      · exact plain_none
      · rintro _ ⟨⟩
        rfl
      · exact plain_mismatch _ _
    | _ => exact plain_mismatch _ _
  | optional inner => exact plain_none
  | reference target =>
    have hbudget : budget ≠ 0 := fun hzero => h target.name ⟨hzero, target, rfl, rfl⟩
    simp only [objection?]
    rw [if_neg hbudget]
    exact plain_none

end Node

/-- The first fault passes for one of reading just where its node is a reference that may not be
followed. -/
theorem FirstFault.isDecodeFailure_iff {c : Context} {root origin : Node} {path : List String}
    {cause : Cause} (h : FirstFault c root path origin cause) : cause.isDecodeFailure = true ↔
      ∃ name, origin.Overnested name ∧ cause = Layout.nestingCause name := by
  induction h with
  | @own root cause hown =>
    by_cases hdeep : ∃ name, root.Overnested name
    · obtain ⟨name, hname⟩ := hdeep
      obtain rfl : Layout.nestingCause name = cause :=
        Option.some.inj ((Node.objection?_of_overnested hname).symm.trans hown)
      exact iff_of_true rfl ⟨name, hname, rfl⟩
    · refine iff_of_false ?_ fun ⟨name, hname, _⟩ => hdeep ⟨name, hname⟩
      simp [Node.plain_objection? (not_exists.mp hdeep) cause hown]
  | missing hown =>
    refine iff_of_false Bool.false_ne_true fun ⟨name, hname, _⟩ => ?_
    rw [Node.objection?_of_overnested hname] at hown
    cases hown
  | part _ _ _ _ ih => exact ih

/-- The node with the first fault is a reference that the root may not nest through. -/
def Fault.Overnests (c : Context) (root : Node) (fault : Fault) : Prop :=
  ∃ origin name, FirstFault c root fault.path origin fault.cause ∧ origin.Overnested name ∧
    fault.cause = Layout.nestingCause name

theorem Fault.isDecodeFailure_iff_overnests {c : Context} {root : Node} {fault : Fault}
    (h : ∃ origin, FirstFault c root fault.path origin fault.cause) :
    fault.isDecodeFailure = true ↔ fault.Overnests c root := by
  obtain ⟨origin, hfirst⟩ := h
  constructor
  · intro hdecode
    obtain ⟨name, hname, hcause⟩ := hfirst.isDecodeFailure_iff.mp hdecode
    exact ⟨origin, name, hfirst, hname, hcause⟩
  · rintro ⟨origin', name, hfirst', hname, hcause⟩
    exact hfirst'.isDecodeFailure_iff.mpr ⟨name, hname, hcause⟩

namespace Registry

/-- After any events, a usable type that fails to serialize a value, or to make its key or keyhash,
reports a fault of reading just where a reference leads deeper than values may nest. -/
theorem isDecodeFailure_iff_overnested {config : Config} {events : List Event} {h : Handle}
    (hcheck : (after { config := config } events).checkHandle h = .ok ())
    (hwhole : (after { config := config } events).catalog.Whole h.id) :
    let r := after { config := config } events
    ∃ full key, r.catalog.layout h.id .full = .ok full ∧ r.catalog.keyLayout h.id = .ok key ∧
      ∀ v fault,
        (∀ order, r.serializeIn h order v = .error fault →
          (fault.isDecodeFailure = true ↔
            fault.Overnests r.context ⟨r.config.maxDepth, full, v⟩)) ∧
        (r.key h v = .error fault ∨ r.keyHash h v = .error fault →
          (fault.isDecodeFailure = true ↔
            fault.Overnests r.context ⟨r.config.maxDepth, key, v⟩)) := by
  intro r
  obtain ⟨full, key, ht⟩ := (steady_after config events).exists_traced hcheck hwhole
  refine ⟨full, key, ht.layout, ht.keyLayout, fun v fault => ⟨fun order hfault => ?_, ?_⟩⟩
  · exact Fault.isDecodeFailure_iff_overnests ((ht.serializeIn order v fault).mp hfault)
  · rintro (hfault | hfault)
    · exact Fault.isDecodeFailure_iff_overnests ((ht.key v fault).mp hfault)
    · exact Fault.isDecodeFailure_iff_overnests ((ht.keyHash v fault).mp hfault)

/-- A link of a chain, with a short tag. -/
def link : Declaration :=
  { name := "Link"
    body := .struct [⟨"tag", .string (some 2)⟩, ⟨"next", .optional (.named "Link")⟩] }

def linked (tag : String) (next : Value) : Value := .struct [("next", next), ("tag", .string tag)]

/-- A chain that is too long by one link.  Its fault passes for one of reading. -/
theorem isDecodeFailure_long_chain :
    let r := after { config := { maxDepth := 1 } } [.register link]
    let v := linked "a" (linked "b" (linked "c" .null))
    let fault : Fault := ⟨["next", "next"], Layout.nestingCause "Link"⟩
    r.checkHandle ⟨0, "Link"⟩ = .ok () ∧ (∃ size, r.maxKeySize ⟨0, "Link"⟩ = .ok size) ∧
      r.serialize ⟨0, "Link"⟩ v = .error fault ∧ r.serializeIn ⟨0, "Link"⟩ .big v = .error fault ∧
      r.key ⟨0, "Link"⟩ v = .error fault ∧ r.keyHash ⟨0, "Link"⟩ v = .error fault ∧
      fault.isDecodeFailure = true := by
  intro r v fault
  exact ⟨rfl, ⟨_, rfl⟩, by decide, by decide, by decide, by decide, rfl⟩

/-- A chain that is too long nests too deep; one with a long tag does not, and its fault passes for
none of reading. -/
theorem isDecodeFailure_iff_overnested_link :
    let r := after { config := { maxDepth := 1 } } [.register link]
    let long := linked "a" (linked "b" (linked "c" .null))
    let tagged := linked "a" (linked "bcd" .null)
    let deep : Fault := ⟨["next", "next"], Layout.nestingCause "Link"⟩
    let wide : Fault := ⟨["next", "tag"], .boundExceeded "string" 3 2⟩
    r.checkHandle ⟨0, "Link"⟩ = .ok () ∧ r.catalog.Whole 0 ∧
      r.serializeIn ⟨0, "Link"⟩ .big long = .error deep ∧ deep.isDecodeFailure = true ∧
      r.key ⟨0, "Link"⟩ tagged = .error wide ∧ wide.isDecodeFailure = false ∧
      ∃ full key, r.catalog.layout 0 .full = .ok full ∧ r.catalog.keyLayout 0 = .ok key ∧
        deep.Overnests r.context ⟨1, full, long⟩ ∧ ¬ wide.Overnests r.context ⟨1, key, tagged⟩ := by
  intro r long tagged deep wide
  have hcheck : r.checkHandle ⟨0, "Link"⟩ = .ok () := rfl
  obtain ⟨size, hsize⟩ : ∃ size, r.maxKeySize ⟨0, "Link"⟩ = .ok size := ⟨_, rfl⟩
  have hwhole : r.catalog.Whole 0 := (steady_after _ _).whole hsize
  have hdeep : r.serializeIn ⟨0, "Link"⟩ .big long = .error deep := by decide
  have hwide : r.key ⟨0, "Link"⟩ tagged = .error wide := by decide
  obtain ⟨full, key, hfull, hkey, hclass⟩ := isDecodeFailure_iff_overnested hcheck hwhole
  refine ⟨hcheck, hwhole, hdeep, rfl, hwide, rfl, full, key, hfull, hkey,
    ((hclass long deep).1 .big hdeep).mp rfl, fun hnests => ?_⟩
  cases ((hclass tagged wide).2 (Or.inl hwide)).mpr hnests

end Registry

end Cdr
