import Cdr.Proofs.Resolved
import Mathlib.Data.List.Forall2

/-! Values that agree on a key.  Two values of a declared type agree where their key members do:
members that the key does not have may be missing, surplus or of any kind, and of a union that is
keyed by its label the payload does not count.  A layout along a key writes values that agree in the
same way, with the same fault if there is one. -/

namespace Cdr

namespace Value

def asEntries? : Value → Option (List (Value × Value))
  | map entries => some entries
  | _ => none

/-- The label and the payload of a union value. -/
def asUnion? : Value → Option (Option Label × Value)
  | union label payload => some (label, payload)
  | _ => none

theorem eq_map_of_asEntries? {v : Value} {entries : List (Value × Value)}
    (h : v.asEntries? = some entries) : v = map entries := by
  cases v with
  | map _ =>
    cases h
    rfl
  | _ => cases h

theorem eq_union_of_asUnion? {v : Value} {label : Option Label} {payload : Value}
    (h : v.asUnion? = some (label, payload)) : v = union label payload := by
  cases v with
  | union _ _ =>
    cases h
    rfl
  | _ => cases h

/-- Both values are of the form that the view takes apart and their parts are related, or neither is
and they are of one kind, which is what a fault tells. -/
def AgreeAs {α : Type} (view : Value → Option α) (parts : α → α → Prop) (v v' : Value) : Prop :=
  (∃ x x', view v = some x ∧ view v' = some x' ∧ parts x x') ∨
    (view v = none ∧ view v' = none ∧ v.kind = v'.kind)

end Value

namespace Shape

section Agreement

variable (follow : String → Value → Value → Prop)

mutual

/-- Two values of a shape agree along a key, with `follow` for the declared types that it names. -/
def AgreesOnKey : Shape → Value → Value → Prop
  | primitive _, v, v' | string _, v, v' | bytes _, v, v' | enumeration _, v, v' => v = v'
  | array element _, v, v' | sequence element _, v, v' =>
    Value.AgreeAs Value.asItems? (List.Forall₂ (AgreesOnKey element)) v v'
  | map key value _, v, v' =>
    Value.AgreeAs Value.asEntries?
      (List.Forall₂ fun e e' => AgreesOnKey key e.1 e'.1 ∧ AgreesOnKey value e.2 e'.2) v v'
  | union ⟨_, cases, fallback, keyedByLabel⟩, v, v' =>
    Value.AgreeAs Value.asUnion?
      (fun u u' => u.1 = u'.1 ∧ (keyedByLabel = false →
        match u.1 with
        | some label => AgreesOnCase label u.2 u'.2 cases
        | none =>
          match fallback with
          | some ⟨_, content⟩ => AgreesOnKey content u.2 u'.2
          | none => True)) v v'
  | optional inner, v, v' => v.isNull = v'.isNull ∧ (v.isNull = false → AgreesOnKey inner v v')
  | named name, v, v' => follow name v v'
termination_by structural s => s

/-- Two payloads agree under the first case with a label.  Without one they do not count. -/
def AgreesOnCase (label : Label) (payload payload' : Value) : List (Case Shape) → Prop
  | [] => True
  | ⟨_, labels, content⟩ :: cases =>
    if labels.contains label then AgreesOnKey content payload payload'
    else AgreesOnCase label payload payload' cases
termination_by structural cases => cases

end

end Agreement

end Shape

namespace Declaration

/-- Two values of a declared type agree along a key, with `follow` for the types that it names.  A
key member is missing in both structs or its values agree. -/
def AgreesOnKey (d : Declaration) (follow : String → Value → Value → Prop) (v v' : Value) : Prop :=
  match d.body with
  | .struct members =>
    Value.AgreeAs Value.asMembers?
      (fun given given' => ∀ m ∈ d.membersFor .key members,
        Option.Rel (m.content.AgreesOnKey follow) (Dictionary.find? m.name given)
          (Dictionary.find? m.name given')) v v'
  | .union u => (Shape.union u).AgreesOnKey follow v v'
  | .enumeration _ => v = v'

end Declaration

namespace Catalog

/-- Two values agree along a key under a registered name, nested through at most `budget` names.
What lies deeper is not written. -/
def AgreesOnKey (c : Catalog) : Nat → String → Value → Value → Prop
  | 0, _, _, _ => True
  | budget + 1, name, v, v' =>
    ∀ d, c.declared? name = some d → d.AgreesOnKey (AgreesOnKey c budget) v v'

end Catalog

namespace Registry

/-- Two values agree on the key members of a registered type.  The key of a type that is keyless has
no members. -/
def AgreesOnKey (r : Registry) (h : Handle) (v v' : Value) : Prop :=
  ∀ d, r.catalog.declared? h.name = some d →
    if d.isKeyless then v.kind = v'.kind
    else d.AgreesOnKey (r.catalog.AgreesOnKey r.config.maxDepth) v v'

end Registry

namespace Layout

variable {w : CountWidth} {follow : Reference → Value → Coding Unit}

theorem kindMismatch_eq {v v' : Value} (h : v.kind = v'.kind) (expected : String) :
    kindMismatch expected v = kindMismatch expected v' := by
  rw [kindMismatch, h, kindMismatch]

theorem writeEach_eq {element : Value → Coding Unit} {items items' : List Value}
    (h : List.Forall₂ (fun x x' => element x = element x') items items') (i : Nat) :
    writeEach element i items = writeEach element i items' := by
  induction h generalizing i with
  | nil => rfl
  | cons hitem _ ih => rw [writeEach, writeEach, hitem, ih]

theorem writeEntries_eq {key value : Value → Coding Unit} {entries entries' : List (Value × Value)}
    (h : List.Forall₂ (fun e e' => key e.1 = key e'.1 ∧ value e.2 = value e'.2) entries entries')
    (i : Nat) : writeEntries key value i entries = writeEntries key value i entries' := by
  induction h generalizing i with
  | nil => rfl
  | cons hentry _ ih => rw [writeEntries, writeEntries, hentry.1, hentry.2, ih]

/-- Values that are no maps are refused with their kind. -/
theorem writeWith_map_of_none {key value : Layout} {bound : Option UInt64} {v : Value}
    (hv : v.asEntries? = none) :
    writeWith w follow (map key value bound) v = Coding.fail (kindMismatch "map" v) := by
  cases v with
  | map entries => cases hv
  | _ => rfl

theorem writeWith_union_of_none {u : UnionLayout Layout} {v : Value} (hv : v.asUnion? = none) :
    writeWith w follow (union u) v = Coding.fail (kindMismatch s!"union '{u.name}'" v) := by
  cases v with
  | union label payload => cases hv
  | _ => rfl

/-- Whether there is a case with a label does not depend on the payload. -/
theorem isSome_writeCase (label : Label) (payload payload' : Value) (cases : List (Case Layout)) :
    (writeCase w follow label payload cases).isSome =
      (writeCase w follow label payload' cases).isSome := by
  induction cases with
  | nil => rfl
  | cons c cases ih =>
    rw [writeCase, writeCase]
    split
    · rfl
    · exact ih

/-- A union is written alike for two payloads where only the label is written, or where what the
label selects writes them alike. -/
theorem writeWith_union_eq {u : UnionLayout Layout} {label : Option Label}
    {payload payload' : Value} (hcases : u.tagOnly = false → ∀ selected, label = some selected →
      writeCase w follow selected payload u.cases = writeCase w follow selected payload' u.cases)
    (hfallback : u.tagOnly = false → label = none → ∀ f, u.fallback = some f →
      writeWith w follow f.content payload = writeWith w follow f.content payload') :
    writeWith w follow (union u) (.union label payload) =
      writeWith w follow (union u) (.union label payload') := by
  obtain ⟨name, d, cases, fallback, tagOnly⟩ := u
  simp only at hcases hfallback
  cases label with
  | some label =>
    cases tagOnly with
    | false => simp only [writeWith, hcases rfl label rfl]
    | true =>
      have hsome : (writeCase w follow label payload cases).isSome =
          (writeCase w follow label payload' cases).isSome :=
        isSome_writeCase label payload payload' cases
      cases hpayload : writeCase w follow label payload cases with
      | none =>
        rw [hpayload] at hsome
        have hpayload' : writeCase w follow label payload' cases = none := by simpa using hsome.symm
        simp only [writeWith, hpayload, hpayload']
      | some content =>
        rw [hpayload] at hsome
        obtain ⟨content', hpayload'⟩ := Option.isSome_iff_exists.mp hsome.symm
        -- Neither payload is written.
        simp only [writeWith, hpayload, hpayload']
        cases d.contains label <;> rfl
  | none =>
    cases fallback with
    | none => simp only [writeWith]
    | some f =>
      obtain ⟨field, sentinel, content⟩ := f
      cases tagOnly with
      | false => simp only [writeWith, hfallback rfl rfl _ rfl]
      | true =>
        simp only [writeWith]
        rfl

/-- A struct without members is written alike for values of one kind. -/
theorem write_nothing_of_kind {types : Lookup} {budget : Nat} {name : String} {v v' : Value}
    (h : v.kind = v'.kind) :
    write types w budget (.struct name []) v = write types w budget (.struct name []) v' := by
  have hwrite : ∀ x : Value, write types w budget (.struct name []) x =
      if x.kind = "struct" then pure ()
      else Coding.fail (.mismatch s!"struct '{name}'" x.kind) := by
    intro x
    cases x with
    | integer n =>
      have hkind : n.type.name ≠ "struct" := by cases n.type <;> decide
      cases budget <;> exact (if_neg hkind).symm
    | _ => cases budget <;> rfl
  rw [hwrite, hwrite, h]

end Layout

namespace Site

variable {s : Site} {w : CountWidth} {named : String → Value → Value → Prop}
  {follow : Reference → Value → Coding Unit}

mutual

/-- A layout along a key writes values that agree alike. -/
theorem writeWith_eq_of_agrees
    (hfollow : ∀ target, Resolves s.resolve .key target → ∀ v v', named target.name v v' →
      follow target v = follow target v')
    {shape : Shape} {l : Layout} (h : s.layout .key shape = .ok l) {v v' : Value}
    (hagrees : shape.AgreesOnKey named v v') :
    l.writeWith w follow v = l.writeWith w follow v' := by
  match shape with
  | .primitive _ | .string _ | .bytes _ | .enumeration _ =>
    have heq : v = v' := hagrees
    rw [heq]
  | .array element length =>
    obtain ⟨inner, hinner, rfl⟩ := layout_array h
    rcases hagrees with ⟨items, items', hv, hv', hitems⟩ | ⟨hv, hv', hkind⟩
    · have hlength := hitems.length_eq
      have heach := Layout.writeEach_eq
        (hitems.imp fun _ _ hitem => writeWith_eq_of_agrees hfollow hinner hitem) 0
      simp only [Layout.writeWith, hv, hv', hlength, heach]
    · simp only [Layout.writeWith, hv, hv', Layout.kindMismatch_eq hkind]
  | .sequence element bound =>
    obtain ⟨inner, hinner, rfl⟩ := layout_sequence h
    rcases hagrees with ⟨items, items', hv, hv', hitems⟩ | ⟨hv, hv', hkind⟩
    · have hlength := hitems.length_eq
      have heach := Layout.writeEach_eq
        (hitems.imp fun _ _ hitem => writeWith_eq_of_agrees hfollow hinner hitem) 0
      simp only [Layout.writeWith, hv, hv', hlength, heach]
    · simp only [Layout.writeWith, hv, hv', Layout.kindMismatch_eq hkind]
  | .map key value bound =>
    obtain ⟨k, x, hk, hx, rfl⟩ := layout_map h
    rcases hagrees with ⟨entries, entries', hv, hv', hentries⟩ | ⟨hv, hv', hkind⟩
    · obtain rfl := Value.eq_map_of_asEntries? hv
      obtain rfl := Value.eq_map_of_asEntries? hv'
      have hlength := hentries.length_eq
      have heach := Layout.writeEntries_eq
        (hentries.imp fun _ _ hentry => ⟨writeWith_eq_of_agrees hfollow hk hentry.1,
          writeWith_eq_of_agrees hfollow hx hentry.2⟩) 0
      simp only [Layout.writeWith, hlength, heach]
    · rw [Layout.writeWith_map_of_none hv, Layout.writeWith_map_of_none hv',
        Layout.kindMismatch_eq hkind]
  | .union ⟨discriminator, cases, none, keyed⟩ =>
    obtain ⟨d, labels, layouts, -, -, hlayouts, rfl⟩ := layout_union_none h
    rcases hagrees with ⟨⟨label, payload⟩, ⟨label', payload'⟩, hv, hv', hlabel, hpayload⟩ |
      ⟨hv, hv', hkind⟩
    · obtain rfl := Value.eq_union_of_asUnion? hv
      obtain rfl := Value.eq_union_of_asUnion? hv'
      obtain rfl : label = label' := hlabel
      refine Layout.writeWith_union_eq (fun hkeyed selected hselected => ?_)
        (fun _ _ f hf => nomatch hf)
      subst hselected
      exact writeCase_eq_of_agrees hfollow hlayouts (hpayload hkeyed)
    · rw [Layout.writeWith_union_of_none hv, Layout.writeWith_union_of_none hv',
        Layout.kindMismatch_eq hkind]
  | .union ⟨discriminator, cases, some ⟨name, content⟩, keyed⟩ =>
    obtain ⟨d, labels, layouts, sentinel, inner, -, -, hlayouts, -, hinner, rfl⟩ :=
      layout_union_some h
    rcases hagrees with ⟨⟨label, payload⟩, ⟨label', payload'⟩, hv, hv', hlabel, hpayload⟩ |
      ⟨hv, hv', hkind⟩
    · obtain rfl := Value.eq_union_of_asUnion? hv
      obtain rfl := Value.eq_union_of_asUnion? hv'
      obtain rfl : label = label' := hlabel
      refine Layout.writeWith_union_eq (fun hkeyed selected hselected => ?_)
        (fun hkeyed hnone f hf => ?_)
      · subst hselected
        exact writeCase_eq_of_agrees hfollow hlayouts (hpayload hkeyed)
      · subst hnone
        cases hf
        exact writeWith_eq_of_agrees hfollow hinner (hpayload hkeyed)
    · rw [Layout.writeWith_union_of_none hv, Layout.writeWith_union_of_none hv',
        Layout.kindMismatch_eq hkind]
  | .optional element =>
    obtain ⟨inner, hinner, rfl⟩ := layout_optional h
    obtain ⟨hnull, hcontent⟩ := hagrees
    simp only [Layout.writeWith, ← hnull]
    split
    · rfl
    · rename_i hpresent
      rw [writeWith_eq_of_agrees hfollow hinner (hcontent (by simpa using hpresent))]
  | .named name =>
    obtain ⟨id, d, hresolve, rfl⟩ := layout_named h
    exact hfollow ⟨name, id, .key⟩ ⟨rfl, d, hresolve⟩ v v' hagrees
termination_by structural shape

theorem writeCase_eq_of_agrees
    (hfollow : ∀ target, Resolves s.resolve .key target → ∀ v v', named target.name v v' →
      follow target v = follow target v')
    {cases : List (Case Shape)} {layouts : List (Case Layout)}
    (h : s.layoutCases .key cases = .ok layouts) {label : Label} {payload payload' : Value}
    (hagrees : Shape.AgreesOnCase named label payload payload' cases) :
    Layout.writeCase w follow label payload layouts =
      Layout.writeCase w follow label payload' layouts := by
  match cases with
  | [] =>
    cases h
    rfl
  | ⟨name, labels, content⟩ :: cases =>
    obtain ⟨inner, rest, hinner, hrest, rfl⟩ := layoutCases_cons h
    rw [Shape.AgreesOnCase] at hagrees
    rw [Layout.writeCase, Layout.writeCase]
    by_cases hlabel : labels.contains label = true
    · rw [if_pos hlabel] at hagrees
      rw [if_pos hlabel, if_pos hlabel, writeWith_eq_of_agrees hfollow hinner hagrees]
    · rw [if_neg hlabel] at hagrees
      rw [if_neg hlabel, if_neg hlabel]
      exact writeCase_eq_of_agrees hfollow hrest hagrees
termination_by structural cases

end

/-- The members of two structs are written alike where each is missing in both or its values
agree. -/
theorem writeMembers_eq_of_agrees
    (hfollow : ∀ target, Resolves s.resolve .key target → ∀ v v', named target.name v v' →
      follow target v = follow target v')
    {members : List (Member Shape)} {layouts : List (Member Layout)}
    (h : s.layoutMembers .key members = .ok layouts) {given given' : List (String × Value)}
    (hagrees : ∀ m ∈ members, Option.Rel (m.content.AgreesOnKey named)
      (Dictionary.find? m.name given) (Dictionary.find? m.name given')) (name : String) :
    Layout.writeMembers w follow name given layouts =
      Layout.writeMembers w follow name given' layouts := by
  induction members generalizing layouts with
  | nil =>
    cases h
    rfl
  | cons m members ih =>
    obtain ⟨content, rest, hcontent, hrest, rfl⟩ := layoutMembers_cons h
    obtain ⟨hfirst, hothers⟩ := List.forall_mem_cons.mp hagrees
    rw [Layout.writeMembers, Layout.writeMembers]
    cases hfound : Dictionary.find? m.name given with
    | none =>
      cases hfound' : Dictionary.find? m.name given' with
      | none => rfl
      | some v' =>
        rw [hfound, hfound'] at hfirst
        cases hfirst
    | some v =>
      cases hfound' : Dictionary.find? m.name given' with
      | none =>
        rw [hfound, hfound'] at hfirst
        cases hfirst
      | some v' =>
        rw [hfound, hfound'] at hfirst
        cases hfirst with
        | some hvalue =>
          simp only [writeWith_eq_of_agrees hfollow hcontent hvalue, ih hrest hothers]

end Site

/-- A built layout along a key writes values of its declaration that agree alike. -/
theorem Layouts.writeWith_memberKey_eq {resolve : String → Option (Nat × Declaration)}
    {d : Declaration} {layouts : Layouts} {w : CountWidth} {named : String → Value → Value → Prop}
    {follow : Reference → Value → Coding Unit}
    (hfollow : ∀ target, Resolves resolve .key target → ∀ v v', named target.name v v' →
      follow target v = follow target v')
    (h : build resolve d = .ok layouts) {v v' : Value} (hagrees : d.AgreesOnKey named v v') :
    layouts.memberKey.writeWith w follow v = layouts.memberKey.writeWith w follow v' := by
  unfold Declaration.AgreesOnKey at hagrees
  cases hbody : d.body with
  | struct members =>
    obtain ⟨full, key, -, hkey, rfl⟩ := build_struct hbody h
    rw [hbody] at hagrees
    rcases hagrees with ⟨given, given', hv, hv', hmembers⟩ | ⟨hv, hv', hkind⟩
    · have hwrite := Site.writeMembers_eq_of_agrees (w := w) hfollow hkey hmembers d.name
      simp only [Layout.writeWith, hv, hv', hwrite]
    · simp only [Layout.writeWith, hv, hv', Layout.kindMismatch_eq hkind]
  | union u =>
    obtain ⟨full, key, -, hkey, rfl⟩ := build_union hbody h
    rw [hbody] at hagrees
    exact Site.writeWith_eq_of_agrees hfollow hkey hagrees
  | enumeration enumerators =>
    rw [hbody] at hagrees
    have heq : v = v' := hagrees
    rw [heq]

namespace Catalog

variable {c : Catalog}

/-- The layouts of a coherent catalog write values that agree on a key alike. -/
theorem Coherent.write_eq_of_agrees (h : c.Coherent []) (w : CountWidth) (budget : Nat) {i : Nat}
    {e : Entry} {layouts : Layouts} (he : c.entries[i]? = some e)
    (hbuild : Layouts.build c.resolve e.declaration = .ok layouts) {v v' : Value}
    (hagrees : e.declaration.AgreesOnKey (c.AgreesOnKey budget) v v') :
    layouts.memberKey.write c.layout w budget v = layouts.memberKey.write c.layout w budget v' := by
  induction budget generalizing i e layouts v v' with
  | zero => exact Layouts.writeWith_memberKey_eq (fun _ _ _ _ _ => rfl) hbuild hagrees
  | succ budget ih =>
    refine Layouts.writeWith_memberKey_eq (fun target hgood x x' hnamed => ?_) hbuild hagrees
    cases hlayout : c.layout target.id target.role with
    | error fault => rfl
    | ok l =>
      obtain ⟨e', layouts', he', hdeclared, hbuild', rfl⟩ := h.build_of_resolves hgood hlayout
      exact ih he' hbuild' (hnamed e'.declaration hdeclared)

end Catalog

namespace Registry

variable {r : Registry} {h : Handle} {v v' : Value}

/-- Values that agree on the key members are written alike, from any state of the buffer. -/
theorem Sound.writeKey_eq_of_agrees (hr : r.Sound) (hagrees : r.AgreesOnKey h v v') :
    r.writeKey h v = r.writeKey h v' := by
  unfold writeKey
  cases hl : r.keyLayout h with
  | error fault => rfl
  | ok l =>
    obtain ⟨e, layouts, he, hdeclared, hbuild, rfl⟩ := hr.build_of_keyLayout hl
    have hkey := hagrees e.declaration hdeclared
    have hwrite : r.context.write layouts.key v = r.context.write layouts.key v' := by
      rw [Layouts.key_eq hbuild]
      split
      · rename_i hkeyless
        rw [if_pos hkeyless] at hkey
        exact Layout.write_nothing_of_kind hkey
      · rename_i hkeyed
        rw [if_neg hkeyed] at hkey
        exact hr.coherent.write_eq_of_agrees _ _ he hbuild hkey
    simp only [Key.encode, hwrite]

end Registry

end Cdr
