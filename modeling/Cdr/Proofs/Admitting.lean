import Cdr.Layout.Write
import Cdr.Proofs.Dictionaries
import Cdr.Proofs.Resolved

/-! The values that a declared type admits.  The declaration fixes bounds, lengths, enumerators,
labels and members, and the registry how deep a value may nest; how each part has to be given is a
matter of form.  In the declared form every part is given as it is declared and nothing else is
given.  The accepted form is all that a writer takes. -/

namespace Cdr

/-- How the parts of a value have to be given. -/
structure Form where
  primitive : Primitive → Value → Prop
  /-- The value stands for the bytes. -/
  bytes : List UInt8 → Value → Prop
  enumerator : List Enumerator → Value → Prop
  /-- The payload of a union of which only the label counts. -/
  unused : Value → Prop
  /-- The members that are given to a struct whose members have the names. -/
  members : List String → List (String × Value) → Prop

namespace Form

/-- Every part is given as it is declared, and nothing else is given. -/
def declared : Form where
  primitive
    | .bool, v => ∃ b, v = .bool b
    | .char, v => ∃ c, v = .char c ∧ c.toNat < 256
    | .integer t, v => ∃ n, v = .integer n ∧ n.type = t
    | .float32, v => ∃ bits, v = .float32 bits
    | .float64, v => ∃ bits, v = .float64 bits
  bytes data v := v = .bytes data
  enumerator enumerators v := ∃ e ∈ enumerators, v = .enumerator e.name
  unused v := v = .null
  members names given := Dictionary.Sorted given ∧ ∀ e ∈ given, e.1 ∈ names

/-- All that a writer takes. -/
def accepted : Form where
  primitive
    | .bool, v => ∃ b, v = .bool b
    | .char, v => ∃ byte, Layout.charByte v = .ok byte
    | .integer t, v => ∃ n, Layout.fittingNumber t v = .ok n
    | .float32, v | .float64, v => ∃ bits, v.asFloat? = some bits
  bytes data v := v = .bytes data ∨ ∃ items, v = .array items ∧ Layout.itemBytes [] items = .ok data
  enumerator enumerators v := ∃ ordinal, Layout.ordinalOf? enumerators v = some ordinal
  unused _ := True
  members _ _ := True

/-- A writer takes what is given in the form. -/
structure Writable (form : Form) : Prop where
  primitive : ∀ p v, form.primitive p v → accepted.primitive p v
  bytes : ∀ data v, form.bytes data v → accepted.bytes data v
  enumerator : ∀ enumerators v, form.enumerator enumerators v → accepted.enumerator enumerators v

theorem writable_accepted : accepted.Writable := ⟨fun _ _ h => h, fun _ _ h => h, fun _ _ h => h⟩

theorem writable_declared : declared.Writable where
  primitive p v h := by
    cases p with
    | bool => exact h
    | char =>
      obtain ⟨c, rfl, hc⟩ := h
      exact ⟨_, if_pos hc⟩
    | integer t =>
      obtain ⟨n, rfl, rfl⟩ := h
      exact ⟨n.number, if_pos n.holds⟩
    | float32 =>
      obtain ⟨bits, rfl⟩ := h
      exact ⟨_, rfl⟩
    | float64 =>
      obtain ⟨bits, rfl⟩ := h
      exact ⟨_, rfl⟩
  bytes _ _ h := Or.inl h
  enumerator enumerators v h := by
    obtain ⟨e, he, rfl⟩ := h
    have hsome : (enumerators.find? (·.name == e.name)).isSome :=
      List.find?_isSome.mpr ⟨e, he, beq_self_eq_true _⟩
    obtain ⟨found, hfound⟩ := Option.isSome_iff_exists.mp hsome
    exact ⟨found.ordinal, by simp [Layout.ordinalOf?, Enumerator.ordinalOf?, hfound]⟩

end Form

namespace Shape

/-- The length is within the bound, if there is one. -/
def Within (bound : Option UInt64) (length : Nat) : Prop :=
  ∀ greatest, bound = some greatest → length ≤ greatest.toNat

section Admission

variable (form : Form) (w : CountWidth) (role : Role) (follow : String → Value → Prop)

mutual

/-- The shape admits the value in the form, with `follow` for the declared types that it names. -/
def AdmitsWith : Shape → Value → Prop
  | primitive p, v => form.primitive p v
  | string bound, v =>
    ∃ text, v = .string text ∧ Within bound (Text.Utf8.encode text).length ∧
      (Text.Utf8.encode text).length ≤ Layout.greatestText
  | bytes bound, v =>
    ∃ data, form.bytes data v ∧ Within bound data.length ∧ data.length ≤ w.greatest
  | array element length, v =>
    ∃ items, v = .array items ∧ items.length = length.toNat ∧ ∀ x ∈ items, AdmitsWith element x
  | sequence element bound, v =>
    ∃ items, v = .array items ∧ Within bound items.length ∧ items.length ≤ w.greatest ∧
      ∀ x ∈ items, AdmitsWith element x
  | map key value bound, v =>
    ∃ entries, v = .map entries ∧ Within bound entries.length ∧ entries.length ≤ w.greatest ∧
      ∀ e ∈ entries, AdmitsWith key e.1 ∧ AdmitsWith value e.2
  | enumeration enumerators, v => form.enumerator enumerators v
  | union ⟨_, cases, fallback, keyedByLabel⟩, v =>
    ∃ label payload, v = .union label payload ∧
      match label with
      | some label => AdmitsCase (role == .key && keyedByLabel) label payload cases
      | none =>
        match fallback with
        | some ⟨_, content⟩ =>
          if role == .key && keyedByLabel then form.unused payload else AdmitsWith content payload
        | none => False
  | optional inner, v => v = .null ∨ AdmitsWith inner v
  | named name, v => follow name v
termination_by structural s => s

/-- There is a case with the label, and the first such case admits the payload. -/
def AdmitsCase (tagOnly : Bool) (label : Label) (payload : Value) : List (Case Shape) → Prop
  | [] => False
  | ⟨_, labels, content⟩ :: cases =>
    if labels.contains label then
      if tagOnly then form.unused payload else AdmitsWith content payload
    else AdmitsCase tagOnly label payload cases
termination_by structural cases => cases

end

end Admission

theorem admitsWith_case {form : Form} {w : CountWidth} {role : Role}
    {follow : String → Value → Prop} {discriminator : Shape} {cases : List (Case Shape)}
    {fallback : Option (DefaultCase Shape)} {keyed : Bool} {label : Label} {payload : Value} :
    (union ⟨discriminator, cases, fallback, keyed⟩).AdmitsWith form w role follow
        (.union (some label) payload) ↔
      AdmitsCase form w role follow (role == .key && keyed) label payload cases := by
  rw [AdmitsWith.eq_def]
  simp

theorem admitsWith_default {form : Form} {w : CountWidth} {role : Role}
    {follow : String → Value → Prop} {discriminator : Shape} {cases : List (Case Shape)}
    {fallback : Option (DefaultCase Shape)} {keyed : Bool} {payload : Value} :
    (union ⟨discriminator, cases, fallback, keyed⟩).AdmitsWith form w role follow
        (.union none payload) ↔
      ∃ f, fallback = some f ∧
        if role == .key && keyed then form.unused payload
        else f.content.AdmitsWith form w role follow payload := by
  rw [AdmitsWith.eq_def]
  cases fallback <;> simp

section Accepted

variable {form : Form} {w : CountWidth} {role role' : Role} {follow follow' : String → Value → Prop}

/-- What a role leaves of a union is left of it along a key too. -/
theorem payload_used (hrole : role = .key → role' = .key) {keyed : Bool}
    (h : (role' == .key && keyed) = false) : (role == .key && keyed) = false := by
  cases role <;> cases role' <;> simp_all

mutual

/-- A shape that admits a value in any form that can be written accepts it, and it accepts the value
along a key too. -/
theorem accepts_of_admits (hform : form.Writable) (hrole : role = .key → role' = .key)
    (hfollow : ∀ name v, follow name v → follow' name v) {s : Shape} {v : Value}
    (h : s.AdmitsWith form w role follow v) : s.AdmitsWith .accepted w role' follow' v := by
  match s with
  | primitive p => exact hform.primitive p v h
  | string _ => exact h
  | bytes _ =>
    obtain ⟨data, hdata, hlength⟩ := h
    exact ⟨data, hform.bytes data v hdata, hlength⟩
  | array element _ =>
    obtain ⟨items, rfl, hlength, hitems⟩ := h
    exact ⟨items, rfl, hlength, fun x hx => accepts_of_admits hform hrole hfollow (hitems x hx)⟩
  | sequence element _ =>
    obtain ⟨items, rfl, hbound, hcount, hitems⟩ := h
    exact ⟨items, rfl, hbound, hcount,
      fun x hx => accepts_of_admits hform hrole hfollow (hitems x hx)⟩
  | map key value _ =>
    obtain ⟨entries, rfl, hbound, hcount, hentries⟩ := h
    exact ⟨entries, rfl, hbound, hcount, fun e he =>
      ⟨accepts_of_admits hform hrole hfollow (hentries e he).1,
        accepts_of_admits hform hrole hfollow (hentries e he).2⟩⟩
  | enumeration enumerators => exact hform.enumerator enumerators v h
  | union ⟨_, cases, none, keyed⟩ =>
    rw [AdmitsWith.eq_def] at h ⊢
    obtain ⟨label, payload, rfl, hpayload⟩ := h
    refine ⟨label, payload, rfl, ?_⟩
    cases label with
    | none => exact hpayload
    | some label =>
      exact acceptsCase_of_admits hform hrole hfollow (payload_used hrole) hpayload
  | union ⟨_, cases, some ⟨_, content⟩, keyed⟩ =>
    rw [AdmitsWith.eq_def] at h ⊢
    obtain ⟨label, payload, rfl, hpayload⟩ := h
    refine ⟨label, payload, rfl, ?_⟩
    cases label with
    | none =>
      simp only at hpayload ⊢
      split
      · trivial
      · rename_i hused
        have hused := payload_used hrole (by simpa using hused)
        rw [hused] at hpayload
        exact accepts_of_admits hform hrole hfollow hpayload
    | some label =>
      exact acceptsCase_of_admits hform hrole hfollow (payload_used hrole) hpayload
  | optional inner => exact h.imp_right (accepts_of_admits hform hrole hfollow)
  | named name => exact hfollow name v h
termination_by structural s

theorem acceptsCase_of_admits (hform : form.Writable) (hrole : role = .key → role' = .key)
    (hfollow : ∀ name v, follow name v → follow' name v) {tagOnly tagOnly' : Bool}
    (hused : tagOnly' = false → tagOnly = false) {label : Label} {payload : Value}
    {cases : List (Case Shape)}
    (h : AdmitsCase form w role follow tagOnly label payload cases) :
    AdmitsCase .accepted w role' follow' tagOnly' label payload cases := by
  match cases with
  | [] => exact h
  | ⟨_, labels, content⟩ :: cases =>
    rw [AdmitsCase] at h ⊢
    split
    · rename_i hlabel
      rw [if_pos hlabel] at h
      split
      · trivial
      · rename_i htag
        rw [hused (by simpa using htag)] at h
        exact accepts_of_admits hform hrole hfollow h
    · rename_i hlabel
      rw [if_neg hlabel] at h
      exact acceptsCase_of_admits hform hrole hfollow hused h
termination_by structural cases

end

end Accepted

end Shape

namespace Declaration

/-- The declared type admits the value in the form, with `follow` for the types that it names.  Of a
struct, only the members that a role has count. -/
def AdmitsWith (d : Declaration) (form : Form) (w : CountWidth) (role : Role)
    (follow : String → Value → Prop) (v : Value) : Prop :=
  match d.body with
  | .struct members =>
    ∃ given, v = .struct given ∧
      form.members ((d.membersFor role members).map (·.name)) given ∧
      ∀ m ∈ d.membersFor role members, ∃ x, Dictionary.find? m.name given = some x ∧
        m.content.AdmitsWith form w role follow x
  | .union u => (Shape.union u).AdmitsWith form w role follow v
  | .enumeration enumerators => form.enumerator enumerators v

variable {form : Form} {w : CountWidth} {role role' : Role} {follow follow' : String → Value → Prop}
  {d : Declaration} {v : Value}

/-- Along a key a struct has no members that it does not have otherwise. -/
theorem membersFor_subset (hrole : role = .key → role' = .key) (members : List (Member Shape)) :
    d.membersFor role' members ⊆ d.membersFor role members := by
  cases role with
  | key =>
    rw [hrole rfl]
    exact fun _ hm => hm
  | full =>
    cases role' with
    | full => exact fun _ hm => hm
    | key => exact fun _ hm => List.mem_of_mem_filter hm

theorem accepts_of_admits (hform : form.Writable) (hrole : role = .key → role' = .key)
    (hfollow : ∀ name v, follow name v → follow' name v)
    (h : d.AdmitsWith form w role follow v) : d.AdmitsWith .accepted w role' follow' v := by
  unfold AdmitsWith at h ⊢
  cases hbody : d.body with
  | struct members =>
    rw [hbody] at h
    obtain ⟨given, rfl, -, hmembers⟩ := h
    refine ⟨given, rfl, trivial, fun m hm => ?_⟩
    obtain ⟨x, hx, hadmits⟩ := hmembers m (membersFor_subset hrole members hm)
    exact ⟨x, hx, Shape.accepts_of_admits hform hrole hfollow hadmits⟩
  | union u =>
    rw [hbody] at h
    exact Shape.accepts_of_admits hform hrole hfollow h
  | enumeration enumerators =>
    rw [hbody] at h
    exact hform.enumerator enumerators v h

end Declaration

namespace Catalog

/-- The name is registered for the declaration, and that can be built. -/
def Usable (c : Catalog) (name : String) (d : Declaration) : Prop :=
  c.declared? name = some d ∧ ∃ layouts, Layouts.build c.resolve d = .ok layouts

/-- The type of a registered name admits the value in the form, nested through at most `budget`
names. -/
def AdmitsNamed (c : Catalog) (form : Form) (w : CountWidth) (role : Role) :
    Nat → String → Value → Prop
  | 0, _, _ => False
  | budget + 1, name, v =>
    ∃ d, c.Usable name d ∧ d.AdmitsWith form w role (AdmitsNamed c form w role budget) v

theorem acceptsNamed_of_admits {c : Catalog} {form : Form} {w : CountWidth} {role role' : Role}
    (hform : form.Writable) (hrole : role = .key → role' = .key) (budget : Nat) (name : String)
    (v : Value) (h : c.AdmitsNamed form w role budget name v) :
    c.AdmitsNamed .accepted w role' budget name v := by
  induction budget generalizing name v with
  | zero => exact h
  | succ budget ih =>
    obtain ⟨d, hd, hadmits⟩ := h
    exact ⟨d, hd, d.accepts_of_admits hform hrole ih hadmits⟩

end Catalog

namespace Registry

/-- A registered type admits the value in the form, nested as deep as the registry allows. -/
def Admits (r : Registry) (form : Form) (h : Handle) (v : Value) : Prop :=
  ∃ d, r.catalog.declared? h.name = some d ∧
    d.AdmitsWith form r.config.countWidth .full
      (r.catalog.AdmitsNamed form r.config.countWidth .full r.config.maxDepth) v

/-- The key of a registered type admits the value in the form.  The key of a type that is keyless
has no members. -/
def AdmitsKey (r : Registry) (form : Form) (h : Handle) (v : Value) : Prop :=
  ∃ d, r.catalog.declared? h.name = some d ∧
    if d.isKeyless then ∃ given, v = .struct given ∧ form.members [] given
    else
      d.AdmitsWith form r.config.countWidth .key
        (r.catalog.AdmitsNamed form r.config.countWidth .key r.config.maxDepth) v

variable {r : Registry} {form : Form} {h : Handle} {v : Value} {d : Declaration}

theorem admits_iff (hd : r.catalog.declared? h.name = some d) :
    r.Admits form h v ↔ d.AdmitsWith form r.config.countWidth .full
      (r.catalog.AdmitsNamed form r.config.countWidth .full r.config.maxDepth) v := by
  simp [Admits, hd]

theorem admitsKey_iff (hd : r.catalog.declared? h.name = some d) :
    r.AdmitsKey form h v ↔
      if d.isKeyless then ∃ given, v = .struct given ∧ form.members [] given
      else d.AdmitsWith form r.config.countWidth .key
        (r.catalog.AdmitsNamed form r.config.countWidth .key r.config.maxDepth) v := by
  simp [AdmitsKey, hd]

end Registry

end Cdr
