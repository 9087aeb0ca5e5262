import Cdr.Proofs.Admitting

/-! When writing succeeds.  Whether a step that writes succeeds does not depend on the buffer:
`Coding.Passes` says just where it does.  A built layout writes a value just where the declared type
accepts it. -/

namespace Cdr

/-- The step succeeds just where `p` holds, whatever the buffer holds. -/
def Coding.Passes (step : Coding Unit) (p : Prop) : Prop := ∀ b, (∃ b', step b = .ok () b') ↔ p

namespace Coding.Passes

variable {step next : Coding Unit} {p q : Prop}

theorem iff (h : Passes step p) (hpq : p ↔ q) : Passes step q := fun b => (h b).trans hpq

protected theorem pure : Passes (pure ()) True :=
  fun b => ⟨fun _ => trivial, fun _ => ⟨b, rfl⟩⟩

protected theorem throw {fault : Fault} : Passes (throw fault) False :=
  fun _ => ⟨fun ⟨_, h⟩ => (nomatch h), False.elim⟩

protected theorem fail {cause : Cause} : Passes (Coding.fail cause) False := Passes.throw

theorem fail_bind {α : Type} {cause : Cause} {rest : α → Coding Unit} :
    Passes (Coding.fail cause >>= rest) False := Passes.throw

protected theorem modify (f : Buffer → Buffer) : Passes (modify f) True :=
  fun b => ⟨fun _ => trivial, fun _ => ⟨f b, rfl⟩⟩

/-- The condition of the first step is at hand for the second. -/
protected theorem bind (h : Passes step p) (hnext : p → Passes next q) :
    Passes (step >>= fun _ => next) (p ∧ q) := by
  intro b
  simp only [bind_eq_ok]
  constructor
  · rintro ⟨b', ⟨⟩, c, hstep, hok⟩
    have hp := (h b).mp ⟨c, hstep⟩
    exact ⟨hp, (hnext hp c).mp ⟨b', hok⟩⟩
  · rintro ⟨hp, hq⟩
    obtain ⟨c, hstep⟩ := (h b).mpr hp
    obtain ⟨b', hok⟩ := (hnext hp c).mpr hq
    exact ⟨b', (), c, hstep, hok⟩

/-- A step that always succeeds leaves the condition to the next one. -/
theorem andThen (h : Passes step True) (hnext : Passes next q) :
    Passes (step >>= fun _ => next) q :=
  (h.bind fun _ => hnext).iff (by simp)

theorem inField (h : Passes step p) (field : String) : Passes (Coding.inField field step) p := by
  refine fun b => Iff.trans ?_ (h b)
  unfold Coding.inField
  cases step b <;> simp

end Coding.Passes

namespace Layout

open Coding

variable {w : CountWidth}

theorem passes_putByte (b : UInt8) : Passes (putByte b) True := Passes.modify _

theorem passes_orFail {α : Type} {e : Except Cause α} {next : α → Coding Unit} {p : α → Prop}
    (h : ∀ x, Passes (next x) (p x)) :
    Passes (orFail e >>= next) (∃ x, e = .ok x ∧ p x) := by
  cases e with
  | ok x => exact (h x).iff (by simp)
  | error cause => exact Passes.fail.iff (by simp)

theorem passes_checkBound (member : String) (length : Nat) (bound : Option UInt64) :
    Passes (checkBound member length bound) (Shape.Within bound length) := by
  unfold checkBound
  cases bound with
  | none => exact Passes.pure.iff (by simp [Shape.Within])
  | some greatest =>
    simp only
    split
    · exact Passes.fail.iff (by simp [Shape.Within]; omega)
    · exact Passes.pure.iff (by simp [Shape.Within]; omega)

theorem passes_writeCount (member : String) (count : Nat) :
    Passes (writeCount w member count) (count ≤ w.greatest) := by
  unfold writeCount
  split
  · exact Passes.fail.iff (by simp; omega)
  · exact (Passes.modify _).iff (by simp; omega)

theorem passes_writePrimitive (p : Primitive) (v : Value) :
    Passes (writePrimitive p v) (Form.accepted.primitive p v) := by
  cases p with
  | bool =>
    cases v with
    | bool b => exact (passes_putByte _).iff (by simp [Form.accepted])
    | _ => exact Passes.fail.iff (by simp [Form.accepted])
  | char =>
    exact (passes_orFail fun byte => passes_putByte byte).iff (by simp [Form.accepted])
  | integer t =>
    exact (passes_orFail fun n => Passes.modify _).iff (by simp [Form.accepted])
  | float32 | float64 =>
    refine (passes_orFail fun bits => Passes.modify _).iff ?_
    unfold floatBits
    cases hbits : v.asFloat? <;> simp [Form.accepted, hbits]

theorem passes_writeString (bound : Option UInt64) (v : Value) :
    Passes (writeString bound v) (∃ text, v = .string text ∧
      Shape.Within bound (Text.Utf8.encode text).length ∧
      (Text.Utf8.encode text).length ≤ greatestText) := by
  unfold writeString
  cases v with
  | string text =>
    simp only [Value.asString?]
    refine ((passes_checkBound "string" _ bound).bind fun _ => ?_).iff
      (by simp : _ ∧ (Text.Utf8.encode text).length ≤ greatestText ↔ _)
    split
    · rename_i hlong
      exact Passes.fail_bind.iff (by simp; omega)
    · rename_i hshort
      exact ((Passes.modify _).andThen ((Passes.modify _).andThen (passes_putByte 0))).iff
        (by simp; omega)
  | _ => exact Passes.fail.iff (by simp)

theorem passes_writeBytes (bound : Option UInt64) (v : Value) :
    Passes (writeBytes w bound v) (∃ data, Form.accepted.bytes data v ∧
      Shape.Within bound data.length ∧ data.length ≤ w.greatest) := by
  refine (passes_orFail fun data : List UInt8 =>
    (passes_checkBound "bytes" data.length bound).bind fun _ =>
      (passes_writeCount "bytes" data.length).bind fun _ => Passes.modify _).iff ?_
  cases v <;> simp [Form.accepted]

theorem passes_writeEnumerator (name : String) (enumerators : List Enumerator) (v : Value) :
    Passes (writeEnumerator name enumerators v) (Form.accepted.enumerator enumerators v) := by
  unfold writeEnumerator
  cases hordinal : ordinalOf? enumerators v with
  | some ordinal => exact (Passes.modify _).iff (by simp [Form.accepted, hordinal])
  | none => exact Passes.fail.iff (by simp [Form.accepted, hordinal])

theorem passes_writeEach {element : Value → Coding Unit} {p : Value → Prop}
    (h : ∀ v, Passes (element v) (p v)) (i : Nat) (items : List Value) :
    Passes (writeEach element i items) (∀ x ∈ items, p x) := by
  induction items generalizing i with
  | nil => exact Passes.pure.iff (by simp)
  | cons v items ih =>
    exact (((h v).inField _).bind fun _ => ih (i + 1)).iff (by simp)

theorem passes_writeEntries {key value : Value → Coding Unit} {p q : Value → Prop}
    (hkey : ∀ v, Passes (key v) (p v)) (hvalue : ∀ v, Passes (value v) (q v)) (i : Nat)
    (entries : List (Value × Value)) :
    Passes (writeEntries key value i entries) (∀ e ∈ entries, p e.1 ∧ q e.2) := by
  induction entries generalizing i with
  | nil => exact Passes.pure.iff (by simp)
  | cons e entries ih =>
    obtain ⟨k, v⟩ := e
    exact (((hkey k).inField _).bind fun _ => ((hvalue v).inField _).bind fun _ => ih (i + 1)).iff
      (by simp [and_assoc])

/-- A tag that can be held can be written. -/
theorem passes_writeTag {d : Discriminator} {label : Label} (h : d.contains label = true) :
    Passes (d.write label) True := by
  obtain ⟨t, ht, -⟩ := Discriminator.exists_tagType? h
  simp only [Discriminator.write, ht]
  exact Passes.modify _

/-- A struct without members is written for every struct value. -/
theorem passes_nothing (types : Lookup) (budget : Nat) (name : String) (v : Value) :
    Passes (write types w budget (.struct name []) v)
      (∃ given, v = .struct given ∧ Form.accepted.members [] given) := by
  cases v with
  | struct given => cases budget <;> exact Passes.pure.iff (by simp [Form.accepted])
  | _ => cases budget <;> exact Passes.fail.iff (by simp)

end Layout

namespace Site

open Coding

variable {s : Site} {w : CountWidth} {role : Role} {named : String → Value → Prop}
  {follow : Reference → Value → Coding Unit}

/-- The payload of a union is written unless only the label counts. -/
def payloadStep (tagOnly : Bool) (content : Coding Unit) : Coding Unit :=
  if !tagOnly then content else pure ()

theorem passes_payloadStep {content : Coding Unit} {p : Prop} (h : Passes content p)
    (tagOnly : Bool) (payload : Value) :
    Passes (payloadStep tagOnly content)
      (if tagOnly then Form.accepted.unused payload else p) := by
  cases tagOnly with
  | true => exact Passes.pure
  | false => exact h

mutual

/-- A layout writes a value just where the shape that it is built from accepts it. -/
theorem passes_writeWith
    (hfollow : ∀ target, Resolves s.resolve role target →
      ∀ v, Passes (follow target v) (named target.name v))
    {shape : Shape} {l : Layout} (h : s.layout role shape = .ok l) (v : Value) :
    Passes (l.writeWith w follow v) (shape.AdmitsWith .accepted w role named v) := by
  match shape with
  | .primitive p =>
    cases h
    exact Layout.passes_writePrimitive p v
  | .string bound =>
    cases h
    exact Layout.passes_writeString bound v
  | .bytes bound =>
    cases h
    exact Layout.passes_writeBytes bound v
  | .array element length =>
    obtain ⟨inner, hinner, rfl⟩ := layout_array h
    cases v with
    | array items =>
      have heach := Layout.passes_writeEach (passes_writeWith hfollow hinner) 0 items
      show Passes (if items.length = length.toNat then _ else _) _
      split
      · rename_i hlength
        exact heach.iff (by simp [Shape.AdmitsWith, hlength])
      · rename_i hlength
        exact Passes.fail.iff (by simp [Shape.AdmitsWith, hlength])
    | _ => exact Passes.fail.iff (by simp [Shape.AdmitsWith])
  | .sequence element bound =>
    obtain ⟨inner, hinner, rfl⟩ := layout_sequence h
    cases v with
    | array items =>
      have heach := Layout.passes_writeEach (passes_writeWith hfollow hinner) 0 items
      exact ((Layout.passes_checkBound "sequence" items.length bound).bind fun _ =>
        (Layout.passes_writeCount "sequence" items.length).bind fun _ => heach).iff
          (by simp [Shape.AdmitsWith])
    | _ => exact Passes.fail.iff (by simp [Shape.AdmitsWith])
  | .map key value bound =>
    obtain ⟨k, x, hk, hx, rfl⟩ := layout_map h
    cases v with
    | map entries =>
      have heach := Layout.passes_writeEntries (passes_writeWith hfollow hk)
        (passes_writeWith hfollow hx) 0 entries
      exact ((Layout.passes_checkBound "map" entries.length bound).bind fun _ =>
        (Layout.passes_writeCount "map" entries.length).bind fun _ => heach).iff
          (by simp [Shape.AdmitsWith])
    | _ => exact Passes.fail.iff (by simp [Shape.AdmitsWith])
  | .enumeration enumerators =>
    obtain ⟨-, rfl⟩ := layout_enumeration h
    exact Layout.passes_writeEnumerator _ enumerators v
  | .union ⟨discriminator, cases, none, keyed⟩ =>
    obtain ⟨d, labels, layouts, -, hlabels, hlayouts, rfl⟩ := layout_union_none h
    cases v with
    | union label payload =>
      rw [Layout.writeWith.eq_def]
      refine (Passes.modify _).andThen ?_
      cases label with
      | none => exact Passes.fail.iff (by simp [Shape.admitsWith_default])
      | some label =>
        exact (passes_writeCase hfollow hlabels hlayouts _ label payload).iff
          Shape.admitsWith_case.symm
    | _ => exact Passes.fail.iff (by simp [Shape.AdmitsWith])
  | .union ⟨discriminator, cases, some ⟨name, content⟩, keyed⟩ =>
    obtain ⟨d, labels, layouts, sentinel, inner, -, hlabels, hlayouts, hsentinel, hinner, rfl⟩ :=
      layout_union_some h
    cases v with
    | union label payload =>
      rw [Layout.writeWith.eq_def]
      refine (Passes.modify _).andThen ?_
      cases label with
      | none =>
        have hcontent := (passes_writeWith hfollow hinner payload).inField name
        exact ((Layout.passes_writeTag (sentinel_eq_ok hsentinel).1).andThen
          (passes_payloadStep hcontent _ payload)).iff (by simp [Shape.admitsWith_default])
      | some label =>
        exact (passes_writeCase hfollow hlabels hlayouts _ label payload).iff
          Shape.admitsWith_case.symm
    | _ => exact Passes.fail.iff (by simp [Shape.AdmitsWith])
  | .optional element =>
    obtain ⟨inner, hinner, rfl⟩ := layout_optional h
    have hpasses := passes_writeWith hfollow hinner v
    show Passes (if v.isNull then _ else _) _
    split
    · rename_i hnull
      obtain rfl : v = .null := by cases v <;> simp_all [Value.isNull]
      exact (Layout.passes_putByte 0).iff (by simp [Shape.AdmitsWith])
    · rename_i hnull
      have hne : v ≠ .null := by
        rintro rfl
        exact hnull rfl
      exact ((Layout.passes_putByte 1).andThen hpasses).iff (by simp [Shape.AdmitsWith, hne])
  | .named name =>
    obtain ⟨id, d, hresolve, rfl⟩ := layout_named h
    exact hfollow ⟨name, id, role⟩ ⟨rfl, d, hresolve⟩ v
termination_by structural shape

/-- A case is written just where there is a case with the label that accepts the payload. -/
theorem passes_writeCase
    (hfollow : ∀ target, Resolves s.resolve role target →
      ∀ v, Passes (follow target v) (named target.name v))
    {d : Discriminator} {cases : List (Case Shape)} {seen out : List Label}
    {layouts : List (Case Layout)} (hlabels : s.checkCases d seen cases = .ok out)
    (h : s.layoutCases role cases = .ok layouts) (tagOnly : Bool) (label : Label)
    (payload : Value) {cause : Cause} :
    Passes (match Layout.writeCase w follow label payload layouts, d.contains label with
      | some content, true => do
        d.write label
        if !tagOnly then content
      | _, _ => Coding.fail cause)
      (Shape.AdmitsCase .accepted w role named tagOnly label payload cases) := by
  match cases with
  | [] =>
    cases h
    exact Passes.fail
  | ⟨name, labels, content⟩ :: cases =>
    obtain ⟨inner, rest, hinner, hrest, rfl⟩ := layoutCases_cons h
    have hcontains := contains_of_checkCases hlabels _ List.mem_cons_self label
    obtain ⟨mid, -, hlabels⟩ := checkCases_cons_eq_ok hlabels
    rw [Layout.writeCase, Shape.AdmitsCase]
    by_cases hlabel : labels.contains label = true
    · rw [if_pos hlabel, if_pos hlabel, hcontains (by simpa using hlabel)]
      have hcontent := (passes_writeWith hfollow hinner payload).inField name
      exact (Layout.passes_writeTag (hcontains (by simpa using hlabel))).andThen
        (passes_payloadStep hcontent tagOnly payload)
    · rw [if_neg hlabel, if_neg hlabel]
      exact passes_writeCase hfollow hlabels hrest tagOnly label payload
termination_by structural cases

end

/-- The members of a struct are written just where each is given and accepted. -/
theorem passes_writeMembers
    (hfollow : ∀ target, Resolves s.resolve role target →
      ∀ v, Passes (follow target v) (named target.name v))
    {members : List (Member Shape)} {layouts : List (Member Layout)}
    (h : s.layoutMembers role members = .ok layouts) (name : String)
    (given : List (String × Value)) :
    Passes (Layout.writeMembers w follow name given layouts)
      (∀ m ∈ members, ∃ x, Dictionary.find? m.name given = some x ∧
        m.content.AdmitsWith .accepted w role named x) := by
  induction members generalizing layouts with
  | nil =>
    cases h
    exact Passes.pure.iff (by simp)
  | cons m members ih =>
    obtain ⟨content, rest, hcontent, hrest, rfl⟩ := layoutMembers_cons h
    rw [Layout.writeMembers]
    cases hfind : Dictionary.find? m.name given with
    | none => exact Passes.fail.iff (by simp [hfind])
    | some x =>
      have hmember := (passes_writeWith (w := w) hfollow hcontent x).inField m.name
      exact (hmember.bind fun _ => ih hrest).iff (by simp [hfind])

end Site

theorem Layouts.passes_ofRole {resolve : String → Option (Nat × Declaration)} {d : Declaration}
    {layouts : Layouts} {w : CountWidth} {role : Role} {named : String → Value → Prop}
    {follow : Reference → Value → Coding Unit}
    (hfollow : ∀ target, Resolves resolve role target →
      ∀ v, Coding.Passes (follow target v) (named target.name v))
    (h : build resolve d = .ok layouts) (v : Value) :
    Coding.Passes ((layouts.ofRole role).writeWith w follow v)
      (d.AdmitsWith .accepted w role named v) := by
  unfold Declaration.AdmitsWith
  cases hbody : d.body with
  | struct members =>
    obtain ⟨full, key, hfull, hkey, rfl⟩ := build_struct hbody h
    cases v with
    | struct given =>
      cases role with
      | full =>
        exact (Site.passes_writeMembers hfollow hfull d.name given).iff
          (by simp [Form.accepted, Declaration.membersFor])
      | key =>
        exact (Site.passes_writeMembers hfollow hkey d.name given).iff
          (by simp [Form.accepted, Declaration.membersFor])
    | _ => cases role <;> exact Coding.Passes.fail.iff (by simp)
  | union u =>
    obtain ⟨full, key, hfull, hkey, rfl⟩ := build_union hbody h
    cases role with
    | full => exact Site.passes_writeWith hfollow hfull v
    | key => exact Site.passes_writeWith hfollow hkey v
  | enumeration enumerators =>
    obtain ⟨-, rfl⟩ := build_enumeration hbody h
    cases role <;> exact Layout.passes_writeEnumerator _ enumerators v

namespace Catalog

/-- A built layout writes a value just where its declared type accepts it. -/
theorem Coherent.passes_write {c : Catalog} (h : c.Coherent []) {w : CountWidth} (role : Role)
    (budget : Nat) {d : Declaration} {layouts : Layouts}
    (hbuild : Layouts.build c.resolve d = .ok layouts) (v : Value) :
    Coding.Passes ((layouts.ofRole role).write c.layout w budget v)
      (d.AdmitsWith .accepted w role (c.AdmitsNamed .accepted w role budget) v) := by
  induction budget generalizing d layouts v with
  | zero => exact Layouts.passes_ofRole (fun _ _ _ => Coding.Passes.fail) hbuild v
  | succ budget ih =>
    refine Layouts.passes_ofRole (fun target hgood v => ?_) hbuild v
    cases hlayout : c.layout target.id target.role with
    | ok l =>
      obtain ⟨e, layouts', -, hdeclared, hbuild', rfl⟩ := h.build_of_resolves hgood hlayout
      exact (ih hbuild' v).iff (by simp [AdmitsNamed, Usable, hdeclared, hbuild'])
    | error fault =>
      -- Only a type that cannot be built has no layout, and such a type accepts nothing.
      refine Coding.Passes.throw.iff (iff_of_false id ?_)
      rintro ⟨d, ⟨hd, layouts', hbuild'⟩, -⟩
      obtain ⟨e, he, hdeclared⟩ := h.exists_entry_of_resolves hgood
      obtain rfl : e.declaration = d := Option.some.inj (hdeclared.symm.trans hd)
      rw [h.layout_eq_ok.mpr ⟨e, layouts', he, hbuild', rfl⟩] at hlayout
      cases hlayout

end Catalog

namespace Registry

variable {r : Registry} {h : Handle} {l : Layout}

/-- The sample of a value can be written just where the type accepts the value. -/
theorem Sound.passes_sampleLayout (hr : r.Sound) (hl : r.sampleLayout h = .ok l) (v : Value) :
    Coding.Passes (r.context.write l v) (r.Admits .accepted h v) := by
  obtain ⟨e, layouts, -, hdeclared, hbuild, rfl⟩ := hr.build_of_sampleLayout hl
  exact (hr.coherent.passes_write .full r.config.maxDepth hbuild v).iff (admits_iff hdeclared).symm

/-- The key of a value can be written just where the key of the type accepts the value. -/
theorem Sound.passes_keyLayout (hr : r.Sound) (hl : r.keyLayout h = .ok l) (v : Value) :
    Coding.Passes (r.context.write l v) (r.AdmitsKey .accepted h v) := by
  obtain ⟨e, layouts, -, hdeclared, hbuild, rfl⟩ := hr.build_of_keyLayout hl
  refine Coding.Passes.iff ?_ (admitsKey_iff hdeclared).symm
  rw [Layouts.key_eq hbuild]
  split
  · exact Layout.passes_nothing _ _ _ v
  · exact hr.coherent.passes_write .key r.config.maxDepth hbuild v

end Registry

end Cdr
