import Cdr.Proofs.Admitting
import Cdr.Proofs.Keys
import Cdr.Proofs.Samples

/-! What is read.  `Coding.Yields` says of a step that every value that it gives, whatever the bytes
are, has a property.  A built layout yields only values that the declared type admits in the
declared form. -/

namespace Cdr

namespace Coding

/-- Whatever a buffer with room for what counts holds, the values that the step gives have the
property. -/
def Yields {α : Type} (step : Coding α) (p : α → Prop) : Prop :=
  ∀ ⦃b b' : Buffer⦄ ⦃x : α⦄, b.length ≤ b.capacity → step b = .ok x b' →
    p x ∧ b'.length ≤ b'.capacity

namespace Yields

variable {α β : Type} {step : Coding α} {rest : α → Coding β} {p : α → Prop} {q : β → Prop}

protected theorem pure {x : α} (h : p x) : Yields (pure x) p := by
  rintro b _ _ hroom ⟨⟩
  exact ⟨h, hroom⟩

protected theorem throw {fault : Fault} : Yields (throw fault) p := fun _ _ _ _ hok => nomatch hok

protected theorem fail {cause : Cause} : Yields (Coding.fail cause) p := Yields.throw

/-- The property of what the first step gives is at hand for the second. -/
protected theorem bind (h : Yields step p) (hrest : ∀ x, p x → Yields (rest x) q) :
    Yields (step >>= rest) q := by
  intro b b' y hroom hok
  obtain ⟨x, c, hstep, hnext⟩ := bind_eq_ok.mp hok
  obtain ⟨hx, hroom'⟩ := h hroom hstep
  exact hrest x hx hroom' hnext

theorem imp {p' : α → Prop} (h : Yields step p) (himp : ∀ x, p x → p' x) : Yields step p' :=
  fun _ _ _ hroom hok => (h hroom hok).imp_left (himp _)

protected theorem map {f : α → β} (h : Yields step p) (hf : ∀ x, p x → q (f x)) :
    Yields (step >>= fun x => pure (f x)) q :=
  h.bind fun x hx => Yields.pure (hf x hx)

theorem take (count : Nat) : Yields (Coding.take count) fun bytes => bytes.length = count := by
  intro b b' bytes hroom hok
  unfold Coding.take at hok
  split at hok
  · cases hok
  · rename_i hcount
    cases hok
    refine ⟨?_, hroom⟩
    simp only [Buffer.remaining, Buffer.capacity] at hcount hroom
    show (b.storage.extract b.cursor (b.cursor + count)).toList.length = count
    rw [Array.length_toList, Array.size_extract]
    omega

theorem skipTo (size : Nat) : Yields (Coding.skipTo size) fun _ => True := by
  intro b b' x hroom hok
  refine ⟨trivial, ?_⟩
  unfold Coding.skipTo at hok
  obtain ⟨c, d, hget, hok⟩ := bind_eq_ok.mp hok
  cases hget
  split at hok
  · have hdiscard : (Coding.take (b.padding size) >>= fun _ => pure ()) b = .ok x b' := hok
    obtain ⟨_, _, htake, hpure⟩ := bind_eq_ok.mp hdiscard
    cases hpure
    exact (take _ hroom htake).2
  · cases hok
    exact hroom

theorem takeWord (width : Nat) : Yields (Coding.takeWord width) fun n => n < 256 ^ width := by
  refine (skipTo width).bind fun _ _ => ?_
  intro b b' n hroom hok
  obtain ⟨c, d, hget, hok⟩ := bind_eq_ok.mp hok
  cases hget
  have hdecode : Yields (Coding.take width >>= fun bytes => pure (b.order.decode bytes))
      fun n => n < 256 ^ width :=
    (take width).map fun bytes hbytes => by
      rw [← hbytes]
      exact b.order.decode_lt bytes
  exact hdecode hroom hok

end Yields

end Coding

namespace Layout

open Coding

variable {w : CountWidth}

theorem yields_readCount (context : String) (bound : Option UInt64) :
    Yields (readCount w context bound) fun n => Shape.Within bound n ∧ n ≤ w.greatest := by
  refine (Yields.takeWord w.bytes).bind fun n hn => ?_
  have hgreatest : n ≤ w.greatest := by
    unfold CountWidth.greatest
    omega
  cases bound with
  | none => exact Yields.pure ⟨fun _ h => (nomatch h), hgreatest⟩
  | some greatest =>
    simp only
    split
    · exact Yields.fail
    · refine Yields.pure ⟨fun m hm => ?_, hgreatest⟩
      obtain rfl := Option.some.inj hm
      omega

theorem yields_readPrimitive (p : Primitive) :
    Yields (readPrimitive p) (Form.declared.primitive p) := by
  have hbyte : Yields takeByte fun _ => True := (Yields.takeWord 1).map fun _ _ => trivial
  cases p with
  | bool =>
    refine hbyte.bind fun b _ => ?_
    split
    · exact Yields.pure ⟨false, rfl⟩
    · split
      · exact Yields.pure ⟨true, rfl⟩
      · exact Yields.fail
  | char =>
    refine hbyte.map fun b _ => ⟨_, rfl, ?_⟩
    rw [toNat_ofNat_byte]
    exact b.toNat_lt
  | integer t => exact (Yields.takeWord _).map fun n _ => ⟨_, rfl, rfl⟩
  | float32 => exact (Yields.takeWord _).map fun n _ => ⟨_, rfl⟩
  | float64 => exact (Yields.takeWord _).map fun n _ => ⟨_, rfl⟩

/-- Bytes with a zero byte at their end are read as a text that is one byte shorter. -/
theorem yields_text {count : Nat} (hlt : count < 256 ^ 4)
    {bound : Option UInt64} (hbound : Shape.Within bound (count - 1)) :
    Yields (do
      let raw ← Coding.take count
      if raw.getLast? ≠ some 0 then
        Coding.fail (.invalidData "string" "missing NUL terminator")
      match Text.Utf8.decode raw.dropLast with
      | .ok text => return Value.string text
      | .error flaw => Coding.fail (.invalidData "string" flaw.message)) fun v : Value =>
        ∃ text, v = .string text ∧ Shape.Within bound (Text.Utf8.encode text).length ∧
          (Text.Utf8.encode text).length ≤ greatestText := by
  refine (Yields.take count).bind fun raw hraw => ?_
  show Yields (if raw.getLast? ≠ some 0 then _ else _) _
  split
  · exact Yields.throw
  cases hdecode : Text.Utf8.decode raw.dropLast with
  | error flaw => exact Yields.fail
  | ok text =>
    have hlength : (Text.Utf8.encode text).length = count - 1 := by
      rw [Text.Utf8.encode_of_decode hdecode, List.length_dropLast, hraw]
    refine Yields.pure ⟨text, rfl, by rwa [hlength], ?_⟩
    rw [hlength, greatestText]
    omega

theorem yields_readString (bound : Option UInt64) :
    Yields (readString bound) fun v => ∃ text, v = .string text ∧
      Shape.Within bound (Text.Utf8.encode text).length ∧
      (Text.Utf8.encode text).length ≤ greatestText := by
  refine (Yields.takeWord 4).bind fun count hcount => ?_
  cases bound with
  | none =>
    show Yields (if count = 0 then _ else _) _
    split
    · exact Yields.throw
    · exact yields_text hcount fun _ h => nomatch h
  | some greatest =>
    show Yields (if count = 0 then _ else _) _
    split
    · exact Yields.throw
    show Yields (if greatest.toNat < count - 1 then _ else _) _
    split
    · exact Yields.throw
    · refine yields_text hcount fun m hm => ?_
      obtain rfl := Option.some.inj hm
      omega

theorem yields_readBytes (bound : Option UInt64) :
    Yields (readBytes w bound) fun v => ∃ data, Form.declared.bytes data v ∧
      Shape.Within bound data.length ∧ data.length ≤ w.greatest := by
  refine (yields_readCount "bytes" bound).bind fun n hn => (Yields.take n).map fun data hdata => ?_
  exact ⟨data, rfl, by rwa [hdata]⟩

theorem yields_readEnumerator (name : String) (enumerators : List Enumerator) :
    Yields (readEnumerator name enumerators) (Form.declared.enumerator enumerators) := by
  refine (Yields.takeWord 4).bind fun ordinal _ => ?_
  cases hname : Enumerator.nameOf? (UInt32.ofNat ordinal) enumerators with
  | none => exact Yields.fail
  | some enumerator =>
    obtain ⟨e, he, rfl⟩ := Option.map_eq_some_iff.mp hname
    exact Yields.pure ⟨e, List.mem_of_find?_eq_some he, rfl⟩

theorem yields_readEach {α : Type} {element : Coding α} {p : α → Prop} (h : Yields element p)
    {done : List α} (hdone : ∀ x ∈ done, p x) (count : Nat) :
    Yields (readEach element done count) fun xs =>
      xs.length = done.length + count ∧ ∀ x ∈ xs, p x := by
  induction count generalizing done with
  | zero => exact Yields.pure ⟨by simp, by simpa using hdone⟩
  | succ count ih =>
    refine h.bind fun x hx => ?_
    have hnext := ih (List.forall_mem_cons.mpr ⟨hx, hdone⟩)
    rwa [List.length_cons, Nat.add_right_comm, Nat.add_assoc] at hnext

theorem yields_readAll {α : Type} {element : Coding α} {p : α → Prop} (h : Yields element p)
    (count : Nat) :
    Yields (readEach element [] count) fun xs => xs.length = count ∧ ∀ x ∈ xs, p x := by
  have heach := yields_readEach h (List.forall_mem_nil p) count
  simpa using heach

theorem yields_readTag (d : Discriminator) : Yields d.read fun _ => True := by
  unfold Discriminator.read
  split
  · refine (Yields.takeWord _).bind fun n _ => ?_
    dsimp only
    split
    · exact Yields.pure trivial
    · exact Yields.fail
  · exact Yields.fail

/-- A union is read as its label and its payload, if that counts. -/
theorem yields_tagged {tagOnly : Bool} {content : Coding Value} {p : Value → Prop}
    (h : Yields (if tagOnly then pure .null else content) p) (label : Option Label) :
    Yields (if tagOnly then pure (Value.union label .null)
        else content >>= fun payload => pure (Value.union label payload))
      fun v => ∃ payload, v = .union label payload ∧ p payload := by
  cases tagOnly with
  | true =>
    -- Nothing is read here, so one buffer is enough to see what holds of the absent payload.
    have hnull := h (b := Buffer.empty) (Nat.zero_le _) rfl
    exact Yields.pure ⟨.null, rfl, hnull.1⟩
  | false => exact Yields.map h fun payload hpayload => ⟨payload, rfl, hpayload⟩

/-- A struct without members is read as the empty struct. -/
theorem yields_nothing (types : Lookup) (budget : Nat) (name : String) :
    Yields (read types w budget (.struct name [])) fun v =>
      ∃ given, v = .struct given ∧ Form.declared.members [] given := by
  cases budget <;>
    exact Yields.pure ⟨[], rfl, List.Pairwise.nil, List.forall_mem_nil _⟩

end Layout

namespace Site

open Coding

variable {s : Site} {w : CountWidth} {role : Role} {named : String → Value → Prop}
  {behind : Reference → Coding Value}

/-- A case is read as the union value of its label and its payload. -/
theorem yields_case {discriminator : Shape} {cases : List (Case Shape)}
    {fallback : Option (DefaultCase Shape)} {keyed : Bool} {label : Label} {content : Coding Value}
    (h : Yields (if role == .key && keyed then pure .null else content) fun payload =>
      Shape.AdmitsCase .declared w role named (role == .key && keyed) label payload cases) :
    Yields (if role == .key && keyed then pure (Value.union (some label) .null)
        else content >>= fun payload => pure (Value.union (some label) payload))
      ((Shape.union ⟨discriminator, cases, fallback, keyed⟩).AdmitsWith
        .declared w role named) := by
  refine (Layout.yields_tagged h (some label)).imp ?_
  rintro _ ⟨payload, rfl, hpayload⟩
  exact Shape.admitsWith_case.mpr hpayload

mutual

/-- A layout yields only values that the shape that it is built from admits. -/
theorem yields_readWith
    (hbehind : ∀ target, Resolves s.resolve role target →
      Yields (behind target) (named target.name))
    {shape : Shape} {l : Layout} (h : s.layout role shape = .ok l) :
    Yields (l.readWith w behind) (shape.AdmitsWith .declared w role named) := by
  match shape with
  | .primitive p =>
    cases h
    exact Layout.yields_readPrimitive p
  | .string bound =>
    cases h
    exact Layout.yields_readString bound
  | .bytes bound =>
    cases h
    exact Layout.yields_readBytes bound
  | .array element length =>
    obtain ⟨inner, hinner, rfl⟩ := layout_array h
    exact (Layout.yields_readAll (yields_readWith hbehind hinner) length.toNat).map
      fun items hitems => ⟨items, rfl, hitems⟩
  | .sequence element bound =>
    obtain ⟨inner, hinner, rfl⟩ := layout_sequence h
    refine (Layout.yields_readCount "sequence" bound).bind fun count hcount =>
      (Layout.yields_readAll (yields_readWith hbehind hinner) count).map fun items hitems => ?_
    obtain ⟨rfl, hitems⟩ := hitems
    exact ⟨items, rfl, hcount.1, hcount.2, hitems⟩
  | .map key value bound =>
    obtain ⟨k, x, hk, hx, rfl⟩ := layout_map h
    have hentry : Yields (do
        let key ← k.readWith w behind
        let value ← x.readWith w behind
        return (key, value)) fun e => key.AdmitsWith .declared w role named e.1 ∧
          value.AdmitsWith .declared w role named e.2 :=
      (yields_readWith hbehind hk).bind fun a ha =>
        (yields_readWith hbehind hx).map fun b hb => ⟨ha, hb⟩
    refine (Layout.yields_readCount "map" bound).bind fun count hcount =>
      (Layout.yields_readAll hentry count).map fun entries hentries => ?_
    obtain ⟨rfl, hentries⟩ := hentries
    exact ⟨entries, rfl, hcount.1, hcount.2, hentries⟩
  | .enumeration enumerators =>
    obtain ⟨-, rfl⟩ := layout_enumeration h
    exact Layout.yields_readEnumerator _ enumerators
  | .union ⟨discriminator, cases, none, keyed⟩ =>
    obtain ⟨d, labels, layouts, -, -, hlayouts, rfl⟩ := layout_union_none h
    rw [Layout.readWith]
    refine (Yields.skipTo _).bind fun _ _ => (Layout.yields_readTag d).bind fun label _ => ?_
    split
    · rename_i content hcontent
      exact yields_case (yields_readCase hbehind hlayouts _ label hcontent)
    · exact Yields.fail
  | .union ⟨discriminator, cases, some ⟨name, content⟩, keyed⟩ =>
    obtain ⟨d, labels, layouts, sentinel, inner, -, -, hlayouts, -, hinner, rfl⟩ :=
      layout_union_some h
    rw [Layout.readWith]
    refine (Yields.skipTo _).bind fun _ _ => (Layout.yields_readTag d).bind fun label _ => ?_
    split
    · rename_i content hcontent
      exact yields_case (yields_readCase hbehind hlayouts _ label hcontent)
    · have hcontent : Yields (if role == .key && keyed then pure .null
          else inner.readWith w behind) fun payload =>
            if role == .key && keyed then Form.declared.unused payload
            else content.AdmitsWith .declared w role named payload := by
        split
        · exact Yields.pure rfl
        · exact yields_readWith hbehind hinner
      refine (Layout.yields_tagged hcontent none).imp ?_
      rintro _ ⟨payload, rfl, hpayload⟩
      exact Shape.admitsWith_default.mpr ⟨_, rfl, hpayload⟩
  | .optional element =>
    obtain ⟨inner, hinner, rfl⟩ := layout_optional h
    have hflag : Yields Layout.takeByte fun _ => True :=
      (Yields.takeWord 1).map fun _ _ => trivial
    refine hflag.bind fun flag _ => ?_
    split
    · exact Yields.pure (Or.inl rfl)
    split
    · exact (yields_readWith hbehind hinner).imp fun _ hv => Or.inr hv
    · exact Yields.fail
  | .named name =>
    obtain ⟨id, d, hresolve, rfl⟩ := layout_named h
    exact hbehind ⟨name, id, role⟩ ⟨rfl, d, hresolve⟩
termination_by structural shape

/-- The payload that is read for a case with a label is one that the case admits. -/
theorem yields_readCase
    (hbehind : ∀ target, Resolves s.resolve role target →
      Yields (behind target) (named target.name))
    {cases : List (Case Shape)} {layouts : List (Case Layout)}
    (h : s.layoutCases role cases = .ok layouts) (tagOnly : Bool) (label : Label)
    {content : Coding Value} (hcontent : Layout.readCase w behind label layouts = some content) :
    Yields (if tagOnly then pure .null else content) fun payload =>
      Shape.AdmitsCase .declared w role named tagOnly label payload cases := by
  match cases with
  | [] =>
    cases h
    cases hcontent
  | ⟨name, labels, content⟩ :: cases =>
    obtain ⟨inner, rest, hinner, hrest, rfl⟩ := layoutCases_cons h
    rw [Layout.readCase] at hcontent
    simp only [Shape.AdmitsCase]
    by_cases hlabel : labels.contains label = true
    · rw [if_pos hlabel] at hcontent
      cases hcontent
      simp only [hlabel, if_true]
      cases tagOnly with
      | true => exact Yields.pure rfl
      | false => exact yields_readWith hbehind hinner
    · rw [if_neg hlabel] at hcontent
      simp only [hlabel]
      exact yields_readCase hbehind hrest tagOnly label hcontent
termination_by structural cases

end

/-- The members of a struct are read one after the other and inserted in a row. -/
theorem yields_readMembers
    (hbehind : ∀ target, Resolves s.resolve role target →
      Yields (behind target) (named target.name))
    {members : List (Member Shape)} {layouts : List (Member Layout)}
    (h : s.layoutMembers role members = .ok layouts) (done : List (String × Value)) :
    Yields (Layout.readMembers w behind done layouts) fun given =>
      ∃ entries, given = Dictionary.insertAll done entries ∧
        entries.map (·.1) = members.map (·.name) ∧
        ∀ m ∈ members, ∃ x, (m.name, x) ∈ entries ∧
          m.content.AdmitsWith .declared w role named x := by
  induction members generalizing layouts done with
  | nil =>
    cases h
    exact Yields.pure ⟨[], rfl, rfl, List.forall_mem_nil _⟩
  | cons m members ih =>
    obtain ⟨content, rest, hcontent, hrest, rfl⟩ := layoutMembers_cons h
    rw [Layout.readMembers]
    refine (yields_readWith hbehind hcontent).bind fun x hx => (ih hrest _).imp ?_
    rintro given ⟨entries, rfl, hnames, hentries⟩
    refine ⟨(m.name, x) :: entries, rfl, by simp [hnames],
      List.forall_mem_cons.mpr ⟨⟨x, List.mem_cons_self, hx⟩, fun m' hm' => ?_⟩⟩
    obtain ⟨x', hmem, hadmits⟩ := hentries m' hm'
    exact ⟨x', List.mem_cons_of_mem _ hmem, hadmits⟩

/-- A struct whose members have different names is read with just these members. -/
theorem yields_readStruct
    (hbehind : ∀ target, Resolves s.resolve role target →
      Yields (behind target) (named target.name))
    {members : List (Member Shape)} {layouts : List (Member Layout)}
    (hnames : (members.map (·.name)).Nodup)
    (h : s.layoutMembers role members = .ok layouts) (name : String) :
    Yields (Layout.readWith w behind (.struct name layouts)) fun v =>
      ∃ given, v = .struct given ∧ Form.declared.members (members.map (·.name)) given ∧
        ∀ m ∈ members, ∃ x, Dictionary.find? m.name given = some x ∧
          m.content.AdmitsWith .declared w role named x := by
  rw [Layout.readWith]
  refine (yields_readMembers hbehind h []).map ?_
  rintro _ ⟨entries, rfl, hentries, hmembers⟩
  rw [← hentries] at hnames ⊢
  refine ⟨_, rfl, ⟨Dictionary.sorted_insertAll List.Pairwise.nil _, fun e he => ?_⟩,
    fun m hm => ?_⟩
  · exact List.mem_map_of_mem ((Dictionary.mem_insertAll he).resolve_right List.not_mem_nil)
  · obtain ⟨x, hmem, hadmits⟩ := hmembers m hm
    exact ⟨x, Dictionary.find?_insertAll_of_mem hnames hmem [], hadmits⟩

end Site

theorem Layouts.yields_ofRole {resolve : String → Option (Nat × Declaration)} {d : Declaration}
    {layouts : Layouts} {w : CountWidth} {role : Role} {named : String → Value → Prop}
    {behind : Reference → Coding Value}
    (hbehind : ∀ target, Resolves resolve role target →
      Coding.Yields (behind target) (named target.name))
    (hvalid : d.validate = .ok ()) (h : build resolve d = .ok layouts) :
    Coding.Yields ((layouts.ofRole role).readWith w behind)
      (d.AdmitsWith .declared w role named) := by
  unfold Declaration.AdmitsWith
  cases hbody : d.body with
  | struct members =>
    obtain ⟨full, key, hfull, hkey, rfl⟩ := build_struct hbody h
    have hnodup := Declaration.nodup_membersFor hvalid hbody role
    cases role with
    | full => exact Site.yields_readStruct hbehind hnodup hfull d.name
    | key => exact Site.yields_readStruct hbehind hnodup hkey d.name
  | union u =>
    obtain ⟨full, key, hfull, hkey, rfl⟩ := build_union hbody h
    cases role with
    | full => exact Site.yields_readWith hbehind hfull
    | key => exact Site.yields_readWith hbehind hkey
  | enumeration enumerators =>
    obtain ⟨-, rfl⟩ := build_enumeration hbody h
    cases role <;> exact Layout.yields_readEnumerator _ enumerators

namespace Catalog

/-- A built layout yields only values that its declared type admits. -/
theorem Coherent.yields_read {c : Catalog} (h : c.Coherent []) {w : CountWidth} (role : Role)
    (budget : Nat) {i : Nat} {e : Entry} {layouts : Layouts} (he : c.entries[i]? = some e)
    (hbuild : Layouts.build c.resolve e.declaration = .ok layouts) :
    Coding.Yields ((layouts.ofRole role).read c.layout w budget)
      (e.declaration.AdmitsWith .declared w role (c.AdmitsNamed .declared w role budget)) := by
  induction budget generalizing i e layouts with
  | zero => exact Layouts.yields_ofRole (fun _ _ => Coding.Yields.fail) (h.valid i e he) hbuild
  | succ budget ih =>
    refine Layouts.yields_ofRole (fun target hgood => ?_) (h.valid i e he) hbuild
    cases hlayout : c.layout target.id target.role with
    | error fault => exact Coding.Yields.throw
    | ok l =>
      obtain ⟨e', layouts', he', hdeclared, hbuild', rfl⟩ := h.build_of_resolves hgood hlayout
      exact (ih he' hbuild').imp fun v hv => ⟨_, ⟨hdeclared, layouts', hbuild'⟩, hv⟩

end Catalog

namespace Registry

variable {r : Registry} {h : Handle} {l : Layout}

theorem Sound.yields_sampleLayout (hr : r.Sound) (hl : r.sampleLayout h = .ok l) :
    Coding.Yields (r.context.read l) (r.Admits .declared h) := by
  obtain ⟨e, layouts, he, hdeclared, hbuild, rfl⟩ := hr.build_of_sampleLayout hl
  exact (hr.coherent.yields_read .full r.config.maxDepth he hbuild).imp
    fun v => (admits_iff hdeclared).mpr

theorem Sound.yields_keyLayout (hr : r.Sound) (hl : r.keyLayout h = .ok l) :
    Coding.Yields (r.context.read l) (r.AdmitsKey .declared h) := by
  obtain ⟨e, layouts, he, hdeclared, hbuild, rfl⟩ := hr.build_of_keyLayout hl
  refine Coding.Yields.imp ?_ fun v => (admitsKey_iff hdeclared).mpr
  rw [Layouts.key_eq hbuild]
  split
  · exact Layout.yields_nothing _ _ _
  · exact hr.coherent.yields_read .key r.config.maxDepth he hbuild

/-- Whatever the bytes are, the type admits the value that they are read as. -/
theorem Sound.admits_of_deserialize (hr : r.Sound) {bytes : List UInt8} {v : Value}
    (hok : r.deserialize h bytes = .ok v) : r.Admits .declared h v := by
  obtain ⟨l, hl, hdecode⟩ := except_bind_eq_ok.mp hok
  obtain ⟨order, last, -, hread⟩ := Sample.decode_eq_ok.mp hdecode
  exact (hr.yields_sampleLayout hl (Sample.room_opened order bytes) hread).1

theorem Sound.admitsKey_of_deserializeKey (hr : r.Sound) {bytes : List UInt8} {v : Value}
    (hok : r.deserializeKey h bytes = .ok v) : r.AdmitsKey .declared h v := by
  obtain ⟨l, hl, hdecode⟩ := except_bind_eq_ok.mp hok
  obtain ⟨last, hread⟩ := Key.decode_eq_ok.mp hdecode
  exact (hr.yields_keyLayout hl (Key.room_opened bytes) hread).1

end Registry

end Cdr
