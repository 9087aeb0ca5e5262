import Cdr.Proofs.Encoding
import Cdr.Proofs.Format
import Cdr.Proofs.Histories
import Cdr.Proofs.Samples

/-! Samples have the wire format.  Whatever a built layout writes is the image of the value under
the declaration that it is built from, so a sample is a header, that image and the final padding. -/

namespace Cdr

theorem getElem?_upward (least greatest : Int) (i : Nat) :
    (upward least greatest)[i]? = if least + i ≤ greatest then some (least + i) else none := by
  unfold upward
  rw [List.getElem?_map]
  by_cases hi : least + i ≤ greatest
  · rw [List.getElem?_range' (by omega), if_pos hi]
    simp
  · rw [List.getElem?_eq_none (by rw [List.length_range']; omega), if_neg hi]
    rfl

namespace Discriminator

/-- The candidates of a discriminator are the labels among the numbers, and none of the numbers in
front of a label is too great or too small for one. -/
structure Counts (d : Discriminator) (numbers : List Int) : Prop where
  candidate : ∀ i, d.candidate? i = numbers[i]?.bind Label.ofInt?
  before : ∀ (i j : Nat) (x y : Int), j ≤ i → numbers[i]? = some x → (Label.ofInt? x).isSome →
    numbers[j]? = some y → (Label.ofInt? y).isSome

theorem isSome_ofInt? {n : Int} : (Label.ofInt? n).isSome ↔ -2 ^ 63 ≤ n ∧ n < 2 ^ 63 := by
  unfold Label.ofInt?
  split <;> simp_all

theorem toInt_of_ofInt? {n : Int} {label : Label} (h : Label.ofInt? n = some label) :
    label.toInt = n := by
  unfold Label.ofInt? at h
  split at h
  · rename_i hrange
    cases h
    exact Int64.toInt_ofInt_of_le hrange.1 hrange.2
  · cases h

theorem before_upward {least greatest : Int} (hleast : -2 ^ 63 ≤ least) (i j : Nat) (x y : Int)
    (hij : j ≤ i) (hx : (upward least greatest)[i]? = some x) (hlabel : (Label.ofInt? x).isSome)
    (hy : (upward least greatest)[j]? = some y) : (Label.ofInt? y).isSome := by
  rw [getElem?_upward] at hx hy
  rw [isSome_ofInt?] at hlabel ⊢
  split at hx <;> split at hy <;> cases hx <;> cases hy
  omega

theorem counts_primitive {p : Primitive} (hp : p.isDiscriminator = true)
    (lookup : String → Option Declaration) :
    (primitive p).Counts ((Shape.primitive p).tagNumbers lookup) := by
  have hrange : ∀ least greatest i,
      inRange? least greatest i = (upward least greatest)[i]?.bind Label.ofInt? := by
    intro least greatest i
    rw [getElem?_upward, inRange?]
    split <;> rfl
  cases p with
  | bool => exact ⟨hrange 0 1, before_upward (by decide)⟩
  | char => exact ⟨hrange 0 255, before_upward (by decide)⟩
  | integer t => exact ⟨hrange t.least t.greatest, before_upward (by cases t <;> decide)⟩
  | float32 | float64 => cases hp

theorem counts_enumeration (name : String) (enumerators : List Enumerator) :
    (enumeration name enumerators).Counts (ordinals enumerators) := by
  have hlabel : ∀ e : Enumerator,
      Label.ofInt? e.ordinal.toNat = some (Int64.ofInt e.ordinal.toNat) := by
    intro e
    have hlt := e.ordinal.toNat_lt
    exact if_pos (by omega)
  constructor
  · intro i
    simp only [candidate?, ordinals, List.getElem?_map]
    cases enumerators[i]? with
    | none => rfl
    | some e => rw [Option.map_some, Option.map_some, Option.bind_some, hlabel]
  · intro i j x y _ _ _ hy
    simp only [ordinals, List.getElem?_map, Option.map_eq_some_iff] at hy
    obtain ⟨e, -, rfl⟩ := hy
    rw [hlabel]
    rfl

/-- The tag of the default case is the first number that is none of the labels. -/
theorem Counts.find?_of_sentinel? {d : Discriminator} {numbers : List Int} (h : d.Counts numbers)
    {labels : List Label} {label : Label} (hlabel : d.sentinel? labels = some label) :
    numbers.find? (fun n => !(labels.map (·.toInt)).contains n) = some label.toInt := by
  rw [sentinel?, candidates, List.find?_filterMap, Option.bind_eq_some_iff] at hlabel
  obtain ⟨i, hfound, hcandidate⟩ := hlabel
  obtain ⟨hfree, -, hbefore⟩ := List.find?_range_eq_some.mp hfound
  rw [hcandidate] at hfree
  have hmem : ∀ l : Label, (labels.map (·.toInt)).contains l.toInt = labels.contains l := by
    intro l
    rw [Bool.eq_iff_iff, List.contains_iff_mem, List.contains_iff_mem,
      List.mem_map_of_injective (fun _ _ => Int64.toInt_inj.mp)]
  rw [h.candidate, Option.bind_eq_some_iff] at hcandidate
  obtain ⟨x, hx, hofInt⟩ := hcandidate
  obtain rfl := toInt_of_ofInt? hofInt
  obtain ⟨hlt, hget⟩ := List.getElem?_eq_some_iff.mp hx
  refine List.find?_eq_some_iff_getElem.mpr ⟨?_, i, hlt, hget, fun j hj => ?_⟩
  · rw [hmem]
    exact hfree
  -- A number in front of it can be a label too, so it was a candidate and is one of the labels.
  · have hy : numbers[j]? = some numbers[j] := List.getElem?_eq_getElem (by omega)
    obtain ⟨l, hl⟩ := Option.isSome_iff_exists.mp
      (h.before i j _ _ (Nat.le_of_lt hj) hx (by rw [hofInt]; rfl) hy)
    have hused := hbefore j hj
    rw [h.candidate, hy, Option.bind_some, hl] at hused
    rw [← toInt_of_ofInt? hl, hmem]
    exact hused

end Discriminator

namespace Site

variable {s : Site} {w : CountWidth} {lookup : String → Option Declaration}

/-- The labels that come out of the check are those that came before and those that are checked. -/
theorem mem_of_checkLabels {d : Discriminator} {name : String} {labels seen out : List Label}
    (h : s.checkLabels d name seen labels = .ok out) (l : Label) :
    l ∈ out ↔ l ∈ seen ∨ l ∈ labels := by
  induction labels generalizing seen with
  | nil =>
    cases h
    simp
  | cons label rest ih =>
    rw [checkLabels] at h
    split at h
    · cases h
    split at h
    · cases h
    rw [ih h, List.mem_cons, List.mem_cons]
    tauto

theorem mem_of_checkCases {d : Discriminator} {cases : List (Case Shape)} {seen out : List Label}
    (h : s.checkCases d seen cases = .ok out) (l : Label) :
    l ∈ out ↔ l ∈ seen ∨ ∃ c ∈ cases, l ∈ c.labels := by
  induction cases generalizing seen with
  | nil =>
    cases h
    simp
  | cons c cases ih =>
    obtain ⟨mid, hlabels, hcases⟩ := checkCases_cons_eq_ok h
    rw [ih hcases, mem_of_checkLabels hlabels]
    simp [or_assoc]

/-- A discriminator is given by a primitive shape or by the enumerators of an enumeration, declared
in place or under a name. -/
theorem discriminator_eq_ok {shape : Shape} {d : Discriminator}
    (h : s.discriminator shape = .ok d) :
    (∃ p, shape = .primitive p ∧ p.isDiscriminator = true ∧ d = .primitive p) ∨
      (∃ enumerators, shape = .enumeration enumerators ∧
        d = .enumeration s.typeName enumerators) ∨
      ∃ name id declaration, shape = .named name ∧ s.resolve name = some (id, declaration) ∧
        d = .enumeration name declaration.enumerators := by
  unfold discriminator at h
  cases shape with
  | primitive p =>
    simp only at h
    split at h
    · rename_i hp
      cases h
      exact Or.inl ⟨p, rfl, hp, rfl⟩
    · cases h
  | enumeration enumerators =>
    obtain ⟨_, -, h⟩ := except_bind_eq_ok.mp h
    cases h
    exact Or.inr (Or.inl ⟨enumerators, rfl, rfl⟩)
  | named name =>
    obtain ⟨⟨id, declaration⟩, hfound, h⟩ := except_bind_eq_ok.mp h
    simp only at h
    split at h
    · rename_i enumerators hbody
      obtain ⟨_, -, h⟩ := except_bind_eq_ok.mp h
      cases h
      refine Or.inr (Or.inr ⟨name, id, declaration, rfl, lookup_eq_ok hfound, ?_⟩)
      rw [Declaration.enumerators, hbody]
    · cases h
  | _ => cases h

/-- The tags of a discriminator are numbers of the type of the shape. -/
theorem tagType?_of_discriminator {shape : Shape} {d : Discriminator}
    (h : s.discriminator shape = .ok d) : d.tagType? = some shape.tagType := by
  rcases discriminator_eq_ok h with ⟨p, rfl, hp, rfl⟩ | ⟨_, rfl, rfl⟩ | ⟨_, _, _, rfl, -, rfl⟩
  · cases p <;> first | rfl | cases hp
  · rfl
  · rfl

theorem alignment_of_discriminator {shape : Shape} {d : Discriminator}
    (h : s.discriminator shape = .ok d) : d.alignment = shape.tagType.size := by
  rcases discriminator_eq_ok h with ⟨p, rfl, hp, rfl⟩ | ⟨_, rfl, rfl⟩ | ⟨_, _, _, rfl, -, rfl⟩
  · cases p <;> first | rfl | cases hp
  · rfl
  · rfl

theorem counts_of_discriminator
    (hlookup : ∀ name id d, s.resolve name = some (id, d) → lookup name = some d)
    {shape : Shape} {d : Discriminator} (h : s.discriminator shape = .ok d) :
    d.Counts (shape.tagNumbers lookup) := by
  rcases discriminator_eq_ok h with ⟨p, rfl, hp, rfl⟩ | ⟨enumerators, rfl, rfl⟩ |
    ⟨name, id, declaration, rfl, hfound, rfl⟩
  · exact Discriminator.counts_primitive hp lookup
  · exact Discriminator.counts_enumeration _ enumerators
  · rw [Shape.tagNumbers, hlookup name id declaration hfound]
    exact Discriminator.counts_enumeration _ declaration.enumerators

/-- The tag of the default case stands for the first number that is no label. -/
theorem freeTag?_of_sentinel
    (hlookup : ∀ name id d, s.resolve name = some (id, d) → lookup name = some d)
    {shape : Shape} {d : Discriminator} {cases : List (Case Shape)} {labels : List Label}
    {label : Label} (hd : s.discriminator shape = .ok d)
    (hlabels : s.checkCases d [] cases = .ok labels) (h : s.sentinel d labels = .ok label) :
    freeTag? lookup shape cases = some label.toInt := by
  have hsame : ∀ n, (labels.map (·.toInt)).contains n = (caseNumbers cases).contains n := by
    intro n
    rw [Bool.eq_iff_iff, List.contains_iff_mem, List.contains_iff_mem]
    simp only [caseNumbers, List.mem_map, List.mem_flatMap, mem_of_checkCases hlabels,
      List.not_mem_nil, false_or]
    constructor
    · rintro ⟨l, ⟨c, hc, hl⟩, hn⟩
      exact ⟨c, hc, l, hl, hn⟩
    · rintro ⟨c, hc, l, hl, hn⟩
      exact ⟨l, ⟨c, hc, hl⟩, hn⟩
  unfold sentinel at h
  split at h
  · rename_i found hfound
    cases h
    have hfind := (counts_of_discriminator hlookup hd).find?_of_sentinel? hfound
    simp only [hsame] at hfind
    exact hfind
  · cases h

mutual

/-- A layout is aligned as the shape that it is built from. -/
theorem alignment_layout {role : Role} {shape : Shape} {l : Layout}
    (h : s.layout role shape = .ok l) : l.alignment w = shape.alignment w := by
  match shape with
  | .primitive _ | .string _ | .bytes _ =>
    cases h
    rfl
  | .array element _ =>
    obtain ⟨inner, hinner, rfl⟩ := layout_array h
    exact (alignment_layout hinner :)
  | .sequence element _ =>
    obtain ⟨inner, -, rfl⟩ := layout_sequence h
    rfl
  | .optional element =>
    obtain ⟨inner, -, rfl⟩ := layout_optional h
    rfl
  | .map key value _ =>
    obtain ⟨k, x, -, -, rfl⟩ := layout_map h
    rfl
  | .enumeration enumerators =>
    obtain ⟨-, rfl⟩ := layout_enumeration h
    rfl
  | .union ⟨discriminator, cases, none, keyed⟩ =>
    obtain ⟨d, labels, layouts, hd, -, hlayouts, rfl⟩ := layout_union_none h
    rw [Layout.alignment, Shape.alignment, alignment_layoutCases hlayouts,
      alignment_of_discriminator hd]
    rfl
  | .union ⟨discriminator, cases, some ⟨name, content⟩, keyed⟩ =>
    obtain ⟨d, labels, layouts, sentinel, inner, hd, -, hlayouts, -, hinner, rfl⟩ :=
      layout_union_some h
    rw [Layout.alignment, Shape.alignment, alignment_layoutCases hlayouts,
      alignment_of_discriminator hd, Layout.fallbackAlignment, Shape.fallbackAlignment,
      alignment_layout hinner]
  | .named name =>
    obtain ⟨id, d, -, rfl⟩ := layout_named h
    rfl
termination_by structural shape

theorem alignment_layoutCases {role : Role} {cases : List (Case Shape)}
    {layouts : List (Case Layout)} (h : s.layoutCases role cases = .ok layouts) :
    Layout.casesAlignment w layouts = Shape.casesAlignment w cases := by
  match cases with
  | [] =>
    cases h
    rfl
  | ⟨name, labels, content⟩ :: cases =>
    obtain ⟨inner, rest, hinner, hrest, rfl⟩ := layoutCases_cons h
    rw [Layout.casesAlignment, Shape.casesAlignment, alignment_layout hinner,
      alignment_layoutCases hrest]
termination_by structural cases

end

end Site

/-- The declarations of names, and the images of their values, are those of what is written behind
references. -/
structure Unfolds (resolve : String → Option (Nat × Declaration))
    (lookup : String → Option Declaration) (follow : Reference → Value → Coding Unit)
    (image : String → Value → Image) : Prop where
  declared : ∀ name id d, resolve name = some (id, d) → lookup name = some d
  lays : ∀ target, Resolves resolve .full target →
    ∀ v, Coding.Lays (follow target v) True (image target.name v)

namespace Layout

open Coding

variable {w : CountWidth}

theorem lays_putByte (b : UInt8) : Lays (putByte b) True (Image.raw [b]) := Lays.put [b]

/-- The elements of a collection are laid one behind the other. -/
theorem lays_elements {element : Value → Coding Unit} {image : Value → Image}
    (h : ∀ v, Lays (element v) True (image v)) (i : Nat) (items : List Value) :
    Lays (writeEach element i items) True (wireEach image items) := by
  induction items generalizing i with
  | nil => exact Lays.pure
  | cons v items ih => exact ((h v).inField _).bind fun _ => ih (i + 1)

theorem lays_entries {key value : Value → Coding Unit} {keyImage valueImage : Value → Image}
    (hkey : ∀ v, Lays (key v) True (keyImage v)) (hvalue : ∀ v, Lays (value v) True (valueImage v))
    (i : Nat) (entries : List (Value × Value)) :
    Lays (writeEntries key value i entries) True (wireEntries keyImage valueImage entries) := by
  induction entries generalizing i with
  | nil => exact Lays.pure
  | cons e entries ih =>
    obtain ⟨k, v⟩ := e
    rw [wireEntries_cons, Image.append_assoc]
    exact ((hkey k).inField _).bind fun _ => ((hvalue v).inField _).bind fun _ => ih (i + 1)

end Layout

namespace Site

open Coding

variable {s : Site} {w : CountWidth} {lookup : String → Option Declaration}
  {image : String → Value → Image} {follow : Reference → Value → Coding Unit}

theorem lays_tag {shape : Shape} {d : Discriminator} (h : s.discriminator shape = .ok d)
    (label : Label) : Lays (d.write label) True (shape.tag label.toInt) := by
  rw [Discriminator.write, tagType?_of_discriminator h]
  exact Lays.putWord _ _

mutual

/-- What a layout writes is the image of the value under the shape that it is built from. -/
theorem lays_writeWith (hnames : Unfolds s.resolve lookup follow image)
    {shape : Shape} {l : Layout} (h : s.layout .full shape = .ok l) (v : Value) :
    Lays (l.writeWith w follow v) True (shape.wireWith w lookup image v) := by
  match shape with
  | .primitive p =>
    cases h
    exact (Layout.roundTrips_primitive p v).imp fun _ => trivial
  | .string bound =>
    cases h
    exact (Layout.roundTrips_string bound v).imp fun _ => trivial
  | .bytes bound =>
    cases h
    exact (Layout.roundTrips_bytes bound v).imp fun _ => trivial
  | .array element length =>
    obtain ⟨inner, hinner, rfl⟩ := layout_array h
    cases v with
    | array items =>
      show Lays (if items.length = length.toNat then _ else _) _ _
      split
      · exact Layout.lays_elements (lays_writeWith hnames hinner) 0 items
      · exact Lays.fail
    | _ => exact Lays.fail
  | .sequence element bound =>
    obtain ⟨inner, hinner, rfl⟩ := layout_sequence h
    cases v with
    | array items =>
      have hitems := Layout.lays_elements (lays_writeWith hnames hinner) 0 items
      exact (Layout.lays_checkBound "sequence" items.length bound).bind_nil fun _ =>
        (Layout.lays_writeCount w "sequence" items.length).bind fun _ => hitems
    | _ => exact Lays.fail
  | .map key value bound =>
    obtain ⟨k, x, hk, hx, rfl⟩ := layout_map h
    cases v with
    | map entries =>
      have hentries := Layout.lays_entries (lays_writeWith hnames hk)
        (lays_writeWith hnames hx) 0 entries
      exact (Layout.lays_checkBound "map" entries.length bound).bind_nil fun _ =>
        (Layout.lays_writeCount w "map" entries.length).bind fun _ => hentries
    | _ => exact Lays.fail
  | .enumeration enumerators =>
    obtain ⟨hcheck, rfl⟩ := layout_enumeration h
    exact (Layout.roundTrips_enumerator (Site.distinct_of_checkEnumeration hcheck) _ v).imp
      fun _ => trivial
  | .union ⟨discriminator, cases, none, keyed⟩ =>
    obtain ⟨d, labels, layouts, hd, -, hlayouts, hl⟩ := layout_union_none h
    have halign := alignment_layout (w := w) h
    subst hl
    cases v with
    | union label payload =>
      rw [Layout.writeWith.eq_def, Shape.wireWith.eq_def]
      simp only [Layout.unionAlignment, halign]
      refine (Lays.align _).bind fun _ => ?_
      cases label with
      | none => exact Lays.fail
      | some label => exact lays_writeCase hnames hd hlayouts label payload
    | _ => exact Lays.fail
  | .union ⟨discriminator, cases, some ⟨name, content⟩, keyed⟩ =>
    obtain ⟨d, labels, layouts, sentinel, inner, hd, hlabels, hlayouts, hsentinel, hinner, hl⟩ :=
      layout_union_some h
    have halign := alignment_layout (w := w) h
    subst hl
    cases v with
    | union label payload =>
      rw [Layout.writeWith.eq_def, Shape.wireWith.eq_def]
      simp only [Layout.unionAlignment, halign]
      refine (Lays.align _).bind fun _ => ?_
      cases label with
      | none =>
        have hfree := freeTag?_of_sentinel hnames.declared hd hlabels hsentinel
        have hpayload := (lays_writeWith hnames hinner payload).inField name
        simp only [hfree]
        exact (lays_tag hd sentinel).bind fun _ => hpayload
      | some label => exact lays_writeCase hnames hd hlayouts label payload
    | _ => exact Lays.fail
  | .optional element =>
    obtain ⟨inner, hinner, rfl⟩ := layout_optional h
    have hcontent := lays_writeWith hnames hinner v
    rw [Layout.writeWith, Shape.wireWith]
    split
    · exact Layout.lays_putByte 0
    · exact (Layout.lays_putByte 1).bind fun _ => hcontent
  | .named name =>
    obtain ⟨id, d, hresolve, rfl⟩ := layout_named h
    exact hnames.lays ⟨name, id, .full⟩ ⟨rfl, d, hresolve⟩ v
termination_by structural shape

theorem lays_writeCase (hnames : Unfolds s.resolve lookup follow image)
    {discriminator : Shape} {d : Discriminator} (hd : s.discriminator discriminator = .ok d)
    {cases : List (Case Shape)} {layouts : List (Case Layout)}
    (h : s.layoutCases .full cases = .ok layouts) (label : Label) (payload : Value)
    {cause : Cause} :
    Lays (match Layout.writeCase w follow label payload layouts, d.contains label with
      | some content, true => do
        d.write label
        content
      | _, _ => Coding.fail cause)
      True
      (discriminator.tag label.toInt ++ Shape.wireCase w lookup image label payload cases) := by
  match cases with
  | [] =>
    cases h
    exact Lays.fail
  | ⟨name, labels, content⟩ :: cases =>
    obtain ⟨inner, rest, hinner, hrest, rfl⟩ := layoutCases_cons h
    rw [Layout.writeCase, Shape.wireCase]
    by_cases hlabel : labels.contains label = true
    · rw [if_pos hlabel, if_pos hlabel]
      have hpayload := (lays_writeWith hnames hinner payload).inField name
      cases d.contains label with
      | false => exact Lays.fail
      | true => exact (lays_tag hd label).bind fun _ => hpayload
    · rw [if_neg hlabel, if_neg hlabel]
      exact lays_writeCase hnames hd hrest label payload
termination_by structural cases

end

/-- The members of a struct are laid in the order of their declaration. -/
theorem lays_writeMembers (hnames : Unfolds s.resolve lookup follow image)
    {members : List (Member Shape)} {layouts : List (Member Layout)}
    (h : s.layoutMembers .full members = .ok layouts) (name : String)
    (given : List (String × Value)) :
    Lays (Layout.writeMembers w follow name given layouts) True
      (Declaration.wireMembers w lookup image given members) := by
  induction members generalizing layouts with
  | nil =>
    cases h
    exact Lays.pure
  | cons m members ih =>
    obtain ⟨content, rest, hcontent, hrest, rfl⟩ := layoutMembers_cons h
    rw [Layout.writeMembers, Declaration.wireMembers, List.map_cons, Image.concat]
    cases hfind : Dictionary.find? m.name given with
    | none => exact Lays.fail
    | some v =>
      exact ((lays_writeWith hnames hcontent v).inField m.name).bind fun _ => ih hrest

end Site

theorem Layouts.lays_full {resolve : String → Option (Nat × Declaration)} {d : Declaration}
    {layouts : Layouts} {w : CountWidth} {lookup : String → Option Declaration}
    {image : String → Value → Image} {follow : Reference → Value → Coding Unit}
    (hnames : Unfolds resolve lookup follow image) (h : build resolve d = .ok layouts) (v : Value) :
    Coding.Lays ((layouts.ofRole .full).writeWith w follow v) True
      (d.wireWith w lookup image v) := by
  unfold Declaration.wireWith
  cases hbody : d.body with
  | struct members =>
    obtain ⟨full, key, hfull, -, rfl⟩ := build_struct hbody h
    cases v with
    | struct given => exact Site.lays_writeMembers hnames hfull d.name given
    | _ => exact Coding.Lays.fail
  | union u =>
    obtain ⟨full, key, hfull, -, rfl⟩ := build_union hbody h
    exact Site.lays_writeWith hnames hfull v
  | enumeration enumerators =>
    obtain ⟨hcheck, rfl⟩ := build_enumeration hbody h
    exact (Layout.roundTrips_enumerator (Site.distinct_of_checkEnumeration hcheck) _ v).imp
      fun _ => trivial

namespace Catalog

/-- A built layout lays the image of the value under its declaration.  The image may unfold more
names than the layout may follow. -/
theorem Coherent.lays_write {c : Catalog} (h : c.Coherent []) {w : CountWidth} {budget depth : Nat}
    (hle : budget ≤ depth) {d : Declaration} {layouts : Layouts}
    (hbuild : Layouts.build c.resolve d = .ok layouts) (v : Value) :
    Coding.Lays ((layouts.ofRole .full).write c.layout w budget v) True
      (d.wireWith w c.declared? (c.wireNamed w depth) v) := by
  have hdeclared : ∀ name id d, c.resolve name = some (id, d) → c.declared? name = some d :=
    fun name id d hresolve => by rw [declared?, hresolve, Option.map_some]
  induction budget generalizing depth d layouts v with
  | zero => exact Layouts.lays_full ⟨hdeclared, fun _ _ _ => Coding.Lays.fail⟩ hbuild v
  | succ budget ih =>
    obtain ⟨depth, rfl⟩ := Nat.exists_eq_add_of_lt hle
    refine Layouts.lays_full ⟨hdeclared, fun target hgood v => ?_⟩ hbuild v
    cases hlayout : c.layout target.id target.role with
    | error fault =>
      rintro b b' - ⟨⟩
    | ok l =>
      obtain ⟨e, layouts', -, hfound, hbuild', rfl⟩ := h.build_of_resolves hgood hlayout
      simp only [wireNamed, hfound]
      exact ih (Nat.le_add_right _ _) hbuild' v

end Catalog

namespace Registry

theorem Sound.lays_sampleLayout {r : Registry} (hr : r.Sound) {h : Handle} {l : Layout}
    (hl : r.sampleLayout h = .ok l) {depth : Nat} (hdepth : r.config.maxDepth ≤ depth) (v : Value) :
    Coding.Lays (r.context.write l v) True (r.wire h depth v) := by
  obtain ⟨e, layouts, -, hdeclared, hbuild, rfl⟩ := hr.build_of_sampleLayout hl
  rw [wire, hdeclared]
  exact hr.coherent.lays_write hdepth hbuild v

/-- The sample of a value is a header, the image of the value under its declared type, and zero
bytes up to the next multiple of four.  The depth that the registry allows is not seen in it. -/
theorem serializeIn_eq_wire {config : Config} {events : List Event} {h : Handle}
    {order : ByteOrder} {v : Value} {bytes : List UInt8} {depth : Nat}
    (hok : (after { config := config } events).serializeIn h order v = .ok bytes)
    (hdepth : config.maxDepth ≤ depth) :
    let image := ((after { config := config } events).wire h depth v).bytes order 0
    bytes = [0, order.headerFlag, 0, 0] ++ image ++ List.replicate (gap 4 image.length) 0 := by
  intro image
  have hr : (after { config := config } events).Steady := steady_after config events
  obtain ⟨l, hl, hencode⟩ := except_bind_eq_ok.mp hok
  obtain ⟨written, hwrite, rfl⟩ := Sample.encode_eq_ok.mp hencode
  have hlays := hr.sound.lays_sampleLayout hl (config_after config events ▸ hdepth) v
  obtain ⟨hlist, hcursor, horigin, hpadded⟩ := Sample.toList_written hlays hwrite
  rw [hpadded, hlist, Buffer.padding_eq_gap, hcursor, horigin, Nat.add_sub_cancel_left]

/-- A type with a tag of one byte, a gap in its labels, and parts that are aligned to eight. -/
def signal : Declaration :=
  { name := "Signal"
    body := .struct
      [⟨"id", .primitive .char⟩,
        ⟨"level", .union ⟨.primitive (.integer .int8),
          [⟨"coarse", [-128, -126], .primitive (.integer .uint8)⟩],
          some ⟨"fine", .primitive (.integer .int64)⟩, false⟩⟩,
        ⟨"next", .optional (.named "Signal")⟩] }

/-- A fine signal before a coarse one. -/
def signals : Value :=
  .struct
    [("id", .char 'x'), ("level", .union none (.integer ⟨.uint8, 11, by decide⟩)),
      ("next", .struct
        [("id", .char 'y'), ("level", .union (some (-126)) (.integer ⟨.int32, 9, by decide⟩)),
          ("next", .null)])]

/-- The default case is marked with -127, the first number that is no label.  Either union stands at
a multiple of eight, though only one of the payloads asks for that. -/
theorem serializeIn_eq_wire_signal :
    let r := after { config := { maxDepth := 1 } } [.register signal]
    let image : List UInt8 :=
      [120, 0, 0, 0, 0, 0, 0, 0, 129, 0, 0, 0, 0, 0, 0, 0, 11, 0, 0, 0, 0, 0, 0, 0, 1,
        121, 0, 0, 0, 0, 0, 0, 130, 9, 0]
    (r.wire ⟨0, "Signal"⟩ 5 signals).bytes .little 0 = image ∧
      r.serializeIn ⟨0, "Signal"⟩ .little signals = .ok ([0, 1, 0, 0] ++ image ++ [0]) := by
  intro r image
  have hwire : (r.wire ⟨0, "Signal"⟩ 5 signals).bytes .little 0 = image := by decide
  obtain ⟨bytes, hok⟩ : ∃ bytes, r.serializeIn ⟨0, "Signal"⟩ .little signals = .ok bytes := ⟨_, rfl⟩
  have hbytes : bytes = [0, 1, 0, 0] ++ image ++ List.replicate (gap 4 image.length) 0 := by
    rw [← hwire]
    exact serializeIn_eq_wire hok (by decide : 1 ≤ 5)
  have hpadding : List.replicate (gap 4 image.length) (0 : UInt8) = [0] := by decide
  rw [hpadding] at hbytes
  exact ⟨hwire, hok.trans (congrArg Except.ok hbytes)⟩

end Registry

end Cdr
