import Cdr.Proofs.Formatting
import Cdr.Proofs.Readers
import Cdr.Proofs.Uniform

/-! How a reader gets from the number of a tag to a case.  A label selects its case, whose payload
is read next.  Every other number that fits in a label selects the default case, also one that is
no value of the type of the tag: the reader does not ask for that.  A number that fits in no label
is refused, also one that is a value of the type. -/

namespace Cdr

namespace Layout

variable {w : CountWidth} {follow : Reference → Coding Value}

/-- Reads the payload of the case that a tag has selected, unless only the tag is laid out. -/
def readPayload (w : CountWidth) (follow : Reference → Coding Value) (tagOnly : Bool)
    (selected : Option Label) (content : Layout) : Coding Value :=
  if tagOnly then return .union selected .null
  else return .union selected (← readWith w follow content)

/-- Reads what lies behind a tag that selects none of the cases. -/
def readUnlabelled (w : CountWidth) (follow : Reference → Coding Value) (u : UnionLayout Layout)
    (number : Int) : Coding Value :=
  match u.fallback with
  | some f => readPayload w follow u.tagOnly none f.content
  | none =>
    Coding.fail (.invalidData s!"union '{u.name}'"
      s!"discriminator {number} selects no case and there is no default")

/-- Reads what lies behind a tag of the given number. -/
def readTagged (w : CountWidth) (follow : Reference → Coding Value) (u : UnionLayout Layout)
    (number : Int) : Coding Value :=
  match Label.ofInt? number with
  | none => Coding.fail (.invalidData "union discriminator" s!"{number} out of range")
  | some label =>
    match u.cases.find? (·.labels.contains label) with
    | some c => readPayload w follow u.tagOnly (some label) c.content
    | none => readUnlabelled w follow u number

/-- A union is read as the number of its tag and what that number leads to. -/
theorem readWith_union_eq (u : UnionLayout Layout) {t : IntegerType}
    (ht : u.discriminator.tagType? = some t) :
    readWith w follow (.union u) = (do
      Coding.skipTo (unionAlignment w u)
      let bits ← Coding.takeWord t.size
      readTagged w follow u (t.ofBits bits)) := by
  obtain ⟨name, d, cases, fallback, tagOnly⟩ := u
  rw [readWith, Discriminator.read, ht]
  simp only [bind_assoc, readCase_eq]
  congr 1
  funext _
  congr 1
  funext bits
  unfold readTagged
  cases hlabel : Label.ofInt? (t.ofBits bits) with
  | none => rfl
  | some label =>
    rw [← Discriminator.toInt_of_ofInt? hlabel]
    simp only [pure_bind, readUnlabelled]
    cases cases.find? (·.labels.contains label) with
    | some c => cases tagOnly <;> rfl
    | none =>
      cases fallback with
      | none => rfl
      | some f => cases tagOnly <;> rfl

variable {u : UnionLayout Layout} {number : Int}

/-- A number that is too great for a label is refused. -/
theorem readTagged_of_great (h : 2 ^ 63 ≤ number) :
    readTagged w follow u number =
      Coding.fail (.invalidData "union discriminator" s!"{number} out of range") := by
  have hnone : Label.ofInt? number = none := if_neg (by omega)
  rw [readTagged, hnone]

theorem readTagged_of_label {label : Label} {c : Case Layout}
    (hfound : u.cases.find? (·.labels.contains label) = some c) :
    readTagged w follow u label.toInt =
      readPayload w follow u.tagOnly (some label) c.content := by
  rw [readTagged, Discriminator.ofInt?_toInt]
  simp only [hfound]

theorem readTagged_of_no_label (hlow : -2 ^ 63 ≤ number) (hhigh : number < 2 ^ 63)
    (hnone : ∀ c ∈ u.cases, ∀ label ∈ c.labels, label.toInt ≠ number) :
    readTagged w follow u number = readUnlabelled w follow u number := by
  obtain ⟨label, hlabel⟩ :=
    Option.isSome_iff_exists.mp (Discriminator.isSome_ofInt?.mpr ⟨hlow, hhigh⟩)
  have hfound : u.cases.find? (·.labels.contains label) = none := by
    apply List.find?_eq_none.mpr
    intro c hc hmem
    exact hnone c hc label (by simpa using hmem) (Discriminator.toInt_of_ofInt? hlabel)
  rw [readTagged, hlabel]
  simp only [hfound]

end Layout

theorem mem_upward {least greatest n : Int} :
    n ∈ upward least greatest ↔ least ≤ n ∧ n ≤ greatest := by
  rw [List.mem_iff_getElem?]
  simp only [getElem?_upward]
  constructor
  · rintro ⟨i, hi⟩
    split at hi
    · cases hi
      omega
    · cases hi
  · rintro ⟨hlow, hhigh⟩
    refine ⟨(n - least).toNat, ?_⟩
    have hn : least + (n - least).toNat = n := by omega
    rw [hn, if_pos hhigh]

namespace Site

variable {s : Site} {role : Role} {d : Discriminator}

theorem fresh_of_checkLabels {name : String} {labels seen out : List Label}
    (h : s.checkLabels d name seen labels = .ok out) : ∀ l ∈ labels, l ∉ seen := by
  induction labels generalizing seen with
  | nil => exact fun _ hl => nomatch hl
  | cons label rest ih =>
    rw [checkLabels] at h
    split at h
    · cases h
    split at h
    · cases h
    rename_i hnew
    refine List.forall_mem_cons.mpr ⟨hnew, fun l hl hseen => ?_⟩
    exact ih h l hl (List.mem_cons_of_mem _ hseen)

theorem fresh_of_checkCases {cases : List (Case Shape)} {seen out : List Label}
    (h : s.checkCases d seen cases = .ok out) : ∀ c ∈ cases, ∀ l ∈ c.labels, l ∉ seen := by
  induction cases generalizing seen with
  | nil => exact fun _ hc => nomatch hc
  | cons c cases ih =>
    obtain ⟨mid, hlabels, hcases⟩ := checkCases_cons_eq_ok h
    refine List.forall_mem_cons.mpr ⟨fresh_of_checkLabels hlabels, fun c' hc' l hl hseen => ?_⟩
    exact ih hcases c' hc' l hl ((checkLabels_eq_ok hlabels).1 hseen)

/-- Every case is the first one with its labels, because no label stands twice. -/
theorem find?_layoutCases {cases : List (Case Shape)} {layouts : List (Case Layout)}
    {seen out : List Label} (hcheck : s.checkCases d seen cases = .ok out)
    (hlayouts : s.layoutCases role cases = .ok layouts) {c : Case Shape} (hc : c ∈ cases) :
    ∃ content, s.layout role c.content = .ok content ∧ ∀ label ∈ c.labels,
      layouts.find? (·.labels.contains label) = some ⟨c.name, c.labels, content⟩ := by
  induction cases generalizing seen layouts with
  | nil => cases hc
  | cons c' cases ih =>
    obtain ⟨name, labels, shape⟩ := c'
    obtain ⟨mid, hlabels, hrest⟩ := checkCases_cons_eq_ok hcheck
    obtain ⟨inner, rest, hinner, hrestLayouts, rfl⟩ := layoutCases_cons hlayouts
    rcases List.mem_cons.mp hc with rfl | htail
    · exact ⟨inner, hinner, fun label hlabel => by simp [hlabel]⟩
    · obtain ⟨content, hcontent, hfound⟩ := ih hrest hrestLayouts htail
      refine ⟨content, hcontent, fun label hlabel => ?_⟩
      have hother : label ∉ labels := fun hmem =>
        fresh_of_checkCases hrest c htail label hlabel ((checkLabels_eq_ok hlabels).2 hmem)
      rw [List.find?_cons_of_neg (by simpa using hother)]
      exact hfound label hlabel

/-- The labels that a discriminator can hold are the numbers that its shape stands for. -/
theorem contains_iff_mem_tagNumbers {lookup : String → Option Declaration}
    (hlookup : ∀ name id d, s.resolve name = some (id, d) → lookup name = some d) {shape : Shape}
    (h : s.discriminator shape = .ok d) {label : Label} :
    d.contains label = true ↔ label.toInt ∈ shape.tagNumbers lookup := by
  have hordinals : ∀ name enumerators, (Discriminator.enumeration name enumerators).contains label =
      true ↔ label.toInt ∈ ordinals enumerators := by
    intro name enumerators
    simp [Discriminator.contains, ordinals]
  obtain ⟨p, rfl, hp, rfl⟩ | ⟨enumerators, rfl, rfl⟩ | ⟨name, id, declaration, rfl, hfound, rfl⟩ :=
    discriminator_eq_ok h
  · cases p with
    | bool =>
      simp only [Discriminator.contains, Shape.tagNumbers, mem_upward, Bool.or_eq_true, beq_iff_eq]
      omega
    | char => simp [Discriminator.contains, Shape.tagNumbers, mem_upward]
    | integer t =>
      rw [Discriminator.contains, Shape.tagNumbers, mem_upward]
      exact decide_eq_true_iff
    | float32 | float64 => cases hp
  · exact hordinals _ enumerators
  · rw [Shape.tagNumbers, hlookup name id declaration hfound]
    exact hordinals _ declaration.enumerators

theorem isDiscriminator_of_primitive {p : Primitive} (h : s.discriminator (.primitive p) = .ok d) :
    p.isDiscriminator = true := by
  obtain ⟨_, ⟨⟩, hp, -⟩ | ⟨_, ⟨⟩, -⟩ | ⟨_, _, _, ⟨⟩, -⟩ := discriminator_eq_ok h
  exact hp

/-- The number of a tag is a value of its type, unless it is a byte for a bool or four bytes for an
ordinal, which can also be numbers that stand for nothing. -/
theorem mem_tagNumbers_of_holds (lookup : String → Option Declaration) {p : Primitive}
    (hp : p.isDiscriminator = true) (hbool : p ≠ .bool) {n : Int}
    (hn : (Shape.primitive p).tagType.Holds n) : n ∈ (Shape.primitive p).tagNumbers lookup := by
  cases p with
  | bool => exact absurd rfl hbool
  | char => exact mem_upward.mpr hn
  | integer t => exact mem_upward.mpr hn
  | float32 | float64 => cases hp

/-- No number of an integer type is too small for a label. -/
theorem low_of_holds {t : IntegerType} {n : Int} (h : t.Holds n) : -2 ^ 63 ≤ n := by
  have hleast : -2 ^ 63 ≤ t.least := by cases t <;> decide
  exact hleast.trans h.1

/-- What the build of a union has built, with or without a default case. -/
structure Builds (s : Site) (role : Role) (u : UnionOf Shape) (built : UnionLayout Layout) :
    Prop where
  name : built.name = s.typeName
  tagOnly : built.tagOnly = (role == .key && u.keyedByLabel)
  discriminator : s.discriminator u.discriminator = .ok built.discriminator
  labels : ∃ labels, s.checkCases built.discriminator [] u.cases = .ok labels
  cases : s.layoutCases role u.cases = .ok built.cases
  fallback : Option.Rel (fun f g => s.layout role f.content = .ok g.content) u.fallback
    built.fallback

theorem layout_union {u : UnionOf Shape} {l : Layout} (h : s.layout role (.union u) = .ok l) :
    ∃ built, l = .union built ∧ s.Builds role u built := by
  obtain ⟨discriminator, cases, fallback, keyed⟩ := u
  cases fallback with
  | none =>
    obtain ⟨d, labels, layouts, hd, hlabels, hlayouts, rfl⟩ := layout_union_none h
    exact ⟨_, rfl, rfl, rfl, hd, ⟨labels, hlabels⟩, hlayouts, .none⟩
  | some f =>
    obtain ⟨d, labels, layouts, sentinel, inner, hd, hlabels, hlayouts, -, hinner, rfl⟩ :=
      layout_union_some h
    exact ⟨_, rfl, rfl, rfl, hd, ⟨labels, hlabels⟩, hlayouts, .some hinner⟩

namespace Builds

variable {u : UnionOf Shape} {built : UnionLayout Layout}

/-- A number that is no label of the declared cases is none of the built ones. -/
theorem label_ne (hb : s.Builds role u built) {n : Int} (h : n ∉ caseNumbers u.cases) :
    ∀ c ∈ built.cases, ∀ label ∈ c.labels, label.toInt ≠ n := by
  intro c hc label hlabel heq
  have hmem : c.labels ∈ u.cases.map (·.labels) := by
    rw [← labels_layoutCases hb.cases]
    exact List.mem_map_of_mem hc
  obtain ⟨c', hc', hsame⟩ := List.mem_map.mp hmem
  apply h
  exact List.mem_flatMap.mpr ⟨c', hc', List.mem_map.mpr ⟨label, hsame ▸ hlabel, heq⟩⟩

theorem readUnlabelled (hb : s.Builds role u built) (w : CountWidth)
    (follow : Reference → Coding Value) (n : Int) :
    match u.fallback with
    | some f => ∃ content, s.layout role f.content = .ok content ∧
        Layout.readUnlabelled w follow built n =
          content.readPayload w follow built.tagOnly none
    | none => Layout.readUnlabelled w follow built n =
        Coding.fail (.invalidData s!"union '{s.typeName}'"
          s!"discriminator {n} selects no case and there is no default") := by
  have hfallback := hb.fallback
  rw [Layout.readUnlabelled, hb.name]
  generalize u.fallback = declared at hfallback ⊢
  generalize built.fallback = laidOut at hfallback ⊢
  cases hfallback with
  | none => rfl
  | some hcontent => exact ⟨_, hcontent, rfl⟩

end Builds

/-- How a union is read that is built from a declared one.  The labels are values of the type of the
tag, and each of them leads to the payload of its case and is given back.  A number that is no label
leads to the default case, if there is one, whether it is a value of the type of the tag or not, as
the byte of a bool and an ordinal need not be.  But a number from 2 ^ 63 on is refused. -/
theorem readWith_by_tag {u : UnionOf Shape} {l : Layout}
    (h : s.layout role (.union u) = .ok l) {lookup : String → Option Declaration}
    (hlookup : ∀ name id d, s.resolve name = some (id, d) → lookup name = some d)
    (w : CountWidth) (follow : Reference → Coding Value) :
    let t := u.discriminator.tagType
    let tagOnly := role == .key && u.keyedByLabel
    ∃ read : Int → Coding Value,
      l.readWith w follow = (do
        Coding.skipTo (l.alignment w)
        let bits ← Coding.takeWord t.size
        read (t.ofBits bits)) ∧
      (∀ c ∈ u.cases, ∃ content, s.layout role c.content = .ok content ∧ ∀ label ∈ c.labels,
        label.toInt ∈ u.discriminator.tagNumbers lookup ∧
          read label.toInt = content.readPayload w follow tagOnly (some label)) ∧
      (∀ p, u.discriminator = .primitive p → p ≠ .bool → ∀ n, t.Holds n →
        n ∈ u.discriminator.tagNumbers lookup) ∧
      (∀ n, t.Holds n → n ∉ caseNumbers u.cases → n < 2 ^ 63 →
        match u.fallback with
        | some f => ∃ content, s.layout role f.content = .ok content ∧
          read n = content.readPayload w follow tagOnly none
        | none => read n = Coding.fail (.invalidData s!"union '{s.typeName}'"
            s!"discriminator {n} selects no case and there is no default")) ∧
      ∀ n, 2 ^ 63 ≤ n →
        read n = Coding.fail (.invalidData "union discriminator" s!"{n} out of range") := by
  intro t tagOnly
  obtain ⟨built, rfl, hb⟩ := layout_union h
  obtain ⟨labels, hlabels⟩ := hb.labels
  refine ⟨Layout.readTagged w follow built,
    Layout.readWith_union_eq built (tagType?_of_discriminator hb.discriminator),
    fun c hc => ?_, fun p hp hbool n hn => ?_, fun n hn hnone hhigh => ?_,
    fun n hn => Layout.readTagged_of_great hn⟩
  · obtain ⟨content, hcontent, hfound⟩ := find?_layoutCases hlabels hb.cases hc
    refine ⟨content, hcontent, fun label hlabel => ⟨?_, ?_⟩⟩
    · apply (contains_iff_mem_tagNumbers hlookup hb.discriminator).mp
      exact contains_of_checkCases hlabels c hc label hlabel
    · rw [Layout.readTagged_of_label (hfound label hlabel), hb.tagOnly]
  · have hfit := isDiscriminator_of_primitive (hp ▸ hb.discriminator)
    rw [show t = (Shape.primitive p).tagType from congrArg Shape.tagType hp] at hn
    rw [hp]
    exact mem_tagNumbers_of_holds lookup hfit hbool hn
  · rw [Layout.readTagged_of_no_label (low_of_holds hn) hhigh (hb.label_ne hnone)]
    have hread := hb.readUnlabelled w follow n
    rwa [hb.tagOnly] at hread

/-- A union over a bool that has a label for true. -/
def lamp : UnionOf Shape :=
  ⟨.primitive .bool, [⟨"on", [1], .primitive .bool⟩], some ⟨"off", .primitive .bool⟩, false⟩

/-- The byte for true leads to the case, and the byte 2, which is no bool, to the default case. -/
theorem readWith_by_tag_lamp :
    let s : Site := ⟨fun _ => none, "Lamp"⟩
    let follow (_ : Reference) : Coding Value := Coding.fail (.other "no types")
    ∃ (l content : Layout) (read : Int → Coding Value), s.layout .full (.union lamp) = .ok l ∧
      content = .primitive .bool ∧
      l.readWith .u16 follow = (do
        Coding.skipTo (l.alignment .u16)
        let bits ← Coding.takeWord 1
        read (IntegerType.uint8.ofBits bits)) ∧
      read 1 = content.readPayload .u16 follow false (some 1) ∧
      2 ∉ lamp.discriminator.tagNumbers (fun _ => none) ∧
      read 2 = content.readPayload .u16 follow false none := by
  intro s follow
  have hl : s.layout .full (.union lamp) = .ok
      (.union ⟨"Lamp", .primitive .bool, [⟨"on", [1], .primitive .bool⟩],
        some ⟨"off", 0, .primitive .bool⟩, false⟩) := rfl
  have hlookup : ∀ name id d, s.resolve name = some (id, d) →
      (fun _ => none : String → Option Declaration) name = some d := nofun
  obtain ⟨read, hread, hcases, -, hother, -⟩ := readWith_by_tag hl hlookup .u16 follow
  obtain ⟨content, hcontent, hon⟩ := hcases _ List.mem_cons_self
  cases hcontent
  obtain ⟨content, hcontent, hoff⟩ := hother 2 (by decide) (by decide) (by decide)
  cases hcontent
  exact ⟨_, _, read, hl, rfl, hread, (hon 1 List.mem_cons_self).2, by decide, hoff⟩

end Site

namespace Registry

/-- The sample of a union is decoded by the number of its tag. -/
theorem deserialize_of_tag {r : Registry} {h : Handle} {u : UnionLayout Layout} {t : IntegerType}
    {w : CountWidth} (hl : r.sampleLayout h = .ok (.union u))
    (ht : u.discriminator.tagType? = some t) (hw : r.config.countWidth = w) :
    ∃ follow, ∀ bytes order, Sample.headerOrder bytes = .ok order →
      r.deserialize h bytes = Coding.outcome (do
        Coding.skipTo (Layout.unionAlignment w u)
        let bits ← Coding.takeWord t.size
        Layout.readTagged w follow u (t.ofBits bits)) (Sample.opened order bytes) := by
  subst hw
  have hread : ∃ follow, r.context.read (.union u) =
      Layout.readWith r.config.countWidth follow (.union u) := by
    rw [Context.read]
    cases r.context.maxDepth <;> exact ⟨_, rfl⟩
  obtain ⟨follow, hread⟩ := hread
  refine ⟨follow, fun bytes order horder => ?_⟩
  rw [deserialize_of_sampleLayout hl, Sample.decode_of_headerOrder horder, hread,
    Layout.readWith_union_eq u ht, Coding.outcome]
  split <;> simp only [*]

/-- A union over an enumeration. -/
def gear : UnionOf Shape :=
  ⟨.enumeration [⟨"UP", 0⟩, ⟨"DOWN", 1⟩], [⟨"up", [0], .primitive .bool⟩],
    some ⟨"down", .primitive .bool⟩, false⟩

/-- A union over the numbers of eight bytes. -/
def meter : UnionOf Shape :=
  ⟨.primitive (.integer .uint64), [⟨"zero", [0], .primitive .bool⟩],
    some ⟨"reading", .primitive .bool⟩, false⟩

/-- A byte that is no bool and an ordinal that no enumerator has lead to the default case, and the
number 2 ^ 63, which is one of eight bytes and no label, does not. -/
theorem deserialize_foreign_tags :
    let r := after { } [.register { name := "Lamp", body := .union Site.lamp },
      .register { name := "Gear", body := .union gear },
      .register { name := "Meter", body := .union meter }]
    2 ∉ Site.lamp.discriminator.tagNumbers r.catalog.declared? ∧
      r.deserialize ⟨0, "Lamp"⟩ [0, 1, 0, 0, 2, 1] = .ok (.union none (.bool true)) ∧
      9 ∉ gear.discriminator.tagNumbers r.catalog.declared? ∧
      r.deserialize ⟨1, "Gear"⟩ [0, 1, 0, 0, 9, 0, 0, 0, 1] = .ok (.union none (.bool true)) ∧
      2 ^ 63 ∈ meter.discriminator.tagNumbers r.catalog.declared? ∧
      2 ^ 63 ∉ caseNumbers meter.cases ∧
      r.deserialize ⟨2, "Meter"⟩ [0, 1, 0, 0, 0, 0, 0, 0, 0, 0, 0, 0x80, 1] =
        .error (Cause.invalidData "union discriminator" "9223372036854775808 out of range").fault := by
  intro r
  have hlamp : r.sampleLayout ⟨0, "Lamp"⟩ = .ok (.union ⟨"Lamp", .primitive .bool,
    [⟨"on", [1], .primitive .bool⟩], some ⟨"off", 0, .primitive .bool⟩, false⟩) := rfl
  have hgear : r.sampleLayout ⟨1, "Gear"⟩ = .ok (.union
    ⟨"Gear", .enumeration "Gear" [⟨"UP", 0⟩, ⟨"DOWN", 1⟩], [⟨"up", [0], .primitive .bool⟩],
      some ⟨"down", 1, .primitive .bool⟩, false⟩) := rfl
  have hmeter : r.sampleLayout ⟨2, "Meter"⟩ = .ok (.union
    ⟨"Meter", .primitive (.integer .uint64), [⟨"zero", [0], .primitive .bool⟩],
      some ⟨"reading", 1, .primitive .bool⟩, false⟩) := rfl
  have hw : r.config.countWidth = .u16 := rfl
  refine ⟨by decide, ?_, by decide, ?_, mem_upward.mpr (by decide), by decide, ?_⟩
  · obtain ⟨follow, hread⟩ := deserialize_of_tag hlamp rfl hw
    rw [hread _ .little rfl]
    rfl
  · obtain ⟨follow, hread⟩ := deserialize_of_tag hgear rfl hw
    rw [hread _ .little rfl]
    rfl
  · obtain ⟨follow, hread⟩ := deserialize_of_tag hmeter rfl hw
    rw [hread _ .little rfl]
    rfl

end Registry

end Cdr
