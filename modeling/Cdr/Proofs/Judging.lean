import Cdr.Proofs.Lawful
import Cdr.Proofs.Parts
import Cdr.Proofs.Selecting

/-! Which declared types can be built.  Where all names are registered that a type refers to, the
build of the type succeeds just where the type keeps the rules and leaves room for its default
cases.  The order of the checks has no part in that: a judgement on two steps is the judgement on
both of them. -/

namespace Cdr

/-- The outcome of a step that checks the rules `lawful` and the rule of room `roomy`: it succeeds
where all of them are kept, fails for want of a label where only room is missing, and fails for good
where a rule is broken. -/
structure Judged {α : Type} (typeName : String) (lawful roomy : Prop) (out : Except Obstacle α) :
    Prop where
  built : lawful → roomy → ∃ x, out = .ok x
  exhausted : lawful → ¬ roomy → out = .error (.fatal (Cause.domainExhausted typeName).fault)
  fatal : ¬ lawful → ∃ fault, out = .error (.fatal fault)

namespace Judged

variable {α β : Type} {typeName : String} {lawful roomy lawful' roomy' : Prop}
  {out : Except Obstacle α} {rest : α → Except Obstacle β}

protected theorem ok (x : α) : Judged typeName True True (.ok x) :=
  ⟨fun _ _ => ⟨x, rfl⟩, fun _ h => absurd trivial h, fun h => absurd trivial h⟩

protected theorem fail {fault : Fault} :
    Judged typeName False roomy (.error (.fatal fault) : Except Obstacle α) :=
  ⟨False.elim, False.elim, fun _ => ⟨fault, rfl⟩⟩

theorem iff (h : Judged typeName lawful roomy out) (hlawful : lawful ↔ lawful')
    (hroomy : roomy ↔ roomy') : Judged typeName lawful' roomy' out := by
  rwa [propext hlawful, propext hroomy] at h

/-- The second step is judged only where the first succeeds. -/
protected theorem bind (h : Judged typeName lawful roomy out)
    (hrest : ∀ x, out = .ok x → Judged typeName lawful' roomy' (rest x)) :
    Judged typeName (lawful ∧ lawful') (roomy ∧ roomy') (out >>= rest) := by
  have hstop : ∀ fault, out = .error (.fatal fault) → out >>= rest = .error (.fatal fault) := by
    rintro fault rfl
    rfl
  have hgo : ∀ x, out = .ok x → out >>= rest = rest x := by
    rintro x rfl
    rfl
  refine ⟨fun hl hr => ?_, fun hl hr => ?_, fun hl => ?_⟩
  · obtain ⟨x, hx⟩ := h.built hl.1 hr.1
    rw [hgo x hx]
    exact (hrest x hx).built hl.2 hr.2
  · by_cases hroomy : roomy
    · obtain ⟨x, hx⟩ := h.built hl.1 hroomy
      rw [hgo x hx]
      exact (hrest x hx).exhausted hl.2 fun hr' => hr ⟨hroomy, hr'⟩
    · exact hstop _ (h.exhausted hl.1 hroomy)
  · by_cases hlawful : lawful
    · by_cases hroomy : roomy
      · obtain ⟨x, hx⟩ := h.built hlawful hroomy
        rw [hgo x hx]
        exact (hrest x hx).fatal fun hl' => hl ⟨hlawful, hl'⟩
      · exact ⟨_, hstop _ (h.exhausted hlawful hroomy)⟩
    · obtain ⟨fault, hfault⟩ := h.fatal hlawful
      exact ⟨fault, hstop fault hfault⟩

/-- A step that only wraps what the one before it gives adds nothing to the judgement. -/
theorem map (h : Judged typeName lawful roomy out) (f : α → β) :
    Judged typeName lawful roomy (out >>= fun x => .ok (f x)) :=
  (h.bind fun x _ => Judged.ok (f x)).iff (by simp) (by simp)

/-- The step is not taken where a rule is broken. -/
theorem guard {broken : Prop} [Decidable broken] {fault : Fault} {next : Unit → Except Obstacle β}
    (h : Judged typeName lawful roomy (next ())) :
    Judged typeName (¬ broken ∧ lawful) roomy
      (if broken then (throw (.fatal fault) : Except Obstacle Unit) >>= next else next ()) := by
  split
  · rename_i hbroken
    exact Judged.fail.iff (by simp [hbroken]) Iff.rfl
  · rename_i hkept
    exact h.iff (by simp [hkept]) Iff.rfl

theorem exists_ok_iff (h : Judged typeName lawful roomy out) :
    (∃ x, out = .ok x) ↔ lawful ∧ roomy := by
  constructor
  · rintro ⟨x, hx⟩
    by_cases hlawful : lawful
    · by_cases hroomy : roomy
      · exact ⟨hlawful, hroomy⟩
      · rw [h.exhausted hlawful hroomy] at hx
        cases hx
    · obtain ⟨fault, hfault⟩ := h.fatal hlawful
      rw [hfault] at hx
      cases hx
  · exact fun hboth => h.built hboth.1 hboth.2

theorem ne_awaits (h : Judged typeName lawful roomy out) (name : String) :
    out ≠ .error (.awaits name) := by
  intro hout
  by_cases hlawful : lawful
  · by_cases hroomy : roomy
    · obtain ⟨x, hx⟩ := h.built hlawful hroomy
      rw [hx] at hout
      cases hout
    · rw [h.exhausted hlawful hroomy] at hout
      cases hout
  · obtain ⟨fault, hfault⟩ := h.fatal hlawful
    rw [hfault] at hout
    cases hout

end Judged

namespace Discriminator

/-- A label that a tag can hold and that is no label of the union is found, or another one is. -/
theorem Counts.exists_sentinel? {d : Discriminator} {numbers : List Int} (h : d.Counts numbers)
    (hnodup : numbers.Nodup) {labels : List Label} {label : Label}
    (hmem : label.toInt ∈ numbers) (hfree : label ∉ labels) :
    ∃ found, d.sentinel? labels = some found := by
  rw [← Option.isSome_iff_exists, ← Option.ne_none_iff_isSome]
  intro hnone
  have hused : ∀ i l, i < labels.length + 1 → d.candidate? i = some l → l ∈ labels := by
    intro i l hi hl
    have := List.find?_eq_none.mp hnone l
      (List.mem_filterMap.mpr ⟨i, List.mem_range.mpr hi, hl⟩)
    simpa using this
  obtain ⟨i, hi⟩ := List.getElem?_of_mem hmem
  have hlabel : Label.ofInt? label.toInt = some label := ofInt?_toInt label
  -- The label is not among the first candidates, so as many numbers as there are candidates stand
  -- in front of it.  All of them are labels, which are fewer.
  have hlate : labels.length + 1 ≤ i := by
    by_contra hearly
    refine hfree (hused i label (by omega) ?_)
    rw [h.candidate, hi, Option.bind_some, hlabel]
  have hsub : numbers.take (labels.length + 1) ⊆ labels.map (·.toInt) := by
    intro n hn
    obtain ⟨j, hj, rfl⟩ := List.mem_take_iff_getElem.mp hn
    have hget : numbers[j]? = some numbers[j] := List.getElem?_eq_getElem (by omega)
    obtain ⟨l, hl⟩ := Option.isSome_iff_exists.mp
      (h.before i j _ _ (by omega) hi (by rw [hlabel]; rfl) hget)
    refine List.mem_map.mpr ⟨l, hused j l (by omega) ?_, toInt_of_ofInt? hl⟩
    rw [h.candidate, hget, Option.bind_some, hl]
  have hlength := ((hnodup.sublist (List.take_sublist _ _)).subperm hsub).length_le
  have hlt := (List.getElem?_eq_some_iff.mp hi).1
  rw [List.length_take, List.length_map] at hlength
  omega

end Discriminator

theorem nodup_upward (least greatest : Int) : (upward least greatest).Nodup :=
  (List.nodup_range' 1).map fun i j hij => by omega

theorem Enumerator.Distinct.nodup_ordinals {enumerators : List Enumerator}
    (h : Distinct enumerators) : (Cdr.ordinals enumerators).Nodup := by
  have hmap : Cdr.ordinals enumerators =
      (enumerators.map (·.ordinal)).map fun o => (o.toNat : Int) := by simp [Cdr.ordinals]
  rw [hmap]
  exact h.ordinals.map fun a b hab => UInt32.toNat_inj.mp (by exact_mod_cast hab)

namespace Site

variable {s : Site} {role : Role} {d : Discriminator}

theorem judged_checkEnumerators (names : List String) (ordinals : List UInt32)
    (enumerators : List Enumerator) :
    Judged s.typeName
      (Enumerator.Distinct enumerators ∧
        ∀ e ∈ enumerators, e.name ∉ names ∧ e.ordinal ∉ ordinals)
      True (s.checkEnumerators names ordinals enumerators) := by
  induction enumerators generalizing names ordinals with
  | nil =>
    exact (Judged.ok ()).iff
      (by simpa using (⟨List.nodup_nil, List.nodup_nil⟩ : Enumerator.Distinct [])) Iff.rfl
  | cons e rest ih =>
    have hdistinct : Enumerator.Distinct (e :: rest) ↔ Enumerator.Distinct rest ∧
        ∀ e' ∈ rest, e'.name ≠ e.name ∧ e'.ordinal ≠ e.ordinal := by
      constructor
      · rintro ⟨hnames, hordinals⟩
        simp only [List.map_cons, List.nodup_cons, List.mem_map, not_exists, not_and]
          at hnames hordinals
        exact ⟨⟨hnames.2, hordinals.2⟩, fun e' he' => ⟨hnames.1 e' he', hordinals.1 e' he'⟩⟩
      · rintro ⟨⟨hnames, hordinals⟩, hother⟩
        constructor <;>
          simp only [List.map_cons, List.nodup_cons, List.mem_map, not_exists, not_and]
        · exact ⟨fun e' he' => (hother e' he').1, hnames⟩
        · exact ⟨fun e' he' => (hother e' he').2, hordinals⟩
    rw [checkEnumerators]
    split
    · rename_i hname
      exact Judged.fail.iff (by simp [hname]) Iff.rfl
    split
    · rename_i hordinal
      exact Judged.fail.iff (by simp [hordinal]) Iff.rfl
    · rename_i hname hordinal
      refine (ih _ _).iff ?_ Iff.rfl
      rw [hdistinct, List.forall_mem_cons]
      simp only [hname, hordinal, List.mem_cons, not_or, not_false_eq_true, and_self, true_and]
      constructor
      · rintro ⟨hrest, hfresh⟩
        exact ⟨⟨hrest, fun e' he' => ⟨(hfresh e' he').1.1, (hfresh e' he').2.1⟩⟩,
          fun e' he' => ⟨(hfresh e' he').1.2, (hfresh e' he').2.2⟩⟩
      · rintro ⟨⟨hrest, hother⟩, hfresh⟩
        exact ⟨hrest, fun e' he' => ⟨⟨(hother e' he').1, (hfresh e' he').1⟩,
          ⟨(hother e' he').2, (hfresh e' he').2⟩⟩⟩

theorem judged_checkEnumeration (name : String) (enumerators : List Enumerator) :
    Judged s.typeName (Enumerator.Proper enumerators) True
      (s.checkEnumeration name enumerators) := by
  unfold checkEnumeration
  split
  · rename_i hempty
    exact Judged.fail.iff (by simp_all [Enumerator.Proper]) Iff.rfl
  · rename_i hsome
    exact (judged_checkEnumerators [] [] enumerators).iff (by simp_all [Enumerator.Proper]) Iff.rfl

theorem judged_checkLabels (d : Discriminator) (name : String) (seen labels : List Label) :
    Judged s.typeName
      (labels.Nodup ∧ ∀ label ∈ labels, d.contains label = true ∧ label ∉ seen) True
      (s.checkLabels d name seen labels) := by
  induction labels generalizing seen with
  | nil => exact (Judged.ok seen).iff (by simp) Iff.rfl
  | cons label rest ih =>
    rw [checkLabels]
    split
    · rename_i houtside
      exact Judged.fail.iff (by simp_all) Iff.rfl
    split
    · rename_i hseen
      exact Judged.fail.iff (by simp_all) Iff.rfl
    · rename_i hinside hnew
      refine (ih _).iff ?_ Iff.rfl
      have hlabel : d.contains label = true := by simpa using hinside
      rw [List.nodup_cons, List.forall_mem_cons]
      simp only [hlabel, hnew, not_false_eq_true, and_self, true_and, List.mem_cons, not_or]
      constructor
      · rintro ⟨hnodup, hrest⟩
        exact ⟨⟨fun hmem => (hrest label hmem).2.1 rfl, hnodup⟩,
          fun l hl => ⟨(hrest l hl).1, (hrest l hl).2.2⟩⟩
      · rintro ⟨⟨hnot, hnodup⟩, hrest⟩
        exact ⟨hnodup, fun l hl => ⟨(hrest l hl).1, fun heq => hnot (heq ▸ hl), (hrest l hl).2⟩⟩

theorem judged_checkCases (d : Discriminator) (seen : List Label) (cases : List (Case Shape)) :
    Judged s.typeName
      ((∀ c ∈ cases, c.labels ≠ []) ∧ (cases.flatMap (·.labels)).Nodup ∧
        ∀ label ∈ cases.flatMap (·.labels), d.contains label = true ∧ label ∉ seen) True
      (s.checkCases d seen cases) := by
  induction cases generalizing seen with
  | nil => exact (Judged.ok seen).iff (by simp) Iff.rfl
  | cons c cases ih =>
    rw [checkCases]
    split
    · rename_i hempty
      exact Judged.fail.iff (by simp_all) Iff.rfl
    · rename_i hsome
      have hlabels : c.labels ≠ [] := by simpa using hsome
      have hnext : ∀ mid, s.checkLabels d c.name seen c.labels = .ok mid →
          Judged s.typeName
            ((∀ c ∈ cases, c.labels ≠ []) ∧ (cases.flatMap (·.labels)).Nodup ∧
              ∀ label ∈ cases.flatMap (·.labels),
                d.contains label = true ∧ label ∉ seen ∧ label ∉ c.labels)
            True (s.checkCases d mid cases) := by
        intro mid hmid
        exact (ih mid).iff (by simp only [mem_of_checkLabels hmid, not_or]) Iff.rfl
      refine ((judged_checkLabels d c.name seen c.labels).bind hnext).iff ?_ (by simp)
      simp only [List.forall_mem_cons, List.flatMap_cons, List.nodup_append', List.disjoint_left,
        List.forall_mem_append, hlabels, not_false_eq_true, ne_eq, true_and]
      constructor
      · rintro ⟨⟨hfirst, hinFirst⟩, hrest, hothers, hin⟩
        exact ⟨hrest, ⟨hfirst, hothers, fun l hl hl' => (hin l hl').2.2 hl⟩, hinFirst,
          fun l hl => ⟨(hin l hl).1, (hin l hl).2.1⟩⟩
      · rintro ⟨hrest, ⟨hfirst, hothers, hdisjoint⟩, hinFirst, hin⟩
        exact ⟨⟨hfirst, hinFirst⟩, hrest, hothers,
          fun l hl => ⟨(hin l hl).1, (hin l hl).2, fun hl' => hdisjoint hl' hl⟩⟩

/-- The numbers of a tag are told apart. -/
theorem nodup_tagNumbers {lookup : String → Option Declaration}
    (hlookup : ∀ name id d, s.resolve name = some (id, d) → lookup name = some d) {shape : Shape}
    (h : s.discriminator shape = .ok d) : (shape.tagNumbers lookup).Nodup := by
  cases shape with
  | primitive p =>
    cases p with
    | float32 | float64 => exact List.nodup_nil
    | _ => exact nodup_upward _ _
  | enumeration enumerators =>
    obtain ⟨_, hcheck, -⟩ := except_bind_eq_ok.mp h
    exact (distinct_of_checkEnumeration hcheck).nodup_ordinals
  | named name =>
    obtain ⟨⟨id, declaration⟩, hfound, h⟩ := except_bind_eq_ok.mp h
    rw [Shape.tagNumbers, hlookup name id declaration (lookup_eq_ok hfound)]
    simp only at h ⊢
    split at h
    · rename_i enumerators hbody
      obtain ⟨_, hcheck, -⟩ := except_bind_eq_ok.mp h
      rw [Declaration.enumerators, hbody]
      exact (distinct_of_checkEnumeration hcheck).nodup_ordinals
    · cases h
  | _ => exact List.nodup_nil

theorem judged_lookup {name : String} (hresolved : (s.resolve name).isSome) :
    Judged s.typeName True True (s.lookup name) := by
  obtain ⟨found, hfound⟩ := Option.isSome_iff_exists.mp hresolved
  rw [Site.lookup, hfound]
  exact Judged.ok found

section Shapes

variable {lookup : String → Option Declaration}
  (hlookup : ∀ name, lookup name = (s.resolve name).map (·.2))

include hlookup

theorem lookup_of_resolve (name : String) (id : Nat) (d : Declaration)
    (h : s.resolve name = some (id, d)) : lookup name = some d := by
  rw [hlookup, h]
  rfl

theorem judged_discriminator {shape : Shape}
    (hresolved : ∀ name ∈ shape.names, (s.resolve name).isSome) :
    Judged s.typeName (shape.IsTag lookup ∧ shape.AllLawful lookup) (shape.AllRoomy lookup)
      (s.discriminator shape) := by
  rw [Shape.allLawful_iff, Shape.allRoomy_iff]
  cases shape with
  | primitive p =>
    simp only [discriminator]
    split
    · rename_i hp
      refine (Judged.ok _).iff ?_ ?_
      · cases p <;> simp_all [Shape.IsTag, Shape.Lawful, Shape.parts, Primitive.isDiscriminator]
      · simp [Shape.Roomy, Shape.parts]
    · rename_i hp
      refine Judged.fail.iff ?_ Iff.rfl
      cases p <;> simp_all [Shape.IsTag, Primitive.isDiscriminator]
  | enumeration enumerators =>
    refine ((judged_checkEnumeration s.typeName enumerators).map _).iff ?_ ?_
    · simp [Shape.IsTag, Shape.Lawful, Shape.parts]
    · simp [Shape.Roomy, Shape.parts]
  | named name =>
    obtain ⟨⟨id, typeName, extensibility, keyMembers, body⟩, hfound⟩ :=
      Option.isSome_iff_exists.mp (hresolved name (List.mem_singleton_self name))
    have hname := lookup_of_resolve hlookup _ _ _ hfound
    simp only [discriminator, Site.lookup, hfound]
    cases body with
    | enumeration enumerators =>
      refine ((judged_checkEnumeration name enumerators).map _).iff ?_ ?_
      · simp [Shape.IsTag, Shape.Lawful, Shape.parts, hname]
      · simp [Shape.Roomy, Shape.parts]
    | _ => exact Judged.fail.iff (by simp [Shape.IsTag, hname]) Iff.rfl
  | _ => exact Judged.fail.iff (by simp [Shape.IsTag]) Iff.rfl

theorem judged_sentinel {u : UnionOf Shape} {labels : List Label}
    (hd : s.discriminator u.discriminator = .ok d)
    (hlabels : s.checkCases d [] u.cases = .ok labels) (hfallback : u.fallback ≠ none) :
    Judged s.typeName True (u.Roomy lookup) (s.sentinel d labels) := by
  have hmem : ∀ label, label ∈ labels ↔ label ∈ u.labels := by
    intro label
    rw [mem_of_checkCases hlabels, UnionOf.labels, List.mem_flatMap]
    simp
  have hnames := lookup_of_resolve hlookup
  unfold sentinel
  cases hfound : d.sentinel? labels with
  | some found =>
    refine (Judged.ok found).iff Iff.rfl (iff_of_true trivial fun _ => ⟨found, ?_, ?_⟩)
    · exact (contains_iff_mem_tagNumbers hnames hd).mp (Discriminator.of_sentinel? hfound).1
    · exact fun hin => (Discriminator.of_sentinel? hfound).2 ((hmem found).mpr hin)
  | none =>
    have hcramped : ¬ u.Roomy lookup := by
      intro hroomy
      obtain ⟨label, hin, hfree⟩ := hroomy hfallback
      obtain ⟨found, hsome⟩ := (counts_of_discriminator hnames hd).exists_sentinel?
        (nodup_tagNumbers hnames hd) hin (fun hused => hfree ((hmem label).mp hused))
      rw [hfound] at hsome
      cases hsome
    exact ⟨fun _ h => absurd h hcramped, fun _ _ => rfl, fun h => absurd trivial h⟩

theorem judged_labels {u : UnionOf Shape} (hd : s.discriminator u.discriminator = .ok d) :
    Judged s.typeName
      ((∀ c ∈ u.cases, c.labels ≠ []) ∧ u.labels.Nodup ∧
        ∀ label ∈ u.labels, label.toInt ∈ u.discriminator.tagNumbers lookup)
      True (s.checkCases d [] u.cases) := by
  have hdomain : ∀ label : Label,
      d.contains label = true ↔ label.toInt ∈ u.discriminator.tagNumbers lookup :=
    fun _ => contains_iff_mem_tagNumbers (lookup_of_resolve hlookup) hd
  exact (judged_checkCases d [] u.cases).iff (by simp [hdomain, UnionOf.labels]) Iff.rfl

/-- The layout of a union is built just where its discriminator, its labels and its payloads are in
order. -/
theorem judged_union {role : Role} {u : UnionOf Shape}
    (hresolved : ∀ name ∈ u.discriminator.names, (s.resolve name).isSome)
    (hcases : Judged s.typeName (∀ c ∈ u.cases, c.content.AllLawful lookup)
      (∀ c ∈ u.cases, c.content.AllRoomy lookup) (s.layoutCases role u.cases))
    (hfallback : ∀ f, u.fallback = some f →
      Judged s.typeName (f.content.AllLawful lookup) (f.content.AllRoomy lookup)
        (s.layout role f.content)) :
    Judged s.typeName ((Shape.union u).AllLawful lookup) ((Shape.union u).AllRoomy lookup)
      (s.layout role (.union u)) := by
  have htag := judged_discriminator hlookup hresolved
  rw [Shape.allLawful_iff, Shape.allRoomy_iff, Shape.forall_parts_union, Shape.forall_parts_union,
    Shape.Lawful, UnionOf.lawful_iff, Shape.Roomy, layout.eq_def]
  obtain ⟨discriminator, cases, none | f, keyed⟩ := u
  · refine (htag.bind fun d hd => Judged.guard ((judged_labels hlookup hd).bind fun labels _ =>
      hcases.map _)).iff ?_ ?_
    · simp only [Option.isNone_none, Bool.and_true, List.isEmpty_iff, ne_eq, not_true_eq_false,
        or_false, Option.mem_def, reduceCtorEq, IsEmpty.forall_iff, implies_true, and_true]
      tauto
    · simp [UnionOf.Roomy]
  · refine (htag.bind fun d hd => Judged.guard ((judged_labels hlookup hd).bind fun labels hl =>
      hcases.bind fun _ _ => (judged_sentinel hlookup hd hl nofun).bind fun _ _ =>
        (hfallback f rfl).map _)).iff ?_ ?_
    · simp only [Option.isNone_some, Bool.and_false, Bool.false_eq_true, not_false_eq_true, ne_eq,
        true_and, reduceCtorEq, or_true, Option.mem_def, Option.some.injEq, forall_eq']
      tauto
    · simp only [true_and, Option.mem_def, Option.some.injEq, forall_eq']
      tauto

end Shapes

mutual

/-- The layout of a shape is built just where all shapes inside it keep the rules and leave room. -/
theorem judged_layout {lookup : String → Option Declaration}
    (hlookup : ∀ name, lookup name = (s.resolve name).map (·.2)) (role : Role) (shape : Shape)
    (hresolved : ∀ name ∈ shape.names, (s.resolve name).isSome) :
    Judged s.typeName (shape.AllLawful lookup) (shape.AllRoomy lookup) (s.layout role shape) := by
  rw [Shape.allLawful_iff, Shape.allRoomy_iff]
  match shape with
  | .primitive _ | .string _ | .bytes _ =>
    exact (Judged.ok _).iff (by simp [Shape.Lawful, Shape.parts])
      (by simp [Shape.Roomy, Shape.parts])
  | .array element _ | .sequence element _ | .optional element =>
    exact ((judged_layout hlookup role element hresolved).map _).iff
      (by simp [Shape.Lawful, Shape.parts]) (by simp [Shape.Roomy, Shape.parts])
  | .map key value _ =>
    have hkey := judged_layout hlookup role key fun name hname =>
      hresolved name (List.mem_append_left value.names hname)
    have hvalue := judged_layout hlookup role value fun name hname =>
      hresolved name (List.mem_append_right key.names hname)
    exact (hkey.bind fun _ _ => hvalue.map _).iff (by simp [Shape.Lawful, Shape.parts])
      (by simp [Shape.Roomy, Shape.parts])
  | .enumeration enumerators =>
    exact ((judged_checkEnumeration s.typeName enumerators).map _).iff
      (by simp [Shape.Lawful, Shape.parts]) (by simp [Shape.Roomy, Shape.parts])
  | .named name =>
    exact ((judged_lookup (hresolved name (List.mem_singleton_self name))).map _).iff
      (by simp [Shape.Lawful, Shape.parts]) (by simp [Shape.Roomy, Shape.parts])
  | .union ⟨discriminator, cases, fallback, keyed⟩ =>
    have htag : ∀ name ∈ discriminator.names, (s.resolve name).isSome := fun name hname =>
      hresolved name (List.mem_append_left _ (List.mem_append_left _ hname))
    have hcases := judged_layoutCases hlookup role cases fun name hname =>
      hresolved name (List.mem_append_left _ (List.mem_append_right _ hname))
    rw [← Shape.allLawful_iff, ← Shape.allRoomy_iff]
    refine judged_union hlookup htag hcases fun f hf => ?_
    match fallback with
    | none => cases hf
    | some ⟨_, content⟩ =>
      cases hf
      exact judged_layout hlookup role content fun name hname =>
        hresolved name (List.mem_append_right _ hname)
termination_by structural shape

theorem judged_layoutCases {lookup : String → Option Declaration}
    (hlookup : ∀ name, lookup name = (s.resolve name).map (·.2)) (role : Role)
    (cases : List (Case Shape))
    (hresolved : ∀ name ∈ Shape.caseNames cases, (s.resolve name).isSome) :
    Judged s.typeName (∀ c ∈ cases, c.content.AllLawful lookup)
      (∀ c ∈ cases, c.content.AllRoomy lookup) (s.layoutCases role cases) := by
  match cases with
  | [] => exact (Judged.ok _).iff (by simp) (by simp)
  | ⟨_, _, content⟩ :: cases =>
    have hcontent := judged_layout hlookup role content fun name hname =>
      hresolved name (List.mem_append_left (Shape.caseNames cases) hname)
    have hcases := judged_layoutCases hlookup role cases fun name hname =>
      hresolved name (List.mem_append_right content.names hname)
    exact (hcontent.bind fun _ _ => hcases.map _).iff (by simp) (by simp)
termination_by structural cases

end

theorem judged_layoutMembers {lookup : String → Option Declaration}
    (hlookup : ∀ name, lookup name = (s.resolve name).map (·.2)) (role : Role)
    (members : List (Member Shape))
    (hresolved : ∀ name ∈ members.flatMap (·.content.names), (s.resolve name).isSome) :
    Judged s.typeName (∀ m ∈ members, m.content.AllLawful lookup)
      (∀ m ∈ members, m.content.AllRoomy lookup) (s.layoutMembers role members) := by
  induction members with
  | nil => exact (Judged.ok _).iff (by simp) (by simp)
  | cons m members ih =>
    rw [List.flatMap_cons] at hresolved
    have hcontent := judged_layout hlookup role m.content fun name hname =>
      hresolved name (List.mem_append_left _ hname)
    have hmembers := ih fun name hname => hresolved name (List.mem_append_right _ hname)
    exact (hcontent.bind fun _ _ => hmembers.map _).iff (by simp) (by simp)

end Site

namespace Layouts

variable {resolve : String → Option (Nat × Declaration)} {d : Declaration}

/-- The layouts of a declared type are built just where all shapes in its body keep the rules and
leave room: the layout for keys has no shapes that the full layout does not have. -/
theorem judged_build {lookup : String → Option Declaration}
    (hlookup : ∀ name, lookup name = (resolve name).map (·.2))
    (hresolved : ∀ name ∈ d.mentions, (resolve name).isSome) :
    Judged d.name (∀ top ∈ d.shapes, top.AllLawful lookup) (∀ top ∈ d.shapes, top.AllRoomy lookup)
      (build resolve d) := by
  let s : Site := ⟨resolve, d.name⟩
  unfold build Declaration.shapes
  unfold Declaration.mentions at hresolved
  cases hbody : d.body with
  | struct members =>
    simp only [hbody] at hresolved ⊢
    have hfull := Site.judged_layoutMembers (s := s) hlookup .full members hresolved
    have hkey := Site.judged_layoutMembers (s := s) hlookup .key (members.filter d.isKeyPart)
      fun name hname => by
        obtain ⟨m, hm, hin⟩ := List.mem_flatMap.mp hname
        exact hresolved name (List.mem_flatMap.mpr ⟨m, List.mem_of_mem_filter hm, hin⟩)
    have hsame : ∀ P : Shape → Prop, (∀ m ∈ members, P m.content) ∧
        (∀ m ∈ members.filter d.isKeyPart, P m.content) ↔
          ∀ top ∈ members.map (·.content), P top := by
      intro P
      rw [List.forall_mem_map]
      exact and_iff_left_of_imp fun h m hm => h m (List.mem_of_mem_filter hm)
    exact (hfull.bind fun _ _ => hkey.map _).iff (hsame _) (hsame _)
  | union u =>
    simp only [hbody] at hresolved ⊢
    have hfull := Site.judged_layout (s := s) hlookup .full (.union u) hresolved
    have hkey := Site.judged_layout (s := s) hlookup .key (.union u) hresolved
    exact (hfull.bind fun _ _ => hkey.map _).iff (by simp) (by simp)
  | enumeration enumerators =>
    simp only [List.forall_mem_singleton]
    rw [Shape.allLawful_iff, Shape.allRoomy_iff]
    exact ((Site.judged_checkEnumeration (s := s) d.name enumerators).map _).iff
      (by simp [Shape.Lawful, Shape.parts]) (by simp [Shape.Roomy, Shape.parts])

end Layouts

/-- The tag of the default case of a union, if it has one, can be held and is none of the labels. -/
def UnionLayout.Separates (u : UnionLayout Layout) : Prop :=
  ∀ f, u.fallback = some f →
    u.discriminator.contains f.sentinel = true ∧ ∀ c ∈ u.cases, f.sentinel ∉ c.labels

/-- All unions inside the layout keep the tag of the default case apart. -/
def Layout.Separated (l : Layout) : Prop := ∀ u, l.Holds (.union u) → u.Separates

namespace Layout

theorem WellFormed.separated {good : Reference → Prop} {l : Layout} (h : l.WellFormed good) :
    l.Separated := by
  rintro ⟨name, d, cases, fallback, tagOnly⟩ hu f rfl
  have hunion := h.of_holds hu
  rw [WellFormed.eq_def] at hunion
  exact ⟨hunion.2.1, hunion.2.2.1⟩

theorem separated_struct {good : Reference → Prop} {name : String} {members : List (Member Layout)}
    (h : MembersWellFormed good members) : (struct name members).Separated := by
  intro u hu
  cases hu with
  | child hchild hrest =>
    obtain ⟨m, hm, rfl⟩ := List.mem_map.mp hchild
    exact (h.of_mem hm).separated u hrest

end Layout

namespace Layouts

variable {resolve : String → Option (Nat × Declaration)} {d : Declaration}

/-- All three layouts of a declared type keep the tags of default cases apart. -/
theorem separated_build {layouts : Layouts} (h : build resolve d = .ok layouts) :
    ∀ root ∈ [layouts.full, layouts.memberKey, layouts.key], root.Separated := by
  have hboth : layouts.full.Separated ∧ layouts.memberKey.Separated := by
    cases hbody : d.body with
    | struct members =>
      obtain ⟨full, key, hfull, hkey, rfl⟩ := build_struct hbody h
      exact ⟨Layout.separated_struct (Site.wellFormed_layoutMembers hfull),
        Layout.separated_struct (Site.wellFormed_layoutMembers hkey)⟩
    | union u =>
      obtain ⟨full, key, hfull, hkey, rfl⟩ := build_union hbody h
      exact ⟨(Site.wellFormed_layout hfull).separated, (Site.wellFormed_layout hkey).separated⟩
    | enumeration enumerators =>
      obtain ⟨hcheck, rfl⟩ := build_enumeration hbody h
      have hwell : (Layout.enumeration d.name enumerators).WellFormed fun _ => True :=
        Site.distinct_of_checkEnumeration hcheck
      exact ⟨hwell.separated, hwell.separated⟩
  have hkey : layouts.key.Separated := by
    rw [key_eq h]
    split
    · have hnothing : Layout.MembersWellFormed (fun _ => True) [] := trivial
      exact Layout.separated_struct hnothing
    · exact hboth.2
  simp [hboth, hkey]

/-- A declared type all of whose names are registered can be built just where the shapes in its body
keep the rules and leave a label for each default case.  Where only a label is missing the build
says so; where a rule is broken it fails for good; and it never waits for a name.  In all layouts
that are built, the tag of a default case is a number that the discriminator can hold and that is
none of the labels. -/
theorem build_iff_lawful (hresolved : ∀ name ∈ d.referencedNames, (resolve name).isSome) :
    let lookup (name : String) : Option Declaration := (resolve name).map (·.2)
    ((∃ layouts, build resolve d = .ok layouts) ↔
      ∀ s, d.Holds s → s.Lawful lookup ∧ s.Roomy lookup) ∧
    ((∀ s, d.Holds s → s.Lawful lookup) → (∃ s, d.Holds s ∧ ¬ s.Roomy lookup) →
      build resolve d = .error (.fatal (Cause.domainExhausted d.name).fault)) ∧
    ((∃ s, d.Holds s ∧ ¬ s.Lawful lookup) → ∃ fault, build resolve d = .error (.fatal fault)) ∧
    (∀ name, build resolve d ≠ .error (.awaits name)) ∧
    ∀ layouts, build resolve d = .ok layouts →
      ∀ root ∈ [layouts.full, layouts.memberKey, layouts.key], ∀ u, root.Holds (.union u) →
        ∀ f, u.fallback = some f →
          u.discriminator.contains f.sentinel = true ∧ ∀ c ∈ u.cases, f.sentinel ∉ c.labels := by
  intro lookup
  have hlookup : ∀ name, lookup name = (resolve name).map (·.2) := fun _ => rfl
  have hjudged := judged_build hlookup fun name hname =>
    hresolved name (d.mentions_subset_referencedNames hname)
  have hholds : ∀ P : Shape → Prop,
      (∀ top ∈ d.shapes, ∀ inner, top.Holds inner → P inner) ↔ ∀ s, d.Holds s → P s :=
    fun P => ⟨fun h s ⟨top, htop, hs⟩ => h top htop s hs,
      fun h top htop inner hinner => h inner ⟨top, htop, hinner⟩⟩
  have hverdict := hjudged.iff (hholds (·.Lawful lookup)) (hholds (·.Roomy lookup))
  refine ⟨?_, fun hlawful hroomless => ?_, fun hbroken => ?_, hverdict.ne_awaits,
    fun layouts hbuild => separated_build hbuild⟩
  · rw [hverdict.exists_ok_iff]
    exact ⟨fun h s hs => ⟨h.1 s hs, h.2 s hs⟩,
      fun h => ⟨fun s hs => (h s hs).1, fun s hs => (h s hs).2⟩⟩
  · refine hverdict.exhausted hlawful fun hroomy => ?_
    obtain ⟨s, hs, hcramped⟩ := hroomless
    exact hcramped (hroomy s hs)
  · refine hverdict.fatal fun hlawful => ?_
    obtain ⟨s, hs, hunlawful⟩ := hbroken
    exact hunlawful (hlawful s hs)

/-- The modes of a lamp. -/
def mode : Declaration :=
  { name := "Mode", body := .enumeration [⟨"OFF", 0⟩, ⟨"ON", 1⟩] }

/-- A lamp that keeps what it was last told in a mode, with a case for each of the labels and one
for all others. -/
def bulb (labels : List Label) : Declaration :=
  { name := "Bulb"
    body := .struct [⟨"history", .sequence (.union ⟨.named "Mode",
      [⟨"bright", labels, .primitive (.integer .uint8)⟩], some ⟨"dark", .primitive .bool⟩, false⟩)
      none⟩] }

/-- A default case beside one of two enumerators can be built; a default case beside both of them
has no label left. -/
theorem build_iff_lawful_bulb :
    let resolve (name : String) := if name = "Mode" then some (0, mode) else none
    let lookup (name : String) : Option Declaration := (resolve name).map (·.2)
    (∀ labels, ∀ name ∈ (bulb labels).referencedNames, (resolve name).isSome) ∧
      (∀ s, (bulb [1]).Holds s → s.Lawful lookup ∧ s.Roomy lookup) ∧
      (∃ s, (bulb [0, 1]).Holds s ∧ ¬ (s.Lawful lookup ∧ s.Roomy lookup)) := by
  intro resolve lookup
  have hresolved : ∀ labels, ∀ name ∈ (bulb labels).referencedNames, (resolve name).isSome := by
    intro labels name hname
    obtain rfl := List.mem_singleton.mp hname
    rfl
  refine ⟨hresolved, (build_iff_lawful (hresolved [1])).1.mp ⟨_, rfl⟩, ?_⟩
  have hfails : ¬ ∃ layouts, build resolve (bulb [0, 1]) = .ok layouts := nofun
  simpa using mt (build_iff_lawful (hresolved [0, 1])).1.mpr hfails

end Layouts

end Cdr
