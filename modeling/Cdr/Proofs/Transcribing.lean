import Cdr.Proofs.Loading

/-! The texts of declarations.  The document of a declaration holds no other numbers than integers
of sixty-four bits, so its text is parsed as the document, and the declaration is read back from
it. -/

namespace Cdr.Declaration

open Json (Order Outline)

theorem integral_ofNat {n : Nat} (h : n < 2 ^ 64) : (Json.ofInt n).Integral :=
  .number (by omega) (by omega)

theorem integral_boundToJson (bound : Option UInt64) : (Shape.boundToJson bound).Integral := by
  cases bound with
  | none => exact .null
  | some n => exact integral_ofNat n.toNat_lt

theorem integral_enumerators (enumerators : List Enumerator) :
    (Json.array (enumerators.map Enumerator.toJson)).Integral := by
  refine .array (List.forall_mem_map.mpr fun e _ => .object ?_)
  have hordinal := integral_ofNat (Nat.lt_of_lt_of_le e.ordinal.toNat_lt (by decide))
  simpa [Json.Integral.string] using hordinal

theorem integral_namedToJson (name : String) {content : Shape} (h : content.toJson.Integral) :
    (namedToJson name content).Integral :=
  .object (by simpa [Json.Integral.string] using h)

/-- A shape has a document without other numbers if its fields have. -/
theorem integral_of_fields {s : Shape} {kind : String} {fields : List (String × Json)}
    (hjson : s.toJson = .object (Shape.kindField kind :: fields))
    (h : ∀ e ∈ fields, e.2.Integral) : s.toJson.Integral :=
  hjson ▸ .object (List.forall_mem_cons.mpr ⟨.string kind, h⟩)

theorem integral_caseToJson {c : Case Shape} (h : c.content.toJson.Integral) :
    (caseToJson c).Integral := by
  have hlabels : (Json.array (c.labels.map fun l => Json.ofInt l.toInt)).Integral := by
    refine .array (List.forall_mem_map.mpr fun l _ => .number l.le_toInt ?_)
    have hlt := l.toInt_lt
    omega
  exact .object (by simpa [Json.Integral.string, hlabels] using h)

theorem integral_unionFields {u : UnionOf Shape} (htag : u.discriminator.toJson.Integral)
    (hcases : ∀ c ∈ u.cases, c.content.toJson.Integral)
    (hfallback : ∀ f ∈ u.fallback, f.content.toJson.Integral) :
    ∀ e ∈ unionFields u, e.2.Integral := by
  obtain ⟨tag, cases, fallback, keyed⟩ := u
  have hcases : (Json.array (Shape.casesToJson cases)).Integral := by
    rw [casesToJson_eq_map]
    exact .array (List.forall_mem_map.mpr fun c hc => integral_caseToJson (hcases c hc))
  have hfallback : (Shape.fallbackToJson fallback).Integral := by
    cases fallback with
    | none => exact .null
    | some f => exact integral_namedToJson f.name (hfallback f rfl)
  simpa [unionFields, Json.Integral.bool, hcases, hfallback] using htag

theorem integral_pair {name name' : String} {value value' : Json} (h : value.Integral)
    (h' : value'.Integral) : ∀ e ∈ [(name, value), (name', value')], e.2.Integral :=
  List.forall_mem_cons.mpr ⟨h, List.forall_mem_singleton.mpr h'⟩

mutual

theorem integral_toJson : ∀ s : Shape, s.toJson.Integral
  | .primitive p => integral_of_fields rfl (List.forall_mem_singleton.mpr (.string p.name))
  | .string bound | .bytes bound =>
    integral_of_fields rfl (List.forall_mem_singleton.mpr (integral_boundToJson bound))
  | .array element length =>
    integral_of_fields rfl
      (integral_pair (integral_toJson element) (integral_ofNat length.toNat_lt))
  | .sequence element bound =>
    integral_of_fields rfl (integral_pair (integral_toJson element) (integral_boundToJson bound))
  | .map key value bound =>
    integral_of_fields rfl (List.forall_mem_cons.mpr
      ⟨integral_toJson key, integral_pair (integral_toJson value) (integral_boundToJson bound)⟩)
  | .enumeration enumerators =>
    integral_of_fields rfl (List.forall_mem_singleton.mpr (integral_enumerators enumerators))
  | .union ⟨tag, cases, fallback, _⟩ =>
    integral_of_fields (toJson_union _) (integral_unionFields (integral_toJson tag)
      (integral_cases cases) (integral_fallback fallback))
  | .optional inner =>
    integral_of_fields rfl (List.forall_mem_singleton.mpr (integral_toJson inner))
  | .named name => integral_of_fields rfl (List.forall_mem_singleton.mpr (.string name))
termination_by structural s => s

theorem integral_cases : ∀ cases : List (Case Shape), ∀ c ∈ cases, c.content.toJson.Integral
  | [] => List.forall_mem_nil _
  | ⟨_, _, content⟩ :: cases =>
    List.forall_mem_cons.mpr ⟨integral_toJson content, integral_cases cases⟩
termination_by structural cases => cases

theorem integral_fallback : ∀ fallback : Option (DefaultCase Shape),
    ∀ f ∈ fallback, f.content.toJson.Integral
  | none => fun _ h => nomatch h
  | some ⟨_, content⟩ => fun _ hf => Option.some.inj hf ▸ integral_toJson content
termination_by structural fallback => fallback

end

theorem integral_bodyToJson (body : Body) : body.toJson.Integral := by
  cases body with
  | struct members =>
    have hmembers : (Json.array (members.map fun m => namedToJson m.name m.content)).Integral :=
      .array (List.forall_mem_map.mpr fun m _ =>
        integral_namedToJson m.name (integral_toJson m.content))
    exact .object (List.forall_mem_singleton.mpr (.object (List.forall_mem_singleton.mpr hmembers)))
  | union u =>
    have hfields := integral_unionFields (integral_toJson u.discriminator)
      (fun c _ => integral_toJson c.content) fun f _ => integral_toJson f.content
    exact .object (List.forall_mem_singleton.mpr (.object hfields))
  | enumeration enumerators =>
    exact .object (List.forall_mem_singleton.mpr
      (.object (List.forall_mem_singleton.mpr (integral_enumerators enumerators))))

/-- The document of a declaration holds no other numbers than integers of sixty-four bits. -/
theorem integral_declarationToJson (d : Declaration) : d.toJson.Integral := by
  obtain ⟨name, extensibility, keyMembers, body⟩ := d
  have hkeys : (Json.ofOption (fun keys => .array (keys.map .string)) keyMembers).Integral := by
    cases keyMembers with
    | none => exact .null
    | some keys => exact .array (List.forall_mem_map.mpr fun name _ => .string name)
  exact .object (by simp [Json.Integral.string, hkeys, integral_bodyToJson body])

theorem ofJson_arranged (order : Order) (d : Declaration) :
    ofJson (d.toJson.arranged order) = .ok d :=
  congrArg (Except.mapError faultOf) (read_toJson order .stored d)

theorem mapM_ofJson (ds : List Declaration) :
    (ds.map fun d => d.toJson.arranged .sorted).mapM ofJson = .ok ds := by
  induction ds with
  | nil => rfl
  | cons d ds ih =>
    rw [List.map_cons, List.mapM_cons, ofJson_arranged, ih]
    rfl

/-- A list of declarations is read back from the text of the array of their documents. -/
theorem listOfText_array {order : Order} {ds : List Declaration}
    (h : (Json.array (ds.map toJson)).nesting ≤ Json.nestingLimit) :
    listOfText (Json.render ((Json.array (ds.map toJson)).arranged order)) = .ok ds := by
  have hintegral : (Json.array (ds.map toJson)).Integral :=
    .array (List.forall_mem_map.mpr fun d _ => integral_declarationToJson d)
  have hparse := Json.parse?_render (hintegral.arranged order)
    (Nat.le_trans (Json.nesting_arranged_le order _) h)
  have hitems : (Json.array (ds.map toJson)).arranged .sorted =
      .array (ds.map fun d => d.toJson.arranged .sorted) := by
    rw [Json.arranged, Json.arrangedItems_eq_map, List.map_map]
    rfl
  rw [Json.sorted_arranged, hitems] at hparse
  rw [listOfText, hparse]
  exact mapM_ofJson ds

theorem listOfText_toJson {order : Order} {d : Declaration}
    (h : d.toJson.nesting ≤ Json.nestingLimit) :
    listOfText (Json.render (d.toJson.arranged order)) = .ok [d] := by
  have hparse := Json.parse?_render ((integral_declarationToJson d).arranged order)
    (Nat.le_trans (Json.nesting_arranged_le order _) h)
  have hread := ofJson_arranged .sorted d
  obtain ⟨entries, hobject⟩ : ∃ entries, d.toJson.arranged .sorted = .object entries := ⟨_, rfl⟩
  rw [Json.sorted_arranged, hobject] at hparse
  rw [hobject] at hread
  rw [listOfText, hparse]
  simp only [hread]
  rfl

theorem ofText_toJson {order : Order} {d : Declaration}
    (h : d.toJson.nesting ≤ Json.nestingLimit) :
    ofText (Json.render (d.toJson.arranged order)) = .ok d := by
  have hscan := Outline.ofText_render ((integral_declarationToJson d).arranged order)
  have hcurb := Outline.curb_ofJson (Nat.le_trans (Json.nesting_arranged_le order _) h)
  have hread := read_toJson order .streamed d
  rw [ofText, hscan]
  simp only [hcurb]
  rw [show Outline.ofJson (d.toJson.arranged order) = order.outline d.toJson from rfl, hread]
  rfl

/-- Declarations are read back from their documents, whose entries are as they were declared or in
the order of their names, and from the texts of these, if they nest at most 127 levels: a list from
the text of an array, and a single declaration from its own text. -/
theorem read_back (order : Order) :
    (∀ d : Declaration, ofJson (d.toJson.arranged order) = .ok d) ∧
      (∀ ds : List Declaration, (Json.array (ds.map toJson)).nesting ≤ 127 →
        listOfText (Json.render ((Json.array (ds.map toJson)).arranged order)) = .ok ds) ∧
      ∀ d : Declaration, d.toJson.nesting ≤ 127 →
        listOfText (Json.render (d.toJson.arranged order)) = .ok [d] ∧
          ofText (Json.render (d.toJson.arranged order)) = .ok d :=
  ⟨ofJson_arranged order, fun _ h => listOfText_array h,
    fun _ h => ⟨listOfText_toJson h, ofText_toJson h⟩⟩

/-- A union in the default case of another one, with a bound, a label and a number at their limits,
and names that have to be escaped, in both orders. -/
theorem read_back_nested :
    let inner : UnionOf Shape :=
      ⟨.primitive (.integer .uint8), [⟨"a", [0], .string (some 18446744073709551615)⟩], none, true⟩
    let outer : UnionOf Shape :=
      ⟨.named "Kind", [⟨"flag", [1, -9223372036854775808], .optional (.named "U")⟩],
        some ⟨"nested", .union inner⟩, false⟩
    let d : Declaration := ⟨"U", .appendable, some ["\"\n"], .union outer⟩
    let e : Declaration := ⟨"E", .final, none, .enumeration [⟨"A", 4294967295⟩]⟩
    (Json.array ([d, e].map toJson)).nesting ≤ 127 ∧ d.toJson.nesting ≤ 127 ∧
      ofJson (d.toJson.arranged .sorted) = .ok d ∧
      listOfText (Json.render ((Json.array ([d, e].map toJson)).arranged .sorted)) = .ok [d, e] ∧
      listOfText (Json.render (d.toJson.arranged .declared)) = .ok [d] ∧
      ofText (Json.render (d.toJson.arranged .declared)) = .ok d := by
  intro inner outer d e
  have hlist : (Json.array ([d, e].map toJson)).nesting ≤ 127 := by decide
  have hsingle : d.toJson.nesting ≤ 127 := by decide
  obtain ⟨hdocument, htexts, -⟩ := read_back .sorted
  obtain ⟨-, -, htext⟩ := read_back .declared
  exact ⟨hlist, hsingle, hdocument d, htexts [d, e] hlist, htext d hsingle⟩

end Cdr.Declaration
