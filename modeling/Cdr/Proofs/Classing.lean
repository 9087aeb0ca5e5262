import Cdr.Proofs.Misreading

/-! The fault of a document that is no declaration.  Every reader of the grammar accounts for its
flaws, from the parts of an enumeration up to the declaration as a whole.  So a fault of the shape
comes from a part that names an alternative that does not exist, or from a string in the wrong place
that holds the words by which such a fault is told apart. -/

namespace Cdr.Declaration

open Json (Source Flaw Reading Outline)
open Json.Outline hiding ofJson

theorem failsMalformed_shape (parts : ShapeParts) (found : Shape.Kind) :
    FailsMalformed (parts.shape found) := by
  cases found with
  | primitive | sequence | enumeration | optional | named =>
    exact (failsMalformed_required _).bind fun _ => .ok _
  | string | bytes => exact .ok _
  | array | map => exact failsMalformed_pair _ _ _
  | union =>
    have hunion : FailsMalformed parts.union := failsMalformed_pair _ _ _
    exact hunion.bind fun _ => .ok _

section Kinds

variable {source : Source}

theorem accounts_kind : Accounts (.kind source) (Shape.Kind.read source) := by
  intro j flaw hflaw
  cases j with
  | string text =>
    rw [Outline.ofJson, Shape.Kind.read] at hflaw
    split at hflaw <;> cases hflaw
    rename_i hnone
    exact ⟨.kind source, .string text, .here _, rfl, not_mem_of_find?_eq_none hnone⟩
  | number n =>
    cases n with
    | integer n =>
      rw [Outline.ofJson, Shape.Kind.read] at hflaw
      split at hflaw
      · rw [failsMalformed_required _ flaw hflaw]
        trivial
      · cases hflaw
        trivial
    | float bits =>
      cases hflaw
      trivial
  | _ =>
    cases hflaw
    trivial

/-- A flaw of the entries of a shape is one of a kind among them. -/
theorem splitEntries_error (hsource : source ≠ .streamed) {entries : List (String × Json)}
    {kind : Option Shape.Kind} {done : List (Option String × Outline)} {flaw : Flaw}
    (h : splitEntries source kind done (ofJsonEntries entries) = .error flaw) :
    flaw = .malformed ∨
      ∃ document ∈ (Json.object entries).kinds,
        Shape.Kind.read source (Outline.ofJson document) = .error flaw := by
  induction entries generalizing kind done with
  | nil => cases h
  | cons e entries ih =>
    obtain ⟨name, value⟩ := e
    rw [ofJsonEntries, splitEntries] at h
    by_cases hkind : name = "kind"
    · subst hkind
      rw [if_pos rfl] at h
      rw [Json.kinds_cons_kind]
      rcases except_bind_eq_error.mp h with honce | ⟨x, -, hlate⟩
      · refine (once_eq_error honce).imp_right fun hread => ?_
        exact ⟨value, List.mem_cons_self, hread⟩
      · refine (ih hlate).imp_right ?_
        rintro ⟨document, hmem, hread⟩
        exact ⟨document, List.mem_cons_of_mem _ hmem, hread⟩
    · rw [if_neg hkind, if_neg fun hstreamed => hsource hstreamed.1] at h
      rw [Json.kinds_cons_of_ne hkind]
      exact ih h

/-- The kind of a shape is read from an entry, and the others are left. -/
theorem splitEntries_ok (hsource : source ≠ .streamed) {entries : List (String × Json)}
    {kind kind' : Option Shape.Kind} {done rest : List (Option String × Outline)}
    (h : splitEntries source kind done (ofJsonEntries entries) = .ok (kind', rest)) :
    rest = done.reverse ++ ofJsonEntries (entries.filter (·.1 != "kind")) ∧
      ∀ found, kind' = some found → kind = some found ∨
        ∃ document ∈ (Json.object entries).kinds,
          Shape.Kind.read source (Outline.ofJson document) = .ok found := by
  induction entries generalizing kind done with
  | nil =>
    cases h
    exact ⟨(List.append_nil _).symm, fun found hfound => Or.inl hfound⟩
  | cons e entries ih =>
    obtain ⟨name, value⟩ := e
    rw [ofJsonEntries, splitEntries] at h
    by_cases hkind : name = "kind"
    · subst hkind
      rw [if_pos rfl] at h
      -- A kind that was read before would make this one a repeated field.
      obtain ⟨kind'', honce, hlate⟩ := except_bind_eq_ok.mp h
      obtain ⟨found', hread, rfl⟩ := once_eq_ok honce
      obtain ⟨hrest, hlater⟩ := ih hlate
      refine ⟨hrest, fun found hfound => Or.inr ?_⟩
      rw [Json.kinds_cons_kind]
      rcases hlater found hfound with hsame | ⟨document, hmem, hread⟩
      · cases hsame
        exact ⟨value, List.mem_cons_self, hread⟩
      · exact ⟨document, List.mem_cons_of_mem _ hmem, hread⟩
    · rw [if_neg hkind, if_neg fun hstreamed => hsource hstreamed.1] at h
      obtain ⟨hrest, hfound⟩ := ih h
      rw [Json.kinds_cons_of_ne hkind]
      refine ⟨?_, hfound⟩
      rw [hrest]
      simp [hkind, ofJsonEntries]

/-- A flaw in front of the fields of a shape comes from its kind, or from a text in its place. -/
theorem explains_splitShape (hsource : source ≠ .streamed) {j : Json} {flaw : Flaw}
    (h : splitShape source (Outline.ofJson j) = .error flaw) : Explains (.shape source) j flaw := by
  have hkind : ∀ document ∈ j.kinds,
      Shape.Kind.read source (Outline.ofJson document) = .error flaw →
        Explains (.shape source) j flaw := fun document hmem hread =>
    .of_part (List.mem_append_left _ (List.mem_map_of_mem hmem)) (accounts_kind document flaw hread)
  cases j with
  | object entries =>
    rcases except_bind_eq_error.mp h with hsplit | ⟨⟨kind, rest⟩, -, hlate⟩
    · rcases splitEntries_error hsource hsplit with rfl | ⟨document, hmem, hread⟩
      · trivial
      · exact hkind document hmem hread
    · have hmalformed := (failsMalformed_required kind).bind (fun _ => .ok _) flaw hlate
      rw [hmalformed]
      trivial
  | array items =>
    cases items with
    | nil =>
      cases h
      trivial
    | cons item items =>
      rcases except_bind_eq_error.mp h with hread | ⟨found, -, hlate⟩
      · exact hkind item List.mem_cons_self hread
      · split at hlate <;> cases hlate
        trivial
  | _ =>
    cases h
    exact explains_misfit rfl _

/-- The fields of a shape are read from a part of its document. -/
theorem splitShape_ok (hsource : source ≠ .streamed) {j : Json} {found : Shape.Kind}
    {content : Outline} (h : splitShape source (Outline.ofJson j) = .ok (found, content)) :
    content = Outline.ofJson j.withoutKind ∧
      (.content .buffered found, j.withoutKind) ∈ (Place.shape source).parts j := by
  have hpart : ∀ document ∈ j.kinds, Shape.Kind.read source (Outline.ofJson document) = .ok found →
      (Place.content .buffered found, j.withoutKind) ∈ (Place.shape source).parts j := by
    intro document hmem hread
    refine List.mem_append_right _ (List.mem_filterMap.mpr ⟨document, hmem, ?_⟩)
    rw [hread]
  cases j with
  | object entries =>
    obtain ⟨⟨kind, rest⟩, hsplit, hlate⟩ := except_bind_eq_ok.mp h
    obtain ⟨hrest, hkind⟩ := splitEntries_ok hsource hsplit
    obtain ⟨found', hrequired, hcontent⟩ := except_bind_eq_ok.mp hlate
    cases kind with
    | none => cases hrequired
    | some found'' =>
      cases hrequired
      cases hcontent
      refine ⟨by rw [hrest]; rfl, ?_⟩
      rcases hkind _ rfl with hnone | ⟨document, hmem, hread⟩
      · cases hnone
      · exact hpart document hmem hread
  | array items =>
    cases items with
    | nil => cases h
    | cons item items =>
      obtain ⟨found', hread, hlate⟩ := except_bind_eq_ok.mp h
      split at hlate <;> cases hlate
      exact ⟨rfl, hpart item List.mem_cons_self hread⟩
  | _ => cases h

end Kinds

theorem accounts_readPrimitive : Accounts .primitive (readChoice Primitive.ofName? .buffered) :=
  accounts_readChoice (by decide) (fun _ => rfl) (fun _ _ => rfl)
    (fun _ => not_mem_of_find?_eq_none) fun _ _ => rfl

theorem accounts_readExtensibility :
    Accounts .extensibility (readChoice Extensibility.ofName? .stored) :=
  accounts_readChoice (by decide) (fun _ => rfl) (fun _ _ => rfl)
    (fun _ => not_mem_of_find?_eq_none) fun _ _ => rfl

theorem accounts_readCount : Accounts .number readCount :=
  (accounts_readInt _ _).bind fun _ => FailsMalformed.ok _

theorem accounts_readLabel : Accounts .number readLabel :=
  (accounts_readInt _ _).bind fun _ => FailsMalformed.ok _

section Named

variable {α : Type} {field : String} {content : Outline → Reading α} {inner : Place}

theorem accounts_stepName (parts : NamedParts α) :
    Accounts .text (stepNamed field content parts "name") := by
  intro j flaw hflaw
  rw [stepNamed, if_pos rfl] at hflaw
  exact accounts_readText.explains_once hflaw

theorem accounts_stepLabels (parts : NamedParts α) :
    Accounts (.list .number) (stepNamed field content parts "labels") := by
  intro j flaw hflaw
  rw [stepNamed, if_neg (by decide), if_pos rfl] at hflaw
  exact accounts_readLabel.list.explains_once hflaw

theorem accounts_stepContent (h : Accounts inner content) (hname : field ≠ "name")
    (hlabels : field ≠ "labels") (parts : NamedParts α) :
    Accounts inner (stepNamed field content parts field) := by
  intro j flaw hflaw
  rw [stepNamed, if_neg hname, if_neg hlabels, if_pos rfl] at hflaw
  exact h.explains_once hflaw

/-- Every field of a named thing is read at its place. -/
theorem forall_stepNamed (h : Accounts inner content) (hname : field ≠ "name")
    (hlabels : field ≠ "labels") :
    ∀ place ∈ [("name", Place.text), (field, inner)], ∀ parts,
      Accounts place.2 (stepNamed field content parts place.1) :=
  List.forall_mem_cons.mpr ⟨accounts_stepName,
    List.forall_mem_cons.mpr ⟨accounts_stepContent h hname hlabels, List.forall_mem_nil _⟩⟩

end Named

theorem accounts_readEnumerator : Accounts .enumerator readEnumerator := by
  refine Accounts.bind (accounts_readRecord .enumerator rfl (fun _ => rfl)
    (fun _ _ => rfl) (forall_stepNamed (accounts_readInt _ _) (by decide) (by decide))) fun _ => ?_
  exact failsMalformed_pair _ _ _

section Shapes

variable {source : Source} {shape : Outline → Reading Shape}

theorem accounts_readDefaultCase (h : Accounts (.shape source) shape) :
    Accounts (.fallback source) (readDefaultCase shape) := by
  refine Accounts.bind (accounts_readRecord (.fallback source) rfl (fun _ => rfl)
    (fun _ _ => rfl) (forall_stepNamed h (by decide) (by decide))) fun _ => ?_
  exact failsMalformed_pair _ _ _

theorem accounts_readMember (h : Accounts (.shape .stored) shape) :
    Accounts .member (readMember shape) := by
  refine Accounts.bind (accounts_readRecord .member rfl (fun _ => rfl)
    (fun _ _ => rfl) (forall_stepNamed h (by decide) (by decide))) fun _ => ?_
  exact failsMalformed_pair _ _ _

theorem accounts_readCase (h : Accounts (.shape source) shape) :
    Accounts (.case source) (readCase shape) := by
  have hfields : ∀ field ∈ (Place.case source).fields, ∀ parts,
      Accounts field.2 (stepNamed "shape" shape parts field.1) :=
    List.forall_mem_cons.mpr ⟨accounts_stepName, List.forall_mem_cons.mpr ⟨accounts_stepLabels,
      List.forall_mem_cons.mpr ⟨accounts_stepContent h (by decide) (by decide),
        List.forall_mem_nil _⟩⟩⟩
  refine Accounts.bind (accounts_readRecord (.case source) rfl (fun _ => rfl)
    (fun _ _ => rfl) hfields) fun _ => ?_
  exact (failsMalformed_required _).bind fun _ => (failsMalformed_required _).bind fun _ =>
    (failsMalformed_required _).bind fun _ => .ok _

/-- Every field of a shape is read at its place. -/
theorem accounts_stepShape (h : Accounts (.shape source) shape) (parts : ShapeParts)
    (name : String) : Accounts (Place.ofField source name) (stepShape shape parts name) := by
  intro j flaw hflaw
  -- The cases are the fields in the order of the reader; any other field is taken as it is.
  rw [stepShape.eq_def] at hflaw
  split at hflaw
  · exact accounts_readPrimitive.explains_once hflaw
  · exact accounts_readCount.optional.explains_once hflaw
  · exact accounts_readCount.explains_once hflaw
  · exact h.explains_once hflaw
  · exact h.explains_once hflaw
  · exact h.explains_once hflaw
  · exact h.explains_once hflaw
  · exact accounts_readText.explains_once hflaw
  · exact accounts_readEnumerator.list.explains_once hflaw
  · exact h.explains_once hflaw
  · exact (accounts_readCase h).list.explains_once hflaw
  · exact (accounts_readDefaultCase h).optional.explains_once hflaw
  · exact accounts_readBool.explains_once hflaw
  · cases hflaw

theorem accounts_content (h : Accounts (.shape source) shape) (found : Shape.Kind) :
    Accounts (.content source found) (readRecord found.fields (stepShape shape) { } true) := by
  have hnames : (Place.content source found).fields.map (·.1) = found.fields := by
    cases found <;> rfl
  rw [← hnames]
  refine accounts_readRecord (.content source found) rfl (fun _ => rfl) (fun _ _ => rfl) ?_
  exact List.forall_mem_map.mpr fun name _ parts => accounts_stepShape h parts name

/-- The shapes within a shape are buffered, wherever the shape itself comes from. -/
theorem accounts_readShape (depth : Nat) (hsource : source ≠ .streamed) :
    Accounts (.shape source) (readShape depth source) := by
  -- What nests beyond the depth is malformed, so the depth needs no hypothesis.
  induction depth generalizing source with
  | zero =>
    intro j flaw hflaw
    cases hflaw
    trivial
  | succ depth ih =>
    intro j flaw hflaw
    rcases except_bind_eq_error.mp hflaw with hsplit | ⟨⟨found, content⟩, hsplit, hlate⟩
    · exact explains_splitShape hsource hsplit
    · obtain ⟨rfl, hpart⟩ := splitShape_ok hsource hsplit
      have hinner : Accounts (.shape .buffered) (readShape depth .buffered) := ih (by decide)
      have hcontent := (accounts_content hinner found).bind fun parts =>
        failsMalformed_shape parts found
      exact .of_part hpart (hcontent _ flaw hlate)

end Shapes

theorem accounts_readStruct {shape : Outline → Reading Shape}
    (h : Accounts (.shape .stored) shape) :
    Accounts .members (readRecord ["members"]
      (stepNamed "members" fun o => o.readList (readMember shape)) { } false) := by
  refine accounts_readRecord .members rfl (fun _ => rfl) nofun ?_
  exact List.forall_mem_cons.mpr ⟨accounts_stepContent (accounts_readMember h).list (by decide)
    (by decide), List.forall_mem_nil _⟩

theorem explains_readBodyOf {kind : String} {j : Json} {flaw : Flaw}
    (h : readBodyOf .stored kind (Outline.ofJson j) = .error flaw) :
    flaw = .unknownVariant kind ∧ kind ∉ bodyKinds ∨
      ∃ place, Place.ofBody? kind = some place ∧ Explains place j flaw := by
  have hshape : Accounts (.shape .stored) (readShape (Outline.ofJson j).depth .stored) :=
    accounts_readShape _ (by decide)
  unfold readBodyOf at h
  split at h
  · refine Or.inr ⟨.members, rfl, ?_⟩
    refine Accounts.bind (accounts_readStruct hshape) (fun parts => ?_) j flaw h
    exact (failsMalformed_required _).bind fun _ => .ok _
  · refine Or.inr ⟨.content .stored .union, rfl, ?_⟩
    refine Accounts.bind (accounts_content hshape .union) (fun parts => ?_) j flaw h
    have hunion : FailsMalformed parts.union := failsMalformed_pair _ _ _
    exact hunion.bind fun _ => .ok _
  · refine Or.inr ⟨.content .stored .enumeration, rfl, ?_⟩
    refine Accounts.bind (accounts_content hshape .enumeration) (fun parts => ?_) j flaw h
    exact (failsMalformed_required _).bind fun _ => .ok _
  · rename_i hstruct hunion henum
    cases h
    refine Or.inl ⟨rfl, ?_⟩
    rw [bodyKinds]
    simpa using ⟨hstruct, hunion, henum⟩

theorem accounts_readBody : Accounts .body (readBody .stored) := by
  intro j flaw hflaw
  match j with
  | .string kind =>
    rw [Outline.ofJson, readBody] at hflaw
    split at hflaw <;> cases hflaw
    · trivial
    · rename_i hkind
      exact ⟨.body, .string kind, .here _, rfl, hkind⟩
  | .object [(kind, content)] =>
    rw [Outline.ofJson, ofJsonEntries, ofJsonEntries, readBody, if_neg (by simp)] at hflaw
    rcases except_bind_eq_error.mp hflaw with hbody | ⟨_, -, ⟨⟩⟩
    rcases explains_readBodyOf hbody with ⟨rfl, hkind⟩ | ⟨place, hplace, hexplains⟩
    · exact ⟨.body, _, .here _, rfl, hkind⟩
    · have hpart : (place, content) ∈ Place.body.parts (.object [(kind, content)]) := by
        show _ ∈ (Place.ofBody? kind).toList.map _
        rw [hplace]
        exact List.mem_singleton_self _
      exact .of_part hpart hexplains
  | .object ((kind, content) :: _ :: _) =>
    rw [Outline.ofJson, ofJsonEntries, ofJsonEntries, readBody, if_pos (by simp)] at hflaw
    cases hflaw
    trivial
  | .object [] | .null | .bool _ | .number _ | .array _ =>
    cases hflaw
    trivial

theorem accounts_step (parts : Parts) :
    ∀ field ∈ Place.declaration.fields, Accounts field.2 (step .stored parts field.1) := by
  intro field hfield j flaw hflaw
  simp only [Place.fields, List.mem_cons, List.not_mem_nil, or_false] at hfield
  rw [step.eq_def] at hflaw
  rcases hfield with rfl | rfl | rfl | rfl
  · exact accounts_readText.explains_once hflaw
  · exact accounts_readExtensibility.explains_once hflaw
  · exact accounts_readText.list.optional.explains_once hflaw
  · exact accounts_readBody.explains_once hflaw

theorem accounts_read : Accounts .declaration (read .stored) := by
  refine Accounts.bind (accounts_readRecord .declaration rfl (fun _ => rfl)
    (fun _ _ => rfl) fun field hfield parts => accounts_step parts field hfield) fun parts => ?_
  exact failsMalformed_pair _ _ _

/-- A struct with a text for its members. -/
def mistyped (text : String) : Json :=
  .object [("body", .object [("struct", .object [("members", .string text)])]),
    ("name", .string "A")]

/-- Whether the fault is one of the shape depends on the text alone. -/
theorem ofJson_mistyped (text : String) :
    ofJson (mistyped text) = .error
      (if phrase <:+: text.toList then
        (Cause.unencodable "<json>" (Flaw.wrongString text).message).fault
      else (Cause.invalidSchema "<json>" (Flaw.wrongString text).message).fault) := by
  have hread : ofJson (mistyped text) = .error (faultOf (.wrongString text)) := rfl
  rw [hread, faultOf_eq]
  rfl

/-- The struct names every alternative rightly. -/
theorem not_misnamed_mistyped (text : String) : ¬ Misnamed .declaration (mistyped text) := by
  have hmembers : ¬ Misnamed .members (.object [("members", .string text)]) :=
    not_misnamed nofun (List.forall_mem_cons.mpr
      ⟨not_misnamed nofun (List.forall_mem_nil _), List.forall_mem_nil _⟩)
  have hbody : ¬ Misnamed .body (.object [("struct", .object [("members", .string text)])]) := by
    refine not_misnamed ?_ (List.forall_mem_cons.mpr ⟨hmembers, List.forall_mem_nil _⟩)
    rintro name ⟨⟨⟩, hunknown⟩
    exact hunknown (by decide)
  have hname : ¬ Misnamed .text (.string "A") := not_misnamed nofun (List.forall_mem_nil _)
  exact not_misnamed nofun
    (List.forall_mem_cons.mpr ⟨hbody, List.forall_mem_cons.mpr ⟨hname, List.forall_mem_nil _⟩⟩)

/-- A document that is no declaration has the fault of the flaw that is found first: one of the
shape if the text of the flaw has the telling words, and one of the schema if not.  It is one of the
shape only where the document names an alternative that does not exist, or has a string with those
words in the place of something else. -/
theorem fault_of_ofJson {j : Json} {fault : Fault} (h : ofJson j = .error fault) :
    ∃ flaw, read .stored (Outline.ofJson j) = .error flaw ∧
      (fault = (Cause.invalidSchema "<json>" flaw.message).fault ∧ ¬ Suspect flaw ∨
        fault = (Cause.unencodable "<json>" flaw.message).fault ∧ Suspect flaw ∧
          (Misnamed .declaration j ∨ Misleading .declaration j)) := by
  unfold ofJson at h
  cases hread : read .stored (Outline.ofJson j) with
  | ok d =>
    rw [hread] at h
    cases h
  | error flaw =>
    rw [hread] at h
    cases h
    refine ⟨flaw, rfl, ?_⟩
    rw [faultOf_eq]
    split
    · rename_i hsuspect
      refine Or.inr ⟨rfl, hsuspect, ?_⟩
      have hexplains := accounts_read j flaw hread
      cases flaw with
      | unknownVariant name =>
        obtain ⟨place, part, hhas, hname⟩ := hexplains
        exact Or.inl ⟨place, part, name, hhas, hname⟩
      | wrongString text =>
        obtain ⟨place, hhas, hwants⟩ := hexplains
        exact Or.inr ⟨place, text, hhas, hwants, hsuspect⟩
      | malformed => cases hsuspect
    · rename_i hsuspect
      exact Or.inl ⟨rfl, hsuspect⟩

/-- A text without the telling words makes it a fault of the schema. -/
theorem fault_of_ofJson_points :
    let fault := (Cause.invalidSchema "<json>" (Flaw.wrongString "points").message).fault
    ofJson (mistyped "points") = .error fault ∧
      ∃ flaw, read .stored (Outline.ofJson (mistyped "points")) = .error flaw ∧
        (fault = (Cause.invalidSchema "<json>" flaw.message).fault ∧ ¬ Suspect flaw ∨
          fault = (Cause.unencodable "<json>" flaw.message).fault ∧ Suspect flaw ∧
            (Misnamed .declaration (mistyped "points") ∨
              Misleading .declaration (mistyped "points"))) := by
  have hfault : ofJson (mistyped "points") =
      .error (Cause.invalidSchema "<json>" (Flaw.wrongString "points").message).fault := by
    rw [ofJson_mistyped, if_neg (by decide)]
  exact ⟨hfault, fault_of_ofJson hfault⟩

/-- A text with the telling words is taken for an alternative that does not exist. -/
theorem ofJson_unknown_variant :
    (∃ reason, ofJson (mistyped "unknown variant") =
        .error (Cause.unencodable "<json>" reason).fault) ∧
      ¬ Misnamed .declaration (mistyped "unknown variant") := by
  refine ⟨⟨(Flaw.wrongString "unknown variant").message, ?_⟩, not_misnamed_mistyped _⟩
  rw [ofJson_mistyped, if_pos (by decide)]

end Cdr.Declaration
