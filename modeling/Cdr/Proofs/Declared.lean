import Cdr.Proofs.Building

/-! Normal forms by declaration.  The normal form of a value under a declared type is read off the
declaration alone: integers are carried in the declared type, ordinals become names, and members
that are not declared are dropped.  Along a key, structs keep their key members only and unions that
are keyed by their label lose the payload.  A built layout has the same normal forms. -/

namespace Cdr

namespace Shape

mutual

/-- The normal form of a value under a shape, with `follow` for the declared types that it names. -/
def normalWith (role : Role) (follow : String → Value → Value) : Shape → Value → Value
  | primitive p, v => v.asPrimitive p
  | string _, v => v
  | bytes _, v => v.asBytes
  | array element _, v | sequence element _, v => v.mapItems (normalWith role follow element)
  | map key value _, v =>
    v.mapEntries (normalWith role follow key) (normalWith role follow value)
  | enumeration enumerators, v => v.asEnumerator enumerators
  | union ⟨_, cases, fallback, keyedByLabel⟩, v =>
    match v with
    | .union label payload =>
      .union label <|
        if role == .key && keyedByLabel then .null
        else
          match label with
          | some label => normalCase role follow label payload cases
          | none =>
            match fallback with
            | some ⟨_, content⟩ => normalWith role follow content payload
            | none => payload
    | v => v
  | optional inner, v => if v.isNull then v else normalWith role follow inner v
  | named name, v => follow name v
termination_by structural s => s

/-- The normal form of the payload of the first case with a label. -/
def normalCase (role : Role) (follow : String → Value → Value) (label : Label) (payload : Value) :
    List (Case Shape) → Value
  | [] => payload
  | ⟨_, labels, content⟩ :: cases =>
    if labels.contains label then normalWith role follow content payload
    else normalCase role follow label payload cases
termination_by structural cases => cases

end

end Shape

namespace Declaration

/-- The members of a struct that a layout for references of a role has. -/
def membersFor (d : Declaration) (role : Role) (members : List (Member Shape)) :
    List (Member Shape) :=
  match role with
  | .full => members
  | .key => members.filter d.isKeyPart

theorem nodup_membersFor {d : Declaration} (hvalid : d.validate = .ok ())
    {members : List (Member Shape)} (hbody : d.body = .struct members) (role : Role) :
    ((d.membersFor role members).map (·.name)).Nodup := by
  have hnodup := d.nodup_of_validate hvalid hbody
  cases role with
  | full => exact hnodup
  | key => exact (List.filter_sublist.map _).nodup hnodup

/-- The normal forms of the members of a struct, each with its name. -/
def normalMembers (role : Role) (follow : String → Value → Value) (given : List (String × Value))
    (members : List (Member Shape)) : List (String × Value) :=
  members.filterMap fun m =>
    (Dictionary.find? m.name given).map fun v => (m.name, m.content.normalWith role follow v)

/-- The normal form of a value under a declared type, with `follow` for the types that it names. -/
def normalWith (d : Declaration) (role : Role) (follow : String → Value → Value) (v : Value) :
    Value :=
  match d.body with
  | .struct members =>
    match v.asMembers? with
    | some given => .ofMembers (normalMembers role follow given (d.membersFor role members))
    | none => v
  | .union u => (Shape.union u).normalWith role follow v
  | .enumeration enumerators => v.asEnumerator enumerators

theorem isNull_normalWith (d : Declaration) (role : Role) (follow : String → Value → Value)
    (v : Value) : (d.normalWith role follow v).isNull = v.isNull := by
  unfold normalWith
  split
  · cases v <;> rfl
  · rw [Shape.normalWith.eq_def]
    cases v <;> rfl
  · exact v.isNull_asEnumerator _

end Declaration

namespace Site

variable {s : Site} {role : Role} {named : String → Value → Value}
  {follow : Reference → Value → Value}

mutual

/-- The layout of a shape has the normal forms of the shape. -/
theorem normalWith_layout
    (hfollow : ∀ target, Resolves s.resolve role target → follow target = named target.name)
    {shape : Shape} {l : Layout} (h : s.layout role shape = .ok l) (v : Value) :
    l.normalWith follow v = shape.normalWith role named v := by
  match shape with
  | .primitive _ | .string _ | .bytes _ =>
    cases h
    rfl
  | .array element _ =>
    obtain ⟨inner, hinner, rfl⟩ := layout_array h
    have hitem := funext (normalWith_layout hfollow hinner)
    simp only [Layout.normalWith, Shape.normalWith, hitem]
  | .sequence element _ =>
    obtain ⟨inner, hinner, rfl⟩ := layout_sequence h
    have hitem := funext (normalWith_layout hfollow hinner)
    simp only [Layout.normalWith, Shape.normalWith, hitem]
  | .optional element =>
    obtain ⟨inner, hinner, rfl⟩ := layout_optional h
    simp only [Layout.normalWith, Shape.normalWith, normalWith_layout hfollow hinner]
  | .map key value _ =>
    obtain ⟨k, w, hk, hw, rfl⟩ := layout_map h
    have hkey := funext (normalWith_layout hfollow hk)
    have hvalue := funext (normalWith_layout hfollow hw)
    simp only [Layout.normalWith, Shape.normalWith, hkey, hvalue]
  | .enumeration enumerators =>
    obtain ⟨-, rfl⟩ := layout_enumeration h
    rfl
  | .union ⟨discriminator, cases, none, keyed⟩ =>
    obtain ⟨d, labels, layouts, -, -, hlayouts, rfl⟩ := layout_union_none h
    cases v with
    | union label payload =>
      cases label <;>
        simp only [Layout.normalWith, Shape.normalWith, normalCase_layoutCases hfollow hlayouts]
    | _ => rfl
  | .union ⟨discriminator, cases, some ⟨name, content⟩, keyed⟩ =>
    obtain ⟨d, labels, layouts, sentinel, inner, -, -, hlayouts, -, hinner, rfl⟩ :=
      layout_union_some h
    cases v with
    | union label payload =>
      cases label <;>
        simp only [Layout.normalWith, Shape.normalWith, normalCase_layoutCases hfollow hlayouts,
          normalWith_layout hfollow hinner]
    | _ => rfl
  | .named name =>
    obtain ⟨id, d, hresolve, rfl⟩ := layout_named h
    simp only [Layout.normalWith, Shape.normalWith]
    rw [hfollow ⟨name, id, role⟩ ⟨rfl, d, hresolve⟩]
termination_by structural shape

theorem normalCase_layoutCases
    (hfollow : ∀ target, Resolves s.resolve role target → follow target = named target.name)
    {cases : List (Case Shape)} {layouts : List (Case Layout)}
    (h : s.layoutCases role cases = .ok layouts) (label : Label) (payload : Value) :
    Layout.normalCase follow label payload layouts =
      Shape.normalCase role named label payload cases := by
  match cases with
  | [] =>
    cases h
    rfl
  | ⟨name, labels, content⟩ :: cases =>
    obtain ⟨inner, rest, hinner, hrest, rfl⟩ := layoutCases_cons h
    simp only [Layout.normalCase, Shape.normalCase, normalWith_layout hfollow hinner,
      normalCase_layoutCases hfollow hrest]
termination_by structural cases

end

theorem normalMembers_layoutMembers
    (hfollow : ∀ target, Resolves s.resolve role target → follow target = named target.name)
    {members : List (Member Shape)} {layouts : List (Member Layout)}
    (h : s.layoutMembers role members = .ok layouts) (given : List (String × Value)) :
    Layout.normalMembers follow given layouts =
      Declaration.normalMembers role named given members := by
  induction members generalizing layouts with
  | nil =>
    cases h
    rfl
  | cons m members ih =>
    obtain ⟨content, rest, hcontent, hrest, rfl⟩ := layoutMembers_cons h
    rw [Layout.normalMembers, ih hrest]
    unfold Declaration.normalMembers
    rw [List.filterMap_cons]
    cases Dictionary.find? m.name given with
    | none => rfl
    | some v => simp only [Option.map_some, normalWith_layout hfollow hcontent]

end Site

namespace Layouts

variable {resolve : String → Option (Nat × Declaration)} {d : Declaration} {layouts : Layouts}
  {role : Role} {named : String → Value → Value} {follow : Reference → Value → Value}

theorem normalWith_ofRole
    (hfollow : ∀ target, Resolves resolve role target → follow target = named target.name)
    (h : build resolve d = .ok layouts) (v : Value) :
    (layouts.ofRole role).normalWith follow v = d.normalWith role named v := by
  unfold Declaration.normalWith
  cases hbody : d.body with
  | struct members =>
    obtain ⟨full, key, hfull, hkey, rfl⟩ := build_struct hbody h
    cases v with
    | struct given =>
      cases role with
      | full =>
        exact congrArg Value.ofMembers (Site.normalMembers_layoutMembers hfollow hfull given)
      | key => exact congrArg Value.ofMembers (Site.normalMembers_layoutMembers hfollow hkey given)
    | _ => cases role <;> rfl
  | union u =>
    obtain ⟨full, key, hfull, hkey, rfl⟩ := build_union hbody h
    cases role with
    | full => exact Site.normalWith_layout hfollow hfull v
    | key => exact Site.normalWith_layout hfollow hkey v
  | enumeration enumerators =>
    obtain ⟨-, rfl⟩ := build_enumeration hbody h
    cases role <;> rfl

end Layouts

end Cdr
