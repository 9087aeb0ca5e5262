import Cdr.Proofs.Lawful
import Cdr.Proofs.Parts
import Cdr.Proofs.Selecting
import Mathlib.Data.List.Forall2

/-! The references of built layouts.  A layout is made of the layouts of what its shape is made of,
except that the discriminator of a union is no part of the layout.  So the references in a layout
are those to the names that the shape carries, and a declaration refers to no other names than those
and the ones that choose tags. -/

namespace Cdr

theorem exists_of_forall₂ {α β : Type} {R : α → β → Prop} {xs : List α} {ys : List β}
    (h : List.Forall₂ R xs ys) {x : α} (hx : x ∈ xs) : ∃ y ∈ ys, R x y := by
  induction h with
  | nil => cases hx
  | cons hxy _ ih =>
    rcases List.mem_cons.mp hx with rfl | hrest
    · exact ⟨_, List.mem_cons_self, hxy⟩
    · obtain ⟨y, hy, hxy⟩ := ih hrest
      exact ⟨y, List.mem_cons_of_mem _ hy, hxy⟩

namespace Shape

/-- The shapes that the values of a shape are made of. -/
def contents : Shape → List Shape
  | array element _ | sequence element _ | optional element => [element]
  | map key value _ => [key, value]
  | union u => u.cases.map (·.content) ++ (u.fallback.map (·.content)).toList
  | primitive _ | string _ | bytes _ | enumeration _ | named _ => []

/-- Values of the shape are made of values of the other one, at any depth, or are such values. -/
inductive Carries : Shape → Shape → Prop
  | here (s : Shape) : Carries s s
  | content {s content inner : Shape} (hcontent : content ∈ s.contents)
    (h : Carries content inner) : Carries s inner

variable {s content : Shape} {name : String}

theorem sizeOf_lt_of_mem_contents (h : content ∈ s.contents) : sizeOf content < sizeOf s := by
  cases s with
  | union u =>
    obtain ⟨discriminator, cases, fallback, keyed⟩ := u
    rcases List.mem_append.mp h with hcase | hdefault
    · obtain ⟨⟨name, labels, content⟩, hc, rfl⟩ := List.mem_map.mp hcase
      have := List.sizeOf_lt_of_mem hc
      simp only [Case.mk.sizeOf_spec, union.sizeOf_spec, UnionOf.mk.sizeOf_spec] at this ⊢
      omega
    · obtain ⟨⟨name, content⟩, rfl, rfl⟩ : ∃ f, fallback = some f ∧ f.content = content := by
        simpa using hdefault
      simp only [union.sizeOf_spec, UnionOf.mk.sizeOf_spec, Option.some.sizeOf_spec,
        DefaultCase.mk.sizeOf_spec]
      omega
  | map key value bound =>
    rcases List.mem_pair.mp h with rfl | rfl <;> simp only [map.sizeOf_spec] <;> omega
  | array element length =>
    obtain rfl := List.mem_singleton.mp h
    simp only [array.sizeOf_spec]
    omega
  | sequence element bound =>
    obtain rfl := List.mem_singleton.mp h
    simp only [sequence.sizeOf_spec]
    omega
  | optional inner =>
    obtain rfl := List.mem_singleton.mp h
    simp
  | _ => cases h

/-- What holds of a shape if it holds of its contents holds of every shape. -/
@[elab_as_elim]
theorem induction_on_contents {motive : Shape → Prop}
    (shape : ∀ s, (∀ content ∈ s.contents, motive content) → motive s) (s : Shape) : motive s :=
  shape s fun content _ => induction_on_contents shape content
termination_by sizeOf s
decreasing_by
  rename_i h
  exact sizeOf_lt_of_mem_contents h

theorem mem_caseNames {cases : List (Case Shape)} :
    name ∈ caseNames cases ↔ ∃ c ∈ cases, name ∈ c.content.names := by
  induction cases with
  | nil => simp [caseNames]
  | cons c cases ih => simp [caseNames, ih]

/-- A shape refers to the names that its contents refer to, to its own and to that which chooses its
tag. -/
theorem mem_names_iff :
    name ∈ s.names ↔ (∃ content ∈ s.contents, name ∈ content.names) ∨ s = named name ∨
      ∃ u, s = union u ∧ name ∈ u.discriminator.names := by
  cases s with
  | union u =>
    obtain ⟨discriminator, cases, fallback, keyed⟩ := u
    cases fallback with
    | none => simp [names, contents, fallbackNames, mem_caseNames, or_comm]
    | some f =>
      simp only [names, contents, fallbackNames, mem_caseNames, List.mem_append, List.mem_map,
        Option.map_some, Option.toList_some, List.mem_singleton, reduceCtorEq, false_or]
      grind
  | named other => simp [names, contents, eq_comm]
  | _ => simp [names, contents]

/-- The names that a shape refers to are those that it carries and those that choose tags. -/
theorem mem_names_iff_carries :
    name ∈ s.names ↔ s.Carries (named name) ∨
      ∃ u, s.Carries (union u) ∧ name ∈ u.discriminator.names := by
  induction s using induction_on_contents with
  | shape s ih =>
    rw [mem_names_iff]
    constructor
    · rintro (⟨content, hcontent, hname⟩ | rfl | ⟨u, rfl, hname⟩)
      · rcases (ih content hcontent).mp hname with hcarries | ⟨u, hcarries, htag⟩
        · exact Or.inl (.content hcontent hcarries)
        · exact Or.inr ⟨u, .content hcontent hcarries, htag⟩
      · exact Or.inl (.here _)
      · exact Or.inr ⟨u, .here _, hname⟩
    · rintro (hcarries | ⟨u, hcarries, htag⟩)
      · cases hcarries with
        | here => exact Or.inr (Or.inl rfl)
        | content hcontent h =>
          exact Or.inl ⟨_, hcontent, (ih _ hcontent).mpr (Or.inl h)⟩
      · cases hcarries with
        | here => exact Or.inr (Or.inr ⟨u, rfl, htag⟩)
        | content hcontent h =>
          exact Or.inl ⟨_, hcontent, (ih _ hcontent).mpr (Or.inr ⟨u, h, htag⟩)⟩

end Shape

namespace Site

variable {s : Site} {role : Role} {shape inner : Shape} {l part : Layout}

theorem forall₂_layoutCases {cases : List (Case Shape)} {layouts : List (Case Layout)}
    (h : s.layoutCases role cases = .ok layouts) :
    List.Forall₂ (fun shape l => s.layout role shape = .ok l) (cases.map (·.content))
      (layouts.map (·.content)) := by
  induction cases generalizing layouts with
  | nil =>
    cases h
    exact .nil
  | cons c cases ih =>
    obtain ⟨content, rest, hcontent, hrest, rfl⟩ := layoutCases_cons h
    exact .cons hcontent (ih hrest)

theorem forall₂_layoutMembers {members : List (Member Shape)} {layouts : List (Member Layout)}
    (h : s.layoutMembers role members = .ok layouts) :
    List.Forall₂ (fun shape l => s.layout role shape = .ok l) (members.map (·.content))
      (layouts.map (·.content)) := by
  induction members generalizing layouts with
  | nil =>
    cases h
    exact .nil
  | cons m members ih =>
    obtain ⟨content, rest, hcontent, hrest, rfl⟩ := layoutMembers_cons h
    exact .cons hcontent (ih hrest)

/-- A layout is made of the layouts of the contents of its shape. -/
theorem forall₂_contents (h : s.layout role shape = .ok l) :
    List.Forall₂ (fun shape l => s.layout role shape = .ok l) shape.contents l.children := by
  cases shape with
  | array element length =>
    obtain ⟨inner, hinner, rfl⟩ := layout_array h
    exact .cons hinner .nil
  | sequence element bound =>
    obtain ⟨inner, hinner, rfl⟩ := layout_sequence h
    exact .cons hinner .nil
  | map key value bound =>
    obtain ⟨k, x, hk, hx, rfl⟩ := layout_map h
    exact .cons hk (.cons hx .nil)
  | optional element =>
    obtain ⟨inner, hinner, rfl⟩ := layout_optional h
    exact .cons hinner .nil
  | union u =>
    obtain ⟨built, rfl, hb⟩ := layout_union h
    refine List.rel_append (forall₂_layoutCases hb.cases) ?_
    have hfallback := hb.fallback
    generalize u.fallback = declared at hfallback ⊢
    generalize built.fallback = laidOut at hfallback ⊢
    cases hfallback with
    | none => exact .nil
    | some hcontent => exact .cons hcontent .nil
  | enumeration enumerators =>
    obtain ⟨-, rfl⟩ := layout_enumeration h
    exact .nil
  | named name =>
    obtain ⟨id, d, -, rfl⟩ := layout_named h
    exact .nil
  | primitive p | string bound | bytes bound =>
    cases h
    exact .nil

theorem exists_layout_of_carries (hcarries : shape.Carries inner)
    (h : s.layout role shape = .ok l) :
    ∃ part, s.layout role inner = .ok part ∧ l.Holds part := by
  induction hcarries generalizing l with
  | here => exact ⟨l, h, .here l⟩
  | content hcontent _ ih =>
    obtain ⟨child, hchild, hlayout⟩ := exists_of_forall₂ (forall₂_contents h) hcontent
    obtain ⟨part, hpart, hholds⟩ := ih hlayout
    exact ⟨part, hpart, .child hchild hholds⟩

theorem exists_shape_of_holds (hholds : l.Holds part) (h : s.layout role shape = .ok l) :
    ∃ inner, s.layout role inner = .ok part ∧ shape.Carries inner := by
  induction hholds generalizing shape with
  | here => exact ⟨shape, h, .here shape⟩
  | child hchild _ ih =>
    obtain ⟨content, hcontent, hlayout⟩ := exists_of_forall₂ (forall₂_contents h).flip hchild
    obtain ⟨inner, hinner, hcarries⟩ := ih hlayout
    exact ⟨inner, hinner, .content hcontent hcarries⟩

theorem layout_eq_reference {target : Reference} :
    s.layout role shape = .ok (.reference target) ↔
      shape = .named target.name ∧ Resolves s.resolve role target := by
  constructor
  · intro h
    cases shape with
    | named name =>
      obtain ⟨id, d, hresolve, heq⟩ := layout_named h
      cases heq
      exact ⟨rfl, rfl, d, hresolve⟩
    | array element length => obtain ⟨_, _, ⟨⟩⟩ := layout_array h
    | sequence element bound => obtain ⟨_, _, ⟨⟩⟩ := layout_sequence h
    | map key value bound => obtain ⟨_, _, _, _, ⟨⟩⟩ := layout_map h
    | optional element => obtain ⟨_, _, ⟨⟩⟩ := layout_optional h
    | union u => obtain ⟨_, ⟨⟩, _⟩ := layout_union h
    | enumeration enumerators => obtain ⟨_, ⟨⟩⟩ := layout_enumeration h
    | primitive p | string bound | bytes bound => cases h
  · obtain ⟨name, id, targetRole⟩ := target
    rintro ⟨rfl, rfl, d, hresolve⟩
    simp only [layout, lookup]
    rw [hresolve]
    rfl

/-- A layout holds references to the names that its shape carries, with the places that these
resolve to, and no other references. -/
theorem holds_reference_iff (h : s.layout role shape = .ok l) {target : Reference} :
    l.Holds (.reference target) ↔
      shape.Carries (.named target.name) ∧ Resolves s.resolve role target := by
  constructor
  · intro hholds
    obtain ⟨inner, hinner, hcarries⟩ := exists_shape_of_holds hholds h
    obtain ⟨rfl, hresolves⟩ := layout_eq_reference.mp hinner
    exact ⟨hcarries, hresolves⟩
  · rintro ⟨hcarries, hresolves⟩
    obtain ⟨part, hpart, hholds⟩ := exists_layout_of_carries hcarries h
    rw [layout_eq_reference.mpr ⟨rfl, hresolves⟩] at hpart
    cases hpart
    exact hholds

/-- A struct holds references to the names that its members carry, and no others. -/
theorem holds_reference_struct_iff {members : List (Member Shape)} {layouts : List (Member Layout)}
    (h : s.layoutMembers role members = .ok layouts) {name : String} {target : Reference} :
    (Layout.struct name layouts).Holds (.reference target) ↔
      (∃ m ∈ members, m.content.Carries (.named target.name)) ∧
        Resolves s.resolve role target := by
  have hcontents := forall₂_layoutMembers h
  constructor
  · intro hholds
    obtain - | ⟨hchild, hinner⟩ := hholds
    obtain ⟨shape, hshape, hlayout⟩ := exists_of_forall₂ hcontents.flip hchild
    obtain ⟨m, hm, rfl⟩ := List.mem_map.mp hshape
    obtain ⟨hcarries, hresolves⟩ := (holds_reference_iff hlayout).mp hinner
    exact ⟨⟨m, hm, hcarries⟩, hresolves⟩
  · rintro ⟨⟨m, hm, hcarries⟩, hresolves⟩
    obtain ⟨child, hchild, hlayout⟩ := exists_of_forall₂ hcontents (List.mem_map_of_mem hm)
    exact .child hchild ((holds_reference_iff hlayout).mpr ⟨hcarries, hresolves⟩)

end Site

namespace Declaration

/-- Values of the declared type are made of values of the shape, at any depth. -/
def Carries (d : Declaration) (inner : Shape) : Prop := ∃ top ∈ d.shapes, top.Carries inner

variable {d : Declaration} {name : String}

theorem mem_mentions : name ∈ d.mentions ↔ ∃ top ∈ d.shapes, name ∈ top.names := by
  unfold mentions shapes
  cases d.body with
  | struct members => simp
  | union u => simp
  | enumeration enumerators => simp [Shape.names]

/-- The names that a declaration refers to are those that it carries and those that choose tags. -/
theorem mem_referencedNames_iff_carries :
    name ∈ d.referencedNames ↔ d.Carries (.named name) ∨
      ∃ u, d.Carries (.union u) ∧ name ∈ u.discriminator.names := by
  rw [mem_referencedNames, mem_mentions]
  constructor
  · rintro ⟨top, htop, hname⟩
    rcases Shape.mem_names_iff_carries.mp hname with hcarries | ⟨u, hcarries, htag⟩
    · exact Or.inl ⟨top, htop, hcarries⟩
    · exact Or.inr ⟨u, ⟨top, htop, hcarries⟩, htag⟩
  · rintro (⟨top, htop, hcarries⟩ | ⟨u, ⟨top, htop, hcarries⟩, htag⟩)
    · exact ⟨top, htop, Shape.mem_names_iff_carries.mpr (Or.inl hcarries)⟩
    · exact ⟨top, htop, Shape.mem_names_iff_carries.mpr (Or.inr ⟨u, hcarries, htag⟩)⟩

end Declaration

namespace Layouts

variable {resolve : String → Option (Nat × Declaration)} {d : Declaration} {layouts : Layouts}
  {target : Reference}

/-- The layout of all members holds references to the names that the declaration carries. -/
theorem holds_full_iff (h : build resolve d = .ok layouts) :
    layouts.full.Holds (.reference target) ↔
      d.Carries (.named target.name) ∧ Resolves resolve .full target := by
  unfold Declaration.Carries Declaration.shapes
  cases hbody : d.body with
  | struct members =>
    obtain ⟨full, key, hfull, -, rfl⟩ := build_struct hbody h
    rw [Site.holds_reference_struct_iff hfull]
    simp
  | union u =>
    obtain ⟨full, key, hfull, -, rfl⟩ := build_union hbody h
    rw [Site.holds_reference_iff hfull]
    simp
  | enumeration enumerators =>
    obtain ⟨-, rfl⟩ := build_enumeration hbody h
    constructor
    · rintro (- | ⟨⟨⟩, -⟩)
    · rintro ⟨⟨top, htop, hcarries⟩, -⟩
      obtain rfl := List.mem_singleton.mp htop
      obtain - | ⟨⟨⟩, -⟩ := hcarries

/-- The layout of the key members holds references to such names only. -/
theorem carries_of_holds_memberKey (h : build resolve d = .ok layouts)
    (hholds : layouts.memberKey.Holds (.reference target)) :
    d.Carries (.named target.name) ∧ Resolves resolve .key target := by
  unfold Declaration.Carries Declaration.shapes
  cases hbody : d.body with
  | struct members =>
    obtain ⟨full, key, -, hkey, rfl⟩ := build_struct hbody h
    obtain ⟨⟨m, hm, hcarries⟩, hresolves⟩ := (Site.holds_reference_struct_iff hkey).mp hholds
    exact ⟨⟨_, List.mem_map_of_mem (List.mem_filter.mp hm).1, hcarries⟩, hresolves⟩
  | union u =>
    obtain ⟨full, key, -, hkey, rfl⟩ := build_union hbody h
    obtain ⟨hcarries, hresolves⟩ := (Site.holds_reference_iff hkey).mp hholds
    exact ⟨⟨_, List.mem_singleton_self _, hcarries⟩, hresolves⟩
  | enumeration enumerators =>
    obtain ⟨-, rfl⟩ := build_enumeration hbody h
    obtain - | ⟨⟨⟩, -⟩ := hholds

theorem carries_of_holds_key (h : build resolve d = .ok layouts)
    (hholds : layouts.key.Holds (.reference target)) :
    d.Carries (.named target.name) ∧ Resolves resolve .key target := by
  rw [key_eq h] at hholds
  split at hholds
  · obtain - | ⟨⟨⟩, -⟩ := hholds
  · exact carries_of_holds_memberKey h hholds

/-- A build comes upon just the names that the declaration refers to, which are those that it
carries and those that choose the tags of its unions.  If it awaits a name, that is the first of
them that is not registered.  If it succeeds, all of them are registered; every reference carries
one of them with the place that it resolves to, in the role of the layout that holds it, and the
layout of all members holds a reference to each name that the declaration carries. -/
theorem build_by_references (resolve : String → Option (Nat × Declaration)) (d : Declaration) :
    (∀ name, name ∈ d.referencedNames ↔ d.Carries (.named name) ∨
      ∃ u, d.Carries (.union u) ∧ name ∈ u.discriminator.names) ∧
    (∀ name, build resolve d = .error (.awaits name) →
      d.referencedNames.find? (fun name => (resolve name).isNone) = some name) ∧
    ∀ layouts, build resolve d = .ok layouts →
      (∀ name ∈ d.referencedNames, (resolve name).isSome) ∧
      (∀ target, layouts.full.Holds (.reference target) →
        target.name ∈ d.referencedNames ∧ Resolves resolve .full target) ∧
      (∀ l ∈ [layouts.memberKey, layouts.key], ∀ target, l.Holds (.reference target) →
        target.name ∈ d.referencedNames ∧ Resolves resolve .key target) ∧
      ∀ name, d.Carries (.named name) → ∃ id other, resolve name = some (id, other) ∧
        layouts.full.Holds (.reference ⟨name, id, .full⟩) := by
  have hrefers : ∀ {name}, d.Carries (.named name) → name ∈ d.referencedNames :=
    fun hcarries => Declaration.mem_referencedNames_iff_carries.mpr (Or.inl hcarries)
  refine ⟨fun name => Declaration.mem_referencedNames_iff_carries, fun name h => ?_,
    fun layouts h => ⟨fun name hname => ?_, fun target hholds => ?_, ?_, fun name hcarries => ?_⟩⟩
  · have hlooks := looksUp_build resolve d
    rw [h] at hlooks
    exact hlooks
  · exact Option.isSome_iff_ne_none.mpr (resolve_of_build h name hname)
  · obtain ⟨hcarries, hresolves⟩ := (holds_full_iff h).mp hholds
    exact ⟨hrefers hcarries, hresolves⟩
  · intro l hl target hholds
    rcases List.mem_pair.mp hl with rfl | rfl
    · obtain ⟨hcarries, hresolves⟩ := carries_of_holds_memberKey h hholds
      exact ⟨hrefers hcarries, hresolves⟩
    · obtain ⟨hcarries, hresolves⟩ := carries_of_holds_key h hholds
      exact ⟨hrefers hcarries, hresolves⟩
  · obtain ⟨⟨id, other⟩, hfound⟩ :=
      Option.ne_none_iff_exists'.mp (resolve_of_build h name (hrefers hcarries))
    exact ⟨id, other, hfound, (holds_full_iff h).mpr ⟨hcarries, rfl, other, hfound⟩⟩

/-- A tree refers to itself, to its labels and to the type of its tags.  Without the labels its
build awaits these, not the tags, which come later.  With all of them it has the references that it
carries. -/
theorem build_by_references_tree :
    let kind : Declaration := { name := "Kind", body := .enumeration [⟨"leaf", 0⟩, ⟨"node", 1⟩] }
    let label : Declaration := { name := "Label", body := .struct [⟨"text", .string none⟩] }
    let tree : Declaration :=
      { name := "Tree"
        keyMembers := some ["label"]
        body := .struct
          [⟨"children", .sequence (.named "Tree") none⟩, ⟨"label", .named "Label"⟩,
            ⟨"content", .union
              ⟨.named "Kind", [⟨"leaf", [0], .primitive .bool⟩,
                ⟨"node", [1], .optional (.named "Label")⟩], none, false⟩⟩] }
    let known : String → Option (Nat × Declaration) := fun name =>
      [("Kind", 4, kind), ("Label", 7, label), ("Tree", 9, tree)].lookup name
    let unlabelled : String → Option (Nat × Declaration) := fun name =>
      [("Tree", 9, tree)].lookup name
    tree.referencedNames = ["Tree", "Label", "Kind"] ∧
      build unlabelled tree = .error (.awaits "Label") ∧
      tree.referencedNames.find? (fun name => (unlabelled name).isNone) = some "Label" ∧
      ∃ layouts, build known tree = .ok layouts ∧
        layouts.full.Holds (.reference ⟨"Tree", 9, .full⟩) ∧
        layouts.full.Holds (.reference ⟨"Label", 7, .full⟩) ∧
        ∀ target, layouts.key.Holds (.reference target) → Resolves known .key target := by
  intro kind label tree known unlabelled
  have hawaits : build unlabelled tree = .error (.awaits "Label") := rfl
  obtain ⟨-, hfirst, -⟩ := build_by_references unlabelled tree
  obtain ⟨hcarried, -, hbuilt⟩ := build_by_references known tree
  have hok : ∃ layouts, build known tree = .ok layouts := ⟨_, rfl⟩
  obtain ⟨layouts, hlayouts⟩ := hok
  obtain ⟨-, -, hkey, hfull⟩ := hbuilt layouts hlayouts
  have htree : tree.Carries (.named "Tree") :=
    ⟨.sequence (.named "Tree") none, by decide, .content (by decide) (.here _)⟩
  have hlabel : tree.Carries (.named "Label") := ⟨.named "Label", by decide, .here _⟩
  obtain ⟨_, _, ⟨⟩, hholdsTree⟩ := hfull "Tree" htree
  obtain ⟨_, _, ⟨⟩, hholdsLabel⟩ := hfull "Label" hlabel
  exact ⟨by decide, hawaits, hfirst _ hawaits, layouts, hlayouts, hholdsTree, hholdsLabel,
    fun target hholds => (hkey _ (List.mem_pair.mpr (Or.inr rfl)) target hholds).2⟩

end Layouts

end Cdr
