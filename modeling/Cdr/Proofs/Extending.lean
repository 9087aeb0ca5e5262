import Cdr.Proofs.Building
import Cdr.Proofs.Renumbering

/-! Builds against more names.  Whatever a build finds out stays true when further names are
registered and registered types have other places: a layout stays the same up to the places, a fault
stays, and a build that awaits a name goes on awaiting it until the name is registered. -/

namespace Cdr

/-- Every name that resolves still does, to the same declaration at a place moved by `g`. -/
def Extends (g : Nat → Nat) (resolve resolve' : String → Option (Nat × Declaration)) : Prop :=
  ∀ name id d, resolve name = some (id, d) → resolve' name = some (g id, d)

/-- The second outcome is what remains of the first against more names. -/
def Kept {α β : Type} (resolve resolve' : String → Option (Nat × Declaration)) (move : α → β)
    (out : Except Obstacle α) (out' : Except Obstacle β) : Prop :=
  match out with
  | .ok x => out' = .ok (move x)
  | .error (.awaits name) =>
    resolve name = none ∧ (resolve' name = none → out' = .error (.awaits name))
  | .error (.fatal fault) => out' = .error (.fatal fault)

namespace Kept

variable {α β γ δ : Type} {resolve resolve' : String → Option (Nat × Declaration)}
  {move : α → β} {move' : γ → δ} {out : Except Obstacle α} {out' : Except Obstacle β}
  {rest : α → Except Obstacle γ} {rest' : β → Except Obstacle δ}

theorem bind (h : Kept resolve resolve' move out out')
    (hrest : ∀ x, out = .ok x → Kept resolve resolve' move' (rest x) (rest' (move x))) :
    Kept resolve resolve' move' (out >>= rest) (out' >>= rest') := by
  match out with
  | .ok x =>
    cases h
    exact hrest x rfl
  | .error (.awaits name) => exact ⟨h.1, fun hnone => by rw [h.2 hnone]; rfl⟩
  | .error (.fatal fault) =>
    cases h
    exact rfl

end Kept

namespace Site

variable {resolve resolve' : String → Option (Nat × Declaration)} {typeName : String}
  {g : Nat → Nat}

theorem kept_checkEnumerators (names : List String) (ordinals : List UInt32)
    (enumerators : List Enumerator) :
    Kept resolve resolve' (fun x => x)
      (checkEnumerators ⟨resolve, typeName⟩ names ordinals enumerators)
      (checkEnumerators ⟨resolve', typeName⟩ names ordinals enumerators) := by
  induction enumerators generalizing names ordinals with
  | nil => rfl
  | cons e rest ih =>
    simp only [checkEnumerators]
    split
    · rfl
    split
    · rfl
    · exact ih _ _

theorem kept_checkEnumeration (name : String) (enumerators : List Enumerator) :
    Kept resolve resolve' (fun x => x)
      (checkEnumeration ⟨resolve, typeName⟩ name enumerators)
      (checkEnumeration ⟨resolve', typeName⟩ name enumerators) := by
  simp only [checkEnumeration]
  split
  · rfl
  · exact kept_checkEnumerators _ _ _

theorem kept_checkLabels (d : Discriminator) (name : String) (seen labels : List Label) :
    Kept resolve resolve' (fun x => x) (checkLabels ⟨resolve, typeName⟩ d name seen labels)
      (checkLabels ⟨resolve', typeName⟩ d name seen labels) := by
  induction labels generalizing seen with
  | nil => rfl
  | cons label rest ih =>
    simp only [checkLabels]
    split
    · rfl
    split
    · rfl
    · exact ih _

theorem kept_checkCases (d : Discriminator) (seen : List Label) (cases : List (Case Shape)) :
    Kept resolve resolve' (fun x => x) (checkCases ⟨resolve, typeName⟩ d seen cases)
      (checkCases ⟨resolve', typeName⟩ d seen cases) := by
  induction cases generalizing seen with
  | nil => rfl
  | cons c cases ih =>
    simp only [checkCases]
    split
    · rfl
    · exact (kept_checkLabels d c.name seen c.labels).bind fun _ _ => ih _

theorem kept_lookup (h : Extends g resolve resolve') (name : String) :
    Kept resolve resolve' (fun found => (g found.1, found.2)) (lookup ⟨resolve, typeName⟩ name)
      (lookup ⟨resolve', typeName⟩ name) := by
  simp only [lookup]
  cases hname : resolve name with
  | some found =>
    rw [h name _ _ hname]
    rfl
  | none => exact ⟨hname, fun hnone => by rw [hnone]⟩

theorem kept_discriminator (h : Extends g resolve resolve') (shape : Shape) :
    Kept resolve resolve' (fun x => x) (discriminator ⟨resolve, typeName⟩ shape)
      (discriminator ⟨resolve', typeName⟩ shape) := by
  cases shape with
  | primitive p =>
    simp only [discriminator]
    split <;> rfl
  | enumeration enumerators =>
    exact (kept_checkEnumeration _ _).bind fun _ _ => rfl
  | named name =>
    refine (kept_lookup h name).bind fun found _ => ?_
    obtain ⟨id, d⟩ := found
    simp only
    split
    · exact (kept_checkEnumeration _ _).bind fun _ _ => rfl
    · rfl
  | _ => rfl

mutual

/-- The layout of a shape remains, with the places of its references moved. -/
theorem kept_layout (h : Extends g resolve resolve') (role : Role) (shape : Shape) :
    Kept resolve resolve' (Layout.renumber g) (layout ⟨resolve, typeName⟩ role shape)
      (layout ⟨resolve', typeName⟩ role shape) := by
  match shape with
  | .primitive _ | .string _ | .bytes _ => rfl
  | .array element _ | .sequence element _ | .optional element =>
    exact (kept_layout h role element).bind fun _ _ => rfl
  | .map key value _ =>
    exact (kept_layout h role key).bind fun _ _ => (kept_layout h role value).bind fun _ _ => rfl
  | .enumeration enumerators => exact (kept_checkEnumeration _ _).bind fun _ _ => rfl
  | .union ⟨discriminator, cases, none, keyed⟩ =>
    simp only [layout]
    refine (kept_discriminator h discriminator).bind fun d _ => ?_
    split
    · rfl
    · exact (kept_checkCases d [] cases).bind fun _ _ =>
        (kept_layoutCases h role cases).bind fun _ _ => rfl
  | .union ⟨discriminator, cases, some ⟨name, content⟩, keyed⟩ =>
    simp only [layout]
    refine (kept_discriminator h discriminator).bind fun d _ => ?_
    split
    · rfl
    · refine (kept_checkCases d [] cases).bind fun labels _ =>
        (kept_layoutCases h role cases).bind fun _ _ => ?_
      simp only [sentinel]
      cases d.sentinel? labels with
      | none => rfl
      | some label => exact (kept_layout h role content).bind fun _ _ => rfl
  | .named name => exact (kept_lookup h name).bind fun _ _ => rfl
termination_by structural shape

theorem kept_layoutCases (h : Extends g resolve resolve') (role : Role)
    (cases : List (Case Shape)) :
    Kept resolve resolve' (Layout.renumberCases g) (layoutCases ⟨resolve, typeName⟩ role cases)
      (layoutCases ⟨resolve', typeName⟩ role cases) := by
  match cases with
  | [] => rfl
  | ⟨_, _, content⟩ :: cases =>
    exact (kept_layout h role content).bind fun _ _ =>
      (kept_layoutCases h role cases).bind fun _ _ => rfl
termination_by structural cases

end

theorem kept_layoutMembers (h : Extends g resolve resolve') (role : Role)
    (members : List (Member Shape)) :
    Kept resolve resolve' (Layout.renumberMembers g)
      (layoutMembers ⟨resolve, typeName⟩ role members)
      (layoutMembers ⟨resolve', typeName⟩ role members) := by
  induction members with
  | nil => rfl
  | cons m members ih =>
    exact (kept_layout h role m.content).bind fun _ _ => ih.bind fun _ _ => rfl

end Site

namespace Layouts

/-- The layouts with the places of all references moved. -/
def renumber (g : Nat → Nat) (layouts : Layouts) : Layouts :=
  ⟨layouts.full.renumber g, layouts.memberKey.renumber g, layouts.key.renumber g⟩

theorem renumber_id (layouts : Layouts) : layouts.renumber id = layouts := by
  simp only [renumber, Layout.renumber_id]

/-- The outcome of a build remains, with the places of all references moved. -/
theorem kept_build {resolve resolve' : String → Option (Nat × Declaration)} {g : Nat → Nat}
    (h : Extends g resolve resolve') (d : Declaration) :
    Kept resolve resolve' (renumber g) (build resolve d) (build resolve' d) := by
  unfold build
  cases d.body with
  | struct members =>
    refine (Site.kept_layoutMembers h .full members).bind fun full _ =>
      (Site.kept_layoutMembers h .key _).bind fun key _ => ?_
    cases d.isKeyless <;> rfl
  | union u =>
    refine (Site.kept_layout h .full (.union u)).bind fun full _ =>
      (Site.kept_layout h .key (.union u)).bind fun key _ => ?_
    cases d.isKeyless <;> rfl
  | enumeration enumerators =>
    refine (Site.kept_checkEnumeration _ _).bind fun _ _ => ?_
    cases d.isKeyless <;> rfl

/-- A build has the same outcome against more names, unless the name that it awaits is one. -/
theorem build_eq_of_extends {resolve resolve' : String → Option (Nat × Declaration)}
    (h : Extends id resolve resolve') {d : Declaration}
    (hawaits : ∀ name, build resolve d = .error (.awaits name) → resolve' name = none) :
    build resolve' d = build resolve d := by
  have hkept := kept_build h d
  match hbuild : build resolve d with
  | .ok layouts =>
    rw [hbuild] at hkept
    exact hkept.trans (by rw [renumber_id])
  | .error (.awaits name) =>
    rw [hbuild] at hkept
    exact hkept.2 (hawaits name hbuild)
  | .error (.fatal fault) =>
    rw [hbuild] at hkept
    exact hkept

end Layouts

end Cdr
