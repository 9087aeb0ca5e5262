import Cdr.Proofs.Extending

/-! The names that a build looks up.  A build comes upon the names that a declaration refers to in
the order in which they first appear there: it succeeds only if all of them are registered, and it
awaits the first one that is not.  So no other name has a part in its outcome, and the references of
the layouts carry names that the declaration refers to. -/

namespace Cdr

namespace Site

/-- The first of the names that is not registered. -/
def firstUnknown? (s : Site) (names : List String) : Option String :=
  names.find? fun name => (s.resolve name).isNone

/-- The outcome is that of a step that looks up the names in their order: where it succeeds, none
of them is unknown, and where it awaits a name, that is the first one that is. -/
def LooksUp {α : Type} (s : Site) (names : List String) (out : Except Obstacle α) : Prop :=
  match out with
  | .ok _ => s.firstUnknown? names = none
  | .error (.awaits name) => s.firstUnknown? names = some name
  | .error (.fatal _) => True

variable {s : Site} {α β : Type} {names others : List String} {out : Except Obstacle α}
  {rest : α → Except Obstacle β}

theorem firstUnknown?_eq_none :
    s.firstUnknown? names = none ↔ ∀ name ∈ names, s.resolve name ≠ none := by
  simp [firstUnknown?]

namespace LooksUp

protected theorem ok (x : α) : s.LooksUp [] (.ok x) := rfl

protected theorem fatal (fault : Fault) :
    s.LooksUp names (.error (.fatal fault) : Except Obstacle α) := trivial

/-- The second step looks up its names after those of the first. -/
theorem bind (h : s.LooksUp names out) (hrest : ∀ x, s.LooksUp others (rest x)) :
    s.LooksUp (names ++ others) (out >>= rest) := by
  have happend : s.firstUnknown? (names ++ others) =
      (s.firstUnknown? names).or (s.firstUnknown? others) := List.find?_append
  match out with
  | .ok x =>
    have hknown : s.firstUnknown? names = none := h
    rw [hknown, Option.none_or] at happend
    have hnext := hrest x
    show s.LooksUp (names ++ others) (rest x)
    unfold LooksUp at hnext ⊢
    rwa [happend]
  | .error (.awaits name) =>
    have hfirst : s.firstUnknown? names = some name := h
    rw [hfirst, Option.some_or] at happend
    exact happend
  | .error (.fatal _) => trivial

theorem map (h : s.LooksUp names out) (f : α → β) :
    s.LooksUp names (out >>= fun x => .ok (f x)) := by
  simpa using h.bind fun x => LooksUp.ok (f x)

/-- What the second step looks up has been found by the first. -/
theorem again (h : s.LooksUp names out) (hrest : ∀ x, s.LooksUp others (rest x))
    (hsub : others ⊆ names) : s.LooksUp names (out >>= rest) := by
  match out with
  | .ok x =>
    have hknown : s.firstUnknown? names = none := h
    have hothers : s.firstUnknown? others = none :=
      firstUnknown?_eq_none.mpr fun name hmem => firstUnknown?_eq_none.mp hknown name (hsub hmem)
    have hnext := hrest x
    show s.LooksUp names (rest x)
    unfold LooksUp at hnext ⊢
    split
    · exact hknown
    · rename_i name hawaits
      rw [hawaits, hothers] at hnext
      cases hnext
    · trivial
  | .error (.awaits _) => exact h
  | .error (.fatal _) => trivial

end LooksUp

variable (s)

theorem looksUp_lookup (name : String) : s.LooksUp [name] (s.lookup name) := by
  unfold lookup
  split
  · rename_i hfound
    simp [LooksUp, firstUnknown?, hfound]
  · rename_i hnone
    simp [LooksUp, firstUnknown?, hnone]

theorem looksUp_checkEnumerators (seen : List String) (ordinals : List UInt32)
    (enumerators : List Enumerator) :
    s.LooksUp [] (s.checkEnumerators seen ordinals enumerators) := by
  induction enumerators generalizing seen ordinals with
  | nil => exact LooksUp.ok ()
  | cons e rest ih =>
    rw [checkEnumerators]
    split
    · exact LooksUp.fatal _
    split
    · exact LooksUp.fatal _
    · exact ih _ _

theorem looksUp_checkEnumeration (name : String) (enumerators : List Enumerator) :
    s.LooksUp [] (s.checkEnumeration name enumerators) := by
  unfold checkEnumeration
  split
  · exact LooksUp.fatal _
  · exact s.looksUp_checkEnumerators _ _ _

theorem looksUp_checkLabels (d : Discriminator) (name : String) (seen labels : List Label) :
    s.LooksUp [] (s.checkLabels d name seen labels) := by
  induction labels generalizing seen with
  | nil => exact LooksUp.ok seen
  | cons label rest ih =>
    rw [checkLabels]
    split
    · exact LooksUp.fatal _
    split
    · exact LooksUp.fatal _
    · exact ih _

theorem looksUp_checkCases (d : Discriminator) (seen : List Label) (cases : List (Case Shape)) :
    s.LooksUp [] (s.checkCases d seen cases) := by
  induction cases generalizing seen with
  | nil => exact LooksUp.ok seen
  | cons c cases ih =>
    rw [checkCases]
    split
    · exact LooksUp.fatal _
    · exact (s.looksUp_checkLabels d c.name seen c.labels).bind fun _ => ih _

theorem looksUp_sentinel (d : Discriminator) (labels : List Label) :
    s.LooksUp [] (s.sentinel d labels) := by
  unfold sentinel
  split
  · exact LooksUp.ok _
  · exact LooksUp.fatal _

theorem looksUp_discriminator (shape : Shape) :
    s.LooksUp shape.names (s.discriminator shape) := by
  cases shape with
  | primitive p =>
    simp only [discriminator]
    split
    · exact LooksUp.ok _
    · exact LooksUp.fatal _
  | enumeration enumerators => exact (s.looksUp_checkEnumeration _ _).map _
  | named name =>
    rw [Shape.names, ← List.append_nil [name]]
    refine (s.looksUp_lookup name).bind fun found => ?_
    simp only
    split
    · exact (s.looksUp_checkEnumeration _ _).map _
    · exact LooksUp.fatal _
  | _ => exact LooksUp.fatal _

mutual

/-- The layout of a shape is built by looking up the names that the shape refers to. -/
theorem looksUp_layout (role : Role) (shape : Shape) :
    s.LooksUp shape.names (s.layout role shape) := by
  match shape with
  | .primitive _ | .string _ | .bytes _ => exact LooksUp.ok _
  | .array element _ | .sequence element _ | .optional element =>
    exact (looksUp_layout role element).map _
  | .map key value _ =>
    exact (looksUp_layout role key).bind fun _ => (looksUp_layout role value).map _
  | .enumeration enumerators => exact (s.looksUp_checkEnumeration _ _).map _
  | .union ⟨discriminator, cases, fallback, keyed⟩ =>
    show s.LooksUp (discriminator.names ++ Shape.caseNames cases ++ Shape.fallbackNames fallback) _
    rw [layout.eq_def, List.append_assoc]
    refine (s.looksUp_discriminator discriminator).bind fun d => ?_
    simp only
    split
    · exact LooksUp.fatal _
    refine (s.looksUp_checkCases d [] cases).bind fun labels =>
      (looksUp_layoutCases role cases).bind fun _ => ?_
    match fallback with
    | none => exact LooksUp.ok _
    | some ⟨_, content⟩ =>
      exact (s.looksUp_sentinel d labels).bind fun _ => (looksUp_layout role content).map _
  | .named name => exact (s.looksUp_lookup name).map _
termination_by structural shape

theorem looksUp_layoutCases (role : Role) (cases : List (Case Shape)) :
    s.LooksUp (Shape.caseNames cases) (s.layoutCases role cases) := by
  match cases with
  | [] => exact LooksUp.ok _
  | ⟨_, _, content⟩ :: cases =>
    exact (looksUp_layout role content).bind fun _ => (looksUp_layoutCases role cases).map _
termination_by structural cases

end

theorem looksUp_layoutMembers (role : Role) (members : List (Member Shape)) :
    s.LooksUp (members.flatMap (·.content.names)) (s.layoutMembers role members) := by
  induction members with
  | nil => exact LooksUp.ok _
  | cons m members ih => exact (s.looksUp_layout role m.content).bind fun _ => ih.map _

end Site

namespace Declaration

/-- Among distinct names the same one is found first, unless it was seen before. -/
theorem find?_distinct {p : String → Bool} (names : List String) {seen : List String}
    (hseen : ∀ name ∈ seen, p name = false) : (distinct seen names).find? p = names.find? p := by
  induction names generalizing seen with
  | nil => rfl
  | cons name names ih =>
    rw [distinct]
    by_cases hmem : name ∈ seen
    · rw [if_pos hmem, ih hseen, List.find?_cons, hseen name hmem]
    · rw [if_neg hmem, List.find?_cons, List.find?_cons]
      cases hname : p name with
      | true => rfl
      | false => exact ih (List.forall_mem_cons.mpr ⟨hname, hseen⟩)

theorem mem_referencedNames {d : Declaration} {name : String} :
    name ∈ d.referencedNames ↔ name ∈ d.mentions := by
  have hfind : d.referencedNames.find? (· == name) = d.mentions.find? (· == name) :=
    find?_distinct d.mentions nofun
  have hsame := congrArg Option.isSome hfind
  rw [Bool.eq_iff_iff, List.find?_isSome, List.find?_isSome] at hsame
  simpa using hsame

theorem mentions_subset_referencedNames (d : Declaration) : d.mentions ⊆ d.referencedNames :=
  fun _ => mem_referencedNames.mpr

end Declaration

namespace Layouts

variable {resolve : String → Option (Nat × Declaration)} {d : Declaration} {layouts : Layouts}

/-- A declared type is built by looking up the names that the declaration refers to. -/
theorem looksUp_build (resolve : String → Option (Nat × Declaration)) (d : Declaration) :
    Site.LooksUp ⟨resolve, d.name⟩ d.referencedNames (build resolve d) := by
  have hsame : Site.firstUnknown? ⟨resolve, d.name⟩ d.referencedNames =
      Site.firstUnknown? ⟨resolve, d.name⟩ d.mentions := Declaration.find?_distinct d.mentions nofun
  have hmentions : Site.LooksUp ⟨resolve, d.name⟩ d.mentions (build resolve d) := by
    unfold build Declaration.mentions
    cases d.body with
    | struct members =>
      have hkeys : (members.filter d.isKeyPart).flatMap (·.content.names) ⊆
          members.flatMap (·.content.names) := by
        intro name hmem
        obtain ⟨m, hm, hname⟩ := List.mem_flatMap.mp hmem
        exact List.mem_flatMap.mpr ⟨m, (List.mem_filter.mp hm).1, hname⟩
      exact (Site.looksUp_layoutMembers _ .full members).again
        (fun _ => (Site.looksUp_layoutMembers _ .key _).map _) hkeys
    | union u =>
      exact (Site.looksUp_layout _ .full (.union u)).again
        (fun _ => (Site.looksUp_layout _ .key (.union u)).map _) (List.Subset.refl _)
    | enumeration enumerators =>
      exact (Site.looksUp_checkEnumeration _ _ _).map _
  unfold Site.LooksUp at hmentions ⊢
  rwa [hsame]

/-- A declaration is built only where the names that it refers to resolve. -/
theorem resolve_of_build (h : build resolve d = .ok layouts) :
    ∀ name ∈ d.referencedNames, resolve name ≠ none := by
  have hlooks := looksUp_build resolve d
  rw [h] at hlooks
  exact Site.firstUnknown?_eq_none.mp hlooks

/-- A build awaits only names that the declaration refers to. -/
theorem mem_of_awaits {name : String} (h : build resolve d = .error (.awaits name)) :
    name ∈ d.referencedNames := by
  have hlooks := looksUp_build resolve d
  rw [h] at hlooks
  exact List.mem_of_find?_eq_some hlooks

/-- The names of a list only. -/
def among (names : List String) (resolve : String → Option (Nat × Declaration)) (name : String) :
    Option (Nat × Declaration) :=
  if name ∈ names then resolve name else none

/-- A build needs to look up no other names than those that the declaration refers to. -/
theorem build_among (h : build resolve d = .ok layouts) :
    build (among d.referencedNames resolve) d = .ok layouts := by
  have hext : Extends id (among d.referencedNames resolve) resolve := by
    intro name id found hname
    unfold among at hname
    split at hname
    · exact hname
    · cases hname
  have hkept := kept_build hext d
  match hout : build (among d.referencedNames resolve) d with
  | .ok found =>
    rw [hout] at hkept
    have hsame := h.symm.trans hkept
    rw [renumber_id] at hsame
    exact hsame.symm
  | .error (.awaits name) =>
    -- The name is one that the declaration refers to, so the build against all names awaits it too.
    rw [hout] at hkept
    obtain ⟨hnone, hawaits⟩ := hkept
    rw [among, if_pos (mem_of_awaits hout)] at hnone
    rw [hawaits hnone] at h
    cases h
  | .error (.fatal fault) =>
    rw [hout] at hkept
    rw [hkept] at h
    cases h

end Layouts

end Cdr
