import Cdr.Layout.Build
import Cdr.Proofs.WellFormed

/-! Built layouts are well formed.  A build checks enumerators, labels and tags before it gives a
layout, so each rule of a well-formed layout is read off the check that stands for it. -/

namespace Cdr

theorem except_bind_eq_ok {ε α β : Type} {step : Except ε α} {rest : α → Except ε β} {y : β} :
    (step >>= rest) = .ok y ↔ ∃ x, step = .ok x ∧ rest x = .ok y := by
  cases step with
  | error fault =>
    constructor
    · exact fun h => nomatch h
    · exact fun ⟨_, h, _⟩ => nomatch h
  | ok x =>
    constructor
    · exact fun h => ⟨x, rfl, h⟩
    · rintro ⟨_, ⟨⟩, hr⟩
      exact hr

theorem except_bind_eq_error {ε α β : Type} {step : Except ε α} {rest : α → Except ε β} {e : ε} :
    (step >>= rest) = .error e ↔ step = .error e ∨ ∃ x, step = .ok x ∧ rest x = .error e := by
  cases step with
  | error e' =>
    show (Except.error e' : Except ε β) = .error e ↔ _
    simp
  | ok x =>
    show rest x = .error e ↔ _
    simp

theorem except_map_eq_error {ε α β : Type} {step : Except ε α} {f : α → β} {e : ε} :
    step.map f = .error e ↔ step = .error e := by
  cases step with
  | error e' => exact ⟨fun h => by cases h; rfl, fun h => by cases h; rfl⟩
  | ok x => exact ⟨nofun, nofun⟩

namespace Discriminator

variable {d : Discriminator} {label : Label}

theorem inRange?_eq_some {least greatest : Int} {i : Nat}
    (h : inRange? least greatest i = some label) :
    least ≤ label.toInt ∧ label.toInt ≤ greatest := by
  unfold inRange? at h
  split at h
  · unfold Label.ofInt? at h
    split at h
    · rename_i hle hrange
      cases h
      rw [Int64.toInt_ofInt_of_le hrange.1 hrange.2]
      omega
    · cases h
  · cases h

theorem contains_of_candidate? {i : Nat} (h : d.candidate? i = some label) :
    d.contains label = true := by
  cases d with
  | primitive p =>
    cases p with
    | bool =>
      have := inRange?_eq_some h
      simp only [contains, Bool.or_eq_true, beq_iff_eq]
      omega
    | char => simpa [contains] using inRange?_eq_some h
    | integer t => exact decide_eq_true (inRange?_eq_some h)
    | float32 => cases h
    | float64 => cases h
  | enumeration name enumerators =>
    simp only [candidate?, Option.map_eq_some_iff] at h
    obtain ⟨e, he, rfl⟩ := h
    have hlt := e.ordinal.toNat_lt
    simp only [contains, List.any_eq_true, beq_iff_eq]
    refine ⟨e, List.mem_of_getElem? he, ?_⟩
    rw [Int64.toInt_ofInt_of_le (by omega) (by omega)]

/-- The tag of the default case can be held and is none of the labels. -/
theorem of_sentinel? {labels : List Label} (h : d.sentinel? labels = some label) :
    d.contains label = true ∧ label ∉ labels := by
  unfold sentinel? at h
  refine ⟨?_, by simpa using List.find?_some h⟩
  obtain ⟨i, -, hi⟩ := List.mem_filterMap.mp (List.mem_of_find?_eq_some h)
  exact contains_of_candidate? hi

end Discriminator

/-- The reference carries the place that its name resolves to. -/
def Resolves (resolve : String → Option (Nat × Declaration)) (role : Role) (target : Reference) :
    Prop :=
  target.role = role ∧ ∃ d, resolve target.name = some (target.id, d)

namespace Site

variable {s : Site}

theorem lookup_eq_ok {name : String} {found : Nat × Declaration} (h : s.lookup name = .ok found) :
    s.resolve name = some found := by
  unfold lookup at h
  split at h
  · cases h
    assumption
  · cases h

/-- Enumerators that pass the check are distinct, and differ from those that came before. -/
theorem checkEnumerators_eq_ok {enumerators : List Enumerator} {names : List String}
    {ordinals : List UInt32} (h : s.checkEnumerators names ordinals enumerators = .ok ()) :
    Enumerator.Distinct enumerators ∧
      ∀ e ∈ enumerators, e.name ∉ names ∧ e.ordinal ∉ ordinals := by
  induction enumerators generalizing names ordinals with
  | nil => exact ⟨⟨List.nodup_nil, List.nodup_nil⟩, fun _ he => nomatch he⟩
  | cons e rest ih =>
    rw [checkEnumerators] at h
    split at h
    · cases h
    split at h
    · cases h
    rename_i hname hordinal
    obtain ⟨hdistinct, hfresh⟩ := ih h
    refine ⟨⟨?_, ?_⟩, ?_⟩
    · rw [List.map_cons, List.nodup_cons]
      refine ⟨fun hmem => ?_, hdistinct.names⟩
      obtain ⟨e', he', heq⟩ := List.mem_map.mp hmem
      exact (hfresh e' he').1 (heq ▸ List.mem_cons_self)
    · rw [List.map_cons, List.nodup_cons]
      refine ⟨fun hmem => ?_, hdistinct.ordinals⟩
      obtain ⟨e', he', heq⟩ := List.mem_map.mp hmem
      exact (hfresh e' he').2 (heq ▸ List.mem_cons_self)
    · intro e' he'
      rcases List.mem_cons.mp he' with rfl | hrest
      · exact ⟨hname, hordinal⟩
      · have := hfresh e' hrest
        exact ⟨fun hm => this.1 (List.mem_cons_of_mem _ hm),
          fun hm => this.2 (List.mem_cons_of_mem _ hm)⟩

theorem distinct_of_checkEnumeration {name : String} {enumerators : List Enumerator}
    (h : s.checkEnumeration name enumerators = .ok ()) : Enumerator.Distinct enumerators := by
  unfold checkEnumeration at h
  split at h
  · cases h
  · exact (checkEnumerators_eq_ok h).1

/-- Labels that pass the check are added to those that came before. -/
theorem checkLabels_eq_ok {d : Discriminator} {name : String} {labels seen out : List Label}
    (h : s.checkLabels d name seen labels = .ok out) : seen ⊆ out ∧ labels ⊆ out := by
  induction labels generalizing seen with
  | nil =>
    cases h
    exact ⟨fun _ hl => hl, fun _ hl => nomatch hl⟩
  | cons label rest ih =>
    rw [checkLabels] at h
    split at h
    · cases h
    split at h
    · cases h
    obtain ⟨hseen, hrest⟩ := ih h
    exact ⟨fun _ hl => hseen (List.mem_cons_of_mem _ hl),
      List.cons_subset.mpr ⟨hseen List.mem_cons_self, hrest⟩⟩

theorem checkCases_eq_ok {d : Discriminator} {cases : List (Case Shape)} {seen out : List Label}
    (h : s.checkCases d seen cases = .ok out) : seen ⊆ out ∧ ∀ c ∈ cases, c.labels ⊆ out := by
  induction cases generalizing seen with
  | nil =>
    cases h
    exact ⟨fun _ hl => hl, fun _ hc => nomatch hc⟩
  | cons c cases ih =>
    rw [checkCases] at h
    split at h
    · cases h
    obtain ⟨mid, hlabels, hcases⟩ := except_bind_eq_ok.mp h
    obtain ⟨hseen, hmid⟩ := checkLabels_eq_ok hlabels
    obtain ⟨hout, hrest⟩ := ih hcases
    exact ⟨fun _ hl => hout (hseen hl),
      List.forall_mem_cons.mpr ⟨fun _ hl => hout (hmid hl), hrest⟩⟩

theorem contains_of_checkLabels {d : Discriminator} {name : String} {labels seen out : List Label}
    (h : s.checkLabels d name seen labels = .ok out) : ∀ l ∈ labels, d.contains l = true := by
  induction labels generalizing seen with
  | nil => exact fun _ hl => nomatch hl
  | cons label rest ih =>
    rw [checkLabels] at h
    split at h
    · cases h
    rename_i hlabel
    split at h
    · cases h
    exact List.forall_mem_cons.mpr ⟨by simpa using hlabel, ih h⟩

/-- The discriminator of a union that passes the check can hold the labels of all cases. -/
theorem contains_of_checkCases {d : Discriminator} {cases : List (Case Shape)}
    {seen out : List Label} (h : s.checkCases d seen cases = .ok out) :
    ∀ c ∈ cases, ∀ l ∈ c.labels, d.contains l = true := by
  induction cases generalizing seen with
  | nil => exact fun _ hc => nomatch hc
  | cons c cases ih =>
    rw [checkCases] at h
    split at h
    · cases h
    obtain ⟨mid, hlabels, hcases⟩ := except_bind_eq_ok.mp h
    exact List.forall_mem_cons.mpr ⟨contains_of_checkLabels hlabels, ih hcases⟩

theorem checkCases_cons_eq_ok {d : Discriminator} {c : Case Shape} {cases : List (Case Shape)}
    {seen out : List Label} (h : s.checkCases d seen (c :: cases) = .ok out) :
    ∃ mid, s.checkLabels d c.name seen c.labels = .ok mid ∧
      s.checkCases d mid cases = .ok out := by
  rw [checkCases] at h
  split at h
  · cases h
  · exact except_bind_eq_ok.mp h

/-- The tag of the default case selects no case. -/
theorem sentinel_eq_ok {d : Discriminator} {labels : List Label} {label : Label}
    (h : s.sentinel d labels = .ok label) : d.contains label = true ∧ label ∉ labels := by
  unfold sentinel at h
  split at h
  · rename_i found hfound
    cases h
    exact Discriminator.of_sentinel? hfound
  · cases h

section Inversion

variable {role : Role} {l : Layout}

theorem layout_array {element : Shape} {length : UInt64}
    (h : s.layout role (.array element length) = .ok l) :
    ∃ inner, s.layout role element = .ok inner ∧ l = .array inner length := by
  obtain ⟨inner, hinner, h⟩ := except_bind_eq_ok.mp h
  cases h
  exact ⟨inner, hinner, rfl⟩

theorem layout_sequence {element : Shape} {bound : Option UInt64}
    (h : s.layout role (.sequence element bound) = .ok l) :
    ∃ inner, s.layout role element = .ok inner ∧ l = .sequence inner bound := by
  obtain ⟨inner, hinner, h⟩ := except_bind_eq_ok.mp h
  cases h
  exact ⟨inner, hinner, rfl⟩

theorem layout_map {key value : Shape} {bound : Option UInt64}
    (h : s.layout role (.map key value bound) = .ok l) :
    ∃ k x, s.layout role key = .ok k ∧ s.layout role value = .ok x ∧ l = .map k x bound := by
  obtain ⟨k, hk, h⟩ := except_bind_eq_ok.mp h
  obtain ⟨x, hx, h⟩ := except_bind_eq_ok.mp h
  cases h
  exact ⟨k, x, hk, hx, rfl⟩

theorem layout_enumeration {enumerators : List Enumerator}
    (h : s.layout role (.enumeration enumerators) = .ok l) :
    s.checkEnumeration s.typeName enumerators = .ok () ∧
      l = .enumeration s.typeName enumerators := by
  obtain ⟨_, hcheck, h⟩ := except_bind_eq_ok.mp h
  cases h
  exact ⟨hcheck, rfl⟩

theorem layout_optional {inner : Shape} (h : s.layout role (.optional inner) = .ok l) :
    ∃ content, s.layout role inner = .ok content ∧ l = .optional content := by
  obtain ⟨content, hcontent, h⟩ := except_bind_eq_ok.mp h
  cases h
  exact ⟨content, hcontent, rfl⟩

theorem layout_named {name : String} (h : s.layout role (.named name) = .ok l) :
    ∃ id d, s.resolve name = some (id, d) ∧ l = .reference ⟨name, id, role⟩ := by
  obtain ⟨⟨id, d⟩, hlookup, h⟩ := except_bind_eq_ok.mp h
  cases h
  exact ⟨id, d, lookup_eq_ok hlookup, rfl⟩

theorem layoutCases_cons {name : String} {labels : List Label} {content : Shape}
    {cases : List (Case Shape)} {layouts : List (Case Layout)}
    (h : s.layoutCases role (⟨name, labels, content⟩ :: cases) = .ok layouts) :
    ∃ inner rest, s.layout role content = .ok inner ∧ s.layoutCases role cases = .ok rest ∧
      layouts = ⟨name, labels, inner⟩ :: rest := by
  obtain ⟨inner, hinner, h⟩ := except_bind_eq_ok.mp h
  obtain ⟨rest, hrest, h⟩ := except_bind_eq_ok.mp h
  cases h
  exact ⟨inner, rest, hinner, hrest, rfl⟩

theorem layoutMembers_cons {m : Member Shape} {members : List (Member Shape)}
    {layouts : List (Member Layout)} (h : s.layoutMembers role (m :: members) = .ok layouts) :
    ∃ content rest, s.layout role m.content = .ok content ∧
      s.layoutMembers role members = .ok rest ∧ layouts = ⟨m.name, content⟩ :: rest := by
  obtain ⟨content, hcontent, h⟩ := except_bind_eq_ok.mp h
  obtain ⟨rest, hrest, h⟩ := except_bind_eq_ok.mp h
  cases h
  exact ⟨content, rest, hcontent, hrest, rfl⟩

/-- What a build of a union without a default case has checked. -/
theorem layout_union_none {discriminator : Shape} {cases : List (Case Shape)} {keyed : Bool}
    (h : s.layout role (.union ⟨discriminator, cases, none, keyed⟩) = .ok l) :
    ∃ d labels layouts, s.discriminator discriminator = .ok d ∧
      s.checkCases d [] cases = .ok labels ∧ s.layoutCases role cases = .ok layouts ∧
      l = .union ⟨s.typeName, d, layouts, none, role == .key && keyed⟩ := by
  obtain ⟨d, hd, h⟩ := except_bind_eq_ok.mp h
  simp only at h
  split at h
  · cases h
  obtain ⟨labels, hlabels, h⟩ := except_bind_eq_ok.mp h
  obtain ⟨layouts, hlayouts, h⟩ := except_bind_eq_ok.mp h
  cases h
  exact ⟨d, labels, layouts, hd, hlabels, hlayouts, rfl⟩

theorem layout_union_some {discriminator : Shape} {cases : List (Case Shape)} {name : String}
    {content : Shape} {keyed : Bool}
    (h : s.layout role (.union ⟨discriminator, cases, some ⟨name, content⟩, keyed⟩) = .ok l) :
    ∃ d labels layouts sentinel inner, s.discriminator discriminator = .ok d ∧
      s.checkCases d [] cases = .ok labels ∧ s.layoutCases role cases = .ok layouts ∧
      s.sentinel d labels = .ok sentinel ∧ s.layout role content = .ok inner ∧
      l = .union ⟨s.typeName, d, layouts, some ⟨name, sentinel, inner⟩, role == .key && keyed⟩ := by
  obtain ⟨d, hd, h⟩ := except_bind_eq_ok.mp h
  simp only at h
  split at h
  · cases h
  obtain ⟨labels, hlabels, h⟩ := except_bind_eq_ok.mp h
  obtain ⟨layouts, hlayouts, h⟩ := except_bind_eq_ok.mp h
  obtain ⟨sentinel, hsentinel, h⟩ := except_bind_eq_ok.mp h
  obtain ⟨inner, hinner, h⟩ := except_bind_eq_ok.mp h
  cases h
  exact ⟨d, labels, layouts, sentinel, inner, hd, hlabels, hlayouts, hsentinel, hinner, rfl⟩

end Inversion

theorem labels_layoutCases {role : Role} {cases : List (Case Shape)}
    {layouts : List (Case Layout)} (h : s.layoutCases role cases = .ok layouts) :
    layouts.map (·.labels) = cases.map (·.labels) := by
  induction cases generalizing layouts with
  | nil =>
    cases h
    rfl
  | cons c cases ih =>
    obtain ⟨content, rest, -, hrest, rfl⟩ := layoutCases_cons h
    simp [ih hrest]

mutual

theorem wellFormed_layout {role : Role} {shape : Shape} {l : Layout}
    (h : s.layout role shape = .ok l) : l.WellFormed (Resolves s.resolve role) := by
  match shape with
  | .primitive _ | .string _ | .bytes _ =>
    cases h
    trivial
  | .array element _ =>
    obtain ⟨inner, hinner, rfl⟩ := layout_array h
    exact (wellFormed_layout hinner :)
  | .sequence element _ =>
    obtain ⟨inner, hinner, rfl⟩ := layout_sequence h
    exact (wellFormed_layout hinner :)
  | .optional element =>
    obtain ⟨inner, hinner, rfl⟩ := layout_optional h
    exact (wellFormed_layout hinner :)
  | .map key value _ =>
    obtain ⟨k, v, hk, hv, rfl⟩ := layout_map h
    exact ⟨wellFormed_layout hk, wellFormed_layout hv⟩
  | .enumeration enumerators =>
    obtain ⟨hcheck, rfl⟩ := layout_enumeration h
    exact distinct_of_checkEnumeration hcheck
  | .union ⟨discriminator, cases, none, keyed⟩ =>
    obtain ⟨d, labels, layouts, -, -, hlayouts, rfl⟩ := layout_union_none h
    exact ⟨wellFormed_layoutCases hlayouts, trivial⟩
  | .union ⟨discriminator, cases, some ⟨name, content⟩, keyed⟩ =>
    obtain ⟨d, labels, layouts, sentinel, inner, -, hlabels, hlayouts, hsentinel, hinner, rfl⟩ :=
      layout_union_some h
    obtain ⟨hcontains, hunused⟩ := sentinel_eq_ok hsentinel
    refine ⟨wellFormed_layoutCases hlayouts, hcontains, fun c hc hmem => ?_,
      wellFormed_layout hinner⟩
    -- The layouts keep the labels, none of which is the sentinel.
    have hlabel : c.labels ∈ cases.map (·.labels) := by
      rw [← labels_layoutCases hlayouts]
      exact List.mem_map_of_mem hc
    obtain ⟨c', hc', heq⟩ := List.mem_map.mp hlabel
    exact hunused ((checkCases_eq_ok hlabels).2 c' hc' (heq ▸ hmem))
  | .named name =>
    obtain ⟨id, d, hresolve, rfl⟩ := layout_named h
    exact ⟨rfl, d, hresolve⟩
termination_by structural shape

theorem wellFormed_layoutCases {role : Role} {cases : List (Case Shape)}
    {layouts : List (Case Layout)} (h : s.layoutCases role cases = .ok layouts) :
    Layout.CasesWellFormed (Resolves s.resolve role) layouts := by
  match cases with
  | [] =>
    cases h
    trivial
  | ⟨name, labels, content⟩ :: cases =>
    obtain ⟨inner, rest, hinner, hrest, rfl⟩ := layoutCases_cons h
    exact ⟨wellFormed_layout hinner, wellFormed_layoutCases hrest⟩
termination_by structural cases

end

theorem names_layoutMembers {role : Role} {members : List (Member Shape)}
    {layouts : List (Member Layout)} (h : s.layoutMembers role members = .ok layouts) :
    layouts.map (·.name) = members.map (·.name) := by
  induction members generalizing layouts with
  | nil =>
    cases h
    rfl
  | cons m members ih =>
    obtain ⟨content, rest, -, hrest, rfl⟩ := layoutMembers_cons h
    simp [ih hrest]

theorem wellFormed_layoutMembers {role : Role} {members : List (Member Shape)}
    {layouts : List (Member Layout)} (h : s.layoutMembers role members = .ok layouts) :
    Layout.MembersWellFormed (Resolves s.resolve role) layouts := by
  induction members generalizing layouts with
  | nil =>
    cases h
    trivial
  | cons m members ih =>
    obtain ⟨content, rest, hcontent, hrest, rfl⟩ := layoutMembers_cons h
    exact ⟨wellFormed_layout hcontent, ih hrest⟩

end Site

namespace Declaration

theorem nodup_of_firstRepeated {α : Type} [DecidableEq α] {xs seen : List α}
    (h : firstRepeated seen xs = none) : xs.Nodup ∧ ∀ x ∈ xs, x ∉ seen := by
  induction xs generalizing seen with
  | nil => exact ⟨List.nodup_nil, fun _ hx => nomatch hx⟩
  | cons x xs ih =>
    rw [firstRepeated] at h
    split at h
    · cases h
    rename_i hx
    obtain ⟨hnodup, hfresh⟩ := ih h
    refine ⟨List.nodup_cons.mpr ⟨fun hmem => hfresh x hmem List.mem_cons_self, hnodup⟩, ?_⟩
    exact List.forall_mem_cons.mpr
      ⟨hx, fun y hy hmem => hfresh y hy (List.mem_cons_of_mem _ hmem)⟩

/-- The members of a valid struct have different names. -/
theorem nodup_of_validate {d : Declaration} (h : d.validate = .ok ())
    {members : List (Member Shape)} (hbody : d.body = .struct members) :
    (members.map (·.name)).Nodup := by
  unfold validate at h
  simp only [hbody] at h
  split at h
  · cases h
  split at h
  · cases h
  · cases h
  · rename_i hnone _
    exact (nodup_of_firstRepeated hnone).1

/-- The member takes part in the key of an instance that is reached along a key. -/
def isKeyPart (d : Declaration) (m : Member Shape) : Bool :=
  !d.hasExplicitKeys || d.isKeyMember m.name

end Declaration

namespace Layouts

variable {resolve : String → Option (Nat × Declaration)} {d : Declaration} {layouts : Layouts}

/-- What a build of a struct has built. -/
theorem build_struct {members : List (Member Shape)} (hbody : d.body = .struct members)
    (h : build resolve d = .ok layouts) :
    ∃ full key, Site.layoutMembers ⟨resolve, d.name⟩ .full members = .ok full ∧
      Site.layoutMembers ⟨resolve, d.name⟩ .key (members.filter d.isKeyPart) = .ok key ∧
      layouts = ⟨.struct d.name full, .struct d.name key,
        if d.isKeyless then .struct d.name [] else .struct d.name key⟩ := by
  unfold build at h
  simp only [hbody] at h
  obtain ⟨full, hfull, h⟩ := except_bind_eq_ok.mp h
  obtain ⟨key, hkey, h⟩ := except_bind_eq_ok.mp h
  cases h
  exact ⟨full, key, hfull, hkey, rfl⟩

theorem build_union {u : UnionOf Shape} (hbody : d.body = .union u)
    (h : build resolve d = .ok layouts) :
    ∃ full key, Site.layout ⟨resolve, d.name⟩ .full (.union u) = .ok full ∧
      Site.layout ⟨resolve, d.name⟩ .key (.union u) = .ok key ∧
      layouts = ⟨full, key, if d.isKeyless then .struct d.name [] else key⟩ := by
  unfold build at h
  simp only [hbody] at h
  obtain ⟨full, hfull, h⟩ := except_bind_eq_ok.mp h
  obtain ⟨key, hkey, h⟩ := except_bind_eq_ok.mp h
  cases h
  exact ⟨full, key, hfull, hkey, rfl⟩

theorem build_enumeration {enumerators : List Enumerator}
    (hbody : d.body = .enumeration enumerators) (h : build resolve d = .ok layouts) :
    Site.checkEnumeration ⟨resolve, d.name⟩ d.name enumerators = .ok () ∧
      layouts = ⟨.enumeration d.name enumerators, .enumeration d.name enumerators,
        if d.isKeyless then .struct d.name [] else .enumeration d.name enumerators⟩ := by
  unfold build at h
  simp only [hbody] at h
  obtain ⟨⟨⟩, hcheck, h⟩ := except_bind_eq_ok.mp h
  cases h
  exact ⟨hcheck, rfl⟩

/-- The layout of the type for references of a role. -/
def ofRole (layouts : Layouts) : Role → Layout
  | .full => layouts.full
  | .key => layouts.memberKey

theorem wellFormed_ofRole (hvalid : d.validate = .ok ()) (h : build resolve d = .ok layouts)
    (role : Role) : (layouts.ofRole role).WellFormed (Resolves resolve role) := by
  cases hbody : d.body with
  | struct members =>
    obtain ⟨full, key, hfull, hkey, rfl⟩ := build_struct hbody h
    have hnodup := d.nodup_of_validate hvalid hbody
    cases role with
    | full =>
      exact ⟨by rwa [Site.names_layoutMembers hfull], Site.wellFormed_layoutMembers hfull⟩
    | key =>
      refine ⟨?_, Site.wellFormed_layoutMembers hkey⟩
      rw [Site.names_layoutMembers hkey]
      exact (List.filter_sublist.map _).nodup hnodup
  | union u =>
    obtain ⟨full, key, hfull, hkey, rfl⟩ := build_union hbody h
    cases role with
    | full => exact Site.wellFormed_layout hfull
    | key => exact Site.wellFormed_layout hkey
  | enumeration enumerators =>
    obtain ⟨hcheck, rfl⟩ := build_enumeration hbody h
    cases role <;> exact Site.distinct_of_checkEnumeration hcheck

/-- The layout of a key is that of a member key, or that of nothing. -/
theorem key_eq (h : build resolve d = .ok layouts) :
    layouts.key = if d.isKeyless then .struct d.name [] else layouts.memberKey := by
  cases hbody : d.body with
  | struct members =>
    obtain ⟨full, key, -, -, rfl⟩ := build_struct hbody h
    rfl
  | union u =>
    obtain ⟨full, key, -, -, rfl⟩ := build_union hbody h
    rfl
  | enumeration enumerators =>
    obtain ⟨-, rfl⟩ := build_enumeration hbody h
    rfl

end Layouts

end Cdr
