import Cdr.Proofs.Attaining
import Cdr.Proofs.Encoding
import Cdr.Proofs.Histories
import Cdr.Proofs.Referring

/-! Bounds on keys are tight.  The checks of a build leave no node without a value, so the size of
the longest key of a type is the length of some key, as long as the lengths that are assumed can be
counted.  The size has no bound only where a chain of references closes or is too long, or where
there is a key that is too long for any bound. -/

namespace Cdr

namespace Site

variable {s : Site} {role : Role} {d : Discriminator}

theorem ne_nil_of_checkEnumeration {name : String} {enumerators : List Enumerator}
    (h : s.checkEnumeration name enumerators = .ok ()) : enumerators ≠ [] := by
  rintro rfl
  cases h

theorem labels_ne_nil_of_checkCases {cases : List (Case Shape)} {seen out : List Label}
    (h : s.checkCases d seen cases = .ok out) : ∀ c ∈ cases, c.labels ≠ [] := by
  induction cases generalizing seen with
  | nil => exact fun _ hc => nomatch hc
  | cons c cases ih =>
    obtain ⟨mid, -, hrest⟩ := checkCases_cons_eq_ok h
    refine List.forall_mem_cons.mpr ⟨fun hnil => ?_, ih hrest⟩
    rw [checkCases, hnil] at h
    cases h

theorem exists_case_of_layoutCases {cases : List (Case Shape)} {layouts : List (Case Layout)}
    (h : s.layoutCases role cases = .ok layouts) {b : Case Layout} (hb : b ∈ layouts) :
    ∃ c ∈ cases, b.name = c.name ∧ b.labels = c.labels ∧
      s.layout role c.content = .ok b.content := by
  induction cases generalizing layouts with
  | nil =>
    cases h
    cases hb
  | cons c cases ih =>
    obtain ⟨inner, rest, hinner, hrest, rfl⟩ := layoutCases_cons h
    rcases List.mem_cons.mp hb with rfl | htail
    · exact ⟨c, List.mem_cons_self, rfl, rfl, hinner⟩
    · obtain ⟨c', hc', hsame⟩ := ih hrest htail
      exact ⟨c', List.mem_cons_of_mem _ hc', hsame⟩

/-- A union without cases and without a default case is not built. -/
theorem arms_ne_nil {u : UnionOf Shape} {built : UnionLayout Layout}
    (h : s.layout role (.union u) = .ok (.union built)) : built.arms ≠ [] := by
  obtain ⟨built', ⟨⟩, hb⟩ := layout_union h
  intro hnil
  obtain ⟨hcases, hdefault⟩ := List.append_eq_nil_iff.mp hnil
  have hlabels := labels_layoutCases hb.cases
  have hfallback := hb.fallback
  obtain ⟨discriminator, cases, fallback, keyed⟩ := u
  obtain ⟨name, d, layouts, laidOut, tagOnly⟩ := built
  obtain rfl : layouts = [] := List.map_eq_nil_iff.mp hcases
  obtain rfl : cases = [] := List.map_eq_nil_iff.mp hlabels.symm
  obtain rfl : laidOut = none := by simpa using hdefault
  obtain rfl : fallback = none := by
    cases hfallback
    rfl
  obtain ⟨d, -, hchecked⟩ := except_bind_eq_ok.mp h
  cases hchecked

/-- A union that is built has an arm, every case is found by one of its labels, and the tag of the
default case can be written. -/
theorem fillable_union {types : Lookup} {u : UnionOf Shape} {built : UnionLayout Layout}
    (h : s.layout role (.union u) = .ok (.union built)) : (Layout.union built).Fillable types := by
  obtain ⟨built', ⟨⟩, hb⟩ := layout_union h
  obtain ⟨labels, hcheck⟩ := hb.labels
  refine ⟨arms_ne_nil h, fun b hmem => ?_, fun f hf => ?_⟩
  · obtain ⟨c, hc, hname, hlabels, hcontent⟩ := exists_case_of_layoutCases hb.cases hmem
    obtain ⟨label, hlabel⟩ := List.exists_mem_of_ne_nil _ (labels_ne_nil_of_checkCases hcheck c hc)
    obtain ⟨content, hcontent', hfound⟩ := find?_layoutCases hcheck hb.cases hc
    obtain rfl : content = b.content := Except.ok.inj (hcontent'.symm.trans hcontent)
    refine ⟨label, contains_of_checkCases hcheck c hc label hlabel, ?_⟩
    rw [hfound label hlabel, ← hname, ← hlabels]
  · have hwell := wellFormed_layout h
    obtain ⟨name, d, cases, fallback, tagOnly⟩ := built
    obtain rfl : fallback = some f := hf
    exact hwell.2.1

/-- The parts of a layout that is built are built from shapes too. -/
theorem exists_shape_of_mem_parts {a : Layout.Assumptions} {shape : Shape} {l part : Layout}
    (h : s.layout role shape = .ok l) (hpart : part ∈ l.parts a) :
    ∃ inner, s.layout role inner = .ok part := by
  obtain ⟨inner, -, hinner⟩ :=
    exists_of_forall₂ (forall₂_contents h).flip (Layout.mem_children_of_mem_parts hpart)
  exact ⟨inner, hinner⟩

/-- A layout that is built can be filled, if its references are resolved. -/
theorem fillable_of_layout {types : Lookup} {good : Reference → Prop} {shape : Shape} {l : Layout}
    (h : s.layout role shape = .ok l) (hwell : l.WellFormed good)
    (hgood : ∀ target, good target → ∃ found, types target.id target.role = .ok found) :
    l.Fillable types := by
  cases shape with
  | enumeration enumerators =>
    obtain ⟨hcheck, rfl⟩ := layout_enumeration h
    exact ⟨ne_nil_of_checkEnumeration hcheck, distinct_of_checkEnumeration hcheck⟩
  | union u =>
    obtain ⟨built, rfl, -⟩ := layout_union h
    exact fillable_union h
  | named name =>
    obtain ⟨id, d, -, rfl⟩ := layout_named h
    exact hgood _ hwell
  | array element length =>
    obtain ⟨inner, -, rfl⟩ := layout_array h
    trivial
  | sequence element bound =>
    obtain ⟨inner, -, rfl⟩ := layout_sequence h
    trivial
  | map key value bound =>
    obtain ⟨k, x, -, -, rfl⟩ := layout_map h
    trivial
  | optional inner =>
    obtain ⟨content, -, rfl⟩ := layout_optional h
    trivial
  | primitive p | string bound | bytes bound =>
    cases h
    trivial

end Site

namespace Layout

/-- The layout is built from a shape, or it is a struct of layouts that are. -/
def Built (l : Layout) : Prop :=
  (∃ (s : Site) (role : Role) (shape : Shape), s.layout role shape = .ok l) ∨
    ∃ name members, l = .struct name members ∧
      ∀ m ∈ members, ∃ (s : Site) (role : Role) (shape : Shape), s.layout role shape = .ok m.content

variable {a : Assumptions} {l part : Layout} {good : Reference → Prop}

theorem Built.of_mem_parts (h : l.Built) (hpart : part ∈ l.parts a) : part.Built := by
  rcases h with ⟨s, role, shape, hshape⟩ | ⟨name, members, rfl, hmembers⟩
  · obtain ⟨inner, hinner⟩ := Site.exists_shape_of_mem_parts hshape hpart
    exact Or.inl ⟨s, role, inner, hinner⟩
  · obtain ⟨m, hm, rfl⟩ := mem_parts_struct.mp hpart
    exact Or.inl (hmembers m hm)

theorem MembersWellFormed.content {members : List (Member Layout)}
    (h : MembersWellFormed good members) : ∀ m ∈ members, m.content.WellFormed good := by
  induction members with
  | nil => exact fun _ hm => nomatch hm
  | cons m members ih => exact List.forall_mem_cons.mpr ⟨h.1, ih h.2⟩

theorem CasesWellFormed.content {cases : List (Case Layout)} (h : CasesWellFormed good cases) :
    ∀ c ∈ cases, c.content.WellFormed good := by
  induction cases with
  | nil => exact fun _ hc => nomatch hc
  | cons c cases ih => exact List.forall_mem_cons.mpr ⟨h.1, ih h.2⟩

theorem WellFormed.of_mem_parts (h : l.WellFormed good) (hpart : part ∈ l.parts a) :
    part.WellFormed good := by
  cases l with
  | array element length =>
    obtain ⟨-, rfl⟩ := mem_parts_array.mp hpart
    exact h
  | sequence element bound =>
    obtain ⟨-, rfl⟩ := mem_parts_sequence.mp hpart
    exact h
  | map key value bound =>
    obtain ⟨-, rfl | rfl⟩ := mem_parts_map.mp hpart
    · exact h.1
    · exact h.2
  | struct name members =>
    obtain ⟨m, hm, rfl⟩ := mem_parts_struct.mp hpart
    exact h.2.content m hm
  | union u =>
    rcases List.mem_append.mp (mem_parts_union.mp hpart).2 with hcase | hdefault
    · obtain ⟨c, hc, rfl⟩ := List.mem_map.mp hcase
      exact h.cases.content c hc
    · obtain ⟨name, d, cases, fallback, tagOnly⟩ := u
      obtain ⟨f, rfl, rfl⟩ : ∃ f, fallback = some f ∧ f.content = part := by simpa using hdefault
      exact h.2.2.2
  | optional inner =>
    obtain rfl := mem_parts_optional.mp hpart
    exact h
  | _ => cases hpart

theorem Built.fillable {types : Lookup} (h : l.Built) (hwell : l.WellFormed good)
    (hgood : ∀ target, good target → ∃ found, types target.id target.role = .ok found) :
    l.Fillable types := by
  rcases h with ⟨s, role, shape, hshape⟩ | ⟨name, members, rfl, -⟩
  · exact Site.fillable_of_layout hshape hwell hgood
  · exact hwell.1

end Layout

namespace Layouts

variable {resolve : String → Option (Nat × Declaration)} {d : Declaration} {layouts : Layouts}

theorem built_ofRole (h : build resolve d = .ok layouts) (role : Role) :
    (layouts.ofRole role).Built := by
  cases hbody : d.body with
  | struct members =>
    obtain ⟨full, key, hfull, hkey, rfl⟩ := build_struct hbody h
    cases role with
    | full =>
      refine Or.inr ⟨d.name, full, rfl, fun m hm => ?_⟩
      obtain ⟨shape, -, hcontent⟩ :=
        exists_of_forall₂ (Site.forall₂_layoutMembers hfull).flip (List.mem_map_of_mem hm)
      exact ⟨_, _, _, hcontent⟩
    | key =>
      refine Or.inr ⟨d.name, key, rfl, fun m hm => ?_⟩
      obtain ⟨shape, -, hcontent⟩ :=
        exists_of_forall₂ (Site.forall₂_layoutMembers hkey).flip (List.mem_map_of_mem hm)
      exact ⟨_, _, _, hcontent⟩
  | union u =>
    obtain ⟨full, key, hfull, hkey, rfl⟩ := build_union hbody h
    cases role with
    | full => exact Or.inl ⟨_, _, _, hfull⟩
    | key => exact Or.inl ⟨_, _, _, hkey⟩
  | enumeration enumerators =>
    obtain ⟨hcheck, rfl⟩ := build_enumeration hbody h
    have hshape : Site.layout ⟨resolve, d.name⟩ role (.enumeration enumerators) =
        .ok (.enumeration d.name enumerators) := by
      rw [Site.layout, hcheck]
      rfl
    cases role <;> exact Or.inl ⟨_, _, _, hshape⟩

theorem built_key (h : build resolve d = .ok layouts) : layouts.key.Built := by
  rw [key_eq h]
  split
  · exact Or.inr ⟨d.name, [], rfl, fun _ hm => nomatch hm⟩
  · exact built_ofRole h .key

end Layouts

namespace Catalog

variable {c : Catalog} {id : Nat} {l node : Layout} {path : List Reference}
  {a : Layout.Assumptions}

/-- All that the walk through the key of a whole type meets can be filled. -/
theorem Whole.fillable (hwhole : c.Whole id) (h : c.Coherent []) (hl : c.keyLayout id = .ok l)
    (hwalk : l.Walk c.layout a path node) : node.Fillable c.layout := by
  have hfound : ∀ target, c.Leads id .key target → ∃ found,
      c.layout target.id target.role = .ok found ∧ found.WellFormed (c.Leads id .key) ∧
        found.Built := by
    rintro target ⟨⟨hrole, -⟩, hreach⟩
    obtain ⟨found, hlayout, hwell⟩ := hwhole.exists_layout h hreach .key
    obtain ⟨e, layouts, -, hbuild, rfl⟩ := h.layout_eq_ok.mp hlayout
    exact ⟨_, hrole ▸ hlayout, hwell, Layouts.built_ofRole hbuild .key⟩
  have hkey := h.wellFormed_keyLayout Relation.ReflTransGen.refl hl
  have hbuilt : l.Built := by
    obtain ⟨e, layouts, -, hbuild, rfl⟩ := h.keyLayout_eq_ok.mp hl
    exact Layouts.built_key hbuild
  -- What the walk starts from does not matter any more, only what is known of it.
  clear hl
  induction hwalk with
  | here l =>
    exact hbuilt.fillable hkey fun target hleads => (hfound target hleads).imp fun _ hf => hf.1
  | part hpart _ ih => exact ih (hkey.of_mem_parts hpart) (hbuilt.of_mem_parts hpart)
  | @follow target l node path hlookup _ ih =>
    obtain ⟨found, hlayout, hwell, hbuilt⟩ := hfound target hkey
    obtain rfl : found = l := Except.ok.inj (hlayout.symm.trans hlookup)
    exact ih hwell hbuilt

end Catalog

namespace Registry

variable {r : Registry} {h : Handle} {l : Layout} {v : Value} {size : Nat}

/-- What the sizes of keys are measured under. -/
def assumptions (r : Registry) : Layout.Assumptions :=
  ⟨r.config.countWidth, r.config.maxUnboundedLength⟩

/-- The walk that measures the keys of a type gets to a node along the references of the path. -/
def KeyWalk (r : Registry) (h : Handle) (path : List Reference) (node : Layout) : Prop :=
  ∃ l, r.keyLayout h = .ok l ∧ l.Walk r.catalog.layout r.assumptions path node

/-- The value has a key of `length` bytes before padding, in which no unbounded collection is longer
than is assumed. -/
def HasKeyOfLength (r : Registry) (h : Handle) (v : Value) (length : Nat) : Prop :=
  (∃ l, r.keyLayout h = .ok l ∧
    l.Assumed (· ≤ r.config.maxUnboundedLength) r.catalog.layout r.config.maxDepth v) ∧
  ∃ k u, r.key h v = .ok k ∧ r.unpaddedKey h v = .ok u ∧ u.length = length

/-- Where the walk through the key of a type is never over, some value has a key that is as long as
the measure would be without its limit. -/
theorem Steady.exists_longest (hr : r.Steady) (hsize : r.maxKeySize h = .ok size)
    (hcount : ∀ path node, r.KeyWalk h path node → node.Countable r.assumptions)
    (hgoes : ∀ path target, r.KeyWalk h path (.reference target) →
      ¬ Layout.Stops r.config.maxDepth [] path target) :
    ∃ v length, r.HasKeyOfLength h v length ∧ size = min Extent.limit length := by
  obtain ⟨l, hkey⟩ := (hr.sound.exists_layouts hsize).2
  obtain ⟨-, -, hl⟩ := keyLayout_eq_ok.mp hkey
  have hattains : Sizing.Attains
      (l.Assumed (· ≤ r.config.maxUnboundedLength) r.catalog.layout r.config.maxDepth)
      (l.measure r.catalog.layout r.assumptions r.config.maxDepth [])
      (r.context.write l) := by
    refine Layout.attains_measure ?_
      (fun _ _ hw => (hr.whole hsize).fillable hr.sound.coherent hl hw)
      (fun path node hw => hcount path node ⟨l, hkey, hw⟩)
      fun path target hw => hgoes path target ⟨l, hkey, hw⟩
    exact Nat.le_refl r.config.maxUnboundedLength
  obtain ⟨v, -, hassumed, length, htracks⟩ := hattains 0
  -- The key is written from the start of an empty buffer, and its end is where the measure ends.
  obtain ⟨-, hcursor, -, horigin, -⟩ := Key.prepare_eq (Buffer.ofCapacity r.config.initialCapacity)
  obtain ⟨b, hwrite, hat⟩ := htracks.written ⟨horigin, hcursor⟩
  have hu := unpaddedKey_of_write hkey hwrite
  have hlength : b.toList.length = length := by
    rw [Key.length_of_write (hr.sound.roundTrips_keyLayout hkey v) hwrite, hat.cursor_eq,
      Nat.zero_add]
  refine ⟨v, length, ⟨⟨l, hkey, hassumed⟩, _, _, key_of_unpaddedKey hu, hu, hlength⟩, ?_⟩
  have hmeasured := htracks.measured.symm.trans (hr.sound.measure_of_keyLayout hsize hkey)
  simpa [Extent.clamp] using hmeasured.symm

/-- Where the walk through the key of a type is over at some reference, the size of the longest key
has no bound. -/
theorem Steady.unbounded_of_keyWalk (hr : r.Steady) (hsize : r.maxKeySize h = .ok size)
    {path : List Reference} {target : Reference} (hwalk : r.KeyWalk h path (.reference target))
    (hstops : Layout.Stops r.config.maxDepth [] path target) : size = Extent.limit := by
  obtain ⟨l, hkey, hwalk⟩ := hwalk
  exact Layout.saturates_of_walk hwalk rfl hstops (Nat.zero_le _)
    (hr.sound.measure_of_keyLayout hsize hkey)

/-- The size of the longest key of a type is attained, if the lengths that are assumed of its parts
can be counted.  A size below the limit is the length of some key.  The size is at the limit only
where the walk that measures the type meets a reference for the second time on its path, or a chain
of references that is too long, or where some key is not shorter than the limit itself. -/
theorem maxKeySize_attained (config : Config) (events : List Event) {h : Handle} {size : Nat}
    (hsize : (after { config := config } events).maxKeySize h = .ok size)
    (hcount : ∀ path node, (after { config := config } events).KeyWalk h path node →
      node.Countable (after { config := config } events).assumptions) :
    let r := after { config := config } events
    size ≤ Extent.limit ∧
      (size < Extent.limit → ∃ v, r.HasKeyOfLength h v size) ∧
      (size = Extent.limit →
        (∃ path target, r.KeyWalk h path (.reference target) ∧
          (target.entry ∈ path.map Reference.entry ∨ config.maxDepth < path.length + 1)) ∨
        ∃ v length, r.HasKeyOfLength h v length ∧ Extent.limit ≤ length) := by
  intro r
  have hr : r.Steady := steady_after config events
  have hconfig : r.config = config := config_after config events
  by_cases hover : ∃ path target, r.KeyWalk h path (.reference target) ∧
      Layout.Stops r.config.maxDepth [] path target
  · obtain ⟨path, target, hwalk, hstops⟩ := hover
    have hlimit := hr.unbounded_of_keyWalk hsize hwalk hstops
    refine ⟨hlimit.le, fun hlt => absurd hlimit hlt.ne, fun _ => Or.inl ⟨path, target, hwalk, ?_⟩⟩
    rcases hstops with hmem | hnil | hdeep
    · exact Or.inl hmem
    · cases hnil
    · exact Or.inr (Nat.lt_succ_of_le (hconfig ▸ hdeep))
  · obtain ⟨v, length, hv, hmin⟩ := hr.exists_longest hsize hcount fun path target hwalk hstops =>
      hover ⟨path, target, hwalk, hstops⟩
    refine ⟨hmin ▸ Nat.min_le_left _ _, fun hlt => ⟨v, ?_⟩, fun hlimit => Or.inr ?_⟩
    · obtain rfl : size = length := by omega
      exact hv
    · exact ⟨v, length, hv, by omega⟩

/-- A place on a shelf, which has padding inside wherever it starts. -/
def spot : Declaration :=
  { name := "Spot"
    body := .struct [⟨"row", .primitive (.integer .uint8)⟩,
      ⟨"column", .primitive (.integer .uint32)⟩] }

/-- A shelf with at most two places. -/
def shelf : Declaration :=
  { name := "Shelf"
    body := .struct [⟨"label", .string (some 3)⟩, ⟨"spots", .sequence (.named "Spot") (some 2)⟩] }

/-- The key of some shelf has the twenty-four bytes at which the keys of shelves are measured. -/
theorem maxKeySize_attained_shelf :
    let r := after { config := { } } [.register spot, .register shelf]
    r.maxKeySize ⟨1, "Shelf"⟩ = .ok 24 ∧
      (∀ path node, r.KeyWalk ⟨1, "Shelf"⟩ path node → node.Countable r.assumptions) ∧
      ∃ v, r.HasKeyOfLength ⟨1, "Shelf"⟩ v 24 := by
  intro r
  have hsize : r.maxKeySize ⟨1, "Shelf"⟩ = .ok 24 := by rfl
  have hkey : r.keyLayout ⟨1, "Shelf"⟩ = .ok (.struct "Shelf" [⟨"label", .string (some 3)⟩,
    ⟨"spots", .sequence (.reference ⟨"Spot", 0, .key⟩) (some 2)⟩]) := by rfl
  have hspot : r.catalog.layout 0 .key = .ok (.struct "Spot"
    [⟨"row", .primitive (.integer .uint8)⟩, ⟨"column", .primitive (.integer .uint32)⟩]) := by rfl
  have hcount : ∀ path node, r.KeyWalk ⟨1, "Shelf"⟩ path node → node.Countable r.assumptions := by
    rintro path node ⟨l, hl, hwalk⟩
    obtain rfl := Except.ok.inj (hkey.symm.trans hl)
    -- One node after the other, from the shelf to what a spot holds.
    rcases hwalk with _ | ⟨hpart, hwalk⟩
    · trivial
    obtain ⟨m, hm, rfl⟩ := Layout.mem_parts_struct.mp hpart
    rcases List.mem_pair.mp hm with rfl | rfl
    · rcases hwalk with _ | ⟨⟨⟩, -⟩
      exact (by decide : 3 ≤ Layout.greatestText)
    rcases hwalk with _ | ⟨hpart, hwalk⟩
    · exact (by decide : 2 ≤ CountWidth.greatest .u16)
    obtain ⟨-, rfl⟩ := Layout.mem_parts_sequence.mp hpart
    rcases hwalk with _ | ⟨⟨⟩, -⟩ | ⟨hfound, hwalk⟩
    · trivial
    obtain rfl := Except.ok.inj (hspot.symm.trans hfound)
    rcases hwalk with _ | ⟨hpart, hwalk⟩
    · trivial
    obtain ⟨m, hm, rfl⟩ := Layout.mem_parts_struct.mp hpart
    rcases List.mem_pair.mp hm with rfl | rfl <;> rcases hwalk with _ | ⟨⟨⟩, -⟩ <;> trivial
  exact ⟨hsize, hcount, (maxKeySize_attained { } _ hsize hcount).2.1 (by decide)⟩

end Registry

end Cdr
