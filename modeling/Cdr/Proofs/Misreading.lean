import Cdr.Proofs.Arranging
import Cdr.Proofs.Building
import Cdr.Proofs.Quoting

/-! Why a document is no declaration.  The grammar gives every part of a document a place, from the
place of the part that it belongs to.  Whatever flaw a reader reports comes from a part: the name of
an alternative from a place where one of several is wanted, and a string from a place where none is
wanted.  The kind of the fault is that of the flaw, except that a string that holds the words of the
other flaw is taken for it. -/

namespace Cdr.Declaration

open Json (Source Flaw Reading Outline)
open Json.Outline hiding ofJson

/-- What is wanted of a part of the document of a declaration. -/
inductive Place where
  | declaration
  | text
  | flag
  | number
  /-- One of several alternatives without content. -/
  | extensibility
  | primitive
  /-- The content of such an alternative. -/
  | nothing
  | body
  | members
  | shape (source : Source)
  | kind (source : Source)
  /-- The fields of a shape or of a body besides its kind, with shapes from the source. -/
  | content (source : Source) (kind : Shape.Kind)
  | member
  | case (source : Source)
  | fallback (source : Source)
  | enumerator
  | list (place : Place)
  | optional (place : Place)
deriving DecidableEq, Repr

namespace Place

/-- The place of the field of a shape. -/
def ofField (source : Source) : String → Place
  | "primitive" => primitive
  | "bound" => optional number
  | "length" => number
  | "element" | "key" | "value" | "inner" | "discriminator" => shape source
  | "enumerators" => list enumerator
  | "cases" => list (case source)
  | "default" => optional (fallback source)
  | "key_discriminator" => flag
  | _ => text

/-- The fields of a record in their order, with their places. -/
def fields : Place → List (String × Place)
  | declaration =>
    [("name", text), ("extensibility", extensibility), ("key_members", optional (list text)),
      ("body", body)]
  | members => [("members", list member)]
  | member => [("name", text), ("shape", shape .stored)]
  | case source => [("name", text), ("labels", list number), ("shape", shape source)]
  | fallback source => [("name", text), ("shape", shape source)]
  | enumerator => [("name", text), ("ordinal", number)]
  | content source found => found.fields.map fun name => (name, ofField source name)
  | _ => []

/-- The content of a body of the kind. -/
def ofBody? : String → Option Place
  | "struct" => some members
  | "union" => some (content .stored .union)
  | "enum" => some (content .stored .enumeration)
  | _ => none

/-- The names that can stand at the place for one of several alternatives. -/
def alternatives : Place → List String
  | extensibility => Extensibility.all.map (·.name)
  | primitive => Primitive.all.map (·.name)
  | kind _ => Shape.Kind.all.map (·.name)
  | body => bodyKinds
  | _ => []

/-- The alternative that the document names, where one of several is wanted. -/
def alternative? : Place → Json → Option String
  | extensibility, .string name | primitive, .string name | kind _, .string name
  | body, .string name => some name
  | extensibility, .object [(name, _)] | primitive, .object [(name, _)]
  | body, .object [(name, _)] => some name
  | _, _ => none

/-- The document names an alternative that does not exist. -/
def Misnames (place : Place) (j : Json) (name : String) : Prop :=
  place.alternative? j = some name ∧ name ∉ place.alternatives

/-- A string can be right at the place. -/
def wantsString : Place → Bool
  | text | extensibility | primitive | kind _ | body => true
  | optional place => place.wantsString
  | _ => false

/-- The fields of a record, by their names in an object or by their order in an array. -/
def recordParts (fields : List (String × Place)) : Json → List (Place × Json)
  | .object entries => entries.filterMap fun e => (fields.lookup e.1).map fun place => (place, e.2)
  | .array items => (fields.map (·.2)).zip items
  | _ => []

end Place

end Cdr.Declaration

namespace Cdr.Json

/-- The documents that stand for the kind of a shape: those of its name, or the first item. -/
def kinds : Json → List Json
  | object entries => (entries.filter (·.1 == "kind")).map (·.2)
  | array (item :: _) => [item]
  | _ => []

theorem kinds_cons_kind (value : Json) (entries : List (String × Json)) :
    (object (("kind", value) :: entries)).kinds = value :: (object entries).kinds := rfl

theorem kinds_cons_of_ne {name : String} (h : name ≠ "kind") (value : Json)
    (entries : List (String × Json)) :
    (object ((name, value) :: entries)).kinds = (object entries).kinds := by
  simp [kinds, h]

/-- The document without what stands for its kind. -/
def withoutKind : Json → Json
  | object entries => object (entries.filter (·.1 != "kind"))
  | array items => array items.tail
  | j => j

end Cdr.Json

namespace Cdr.Declaration

open Json (Source Flaw Reading Outline)
open Json.Outline hiding ofJson

namespace Place

/-- The parts of a document, with their places. -/
def parts : Place → Json → List (Place × Json)
  | list place, .array items => items.map fun item => (place, item)
  | optional _, .null => []
  | optional place, j => [(place, j)]
  | extensibility, .object [(_, value)] | primitive, .object [(_, value)] => [(nothing, value)]
  | body, .object [(name, value)] => (ofBody? name).toList.map fun place => (place, value)
  -- The fields of a shape have their places from its kind.
  | shape source, j =>
    j.kinds.map (fun document => (kind source, document)) ++
      j.kinds.filterMap fun document =>
        match Shape.Kind.read source (Outline.ofJson document) with
        | .ok found => some (content .buffered found, j.withoutKind)
        | .error _ => none
  | members, .array _ => []
  | place, j => recordParts place.fields j

end Place

/-- The document holds the part at its place, at any depth, or is that part. -/
inductive HasPart : Place × Json → Place × Json → Prop
  | here (part : Place × Json) : HasPart part part
  | part {outer part inner : Place × Json} (hpart : part ∈ outer.1.parts outer.2)
    (h : HasPart part inner) : HasPart outer inner

/-- Somewhere the document names an alternative that does not exist. -/
def Misnamed (place : Place) (j : Json) : Prop :=
  ∃ inner part name, HasPart (place, j) (inner, part) ∧ inner.Misnames part name

/-- Somewhere the document has a string in the place of something else, and the string holds the
words that are searched for. -/
def Misleading (place : Place) (j : Json) : Prop :=
  ∃ inner text, HasPart (place, j) (inner, .string text) ∧ inner.wantsString = false ∧
    phrase <:+: text.toList

theorem not_misnamed {place : Place} {j : Json} (hhere : ∀ name, ¬ place.Misnames j name)
    (hparts : ∀ part ∈ place.parts j, ¬ Misnamed part.1 part.2) : ¬ Misnamed place j := by
  rintro ⟨inner, document, name, hhas, hname⟩
  cases hhas with
  | here => exact hhere name hname
  | part hpart h => exact hparts _ hpart ⟨inner, document, name, h, hname⟩

/-- The flaw comes from a part of the document. -/
def Explains (place : Place) (j : Json) : Flaw → Prop
  | .unknownVariant name => ∃ inner part, HasPart (place, j) (inner, part) ∧ inner.Misnames part name
  | .wrongString text => ∃ inner, HasPart (place, j) (inner, .string text) ∧ inner.wantsString = false
  | .malformed => True

/-- Every flaw that the reader finds in a document comes from a part of the document. -/
def Accounts {α : Type} (place : Place) (read : Outline → Reading α) : Prop :=
  ∀ j flaw, read (Outline.ofJson j) = .error flaw → Explains place j flaw

/-- The result fails, if at all, as malformed. -/
def FailsMalformed {α : Type} (result : Reading α) : Prop :=
  ∀ flaw, result = .error flaw → flaw = .malformed

section FailsMalformed

variable {α β : Type}

theorem FailsMalformed.ok (x : α) : FailsMalformed (.ok x) := nofun

theorem FailsMalformed.bind {result : Reading α} {rest : α → Reading β} (h : FailsMalformed result)
    (hrest : ∀ x, FailsMalformed (rest x)) : FailsMalformed (result >>= rest) := by
  intro flaw hflaw
  rcases except_bind_eq_error.mp hflaw with hearly | ⟨x, -, hlate⟩
  · exact h flaw hearly
  · exact hrest x flaw hlate

theorem failsMalformed_required (field : Option α) : FailsMalformed (required field) := by
  intro flaw hflaw
  cases field with
  | none =>
    cases hflaw
    rfl
  | some x => cases hflaw

theorem failsMalformed_pair {γ : Type} (first : Option α) (second : Option β) (build : α → β → γ) :
    FailsMalformed (required first >>= fun x => required second >>= fun y => .ok (build x y)) :=
  (failsMalformed_required first).bind fun _ => (failsMalformed_required second).bind fun _ => .ok _

end FailsMalformed

section Accounts

variable {α β : Type} {place : Place} {read : Outline → Reading α} {j : Json} {flaw : Flaw}

theorem Explains.of_part {part : Place × Json} (hpart : part ∈ place.parts j)
    (h : Explains part.1 part.2 flaw) : Explains place j flaw := by
  cases flaw with
  | unknownVariant name =>
    obtain ⟨inner, document, hhas, hname⟩ := h
    exact ⟨inner, document, .part hpart hhas, hname⟩
  | wrongString text =>
    obtain ⟨inner, hhas, hwants⟩ := h
    exact ⟨inner, .part hpart hhas, hwants⟩
  | malformed => trivial

theorem explains_misfit (h : place.wantsString = false) (j : Json) :
    Explains place j (Outline.ofJson j).misfit := by
  cases j with
  | string text => exact ⟨place, .here _, h⟩
  | _ => trivial

/-- A step that can only fail as malformed adds no flaw to account for. -/
theorem Accounts.bind {rest : α → Reading β} (h : Accounts place read)
    (hrest : ∀ x, FailsMalformed (rest x)) : Accounts place fun o => read o >>= rest := by
  intro j flaw hflaw
  rcases except_bind_eq_error.mp hflaw with hread | ⟨x, -, hlate⟩
  · exact h j flaw hread
  · rw [hrest x flaw hlate]
    trivial

theorem accounts_readText : Accounts .text readText := by
  intro j flaw hflaw
  cases j <;> cases hflaw <;> trivial

theorem accounts_readBool : Accounts .flag readBool := by
  intro j flaw hflaw
  cases j <;> cases hflaw <;> exact explains_misfit rfl _

theorem accounts_readInt (least greatest : Int) : Accounts .number (readInt least greatest) := by
  intro j flaw hflaw
  unfold readInt at hflaw
  split at hflaw
  · split at hflaw <;> cases hflaw
    trivial
  · cases hflaw
    exact explains_misfit rfl j

theorem accounts_readNothing (source : Source) : Accounts .nothing (readNothing source) := by
  intro j flaw hflaw
  unfold readNothing at hflaw
  split at hflaw
  · cases hflaw
  · split at hflaw <;> cases hflaw
    trivial
  · cases hflaw
    exact explains_misfit rfl j

theorem Accounts.optional (h : Accounts place read) :
    Accounts (.optional place) (readOptional read) := by
  intro j flaw hflaw
  unfold readOptional at hflaw
  split at hflaw
  · cases hflaw
  · rename_i hnull
    have hpart : (place, j) ∈ (Place.optional place).parts j := by
      cases j with
      | null => exact absurd rfl hnull
      | _ => exact List.mem_singleton_self _
    exact .of_part hpart (h j flaw (except_map_eq_error.mp hflaw))

theorem Accounts.items (h : Accounts place read) {items : List Json} {flaw : Flaw}
    (hflaw : readItems read (items.map Outline.ofJson) = .error flaw) :
    ∃ item ∈ items, Explains place item flaw := by
  induction items with
  | nil => cases hflaw
  | cons item items ih =>
    rcases except_bind_eq_error.mp hflaw with hitem | ⟨x, -, hlate⟩
    · exact ⟨item, List.mem_cons_self, h item flaw hitem⟩
    rcases except_bind_eq_error.mp hlate with hrest | ⟨xs, -, ⟨⟩⟩
    obtain ⟨item', hmem, hexplains⟩ := ih hrest
    exact ⟨item', List.mem_cons_of_mem _ hmem, hexplains⟩

theorem Accounts.list (h : Accounts place read) : Accounts (.list place) (readList read) := by
  intro j flaw hflaw
  cases j with
  | array items =>
    rw [Outline.ofJson, ofJsonItems_eq_map] at hflaw
    rcases except_bind_eq_error.mp hflaw with hitems | ⟨xs, -, ⟨⟩⟩
    obtain ⟨item, hmem, hexplains⟩ := h.items hitems
    exact .of_part (List.mem_map_of_mem hmem) hexplains
  | _ =>
    cases hflaw
    exact explains_misfit rfl _

theorem once_eq_error {field : Option α} {result : Reading α}
    (h : once field result = .error flaw) : flaw = .malformed ∨ result = .error flaw := by
  unfold once at h
  split at h
  · cases h
    exact Or.inl rfl
  · exact Or.inr (except_map_eq_error.mp h)

theorem once_eq_ok {field : Option α} {result : Reading α} {x : Option α}
    (h : once field result = .ok x) : ∃ y, result = .ok y ∧ x = some y := by
  unfold once at h
  split at h
  · cases h
  · cases result with
    | error flaw => cases h
    | ok y =>
      cases h
      exact ⟨y, rfl, rfl⟩

/-- A field that is read at its place, and not twice. -/
theorem Accounts.explains_once (h : Accounts place read) {field : Option α} {f : Option α → β}
    (hflaw : (once field (read (Outline.ofJson j)) >>= fun x => .ok (f x)) = .error flaw) :
    Explains place j flaw := by
  rcases except_bind_eq_error.mp hflaw with honce | ⟨x, -, ⟨⟩⟩
  rcases once_eq_error honce with rfl | hread
  · trivial
  · exact h j flaw hread

theorem not_mem_of_find?_eq_none {nameOf : α → String} {all : List α} {name : String}
    (h : all.find? (nameOf · == name) = none) : name ∉ all.map nameOf := by
  intro hmem
  obtain ⟨x, hx, hname⟩ := List.mem_map.mp hmem
  exact List.find?_eq_none.mp h x hx (beq_iff_eq.mpr hname)

/-- Alternatives without content, given by their names or by objects of one entry. -/
theorem accounts_readChoice {ofName? : String → Option α} {source : Source}
    (hsource : source ≠ .streamed)
    (hname : ∀ name, place.alternative? (.string name) = some name)
    (hobject : ∀ name value, place.alternative? (.object [(name, value)]) = some name)
    (hknown : ∀ name, ofName? name = none → name ∉ place.alternatives)
    (hparts : ∀ name value, place.parts (.object [(name, value)]) = [(.nothing, value)]) :
    Accounts place (readChoice ofName? source) := by
  intro j flaw hflaw
  match j with
  | .string name =>
    rw [Outline.ofJson, readChoice] at hflaw
    split at hflaw <;> cases hflaw
    rename_i hnone
    exact ⟨place, .string name, .here _, hname name, hknown name hnone⟩
  | .object [(name, value)] =>
    rw [Outline.ofJson, ofJsonEntries, ofJsonEntries, readChoice, if_neg (by simp)] at hflaw
    split at hflaw
    · rename_i hnone
      cases hflaw
      exact ⟨place, _, .here _, hobject name value, hknown name hnone⟩
    · rcases except_bind_eq_error.mp hflaw with hcontent | ⟨_, -, ⟨⟩⟩
      have hpart : (.nothing, value) ∈ place.parts (.object [(name, value)]) :=
        hparts name value ▸ List.mem_singleton_self _
      exact .of_part hpart (accounts_readNothing source _ _ hcontent)
  | .object ((name, value) :: _ :: _) =>
    rw [Outline.ofJson, ofJsonEntries, ofJsonEntries, readChoice,
      if_pos ⟨hsource, by simp⟩] at hflaw
    cases hflaw
    trivial
  | .object [] | .null | .bool _ | .number _ | .array _ =>
    cases hflaw
    trivial

section Records

variable {σ : Type} {step : σ → String → Outline → Reading σ} {fields : List (String × Place)}

/-- A flaw of the entries of a record is one of a field. -/
theorem exists_entry (hstep : ∀ field ∈ fields, ∀ state, Accounts field.2 (step state field.1))
    {entries : List (String × Json)} {state : σ} {flaw : Flaw}
    (hflaw : readEntries (fields.map (·.1)) step state (ofJsonEntries entries) = .error flaw) :
    ∃ part ∈ Place.recordParts fields (.object entries), Explains part.1 part.2 flaw := by
  induction entries generalizing state with
  | nil => cases hflaw
  | cons e entries ih =>
    obtain ⟨name, value⟩ := e
    have hlater : (∃ part ∈ Place.recordParts fields (.object entries),
          Explains part.1 part.2 flaw) →
        ∃ part ∈ Place.recordParts fields (.object ((name, value) :: entries)),
          Explains part.1 part.2 flaw := by
      rintro ⟨part, hpart, hexplains⟩
      obtain ⟨e, he, hplace⟩ := List.mem_filterMap.mp hpart
      exact ⟨part, List.mem_filterMap.mpr ⟨e, List.mem_cons_of_mem _ he, hplace⟩, hexplains⟩
    rw [ofJsonEntries, readEntries] at hflaw
    split at hflaw
    · rename_i hknown
      obtain ⟨place, hplace⟩ : ∃ place, fields.lookup name = some place := by
        refine Option.isSome_iff_exists.mp (List.lookup_isSome_iff.mpr ?_)
        obtain ⟨field, hfield, rfl⟩ := List.mem_map.mp hknown
        exact ⟨field, hfield, beq_self_eq_true _⟩
      rcases except_bind_eq_error.mp hflaw with hvalue | ⟨state', -, hlate⟩
      · obtain ⟨before, after, hfields, -⟩ := List.lookup_eq_some_iff.mp hplace
        have hfield : (name, place) ∈ fields := by simp [hfields]
        refine ⟨(place, value), ?_, hstep _ hfield state value flaw hvalue⟩
        exact List.mem_filterMap.mpr ⟨(name, value), List.mem_cons_self, by rw [hplace]; rfl⟩
      · exact hlater (ih hlate)
    · exact hlater (ih hflaw)

/-- A flaw of the items of a record is one of a field, unless there are too many. -/
theorem exists_item (hstep : ∀ field ∈ fields, ∀ state, Accounts field.2 (step state field.1))
    {items : List Json} {state : σ} {flaw : Flaw}
    (hflaw : readFields step state (fields.map (·.1)) (items.map Outline.ofJson) = .error flaw) :
    flaw = .malformed ∨
      ∃ part ∈ Place.recordParts fields (.array items), Explains part.1 part.2 flaw := by
  induction fields generalizing items state with
  | nil =>
    cases items with
    | nil => cases hflaw
    | cons item items =>
      cases hflaw
      exact Or.inl rfl
  | cons field fields ih =>
    obtain ⟨hfield, hfields⟩ := List.forall_mem_cons.mp hstep
    cases items with
    | nil => cases hflaw
    | cons item items =>
      rcases except_bind_eq_error.mp hflaw with hitem | ⟨state', -, hlate⟩
      · exact Or.inr ⟨(field.2, item), List.mem_cons_self, hfield state item flaw hitem⟩
      · refine (ih hfields hlate).imp_right ?_
        rintro ⟨part, hpart, hexplains⟩
        exact ⟨part, List.mem_cons_of_mem _ hpart, hexplains⟩

/-- A record whose fields are read at their places. -/
theorem accounts_readRecord (place : Place) {start : σ} {positional : Bool}
    (hwants : place.wantsString = false)
    (hentries : ∀ entries, place.parts (.object entries) =
      Place.recordParts place.fields (.object entries))
    (hitems : positional = true → ∀ items, place.parts (.array items) =
      Place.recordParts place.fields (.array items))
    (hstep : ∀ field ∈ place.fields, ∀ state, Accounts field.2 (step state field.1)) :
    Accounts place (readRecord (place.fields.map (·.1)) step start positional) := by
  intro j flaw hflaw
  cases j with
  | object entries =>
    rcases except_bind_eq_error.mp hflaw with hread | ⟨state, -, ⟨⟩⟩
    obtain ⟨part, hpart, hexplains⟩ := exists_entry hstep hread
    exact .of_part (hentries entries ▸ hpart) hexplains
  | array items =>
    rw [Outline.ofJson, ofJsonItems_eq_map, readRecord] at hflaw
    split at hflaw
    · rename_i hpositional
      rcases except_bind_eq_error.mp hflaw with hread | ⟨state, -, ⟨⟩⟩
      rcases exists_item hstep hread with rfl | ⟨part, hpart, hexplains⟩
      · trivial
      · exact .of_part (hitems hpositional items ▸ hpart) hexplains
    · cases hflaw
      trivial
  | _ =>
    cases hflaw
    exact explains_misfit hwants _

end Records

end Accounts

end Cdr.Declaration
