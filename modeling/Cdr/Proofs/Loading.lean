import Cdr.Declaration.Json
import Cdr.Declaration.OfJson
import Cdr.Proofs.Arranging

/-! Declarations read back from their documents.  A record is read from its entries in any of the
orders that a document can have, the kind of a shape is told apart from its fields wherever it
stands among them, and a shape is read with the depth of its document to spend, because what it is
made of lies deeper. -/

namespace Cdr.Json.Order

open Outline

variable (order : Order)

/-- The outline of a document with its entries in the order. -/
def outline (j : Json) : Outline := ofJson (j.arranged order)

theorem outline_bool (b : Bool) : order.outline (.bool b) = .bool b := rfl

theorem outline_ofInt (n : Int) : order.outline (ofInt n) = .number (some (.integer n)) := rfl

theorem outline_string (text : String) : order.outline (.string text) = .string (some text) := rfl

theorem outline_array (items : List Json) :
    order.outline (.array items) = .array (items.map order.outline) true := by
  rw [outline, arranged, ofJson, ofJsonItems_eq_map, arrangedItems_eq_map, List.map_map]
  rfl

theorem outline_object (entries : List (String × Json)) :
    order.outline (.object entries) =
      .object ((order.entries entries).map fun e => (some e.1, order.outline e.2)) true := by
  rw [outline, arranged, ofJson, ofJsonEntries_eq_map, arrangedEntries_eq_map,
    Order.entries_map, List.map_map]
  rfl

theorem isSound_outline (j : Json) : (order.outline j).isSound = true := isSound_ofJson _

end Cdr.Json.Order

namespace Cdr.Declaration

open Json (Source Order Outline)
open Json.Outline hiding ofJson
open Json.Order

variable {order : Order} {shape : Outline → Json.Reading Shape}

theorem readItems_map {α : Type} {f : α → Outline} {read : Outline → Json.Reading α} {xs : List α}
    (h : ∀ x ∈ xs, read (f x) = .ok x) : readItems read (xs.map f) = .ok xs := by
  induction xs with
  | nil => rfl
  | cons x xs ih =>
    obtain ⟨hx, hxs⟩ := List.forall_mem_cons.mp h
    rw [List.map_cons, readItems, hx, ih hxs]
    rfl

/-- A list is read back if its items are. -/
theorem readList_array {α : Type} {f : α → Json} {read : Outline → Json.Reading α} {xs : List α}
    (h : ∀ x ∈ xs, read (order.outline (f x)) = .ok x) :
    (order.outline (.array (xs.map f))).readList read = .ok xs := by
  have hitems : readItems read (xs.map (order.outline ∘ f)) = .ok xs := readItems_map h
  rw [outline_array, List.map_map, readList, hitems]
  rfl

theorem readCount_ofInt (order : Order) (n : UInt64) :
    readCount (order.outline (Json.ofInt n.toNat)) = .ok n := by
  have hlt := n.toNat_lt
  have hfits : (0 : Int) ≤ n.toNat ∧ (n.toNat : Int) ≤ 2 ^ 64 - 1 := by omega
  rw [outline_ofInt, readCount, readInt, if_pos hfits]
  simp

theorem readBound_boundToJson (order : Order) (bound : Option UInt64) :
    readBound (order.outline (Shape.boundToJson bound)) = .ok bound := by
  cases bound with
  | none => rfl
  | some n => exact congrArg (Except.map some) (readCount_ofInt order n)

theorem readLabel_ofInt (order : Order) (l : Label) :
    readLabel (order.outline (Json.ofInt l.toInt)) = .ok l := by
  have hle := l.le_toInt
  have hlt := l.toInt_lt
  have hfits : (-2 ^ 63 : Int) ≤ l.toInt ∧ l.toInt ≤ 2 ^ 63 - 1 := by omega
  rw [outline_ofInt, readLabel, readInt, if_pos hfits]
  simp

theorem readOrdinal_ofInt (order : Order) (n : UInt32) :
    readInt 0 (2 ^ 32 - 1) (order.outline (Json.ofInt n.toNat)) = .ok n.toNat := by
  have hlt := n.toNat_lt
  exact if_pos (by omega)

/-- A record is read from the entries of its document, in their order. -/
theorem readRecord_outline {σ : Type} (names : List String)
    (step : σ → String → Outline → Json.Reading σ) (start : σ) (positional : Bool)
    (entries : List (String × Json)) :
    (order.outline (.object entries)).readRecord names step start positional =
      readEntries names step start
        ((order.entries entries).map fun e => (some e.1, order.outline e.2)) := by
  rw [outline_object, readRecord]
  exact bind_pure _

/-- A record of one field is that field, whatever the order. -/
theorem readRecord_single {σ : Type} (name : String)
    (step : σ → String → Outline → Json.Reading σ) (start : σ) (positional : Bool) (value : Json) :
    (order.outline (.object [(name, value)])).readRecord [name] step start positional =
      step start name (order.outline value) := by
  have hentries : order.entries [(name, value)] = [(name, value)] := by cases order <;> rfl
  rw [readRecord_outline, hentries, List.map_singleton, readEntries,
    if_pos (List.mem_singleton_self name)]
  exact bind_pure _

theorem readEnumerator_toJson (order : Order) (e : Enumerator) :
    readEnumerator (order.outline e.toJson) = .ok e := by
  obtain ⟨name, ordinal⟩ := e
  rw [Enumerator.toJson, readEnumerator, readRecord_outline]
  cases order
  all_goals
    simp +decide only [Order.entries, Dictionary.ofList, Dictionary.insert, List.map, List.foldl,
      if_true, if_false, readEntries, stepNamed, readOrdinal_ofInt, outline_string]
    show Except.ok (Enumerator.mk name (UInt32.ofNat ordinal.toNat)) = _
    rw [UInt32.ofNat_toNat]

/-- The document of a member or of a default case. -/
def namedToJson (name : String) (content : Shape) : Json :=
  .object [("name", .string name), ("shape", content.toJson)]

theorem readMember_namedToJson {m : Member Shape}
    (h : shape (order.outline m.content.toJson) = .ok m.content) :
    readMember shape (order.outline (namedToJson m.name m.content)) = .ok m := by
  rw [readMember, namedToJson, readRecord_outline]
  cases order
  all_goals
    simp +decide only [Order.entries, Dictionary.ofList, Dictionary.insert, List.map, List.foldl,
      if_true, if_false, readEntries, stepNamed, h, outline_string]
    rfl

theorem readDefaultCase_namedToJson {f : DefaultCase Shape}
    (h : shape (order.outline f.content.toJson) = .ok f.content) :
    readDefaultCase shape (order.outline (namedToJson f.name f.content)) = .ok f := by
  rw [readDefaultCase, namedToJson, readRecord_outline]
  cases order
  all_goals
    simp +decide only [Order.entries, Dictionary.ofList, Dictionary.insert, List.map, List.foldl,
      if_true, if_false, readEntries, stepNamed, h, outline_string]
    rfl

/-- The document of a case of a union. -/
def caseToJson (c : Case Shape) : Json :=
  .object [("name", .string c.name),
    ("labels", .array (c.labels.map fun l => Json.ofInt l.toInt)), ("shape", c.content.toJson)]

theorem casesToJson_eq_map (cases : List (Case Shape)) :
    Shape.casesToJson cases = cases.map caseToJson := by
  induction cases with
  | nil => rfl
  | cons c cases ih => rw [Shape.casesToJson, ih, List.map_cons, caseToJson]

theorem readCase_toJson {c : Case Shape}
    (h : shape (order.outline c.content.toJson) = .ok c.content) :
    readCase shape (order.outline (caseToJson c)) = .ok c := by
  have hlabels := readList_array fun l (_ : l ∈ c.labels) => readLabel_ofInt order l
  rw [readCase, caseToJson, readRecord_outline]
  cases order
  all_goals
    simp +decide only [Order.entries, Dictionary.ofList, Dictionary.insert, List.map, List.foldl,
      if_true, if_false, readEntries, stepNamed, h, hlabels, outline_string]
    rfl

theorem readFallback_toJson {fallback : Option (DefaultCase Shape)}
    (h : ∀ f ∈ fallback, shape (order.outline f.content.toJson) = .ok f.content) :
    (order.outline (Shape.fallbackToJson fallback)).readOptional (readDefaultCase shape) =
      .ok fallback := by
  cases fallback with
  | none => rfl
  | some f => exact congrArg (Except.map some) (readDefaultCase_namedToJson (h f rfl))

/-- The fields of the document of a union. -/
def unionFields (u : UnionOf Shape) : List (String × Json) :=
  [("discriminator", u.discriminator.toJson), ("cases", .array (Shape.casesToJson u.cases)),
    ("default", Shape.fallbackToJson u.fallback), ("key_discriminator", .bool u.keyedByLabel)]

theorem toJson_union (u : UnionOf Shape) :
    (Shape.union u).toJson = .object (Shape.kindField "union" :: unionFields u) := rfl

theorem readRecord_unionFields {u : UnionOf Shape}
    (htag : shape (order.outline u.discriminator.toJson) = .ok u.discriminator)
    (hcases : ∀ c ∈ u.cases, shape (order.outline c.content.toJson) = .ok c.content)
    (hfallback : ∀ f ∈ u.fallback, shape (order.outline f.content.toJson) = .ok f.content) :
    (order.outline (.object (unionFields u))).readRecord Shape.Kind.union.fields (stepShape shape)
        { } true =
      .ok { discriminator := some u.discriminator, cases := some u.cases,
            fallback := some u.fallback, keyedByLabel := some u.keyedByLabel } := by
  have hcases := readList_array fun c hc => readCase_toJson (hcases c hc)
  rw [← casesToJson_eq_map] at hcases
  have hfallback := readFallback_toJson hfallback
  rw [readRecord_outline, unionFields]
  cases order
  all_goals
    simp +decide only [Order.entries, Dictionary.ofList, Dictionary.insert, List.map, List.foldl,
      if_true, if_false, Shape.Kind.fields, readEntries, stepShape.eq_def, htag, hcases, hfallback,
      outline_bool]
    rfl

theorem readRecord_enumerators (enumerators : List Enumerator) :
    (order.outline (.object
        [("enumerators", .array (enumerators.map Enumerator.toJson))])).readRecord
        Shape.Kind.enumeration.fields (stepShape shape) { } true =
      .ok { enumerators := some enumerators } := by
  have henumerators := readList_array
    fun e (_ : e ∈ enumerators) => readEnumerator_toJson order e
  rw [Shape.Kind.fields, readRecord_single]
  simp only [stepShape.eq_def, henumerators]
  rfl

/-- Entries other than the kind are set aside as they are. -/
theorem splitEntries_fields (order : Order) (source : Source) (kind : Option Shape.Kind)
    {fields : List (String × Json)} (hkind : "kind" ∉ fields.map (·.1))
    (done : List (Option String × Outline)) :
    splitEntries source kind done (fields.map fun e => (some e.1, order.outline e.2)) =
      .ok (kind, done.reverse ++ fields.map fun e => (some e.1, order.outline e.2)) := by
  induction fields generalizing done with
  | nil => rw [List.map_nil, splitEntries, List.append_nil]
  | cons e fields ih =>
    obtain ⟨hne, hrest⟩ := List.ne_and_not_mem_of_not_mem_cons hkind
    rw [List.map_cons, splitEntries, if_neg hne.symm, isSound_outline, if_neg (by simp), ih hrest]
    simp

theorem splitEntries_append {source : Source} {kind : Option Shape.Kind}
    {before after : List (String × Json)} (hkind : "kind" ∉ before.map (·.1))
    (done : List (Option String × Outline)) :
    splitEntries source kind done
        ((before ++ after).map fun e => (some e.1, order.outline e.2)) =
      splitEntries source kind
        ((before.map fun e => (some e.1, order.outline e.2)).reverse ++ done)
        (after.map fun e => (some e.1, order.outline e.2)) := by
  induction before generalizing done with
  | nil => rfl
  | cons e before ih =>
    obtain ⟨hne, hrest⟩ := List.ne_and_not_mem_of_not_mem_cons hkind
    rw [List.cons_append, List.map_cons, splitEntries, if_neg hne.symm, isSound_outline,
      if_neg (by simp), ih hrest]
    simp

theorem find?_name (kind : Shape.Kind) :
    Shape.Kind.all.find? (·.name == kind.name) = some kind := by
  cases kind <;> decide

theorem read_name (source : Source) (kind : Shape.Kind) :
    Shape.Kind.read source (.string (some kind.name)) = .ok kind := by
  rw [Shape.Kind.read, find?_name]

/-- Whatever the order of its entries, the kind of a shape is told apart from its fields. -/
theorem splitShape_kind (kind : Shape.Kind) {fields : List (String × Json)}
    (hkind : "kind" ∉ fields.map (·.1)) (source : Source) :
    splitShape source (order.outline (.object (Shape.kindField kind.name :: fields))) =
      .ok (kind, order.outline (.object fields)) := by
  obtain ⟨before, after, hplace, hfields⟩ := order.exists_entries_cons (.string kind.name) hkind
  have hother : ∀ e ∈ before ++ after, e.1 ≠ "kind" := fun e he heq =>
    hkind (List.mem_map.mpr ⟨e, Order.mem_entries (hfields ▸ he), heq⟩)
  have hbefore : "kind" ∉ before.map (·.1) := fun hmem => by
    obtain ⟨e, he, hkey⟩ := List.mem_map.mp hmem
    exact hother e (List.mem_append_left _ he) hkey
  have hafter : "kind" ∉ after.map (·.1) := fun hmem => by
    obtain ⟨e, he, hkey⟩ := List.mem_map.mp hmem
    exact hother e (List.mem_append_right _ he) hkey
  have hrest := splitEntries_fields order source (some kind) hafter
    (before.map fun e => (some e.1, order.outline e.2)).reverse
  rw [outline_object, Shape.kindField, hplace, splitShape, splitEntries_append hbefore,
    List.map_cons, splitEntries, if_pos rfl, outline_string, read_name, List.append_nil]
  rw [List.reverse_reverse, ← List.map_append, ← hfields] at hrest
  rw [outline_object]
  show (splitEntries source (some kind) _ _ >>= _) = _
  rw [hrest]
  rfl

/-- The shape is read back from its document. -/
def ReadsBack (order : Order) (s : Shape) : Prop :=
  ∀ (limit : Nat) (source : Source), (order.outline s.toJson).depth ≤ limit →
    readShape limit source (order.outline s.toJson) = .ok s

theorem depth_pos (o : Outline) : 0 < o.depth := by
  cases o <;> exact Nat.zero_lt_succ _

theorem depth_le_depthItems {o : Outline} {items : List Outline} (h : o ∈ items) :
    o.depth ≤ depthItems items := by
  induction items with
  | nil => cases h
  | cons item items ih =>
    rw [depthItems]
    rcases List.mem_cons.mp h with rfl | hrest
    · exact Nat.le_max_left _ _
    · exact Nat.le_trans (ih hrest) (Nat.le_max_right _ _)

theorem depth_le_depthEntries {e : Option String × Outline}
    {entries : List (Option String × Outline)} (h : e ∈ entries) :
    e.2.depth ≤ depthEntries entries := by
  induction entries with
  | nil => cases h
  | cons e' entries ih =>
    rw [depthEntries]
    rcases List.mem_cons.mp h with rfl | hrest
    · exact Nat.le_max_left _ _
    · exact Nat.le_trans (ih hrest) (Nat.le_max_right _ _)

theorem depth_item (order : Order) {item : Json} {items : List Json} (h : item ∈ items) :
    (order.outline item).depth < (order.outline (.array items)).depth := by
  rw [outline_array, depth]
  exact Nat.lt_succ_of_le (depth_le_depthItems (List.mem_map_of_mem h))

theorem depth_field (order : Order) {entries : List (String × Json)}
    (hnodup : (entries.map (·.1)).Nodup) {name : String} {value : Json}
    (h : (name, value) ∈ entries) :
    (order.outline value).depth < (order.outline (.object entries)).depth := by
  rw [outline_object, depth]
  have hmem : (some name, order.outline value) ∈
      (order.entries entries).map fun e => (some e.1, order.outline e.2) :=
    List.mem_map.mpr ⟨_, order.mem_entries_of_nodup hnodup h, rfl⟩
  exact Nat.lt_succ_of_le (depth_le_depthEntries hmem)

theorem depth_content (order : Order) (c : Case Shape) :
    (order.outline c.content.toJson).depth < (order.outline (caseToJson c)).depth :=
  have hfield : ("shape", c.content.toJson) ∈ [("name", Json.string c.name),
      ("labels", .array (c.labels.map fun l => Json.ofInt l.toInt)),
      ("shape", c.content.toJson)] := by simp
  depth_field order (by simp) hfield

theorem depth_namedToJson (order : Order) (name : String) (content : Shape) :
    (order.outline content.toJson).depth < (order.outline (namedToJson name content)).depth :=
  have hfield : ("shape", content.toJson) ∈
      [("name", Json.string name), ("shape", content.toJson)] := by simp
  depth_field order (by simp) hfield

namespace ReadsBack

/-- A shape is read back if the record of its fields is, with less depth for its contents. -/
theorem of_fields {s : Shape} (kind : Shape.Kind) {fields : List (String × Json)}
    (hjson : s.toJson = .object (Shape.kindField kind.name :: fields))
    (hnodup : ("kind" :: fields.map (·.1)).Nodup)
    (h : ∀ limit, (∀ name value, (name, value) ∈ fields → (order.outline value).depth ≤ limit) →
      (do
        let parts ← (order.outline (.object fields)).readRecord kind.fields
          (stepShape (readShape limit .buffered)) { } true
        parts.shape kind) = .ok s) : ReadsBack order s := by
  intro limit source hdepth
  obtain ⟨limit, rfl⟩ := Nat.exists_eq_succ_of_ne_zero
    (Nat.ne_zero_of_lt (Nat.lt_of_lt_of_le (depth_pos _) hdepth))
  rw [hjson] at hdepth ⊢
  rw [readShape, splitShape_kind kind (List.nodup_cons.mp hnodup).1 source]
  refine h limit fun name value hfield => Nat.le_of_lt_succ (Nat.lt_of_lt_of_le ?_ hdepth)
  exact depth_field order (by simpa [Shape.kindField] using hnodup) (List.mem_cons_of_mem _ hfield)

/-- The record of a union is read back if its contents are, which have less depth. -/
theorem readRecord_union {u : UnionOf Shape} {limit : Nat} (source : Source)
    (hdepth : ∀ name value, (name, value) ∈ unionFields u → (order.outline value).depth ≤ limit)
    (htag : ReadsBack order u.discriminator) (hcases : ∀ c ∈ u.cases, ReadsBack order c.content)
    (hfallback : ∀ f ∈ u.fallback, ReadsBack order f.content) :
    (order.outline (.object (unionFields u))).readRecord Shape.Kind.union.fields
        (stepShape (readShape limit source)) { } true =
      .ok { discriminator := some u.discriminator, cases := some u.cases,
            fallback := some u.fallback, keyedByLabel := some u.keyedByLabel } := by
  have htagDepth := hdepth "discriminator" u.discriminator.toJson (by simp [unionFields])
  have hcasesDepth := hdepth "cases" (.array (Shape.casesToJson u.cases)) (by simp [unionFields])
  have hdefaultDepth := hdepth "default" (Shape.fallbackToJson u.fallback) (by simp [unionFields])
  refine readRecord_unionFields (htag limit source htagDepth)
    (fun c hc => hcases c hc limit source ?_) (fun f hf => hfallback f hf limit source ?_)
  · have hitem : caseToJson c ∈ Shape.casesToJson u.cases :=
      casesToJson_eq_map u.cases ▸ List.mem_map_of_mem hc
    have hcontent := depth_content order c
    have harray := depth_item order hitem
    omega
  · rw [Option.mem_def.mp hf] at hdefaultDepth
    exact Nat.le_trans (Nat.le_of_lt (depth_namedToJson order f.name f.content)) hdefaultDepth

theorem primitive (p : Primitive) : ReadsBack order (.primitive p) := by
  refine of_fields .primitive rfl (by simp) fun limit _ => ?_
  rw [Shape.Kind.fields, readRecord_single]
  simp only [stepShape.eq_def, outline_string, readChoice, Primitive.ofName?_name]
  rfl

theorem string (bound : Option UInt64) : ReadsBack order (.string bound) := by
  have hbound := readBound_boundToJson order bound
  refine of_fields .string rfl (by simp) fun limit _ => ?_
  rw [Shape.Kind.fields, readRecord_single]
  simp only [stepShape.eq_def, hbound]
  rfl

theorem bytes (bound : Option UInt64) : ReadsBack order (.bytes bound) := by
  have hbound := readBound_boundToJson order bound
  refine of_fields .bytes rfl (by simp) fun limit _ => ?_
  rw [Shape.Kind.fields, readRecord_single]
  simp only [stepShape.eq_def, hbound]
  rfl

theorem array {element : Shape} (h : ReadsBack order element) (length : UInt64) :
    ReadsBack order (.array element length) := by
  refine of_fields .array rfl (by simp) fun limit hdepth => ?_
  have helement := h limit .buffered (hdepth "element" _ (by simp))
  have hlength := readCount_ofInt order length
  rw [readRecord_outline]
  cases order
  all_goals
    simp +decide only [Order.entries, Dictionary.ofList, Dictionary.insert, List.map, List.foldl,
      if_true, if_false, Shape.Kind.fields, readEntries, stepShape.eq_def, helement, hlength]
    rfl

theorem sequence {element : Shape} (h : ReadsBack order element) (bound : Option UInt64) :
    ReadsBack order (.sequence element bound) := by
  refine of_fields .sequence rfl (by simp) fun limit hdepth => ?_
  have helement := h limit .buffered (hdepth "element" _ (by simp))
  have hbound := readBound_boundToJson order bound
  rw [readRecord_outline]
  cases order
  all_goals
    simp +decide only [Order.entries, Dictionary.ofList, Dictionary.insert, List.map, List.foldl,
      if_true, if_false, Shape.Kind.fields, readEntries, stepShape.eq_def, helement, hbound]
    rfl

theorem map {key value : Shape} (hkey : ReadsBack order key) (hvalue : ReadsBack order value)
    (bound : Option UInt64) : ReadsBack order (.map key value bound) := by
  refine of_fields .map rfl (by simp) fun limit hdepth => ?_
  have hkey := hkey limit .buffered (hdepth "key" _ (by simp))
  have hvalue := hvalue limit .buffered (hdepth "value" _ (by simp))
  have hbound := readBound_boundToJson order bound
  rw [readRecord_outline]
  cases order
  all_goals
    simp +decide only [Order.entries, Dictionary.ofList, Dictionary.insert, List.map, List.foldl,
      if_true, if_false, Shape.Kind.fields, readEntries, stepShape.eq_def, hkey, hvalue, hbound]
    rfl

theorem optional {inner : Shape} (h : ReadsBack order inner) :
    ReadsBack order (.optional inner) := by
  refine of_fields .optional rfl (by simp) fun limit hdepth => ?_
  have hinner := h limit .buffered (hdepth "inner" _ (by simp))
  rw [Shape.Kind.fields, readRecord_single]
  simp only [stepShape.eq_def, hinner]
  rfl

theorem named (name : String) : ReadsBack order (.named name) := by
  refine of_fields .named rfl (by simp) fun limit _ => ?_
  rw [Shape.Kind.fields, readRecord_single]
  simp only [stepShape.eq_def, outline_string]
  rfl

theorem enumeration (enumerators : List Enumerator) :
    ReadsBack order (.enumeration enumerators) := by
  refine of_fields .enumeration rfl (by simp) fun limit _ => ?_
  rw [readRecord_enumerators]
  rfl

theorem union {u : UnionOf Shape} (htag : ReadsBack order u.discriminator)
    (hcases : ∀ c ∈ u.cases, ReadsBack order c.content)
    (hfallback : ∀ f ∈ u.fallback, ReadsBack order f.content) : ReadsBack order (.union u) := by
  refine of_fields .union (toJson_union u) (by simp [unionFields]) fun limit hdepth => ?_
  rw [readRecord_union .buffered hdepth htag hcases hfallback]
  rfl

end ReadsBack

mutual

/-- Every shape is read back from its document. -/
theorem readsBack : ∀ s : Shape, ReadsBack order s
  | .primitive p => .primitive p
  | .string bound => .string bound
  | .bytes bound => .bytes bound
  | .array element length => .array (readsBack element) length
  | .sequence element bound => .sequence (readsBack element) bound
  | .map key value bound => .map (readsBack key) (readsBack value) bound
  | .enumeration enumerators => .enumeration enumerators
  | .union ⟨tag, cases, fallback, _⟩ =>
    .union (readsBack tag) (readsBackCases cases) (readsBackFallback fallback)
  | .optional inner => .optional (readsBack inner)
  | .named name => .named name
termination_by structural s => s

theorem readsBackCases : ∀ cases : List (Case Shape), ∀ c ∈ cases, ReadsBack order c.content
  | [] => List.forall_mem_nil _
  | ⟨_, _, content⟩ :: cases =>
    List.forall_mem_cons.mpr ⟨readsBack content, readsBackCases cases⟩
termination_by structural cases => cases

theorem readsBackFallback : ∀ fallback : Option (DefaultCase Shape),
    ∀ f ∈ fallback, ReadsBack order f.content
  | none => fun _ h => nomatch h
  | some ⟨_, content⟩ => fun f hf => by
    cases hf
    exact readsBack content
termination_by structural fallback => fallback

end

theorem readList_members {members : List (Member Shape)} {limit : Nat} (source : Source)
    (hdepth : (order.outline
      (.array (members.map fun m => namedToJson m.name m.content))).depth ≤ limit) :
    (order.outline (.array (members.map fun m => namedToJson m.name m.content))).readList
      (readMember (readShape limit source)) = .ok members := by
  refine readList_array fun m hm => readMember_namedToJson (readsBack m.content limit source ?_)
  have hcontent := depth_namedToJson order m.name m.content
  have hitem := depth_item order
    (List.mem_map_of_mem (f := fun m => namedToJson m.name m.content) hm)
  omega

/-- A body is an object whose only entry names its kind, whatever the order. -/
theorem readBody_single (source : Source) (kind : String) (content : Json) {body : Body}
    (h : readBodyOf source kind (order.outline content) = .ok body) :
    readBody source (order.outline (.object [(kind, content)])) = .ok body := by
  have hentries : order.entries [(kind, content)] = [(kind, content)] := by cases order <;> rfl
  rw [outline_object, hentries, List.map_singleton, readBody, if_neg (by simp), h]
  rfl

theorem readBody_toJson (order : Order) (source : Source) (body : Body) :
    readBody source (order.outline body.toJson) = .ok body := by
  cases body with
  | struct members =>
    show readBody source (order.outline (.object [("struct", .object [("members",
      .array (members.map fun m => namedToJson m.name m.content))])])) = _
    refine readBody_single source "struct" _ ?_
    have hmembers := readList_members source
      (Nat.le_of_lt (depth_field order (by simp) (List.mem_singleton_self ("members",
        Json.array (members.map fun m => namedToJson m.name m.content)))))
    rw [readBodyOf, readRecord_single]
    simp +decide only [stepNamed, if_true, if_false, hmembers]
    rfl
  | union u =>
    show readBody source (order.outline (.object [("union", .object (unionFields u))])) = _
    refine readBody_single source "union" _ ?_
    have hunion := ReadsBack.readRecord_union source
      (fun name value hfield => Nat.le_of_lt (depth_field order (by simp [unionFields]) hfield))
      (readsBack u.discriminator) (fun c _ => readsBack c.content) fun f _ => readsBack f.content
    rw [readBodyOf, hunion]
    rfl
  | enumeration enumerators =>
    refine readBody_single source "enum" _ ?_
    rw [readBodyOf, readRecord_enumerators]
    rfl

theorem readOptional_keyMembers (order : Order) (keyMembers : Option (List String)) :
    (order.outline (Json.ofOption (fun keys => .array (keys.map .string)) keyMembers)).readOptional
      (·.readList readText) = .ok keyMembers := by
  cases keyMembers with
  | none => rfl
  | some keys =>
    have htext : ∀ name ∈ keys, readText (order.outline (.string name)) = .ok name :=
      fun _ _ => rfl
    have hkeys := readList_array htext
    exact congrArg (Except.map some) hkeys

/-- Every declaration is read back from its document, whatever the order of the entries is. -/
theorem read_toJson (order : Order) (source : Source) (d : Declaration) :
    read source (order.outline d.toJson) = .ok d := by
  obtain ⟨name, extensibility, keyMembers, body⟩ := d
  have hbody := readBody_toJson order source body
  have hkeys := readOptional_keyMembers order keyMembers
  have hextensibility : readChoice Extensibility.ofName? source
      (.string (some extensibility.name)) = .ok extensibility := by
    cases extensibility <;> rfl
  rw [read, toJson, readRecord_outline]
  cases order
  all_goals
    simp +decide only [Order.entries, Dictionary.ofList, Dictionary.insert, List.map, List.foldl,
      if_true, if_false, readEntries, step.eq_def, hbody, hkeys, hextensibility, outline_string]
    rfl

end Cdr.Declaration
