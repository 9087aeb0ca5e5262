import Cdr.Json.Record
import Cdr.Proofs.Dictionaries
import Cdr.Proofs.Scanning

/-! The order of the entries of a document.  Written field by field a document has its entries as
they were declared, and built as a value it has them in the order of their names.  Reading a text
sorts them, however they were written, and asks that the nesting stays within the limit. -/

namespace Cdr.Json

/-- What holds of scalars, and of arrays and objects if it holds of what they contain, holds of
every document. -/
@[elab_as_elim]
theorem induction_on_contents {motive : Json → Prop} (null : motive .null)
    (bool : ∀ b, motive (.bool b)) (number : ∀ n, motive (.number n))
    (string : ∀ text, motive (.string text))
    (array : ∀ items, (∀ item ∈ items, motive item) → motive (.array items))
    (object : ∀ entries, (∀ e ∈ entries, motive e.2) → motive (.object entries)) (j : Json) :
    motive j :=
  match j with
  | .null => null
  | .bool b => bool b
  | .number n => number n
  | .string text => string text
  | .array items => array items fun item _ =>
    induction_on_contents null bool number string array object item
  | .object entries => object entries fun e _ =>
    induction_on_contents null bool number string array object e.2
termination_by sizeOf j
decreasing_by
  · rename_i h
    have := List.sizeOf_lt_of_mem h
    simp only [Json.array.sizeOf_spec]
    omega
  · rename_i h
    have := List.sizeOf_lt_of_mem h
    obtain ⟨key, value⟩ := e
    simp only [Json.object.sizeOf_spec, Prod.mk.sizeOf_spec] at this ⊢
    omega

/-- The order of the entries of an object: as they were declared, or that of their names. -/
inductive Order where
  | declared
  | sorted
deriving DecidableEq, Repr

def Order.entries : Order → List (String × Json) → List (String × Json)
  | declared, entries => entries
  | sorted, entries => Dictionary.ofList entries

theorem Order.mem_entries {order : Order} {entries : List (String × Json)} {e : String × Json}
    (h : e ∈ order.entries entries) : e ∈ entries := by
  cases order with
  | declared => exact h
  | sorted => exact (Dictionary.mem_insertAll h).resolve_right List.not_mem_nil

/-- An entry takes a place between the others and leaves their order as it is. -/
theorem Order.exists_entries_cons (order : Order) {name : String} (value : Json)
    {entries : List (String × Json)} (hname : name ∉ entries.map (·.1)) :
    ∃ before after, order.entries ((name, value) :: entries) = before ++ (name, value) :: after ∧
      order.entries entries = before ++ after := by
  cases order with
  | declared => exact ⟨[], entries, rfl, rfl⟩
  | sorted =>
    have hinsert : Dictionary.ofList ((name, value) :: entries) =
        Dictionary.insert name value (Dictionary.ofList entries) :=
      Dictionary.insertAll_insert hname value .nil
    have hnew : name ∉ (Order.sorted.entries entries).map (·.1) := fun hmem => by
      obtain ⟨e, he, hkey⟩ := List.mem_map.mp hmem
      exact hname (List.mem_map.mpr ⟨e, Order.mem_entries he, hkey⟩)
    obtain ⟨before, after, hplace, hentries⟩ := Dictionary.insert_eq_append value hnew
    exact ⟨before, after, hinsert.trans hplace, hentries⟩

/-- No entry is lost if the names differ. -/
theorem Order.mem_entries_of_nodup (order : Order) {entries : List (String × Json)}
    (hnodup : (entries.map (·.1)).Nodup) {e : String × Json} (h : e ∈ entries) :
    e ∈ order.entries entries := by
  induction entries with
  | nil => cases h
  | cons e' entries ih =>
    obtain ⟨hname, hnodup⟩ := List.nodup_cons.mp hnodup
    obtain ⟨before, after, hplace, hentries⟩ := order.exists_entries_cons e'.2 hname
    rw [hplace]
    rcases List.mem_cons.mp h with rfl | htail
    · simp
    · have hmem := ih hnodup htail
      rw [hentries] at hmem
      simp only [List.mem_append, List.mem_cons] at hmem ⊢
      exact hmem.imp_right Or.inr

theorem Order.entries_map (order : Order) (f : Json → Json) (entries : List (String × Json)) :
    order.entries (entries.map fun e => (e.1, f e.2)) =
      (order.entries entries).map fun e => (e.1, f e.2) := by
  cases order with
  | declared => rfl
  | sorted => exact Dictionary.ofList_map f entries

mutual

/-- The document with the entries of all its objects in an order. -/
def arranged (order : Order) : Json → Json
  | array items => array (arrangedItems order items)
  | object entries => object (order.entries (arrangedEntries order entries))
  | null => null
  | bool b => bool b
  | number n => number n
  | string text => string text
termination_by structural j => j

def arrangedItems (order : Order) : List Json → List Json
  | [] => []
  | item :: items => arranged order item :: arrangedItems order items
termination_by structural items => items

def arrangedEntries (order : Order) : List (String × Json) → List (String × Json)
  | [] => []
  | (key, value) :: entries => (key, arranged order value) :: arrangedEntries order entries
termination_by structural entries => entries

end

theorem arrangedItems_eq_map (order : Order) (items : List Json) :
    arrangedItems order items = items.map (arranged order) := by
  induction items with
  | nil => rfl
  | cons item items ih => rw [arrangedItems, ih, List.map_cons]

theorem arrangedEntries_eq_map (order : Order) (entries : List (String × Json)) :
    arrangedEntries order entries = entries.map fun e => (e.1, arranged order e.2) := by
  induction entries with
  | nil => rfl
  | cons e entries ih => rw [arrangedEntries, ih, List.map_cons]

/-- The values of the entries of an arranged object are arranged. -/
theorem exists_of_mem_entries {order : Order} {entries : List (String × Json)} {e : String × Json}
    (h : e ∈ order.entries (arrangedEntries order entries)) :
    ∃ e' ∈ entries, e'.2.arranged order = e.2 := by
  have hmem := Order.mem_entries h
  rw [arrangedEntries_eq_map] at hmem
  obtain ⟨e', he', rfl⟩ := List.mem_map.mp hmem
  exact ⟨e', he', rfl⟩

theorem arrangedEntries_eq_self {order : Order} {entries : List (String × Json)}
    (h : ∀ e ∈ entries, e.2.arranged order = e.2) : arrangedEntries order entries = entries := by
  induction entries with
  | nil => rfl
  | cons e entries ih =>
    obtain ⟨he, hentries⟩ := List.forall_mem_cons.mp h
    rw [arrangedEntries, he, ih hentries]

theorem arranged_declared (j : Json) : j.arranged .declared = j := by
  induction j using induction_on_contents with
  | array items ih =>
    rw [arranged, arrangedItems_eq_map, (List.map_congr_left ih).trans (List.map_id' items)]
  | object entries ih => rw [arranged, arrangedEntries_eq_self ih, Order.entries]
  | _ => rfl

/-- Sorting a document again has no effect. -/
theorem arranged_sorted (j : Json) :
    (j.arranged .sorted).arranged .sorted = j.arranged .sorted := by
  induction j using induction_on_contents with
  | array items ih =>
    rw [arranged, arranged, arrangedItems_eq_map, arrangedItems_eq_map, List.map_map]
    exact congrArg array (List.map_congr_left ih)
  | object entries ih =>
    have hsorted : Dictionary.Sorted (Order.sorted.entries (arrangedEntries .sorted entries)) :=
      Dictionary.sorted_insertAll .nil _
    rw [arranged, arranged, arrangedEntries_eq_self]
    · exact congrArg object (Dictionary.ofList_of_sorted hsorted)
    · intro e he
      obtain ⟨e', he', hvalue⟩ := exists_of_mem_entries he
      rw [← hvalue, ih e' he']
  | _ => rfl

/-- Sorting a document forgets the order that it had. -/
theorem sorted_arranged (order : Order) (j : Json) :
    (j.arranged order).arranged .sorted = j.arranged .sorted := by
  cases order with
  | declared => rw [arranged_declared]
  | sorted => exact arranged_sorted j

theorem Integral.arranged (order : Order) {j : Json} (h : j.Integral) :
    (j.arranged order).Integral := by
  induction h with
  | array h ih =>
    rw [Json.arranged, arrangedItems_eq_map]
    exact .array (List.forall_mem_map.mpr ih)
  | object h ih =>
    refine .object fun e he => ?_
    obtain ⟨e', he', hvalue⟩ := exists_of_mem_entries he
    exact hvalue ▸ ih e' he'
  | null => exact .null
  | bool b => exact .bool b
  | number hleast hgreatest => exact .number hleast hgreatest
  | string text => exact .string text

mutual

/-- The number of arrays and objects around the innermost value, itself included. -/
def nesting : Json → Nat
  | array items => nestingItems items + 1
  | object entries => nestingEntries entries + 1
  | _ => 0
termination_by structural j => j

def nestingItems : List Json → Nat
  | [] => 0
  | item :: items => max (nesting item) (nestingItems items)
termination_by structural items => items

/-- The deepest nesting of the value of an entry. -/
def nestingEntries : List (String × Json) → Nat
  | [] => 0
  | (_, value) :: entries => max (nesting value) (nestingEntries entries)
termination_by structural entries => entries

end

variable {limit : Nat}

theorem nestingItems_le {items : List Json} :
    nestingItems items ≤ limit ↔ ∀ item ∈ items, item.nesting ≤ limit := by
  induction items with
  | nil => simp [nestingItems]
  | cons item items ih => rw [nestingItems, Nat.max_le, ih, List.forall_mem_cons]

theorem nestingEntries_le {entries : List (String × Json)} :
    nestingEntries entries ≤ limit ↔ ∀ e ∈ entries, e.2.nesting ≤ limit := by
  induction entries with
  | nil => simp [nestingEntries]
  | cons e entries ih => rw [nestingEntries, Nat.max_le, ih, List.forall_mem_cons]

theorem nesting_arranged_le (order : Order) (j : Json) :
    (j.arranged order).nesting ≤ j.nesting := by
  induction j using induction_on_contents with
  | array items ih =>
    rw [arranged, arrangedItems_eq_map]
    refine Nat.succ_le_succ (nestingItems_le.mpr (List.forall_mem_map.mpr fun item hitem => ?_))
    exact Nat.le_trans (ih item hitem) (nestingItems_le.mp (Nat.le_refl _) item hitem)
  | object entries ih =>
    refine Nat.succ_le_succ (nestingEntries_le.mpr fun e he => ?_)
    obtain ⟨e', he', hvalue⟩ := exists_of_mem_entries he
    rw [← hvalue]
    exact Nat.le_trans (ih e' he') (nestingEntries_le.mp (Nat.le_refl _) e' he')
  | _ => exact Nat.le_refl _

namespace Outline

theorem ofJsonItems_eq_map (items : List Json) : ofJsonItems items = items.map ofJson := by
  induction items with
  | nil => rfl
  | cons item items ih => rw [ofJsonItems, ih, List.map_cons]

theorem ofJsonEntries_eq_map (entries : List (String × Json)) :
    ofJsonEntries entries = entries.map fun e => (some e.1, ofJson e.2) := by
  induction entries with
  | nil => rfl
  | cons e entries ih => rw [ofJsonEntries, ih, List.map_cons]

theorem curbItems_ofJsonItems {items : List Json}
    (h : ∀ item ∈ items, curb limit (ofJson item) = ofJson item) :
    curbItems limit (ofJsonItems items) = ofJsonItems items := by
  induction items with
  | nil => rfl
  | cons item items ih =>
    obtain ⟨hitem, hitems⟩ := List.forall_mem_cons.mp h
    rw [ofJsonItems, curbItems, hitem, ih hitems]

theorem curbEntries_ofJsonEntries {entries : List (String × Json)}
    (h : ∀ e ∈ entries, curb limit (ofJson e.2) = ofJson e.2) :
    curbEntries limit (ofJsonEntries entries) = ofJsonEntries entries := by
  induction entries with
  | nil => rfl
  | cons e entries ih =>
    obtain ⟨he, hentries⟩ := List.forall_mem_cons.mp h
    rw [ofJsonEntries, curbEntries, he, ih hentries]

/-- A document that does not nest too deeply is read in full. -/
theorem curb_ofJson {j : Json} (h : j.nesting ≤ limit) : curb limit (ofJson j) = ofJson j := by
  induction j using induction_on_contents generalizing limit with
  | array items ih =>
    obtain ⟨limit, rfl⟩ := Nat.exists_eq_succ_of_ne_zero (Nat.ne_zero_of_lt h)
    have hitems := nestingItems_le.mp (Nat.le_of_succ_le_succ h)
    rw [ofJson, curb, curbItems_ofJsonItems fun item hitem => ih item hitem (hitems item hitem)]
  | object entries ih =>
    obtain ⟨limit, rfl⟩ := Nat.exists_eq_succ_of_ne_zero (Nat.ne_zero_of_lt h)
    have hentries := nestingEntries_le.mp (Nat.le_of_succ_le_succ h)
    rw [ofJson, curb, curbEntries_ofJsonEntries fun e he => ih e he (hentries e he)]
  | _ => rfl

theorem toJsonItems?_ofJsonItems {items : List Json}
    (h : ∀ item ∈ items, (ofJson item).toJson? = some (item.arranged .sorted)) :
    toJsonItems? (ofJsonItems items) = some (arrangedItems .sorted items) := by
  induction items with
  | nil => rfl
  | cons item items ih =>
    obtain ⟨hitem, hitems⟩ := List.forall_mem_cons.mp h
    rw [ofJsonItems, toJsonItems?, hitem, ih hitems]
    rfl

theorem toJsonEntries?_ofJsonEntries {entries : List (String × Json)}
    (h : ∀ e ∈ entries, (ofJson e.2).toJson? = some (e.2.arranged .sorted))
    (done : List (String × Json)) :
    toJsonEntries? done (ofJsonEntries entries) =
      some (Dictionary.insertAll done (arrangedEntries .sorted entries)) := by
  induction entries generalizing done with
  | nil => rfl
  | cons e entries ih =>
    obtain ⟨he, hentries⟩ := List.forall_mem_cons.mp h
    simp only [ofJsonEntries, toJsonEntries?, he]
    exact ih hentries _

/-- The outline of a document has the document for its value, with sorted entries. -/
theorem toJson?_ofJson (j : Json) : (ofJson j).toJson? = some (j.arranged .sorted) := by
  induction j using induction_on_contents with
  | array items ih =>
    rw [ofJson, toJson?, toJsonItems?_ofJsonItems ih]
    rfl
  | object entries ih =>
    rw [ofJson, toJson?, toJsonEntries?_ofJsonEntries ih]
    rfl
  | _ => rfl

theorem isSound_ofJson (j : Json) : (ofJson j).isSound = true := by
  rw [isSound, toJson?_ofJson]
  rfl

end Outline

/-- The text of a document is parsed as the document with sorted entries. -/
theorem parse?_render {j : Json} (hj : j.Integral) (hnesting : j.nesting ≤ nestingLimit) :
    parse? (render j) = some (j.arranged .sorted) := by
  rw [parse?, parseWithin?, Outline.ofText_render hj]
  simp only [Outline.curb_ofJson hnesting, Outline.toJson?_ofJson]

end Cdr.Json
