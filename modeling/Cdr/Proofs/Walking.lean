import Cdr.Proofs.Parts
import Cdr.Proofs.SizeBounds

/-! The walk by which a layout is measured.  It enters the parts of a node, but not the elements of
a collection that has none nor the payloads of a union of which only the tag is laid out, and it
follows references.  A walk that meets a reference again on its own path, or follows more references
than a value may nest through, leaves the measure without a bound. -/

namespace Cdr

/-- What is looked up for a reference. -/
def Reference.entry (target : Reference) : Nat × Role := (target.id, target.role)

namespace Layout

open Sizing

/-- The parts of a node that are measured with it. -/
def parts (a : Assumptions) : Layout → List Layout
  | array element length => if length.toNat = 0 then [] else [element]
  | sequence element bound => if a.greatest bound = 0 then [] else [element]
  | map key value bound => if a.greatest bound = 0 then [] else [key, value]
  | struct _ members => members.map (·.content)
  | union u => if u.tagOnly then [] else u.arms
  | optional inner => [inner]
  | primitive _ | string _ | bytes _ | enumeration .. | reference _ => []

/-- The walk gets from a layout to a node along the references of the path. -/
inductive Walk (types : Lookup) (a : Assumptions) : Layout → List Reference → Layout → Prop
  | here (l : Layout) : Walk types a l [] l
  | part {l part node : Layout} {path : List Reference} (hpart : part ∈ l.parts a)
    (hwalk : Walk types a part path node) : Walk types a l path node
  | follow {target : Reference} {l node : Layout} {path : List Reference}
    (hfound : types target.id target.role = .ok l) (hwalk : Walk types a l path node) :
    Walk types a (.reference target) (target :: path) node

theorem Walk.trans {types : Lookup} {a : Assumptions} {l mid node : Layout}
    {path path' : List Reference} (h : Walk types a l path mid)
    (h' : Walk types a mid path' node) : Walk types a l (path ++ path') node := by
  induction h with
  | here => exact h'
  | part hpart _ ih => exact .part hpart (ih h')
  | follow hfound _ ih => exact .follow hfound (ih h')

section Parts

variable {a : Assumptions} {part element key value : Layout} {bound : Option UInt64}

theorem mem_parts_array {length : UInt64} :
    part ∈ (array element length).parts a ↔ length.toNat ≠ 0 ∧ part = element := by
  rw [parts]
  split <;> simp [*]

theorem mem_parts_sequence :
    part ∈ (sequence element bound).parts a ↔ a.greatest bound ≠ 0 ∧ part = element := by
  rw [parts]
  split <;> simp [*]

theorem mem_parts_map :
    part ∈ (map key value bound).parts a ↔ a.greatest bound ≠ 0 ∧ (part = key ∨ part = value) := by
  rw [parts]
  split <;> simp [*]

theorem mem_parts_struct {name : String} {members : List (Member Layout)} :
    part ∈ (struct name members).parts a ↔ ∃ m ∈ members, m.content = part := List.mem_map

theorem mem_parts_union {u : UnionLayout Layout} :
    part ∈ (union u).parts a ↔ u.tagOnly = false ∧ part ∈ u.arms := by
  rw [parts]
  split <;> simp [*]

theorem mem_parts_optional : part ∈ (optional element).parts a ↔ part = element :=
  List.mem_singleton

/-- The walk enters no other layouts than those that the node is made of. -/
theorem mem_children_of_mem_parts {l : Layout} (h : part ∈ l.parts a) : part ∈ l.children := by
  cases l with
  | struct name members => exact h
  | union u => exact (mem_parts_union.mp h).2
  | map key value bound => exact List.mem_pair.mpr (mem_parts_map.mp h).2
  | array element length => exact List.mem_singleton.mpr (mem_parts_array.mp h).2
  | sequence element bound => exact List.mem_singleton.mpr (mem_parts_sequence.mp h).2
  | optional inner => exact h
  | _ => cases h

/-- What holds of a node if it holds of its parts holds of every layout. -/
@[elab_as_elim]
theorem induction_on_parts (a : Assumptions) {motive : Layout → Prop}
    (node : ∀ l, (∀ part ∈ l.parts a, motive part) → motive l) (l : Layout) : motive l :=
  induction_on_children
    (fun l ih => node l fun part hpart => ih part (mem_children_of_mem_parts hpart)) l

end Parts

section Arms

variable {a : Assumptions} {measure : Reference → Sizing Unit}

/-- Merges the measures of several layouts, each from the same start. -/
def measureArms (a : Assumptions) (measure : Reference → Sizing Unit) (start : Extent) :
    List Layout → Sizing Unit
  | [] => pure ()
  | l :: ls => do
    Sizing.branch start (measureWith a measure l)
    measureArms a measure start ls

theorem measureArms_arms (start : Extent) (cases : List (Case Layout))
    (fallback : Option (Fallback Layout)) :
    (measureCases a measure start cases >>= fun _ => measureFallback a measure fallback start) =
      measureArms a measure start
        (cases.map (·.content) ++ (fallback.map (·.content)).toList) := by
  induction cases with
  | nil =>
    cases fallback with
    | none => rfl
    | some f => exact (bind_pure_unit (x := Sizing.branch start _)).symm
  | cons c cases ih =>
    rw [measureCases, bind_assoc, ih]
    rfl

/-- A union is measured as its tag and the greatest of its arms. -/
theorem measureWith_union_arms (u : UnionLayout Layout) :
    measureWith a measure (union u) = unlessUnbounded
      (modify (Extent.align (unionAlignment a.countWidth u)) >>= fun _ =>
        modify (Extent.primitive u.discriminator.alignment) >>= fun _ =>
          if (!u.tagOnly) = true then get >>= fun start => measureArms a measure start u.arms
          else pure ()) := by
  simp only [measureWith_union, measureArms_arms, UnionLayout.arms]

variable (hmeasure : ∀ target, Regular (unlessUnbounded (measure target)))

include hmeasure

theorem merges_measureArms (ls : List Layout) :
    Merges fun start => measureArms a measure start ls := by
  induction ls with
  | nil => exact Merges.pure
  | cons l ls ih => exact (Merges.branch (regular_measureWith hmeasure l)).bind ih

theorem includes_measureArms {l : Layout} {ls : List Layout} (hl : l ∈ ls) :
    Includes (fun start => measureArms a measure start ls) (measureWith a measure l) := by
  induction ls with
  | nil => cases hl
  | cons l' ls ih =>
    have hbranch := Merges.branch (regular_measureWith (a := a) hmeasure l')
    rcases List.mem_cons.mp hl with rfl | hrest
    · exact (Includes.branch _).bind_left hbranch (merges_measureArms hmeasure ls)
    · exact (ih hrest).bind_right hbranch

end Arms

end Layout

namespace Sizing

open Extent

/-- The step leaves no bound, wherever it starts. -/
def Saturates (step : Sizing Unit) : Prop :=
  ∀ ⦃e e' : Extent⦄, e.offset ≤ limit → step e = .ok () e' → e'.offset = limit

namespace Saturates

variable {step next content : Sizing Unit} {branches : Extent → Sizing Unit}

theorem unbounded : Saturates (set Extent.unbounded) := by
  rintro e _ - ⟨⟩
  rfl

theorem bind_left (h : Saturates step) (hs : Regular step) (hn : Regular next) :
    Saturates (step >>= fun _ => next) := by
  intro e e' he hok
  obtain ⟨f, hf, hnext⟩ := bind_eq_ok.mp hok
  obtain ⟨-, hflimit⟩ := hs.grows e f he hf
  obtain ⟨hle, helimit⟩ := hn.grows f e' hflimit hnext
  have := h he hf
  omega

theorem bind_right (h : Saturates next) (hs : Regular step) :
    Saturates (step >>= fun _ => next) := by
  intro e e' he hok
  obtain ⟨f, hf, hnext⟩ := bind_eq_ok.mp hok
  exact h (hs.grows e f he hf).2 hnext

theorem unlessUnbounded (h : Saturates step) : Saturates (Layout.unlessUnbounded step) := by
  intro e e' he hok
  rw [Layout.unlessUnbounded_apply] at hok
  split at hok
  · rename_i hunbounded
    cases hok
    exact isUnbounded_iff.mp hunbounded
  · exact h he hok

/-- A loop without a bound in its step has none, if there is a round at all. -/
theorem times (h : Saturates step) (hs : Regular step) {count : Nat} (hcount : count ≠ 0) :
    Saturates (Sizing.times count step) := by
  obtain ⟨count, rfl⟩ := Nat.exists_eq_succ_of_ne_zero hcount
  intro e e' he hok
  rw [hs.times_eq _ he, naive_succ] at hok
  split at hok
  · rename_i hunbounded
    cases hok
    exact isUnbounded_iff.mp hunbounded
  · exact (h.bind_left hs (hs.naive count)) he hok

/-- Merged branches have no bound if one of them has none. -/
theorem merged (h : Saturates content) (hb : Merges branches) (hi : Includes branches content) :
    Saturates (get >>= branches) := by
  intro e e' he hok
  obtain ⟨f, hf, hle⟩ := hi e e e' he he hok
  obtain ⟨-, helimit⟩ := hb.regular.grows e e' he hok
  have := h he hf
  omega

end Saturates

end Sizing

namespace Layout

open Sizing

section Walks

variable {a : Assumptions} {measure : Reference → Sizing Unit}

theorem saturates_measureMembers (hmeasure : ∀ target, Regular (unlessUnbounded (measure target)))
    {members : List (Member Layout)} {m : Member Layout} (hm : m ∈ members)
    (h : Saturates (measureWith a measure m.content)) :
    Saturates (measureMembers a measure members) := by
  induction members with
  | nil => cases hm
  | cons m' members ih =>
    have hcontent := regular_measureWith (a := a) hmeasure m'.content
    rcases List.mem_cons.mp hm with rfl | hrest
    · exact h.bind_left hcontent (regular_measureMembers hmeasure members)
    · exact (ih hrest).bind_right hcontent

/-- A node has no bound if one of its parts has none. -/
theorem saturates_of_mem_parts (hmeasure : ∀ target, Regular (unlessUnbounded (measure target)))
    {l part : Layout} (hpart : part ∈ l.parts a) (h : Saturates (measureWith a measure part)) :
    Saturates (measureWith a measure l) := by
  have hregular := regular_measureWith (a := a) hmeasure
  have hcount := Regular.primitive (bytes_dvd_period a.countWidth)
  cases l with
  | array element length =>
    obtain ⟨hlength, rfl⟩ := mem_parts_array.mp hpart
    exact (h.times (hregular part) hlength).unlessUnbounded
  | sequence element bound =>
    obtain ⟨hlength, rfl⟩ := mem_parts_sequence.mp hpart
    exact ((h.times (hregular part) hlength).bind_right hcount).unlessUnbounded
  | map key value bound =>
    obtain ⟨hlength, hentry⟩ := mem_parts_map.mp hpart
    have hsaturates :
        Saturates (measureWith a measure key >>= fun _ => measureWith a measure value) := by
      rcases hentry with rfl | rfl
      · exact h.bind_left (hregular part) (hregular value)
      · exact h.bind_right (hregular key)
    have hboth := (hregular key).bind (hregular value)
    exact ((hsaturates.times hboth hlength).bind_right hcount).unlessUnbounded
  | struct name members =>
    obtain ⟨m, hm, rfl⟩ := mem_parts_struct.mp hpart
    exact (saturates_measureMembers hmeasure hm h).unlessUnbounded
  | union u =>
    obtain ⟨htag, harm⟩ := mem_parts_union.mp hpart
    rw [measureWith_union_arms, htag]
    refine (Saturates.bind_right (Saturates.bind_right ?_ ?_) ?_).unlessUnbounded
    · exact h.merged (merges_measureArms hmeasure u.arms) (includes_measureArms hmeasure harm)
    · exact Regular.primitive (alignment_discriminator_dvd u.discriminator)
    · exact Regular.align (alignment_dvd _ _)
  | optional inner =>
    obtain rfl := mem_parts_optional.mp hpart
    exact (h.bind_right (Regular.skip 1)).unlessUnbounded
  | _ => cases hpart

/-- The measure of what lies behind a reference. -/
def measureBehind (types : Lookup) (a : Assumptions) :
    Nat → List (Nat × Role) → Reference → Sizing Unit
  | 0, _, _ => set Extent.unbounded
  | budget + 1, visiting, target =>
    if visiting.contains target.entry then set Extent.unbounded
    else
      match types target.id target.role with
      | .ok layout => layout.measure types a budget (target.entry :: visiting)
      | .error fault => throw fault

theorem measure_eq (types : Lookup) (a : Assumptions) (budget : Nat)
    (visiting : List (Nat × Role)) (l : Layout) :
    l.measure types a budget visiting =
      measureWith a (measureBehind types a budget visiting) l := by
  rcases budget with _ | budget
  · rfl
  · rw [measure]
    congr 1
    funext target
    exact if_congr List.contains_iff_mem.symm rfl rfl

theorem regular_measureBehind (types : Lookup) (a : Assumptions) (budget : Nat)
    (visiting : List (Nat × Role)) (target : Reference) :
    Regular (unlessUnbounded (measureBehind types a budget visiting target)) := by
  have := regular_measure types a budget visiting (.reference target)
  rwa [measure_eq] at this

/-- The walk is over where it meets a reference that is on its path already, or that the budget
does not allow to follow. -/
def Stops (budget : Nat) (visiting : List (Nat × Role)) (path : List Reference)
    (target : Reference) : Prop :=
  target.entry ∈ path.map Reference.entry ∨ target.entry ∈ visiting ∨ budget ≤ path.length

theorem stops_cons {budget : Nat} {visiting : List (Nat × Role)} {path : List Reference}
    {first target : Reference} : Stops (budget + 1) visiting (first :: path) target ↔
      Stops budget (first.entry :: visiting) path target := by
  simp only [Stops, List.map_cons, List.mem_cons, List.length_cons, Nat.add_le_add_iff_right]
  tauto

/-- There is no bound where the walk comes to a reference at which it is over. -/
theorem saturates_of_walk {types : Lookup} {l node : Layout} {path : List Reference}
    (hwalk : Walk types a l path node) {target : Reference} (hnode : node = .reference target)
    {budget : Nat} {visiting : List (Nat × Role)} (hstops : Stops budget visiting path target) :
    Saturates (l.measure types a budget visiting) := by
  induction hwalk generalizing budget visiting with
  | here l =>
    subst hnode
    rw [measure_eq]
    refine Saturates.unlessUnbounded ?_
    rcases budget with _ | budget
    · exact Saturates.unbounded
    · have hmem : target.entry ∈ visiting := by simpa [Stops] using hstops
      rw [measureBehind, if_pos (List.contains_iff_mem.mpr hmem)]
      exact Saturates.unbounded
  | part hpart _ ih =>
    have hsaturates := ih hnode hstops
    rw [measure_eq] at hsaturates ⊢
    exact saturates_of_mem_parts (regular_measureBehind types a budget visiting) hpart hsaturates
  | @follow first l node path hfound _ ih =>
    rw [measure_eq]
    refine Saturates.unlessUnbounded ?_
    rcases budget with _ | budget
    · exact Saturates.unbounded
    rw [measureBehind]
    split
    · exact Saturates.unbounded
    · rw [hfound]
      exact ih hnode (stops_cons.mp hstops)

end Walks

end Layout

end Cdr
