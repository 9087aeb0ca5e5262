import Cdr.Layout.Read
import Cdr.Layout.Write
import Cdr.Proofs.WellFormed
import Mathlib.Data.List.Basic

/-! The layouts that a layout is made of.  They are smaller than the layout, so a property that a
layout has if its parts have it holds of every layout, and what is well formed is made of well
formed parts.  A reference has no parts: what lies behind it is another layout. -/

namespace Cdr

/-- The layouts of the payloads of a union, that of the default case last. -/
def UnionLayout.arms (u : UnionLayout Layout) : List Layout :=
  u.cases.map (·.content) ++ (u.fallback.map (·.content)).toList

namespace Layout

/-- The layouts that a layout is made of. -/
def children : Layout → List Layout
  | array element _ | sequence element _ | optional element => [element]
  | map key value _ => [key, value]
  | struct _ members => members.map (·.content)
  | union u => u.arms
  | primitive _ | string _ | bytes _ | enumeration .. | reference _ => []

/-- The layout is made of the other one, at any depth, or is that layout. -/
inductive Holds : Layout → Layout → Prop
  | here (l : Layout) : Holds l l
  | child {l child inner : Layout} (hchild : child ∈ l.children) (h : Holds child inner) :
    Holds l inner

variable {l part inner : Layout}

theorem mem_arms {u : UnionLayout Layout} :
    part ∈ u.arms ↔
      (∃ c ∈ u.cases, c.content = part) ∨ ∃ f, u.fallback = some f ∧ f.content = part := by
  simp [UnionLayout.arms]

theorem sizeOf_content_lt {u : UnionLayout Layout} (h : part ∈ u.arms) :
    sizeOf part < sizeOf u := by
  obtain ⟨name, d, cases, fallback, tagOnly⟩ := u
  rcases mem_arms.mp h with
    ⟨⟨name, labels, content⟩, hc, rfl⟩ | ⟨⟨name, sentinel, content⟩, rfl, rfl⟩
  · have := List.sizeOf_lt_of_mem hc
    simp only [Case.mk.sizeOf_spec, UnionLayout.mk.sizeOf_spec] at this ⊢
    omega
  · simp only [UnionLayout.mk.sizeOf_spec, Option.some.sizeOf_spec, Fallback.mk.sizeOf_spec]
    omega

theorem sizeOf_lt_of_mem_children (h : part ∈ l.children) : sizeOf part < sizeOf l := by
  cases l with
  | struct name members =>
    obtain ⟨⟨field, content⟩, hm, rfl⟩ := List.mem_map.mp h
    have := List.sizeOf_lt_of_mem hm
    simp only [Member.mk.sizeOf_spec, struct.sizeOf_spec] at this ⊢
    omega
  | union u =>
    have := sizeOf_content_lt h
    simp only [union.sizeOf_spec]
    omega
  | map key value bound =>
    rcases List.mem_pair.mp h with rfl | rfl <;> simp only [map.sizeOf_spec] <;> omega
  | array element length =>
    obtain rfl := List.mem_singleton.mp h
    simp only [array.sizeOf_spec]
    omega
  | sequence element bound =>
    obtain rfl := List.mem_singleton.mp h
    simp only [sequence.sizeOf_spec]
    omega
  | optional inner =>
    obtain rfl := List.mem_singleton.mp h
    simp
  | _ => cases h

/-- What holds of a layout if it holds of the layouts that it is made of holds of every layout. -/
@[elab_as_elim]
theorem induction_on_children {motive : Layout → Prop}
    (layout : ∀ l, (∀ child ∈ l.children, motive child) → motive l) (l : Layout) : motive l :=
  layout l fun child _ => induction_on_children layout child
termination_by sizeOf l
decreasing_by
  rename_i h
  exact sizeOf_lt_of_mem_children h

/-- The first case with a label is the one that is read. -/
theorem readCase_eq (w : CountWidth) (follow : Reference → Coding Value) (label : Label)
    (cases : List (Case Layout)) :
    readCase w follow label cases =
      (cases.find? (·.labels.contains label)).map fun c => readWith w follow c.content := by
  induction cases with
  | nil => rfl
  | cons c cases ih =>
    rw [readCase, List.find?_cons]
    split
    · rename_i hlabel
      rw [hlabel]
      rfl
    · rename_i hlabel
      rw [Bool.eq_false_iff.mpr hlabel]
      exact ih

/-- The payload of the first case with a label is the one that is written. -/
theorem writeCase_eq (w : CountWidth) (follow : Reference → Value → Coding Unit) (label : Label)
    (payload : Value) (cases : List (Case Layout)) :
    writeCase w follow label payload cases =
      (cases.find? (·.labels.contains label)).map fun c =>
        Coding.inField c.name (writeWith w follow c.content payload) := by
  induction cases with
  | nil => rfl
  | cons c cases ih =>
    rw [writeCase, List.find?_cons]
    split
    · rename_i hlabel
      rw [hlabel]
      rfl
    · rename_i hlabel
      rw [Bool.eq_false_iff.mpr hlabel]
      exact ih

section WellFormed

variable {good : Reference → Prop}

theorem MembersWellFormed.of_mem {members : List (Member Layout)}
    (h : MembersWellFormed good members) {m : Member Layout} (hm : m ∈ members) :
    m.content.WellFormed good := by
  induction members with
  | nil => cases hm
  | cons first members ih =>
    rcases List.mem_cons.mp hm with rfl | hrest
    · exact h.1
    · exact ih h.2 hrest

theorem CasesWellFormed.of_mem {cases : List (Case Layout)} (h : CasesWellFormed good cases)
    {c : Case Layout} (hc : c ∈ cases) : c.content.WellFormed good := by
  induction cases with
  | nil => cases hc
  | cons first cases ih =>
    rcases List.mem_cons.mp hc with rfl | hrest
    · exact h.1
    · exact ih h.2 hrest

theorem WellFormed.of_mem_children (h : l.WellFormed good) (hchild : inner ∈ l.children) :
    inner.WellFormed good := by
  match l with
  | array element _ | sequence element _ | optional element =>
    obtain rfl := List.mem_singleton.mp hchild
    exact h
  | map key value _ =>
    rcases List.mem_pair.mp hchild with rfl | rfl
    · exact h.1
    · exact h.2
  | struct _ members =>
    obtain ⟨m, hm, rfl⟩ := List.mem_map.mp hchild
    exact h.2.of_mem hm
  | union ⟨_, _, cases, fallback, _⟩ =>
    rcases mem_arms.mp hchild with ⟨c, hc, rfl⟩ | ⟨f, rfl, rfl⟩
    · exact h.cases.of_mem hc
    · exact h.2.2.2
  | primitive _ | string _ | bytes _ | enumeration _ _ | reference _ => cases hchild

theorem WellFormed.of_holds (h : l.WellFormed good) (hinner : l.Holds inner) :
    inner.WellFormed good := by
  induction hinner with
  | here => exact h
  | child hchild _ ih => exact ih (h.of_mem_children hchild)

end WellFormed

end Layout

end Cdr
