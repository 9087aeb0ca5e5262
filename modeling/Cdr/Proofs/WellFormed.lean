import Cdr.Layout.Basic
import Cdr.Proofs.Retrieving
import Cdr.Proofs.Wire

/-! Well-formed layouts: the rules on names, ordinals and labels that a built layout keeps, and what
they give for enumerators and tags. -/

namespace Cdr

/-- An element that differs from all others in a feature is found by it. -/
theorem find?_of_nodup {α β : Type} [BEq β] [LawfulBEq β] {f : α → β} {xs : List α}
    (h : (xs.map f).Nodup) {x : α} (hx : x ∈ xs) : xs.find? (f · == f x) = some x := by
  induction xs with
  | nil => cases hx
  | cons y ys ih =>
    rw [List.map_cons, List.nodup_cons] at h
    rcases List.mem_cons.mp hx with rfl | hmem
    · simp
    · have hne : f y ≠ f x := fun heq => h.1 (heq ▸ List.mem_map_of_mem hmem)
      rw [List.find?_cons_of_neg (by simpa using hne)]
      exact ih h.2 hmem

namespace Enumerator

/-- No name and no ordinal stands twice. -/
structure Distinct (enumerators : List Enumerator) : Prop where
  names : (enumerators.map (·.name)).Nodup
  ordinals : (enumerators.map (·.ordinal)).Nodup

variable {enumerators : List Enumerator}

theorem Distinct.ordinalOf?_name (h : Distinct enumerators) {e : Enumerator}
    (he : e ∈ enumerators) : ordinalOf? e.name enumerators = some e.ordinal := by
  rw [ordinalOf?, find?_of_nodup (f := (·.name)) h.names he]
  rfl

theorem Distinct.nameOf?_ordinal (h : Distinct enumerators) {e : Enumerator}
    (he : e ∈ enumerators) : nameOf? e.ordinal enumerators = some e.name := by
  rw [nameOf?, find?_of_nodup (f := (·.ordinal)) h.ordinals he]
  rfl

end Enumerator

namespace Discriminator

variable {d : Discriminator} {label : Label}

/-- A label that a tag can hold is a number of the tag's type. -/
theorem exists_tagType? (h : d.contains label = true) :
    ∃ t, d.tagType? = some t ∧ t.Holds label.toInt := by
  cases d with
  | primitive p =>
    cases p with
    | bool =>
      simp only [contains, Bool.or_eq_true, beq_iff_eq] at h
      refine ⟨.uint8, rfl, ?_⟩
      rcases h with h | h <;> rw [h] <;> decide
    | char =>
      have hrange : 0 ≤ label.toInt ∧ label.toInt ≤ 255 := by simpa [contains] using h
      exact ⟨.uint8, rfl, hrange⟩
    | integer t => exact ⟨t, rfl, by simpa [contains] using h⟩
    | float32 => simp [contains] at h
    | float64 => simp [contains] at h
  | enumeration name enumerators =>
    refine ⟨.uint32, rfl, ?_⟩
    simp only [contains, List.any_eq_true, beq_iff_eq] at h
    obtain ⟨e, -, he⟩ := h
    have := e.ordinal.toNat_lt
    rw [← he]
    simp [IntegerType.Holds, IntegerType.least, IntegerType.greatest, IntegerType.isSigned,
      IntegerType.size]
    omega

theorem ofInt?_toInt (label : Label) : Label.ofInt? label.toInt = some label := by
  have hlow := label.le_toInt
  have hhigh := label.toInt_lt
  unfold Label.ofInt?
  rw [if_pos ⟨hlow, hhigh⟩, Int64.ofInt_toInt]

theorem lays_write (h : d.contains label = true) :
    Coding.Lays (d.write label) True (d.tag label) := by
  obtain ⟨t, ht, -⟩ := exists_tagType? h
  simp only [write, tag, ht]
  exact Coding.Lays.putWord _ _

theorem reads_tag (h : d.contains label = true) : Coding.Reads d.read (d.tag label) label := by
  obtain ⟨t, ht, hholds⟩ := exists_tagType? h
  simp only [read, tag, ht]
  refine (Coding.Reads.takeWord (t.toBits_lt label.toInt)).bind_end ?_
  simp only [IntegerType.ofBits_toBits hholds, ofInt?_toInt]
  exact Coding.Reads.pure label

end Discriminator

namespace Layout

mutual

/-- Members have different names, enumerators are distinct, the tag of a default case is one that
the discriminator can hold and that selects no case, and references are good ones. -/
def WellFormed (good : Reference → Prop) : Layout → Prop
  | primitive _ | string _ | bytes _ => True
  | array element _ | sequence element _ => WellFormed good element
  | map key value _ => WellFormed good key ∧ WellFormed good value
  | enumeration _ enumerators => Enumerator.Distinct enumerators
  | struct _ members => (members.map (·.name)).Nodup ∧ MembersWellFormed good members
  | union ⟨_, discriminator, cases, fallback, _⟩ =>
    CasesWellFormed good cases ∧
      match fallback with
      | some ⟨_, sentinel, content⟩ =>
        discriminator.contains sentinel = true ∧ (∀ c ∈ cases, sentinel ∉ c.labels) ∧
          WellFormed good content
      | none => True
  | optional inner => WellFormed good inner
  | reference target => good target
termination_by structural l => l

/-- The members of a struct are well formed. -/
def MembersWellFormed (good : Reference → Prop) : List (Member Layout) → Prop
  | [] => True
  | ⟨_, content⟩ :: members => WellFormed good content ∧ MembersWellFormed good members
termination_by structural members => members

/-- The cases of a union are well formed. -/
def CasesWellFormed (good : Reference → Prop) : List (Case Layout) → Prop
  | [] => True
  | ⟨_, _, content⟩ :: cases => WellFormed good content ∧ CasesWellFormed good cases
termination_by structural cases => cases

end

section Mono

variable {good good' : Reference → Prop}

mutual

/-- A layout whose references are good has references that are good in any wider sense. -/
theorem WellFormed.mono (hgood : ∀ target, good target → good' target) (l : Layout)
    (h : l.WellFormed good) : l.WellFormed good' := by
  match l with
  | primitive _ | string _ | bytes _ => exact trivial
  | enumeration _ _ => exact h
  | array element _ | sequence element _ | optional element =>
    exact (WellFormed.mono hgood element h :)
  | map key value _ => exact ⟨WellFormed.mono hgood key h.1, WellFormed.mono hgood value h.2⟩
  | struct _ members => exact ⟨h.1, MembersWellFormed.mono hgood members h.2⟩
  | union ⟨_, _, cases, none, _⟩ => exact ⟨CasesWellFormed.mono hgood cases h.1, trivial⟩
  | union ⟨_, _, cases, some ⟨_, _, content⟩, _⟩ =>
    exact ⟨CasesWellFormed.mono hgood cases h.1, h.2.1, h.2.2.1,
      WellFormed.mono hgood content h.2.2.2⟩
  | reference target => exact hgood target h
termination_by structural l

theorem MembersWellFormed.mono (hgood : ∀ target, good target → good' target)
    (members : List (Member Layout)) (h : MembersWellFormed good members) :
    MembersWellFormed good' members := by
  match members with
  | [] => exact trivial
  | ⟨_, content⟩ :: members =>
    exact ⟨WellFormed.mono hgood content h.1, MembersWellFormed.mono hgood members h.2⟩
termination_by structural members

theorem CasesWellFormed.mono (hgood : ∀ target, good target → good' target)
    (cases : List (Case Layout)) (h : CasesWellFormed good cases) :
    CasesWellFormed good' cases := by
  match cases with
  | [] => exact trivial
  | ⟨_, _, content⟩ :: cases =>
    exact ⟨WellFormed.mono hgood content h.1, CasesWellFormed.mono hgood cases h.2⟩
termination_by structural cases

end

end Mono

theorem WellFormed.cases {good : Reference → Prop} {u : UnionLayout Layout}
    (h : (union u).WellFormed good) : CasesWellFormed good u.cases := by
  rw [WellFormed.eq_def] at h
  exact h.1

end Layout

end Cdr
