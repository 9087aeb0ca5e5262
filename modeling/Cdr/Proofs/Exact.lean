import Cdr.Proofs.Dictionaries
import Cdr.Proofs.Resolved
import Cdr.Proofs.Rounding

/-! Exact values: those that are of the declared kinds already.  Integers are carried in the
declared type, bytes and enumerators are given as such, structs have no member that is not declared,
and no float of thirty-two bits is not a number.  An exact value is its own normal form. -/

namespace Cdr

/-- The value is of a primitive type, and a number if it is a float of thirty-two bits. -/
def Value.IsPrimitive (p : Primitive) (v : Value) : Prop :=
  match p with
  | .bool => ∃ b, v = .bool b
  | .char => ∃ c, v = .char c
  | .integer t => ∃ n, v = .integer n ∧ n.type = t
  | .float32 => ∃ bits, v = .float32 bits ∧ Real.FloatFormat.single.datum bits.toNat ≠ .nan
  | .float64 => ∃ bits, v = .float64 bits

theorem Value.asPrimitive_of_isPrimitive {p : Primitive} {v : Value} (h : v.IsPrimitive p) :
    v.asPrimitive p = v := by
  cases p with
  | bool => rfl
  | char =>
    obtain ⟨c, rfl⟩ := h
    rfl
  | integer t =>
    obtain ⟨n, rfl, rfl⟩ := h
    simp [asPrimitive, asInt?, Integer.ofInt?, n.holds]
  | float32 =>
    obtain ⟨bits, rfl, hnumber⟩ := h
    simp [asPrimitive, asFloat?, Real.narrow_widen hnumber]
  | float64 =>
    obtain ⟨bits, rfl⟩ := h
    rfl

namespace Shape

mutual

/-- The value is exactly of the kinds that the shape declares, with `follow` for the declared types
that it names. -/
def ExactWith (follow : String → Value → Prop) : Shape → Value → Prop
  | primitive p, v => v.IsPrimitive p
  | string _, v => ∃ text, v = .string text
  | bytes _, v => ∃ data, v = .bytes data
  | array element _, v | sequence element _, v =>
    ∃ items, v = .array items ∧ ∀ x ∈ items, ExactWith follow element x
  | map key value _, v =>
    ∃ entries, v = .map entries ∧
      ∀ e ∈ entries, ExactWith follow key e.1 ∧ ExactWith follow value e.2
  | enumeration _, v => ∃ name, v = .enumerator name
  | union ⟨_, cases, fallback, _⟩, v =>
    ∃ label payload, v = .union label payload ∧
      match label with
      | some label => ExactCase follow label payload cases
      | none =>
        match fallback with
        | some ⟨_, content⟩ => ExactWith follow content payload
        | none => True
  | optional inner, v => v = .null ∨ ExactWith follow inner v
  | named name, v => follow name v
termination_by structural s => s

/-- The payload of the first case with a label is exactly of the kinds that are declared. -/
def ExactCase (follow : String → Value → Prop) (label : Label) (payload : Value) :
    List (Case Shape) → Prop
  | [] => True
  | ⟨_, labels, content⟩ :: cases =>
    if labels.contains label then ExactWith follow content payload
    else ExactCase follow label payload cases
termination_by structural cases => cases

end

variable {exact : String → Value → Prop} {follow : String → Value → Value}

theorem map_eq_self {f : Value → Value} {items : List Value} (h : ∀ x ∈ items, f x = x) :
    items.map f = items := (List.map_congr_left h).trans (List.map_id items)

mutual

theorem normalWith_of_exact (hfollow : ∀ name v, exact name v → follow name v = v) {s : Shape}
    {v : Value} (h : s.ExactWith exact v) : s.normalWith .full follow v = v := by
  match s with
  | primitive p => exact Value.asPrimitive_of_isPrimitive h
  | string _ => rfl
  | bytes _ =>
    obtain ⟨data, rfl⟩ := h
    rfl
  | array element _ | sequence element _ =>
    obtain ⟨items, rfl, hitems⟩ := h
    simp only [normalWith, Value.mapItems]
    rw [map_eq_self fun x hx => normalWith_of_exact hfollow (hitems x hx)]
  | map key value _ =>
    obtain ⟨entries, rfl, hentries⟩ := h
    simp only [normalWith, Value.mapEntries]
    have hpair : ∀ e ∈ entries,
        (normalWith .full follow key e.1, normalWith .full follow value e.2) = e := fun e he => by
      rw [normalWith_of_exact hfollow (hentries e he).1,
        normalWith_of_exact hfollow (hentries e he).2]
    rw [(List.map_congr_left hpair).trans (List.map_id' entries)]
  | enumeration _ =>
    obtain ⟨name, rfl⟩ := h
    rfl
  | union ⟨_, cases, none, _⟩ =>
    rw [ExactWith.eq_def] at h
    obtain ⟨label, payload, rfl, hpayload⟩ := h
    cases label with
    | none => rfl
    | some label => exact congrArg (Value.union _) (normalCase_of_exact hfollow hpayload)
  | union ⟨_, cases, some ⟨_, content⟩, _⟩ =>
    rw [ExactWith.eq_def] at h
    obtain ⟨label, payload, rfl, hpayload⟩ := h
    cases label with
    | none => exact congrArg (Value.union _) (normalWith_of_exact hfollow hpayload)
    | some label => exact congrArg (Value.union _) (normalCase_of_exact hfollow hpayload)
  | optional inner =>
    rw [normalWith]
    rcases h with rfl | hinner
    · rfl
    · split
      · rfl
      · exact normalWith_of_exact hfollow hinner
  | named name => exact hfollow name v h
termination_by structural s

theorem normalCase_of_exact (hfollow : ∀ name v, exact name v → follow name v = v) {label : Label}
    {payload : Value} {cases : List (Case Shape)} (h : ExactCase exact label payload cases) :
    normalCase .full follow label payload cases = payload := by
  match cases with
  | [] => rfl
  | ⟨_, labels, content⟩ :: cases =>
    rw [ExactCase] at h
    rw [normalCase]
    split
    · rename_i hlabel
      rw [if_pos hlabel] at h
      exact normalWith_of_exact hfollow h
    · rename_i hlabel
      rw [if_neg hlabel] at h
      exact normalCase_of_exact hfollow h
termination_by structural cases

end

end Shape

namespace Declaration

/-- The value is exactly of the kinds that the declaration gives, with `follow` for the types that
it names.  The members of a struct are a dictionary of declared members. -/
def ExactWith (d : Declaration) (follow : String → Value → Prop) (v : Value) : Prop :=
  match d.body with
  | .struct members =>
    ∃ given, v = .struct given ∧ Dictionary.Sorted given ∧
      (∀ name x, Dictionary.find? name given = some x → name ∈ members.map (·.name)) ∧
      ∀ m ∈ members, ∀ x, Dictionary.find? m.name given = some x → m.content.ExactWith follow x
  | .union u => (Shape.union u).ExactWith follow v
  | .enumeration _ => ∃ name, v = .enumerator name

variable {exact : String → Value → Prop} {follow : String → Value → Value}

theorem mem_normalMembers {role : Role} {given : List (String × Value)}
    {members : List (Member Shape)} {e : String × Value} :
    e ∈ normalMembers role follow given members ↔
      ∃ m ∈ members, ∃ x, Dictionary.find? m.name given = some x ∧
        (m.name, m.content.normalWith role follow x) = e := by
  simp only [normalMembers, List.mem_filterMap, Option.map_eq_some_iff]

theorem names_normalMembers_sublist {role : Role} (given : List (String × Value))
    (members : List (Member Shape)) :
    ((normalMembers role follow given members).map (·.1)).Sublist (members.map (·.name)) := by
  induction members with
  | nil => exact List.Sublist.refl _
  | cons m members ih =>
    unfold normalMembers at ih ⊢
    rw [List.filterMap_cons]
    cases Dictionary.find? m.name given with
    | none => exact ih.cons _
    | some x => exact ih.cons_cons _

theorem normalWith_of_exact (hfollow : ∀ name v, exact name v → follow name v = v)
    {d : Declaration} (hvalid : d.validate = .ok ()) {v : Value} (h : d.ExactWith exact v) :
    d.normalWith .full follow v = v := by
  unfold ExactWith at h
  unfold normalWith
  cases hbody : d.body with
  | struct members =>
    rw [hbody] at h
    obtain ⟨given, rfl, hsorted, hdeclared, hexact⟩ := h
    refine congrArg Value.struct (Dictionary.Sorted.ext
      (Dictionary.sorted_insertAll List.Pairwise.nil _) hsorted fun name => ?_)
    have hnodup := (@names_normalMembers_sublist follow .full given members).nodup
      (d.nodup_of_validate hvalid hbody)
    -- Both dictionaries are sorted, so it is enough that they agree on every name.
    cases hname : Dictionary.find? name given with
    | some x =>
      obtain ⟨m, hm, rfl⟩ := List.mem_map.mp (hdeclared name x hname)
      refine Dictionary.find?_insertAll_of_mem hnodup
        (mem_normalMembers.mpr ⟨m, hm, x, hname, ?_⟩) []
      rw [Shape.normalWith_of_exact hfollow (hexact m hm x hname)]
    | none =>
      refine Dictionary.find?_insertAll_of_not_mem (fun hmem => ?_) []
      obtain ⟨e, he, rfl⟩ := List.mem_map.mp hmem
      obtain ⟨m, -, x, hx, rfl⟩ := mem_normalMembers.mp he
      rw [hname] at hx
      cases hx
  | union u =>
    rw [hbody] at h
    exact Shape.normalWith_of_exact hfollow h
  | enumeration enumerators =>
    rw [hbody] at h
    obtain ⟨name, rfl⟩ := h
    rfl

end Declaration

namespace Catalog

/-- The value is exactly of the kinds that a registered name declares, nested through at most
`budget` names.  Nothing is asked of what lies deeper. -/
def ExactNamed (c : Catalog) : Nat → String → Value → Prop
  | 0, _, _ => True
  | budget + 1, name, v =>
    match c.declared? name with
    | some d => d.ExactWith (ExactNamed c budget) v
    | none => True

theorem Coherent.declared?_valid {c : Catalog} (h : c.Coherent []) {name : String}
    {d : Declaration} (hd : c.declared? name = some d) : d.validate = .ok () := by
  simp only [declared?, Option.map_eq_some_iff] at hd
  obtain ⟨⟨i, d'⟩, hresolve, rfl⟩ := hd
  obtain ⟨e, he, rfl, -⟩ := (resolve_eq_some h).mp hresolve
  exact h.valid i e he

theorem Coherent.normalNamed_of_exact {c : Catalog} (h : c.Coherent []) (budget : Nat)
    (name : String) (v : Value) (hv : c.ExactNamed budget name v) :
    c.normalNamed .full budget name v = v := by
  induction budget generalizing name v with
  | zero => rfl
  | succ budget ih =>
    rw [normalNamed]
    rw [ExactNamed] at hv
    cases hd : c.declared? name with
    | none => rfl
    | some d =>
      rw [hd] at hv
      exact Declaration.normalWith_of_exact ih (h.declared?_valid hd) hv

end Catalog

namespace Registry

/-- The value is exactly of the kinds that a registered type declares: its integers are carried in
the declared types, bytes and enumerators are given as such, no member of a struct is undeclared,
and no float of thirty-two bits is not a number. -/
def Exact (r : Registry) (h : Handle) (v : Value) : Prop :=
  match r.catalog.declared? h.name with
  | some d => d.ExactWith (r.catalog.ExactNamed r.config.maxDepth) v
  | none => True

/-- An exact value is its own normal form. -/
theorem Sound.normal_of_exact {r : Registry} (hr : r.Sound) {h : Handle} {v : Value}
    (hv : r.Exact h v) : r.normal h v = v := by
  unfold normal
  unfold Exact at hv
  cases hd : r.catalog.declared? h.name with
  | none => rfl
  | some d =>
    rw [hd] at hv
    exact Declaration.normalWith_of_exact (hr.coherent.normalNamed_of_exact _)
      (hr.coherent.declared?_valid hd) hv

end Registry

end Cdr
