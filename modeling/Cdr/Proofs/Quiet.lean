import Cdr.Proofs.Admitting
import Cdr.Proofs.Exact

/-! Values up to what is not a number.  A float of thirty-two bits is written through sixty-four
bits, which keeps every number but not which of the many bit patterns of not-a-number it was.  The
normal form of a value that is admitted in the declared form is the value, up to that. -/

namespace Cdr

namespace Real

open FloatFormat

/-- The bits, with every not-a-number replaced by the quiet one. -/
def FloatFormat.quieted (f : FloatFormat) (bits : Nat) : Nat :=
  if f.datum bits = .nan then f.quietNaN else bits

/-- A float of thirty-two bits that is widened and narrowed comes back, or was not a number. -/
theorem quieted_narrow_widen (bits : UInt32) :
    single.quieted (narrow (widen bits)).toNat = single.quieted bits.toNat := by
  by_cases hnan : single.datum bits.toNat = .nan
  · have hwiden : widen bits = UInt64.ofNat double.quietNaN := by
      rw [widen, convert, hnan, ofDatum]
    rw [hwiden, quieted.eq_def _ bits.toNat, if_pos hnan]
    decide
  · rw [narrow_widen hnan]

end Real

namespace Value

mutual

/-- The value with every not-a-number replaced by the quiet one of its type. -/
def quieted : Value → Value
  | float32 bits => float32 (UInt32.ofNat (Real.FloatFormat.single.quieted bits.toNat))
  | float64 bits => float64 (UInt64.ofNat (Real.FloatFormat.double.quieted bits.toNat))
  | array items => array (quietedItems items)
  | map entries => map (quietedEntries entries)
  | struct members => struct (quietedMembers members)
  | union label payload => union label (quieted payload)
  | v => v
termination_by structural v => v

def quietedItems : List Value → List Value
  | [] => []
  | v :: items => quieted v :: quietedItems items
termination_by structural items => items

def quietedEntries : List (Value × Value) → List (Value × Value)
  | [] => []
  | (k, v) :: entries => (quieted k, quieted v) :: quietedEntries entries
termination_by structural entries => entries

def quietedMembers : List (String × Value) → List (String × Value)
  | [] => []
  | (name, v) :: members => (name, quieted v) :: quietedMembers members
termination_by structural members => members

end

/-- Elements that are alike up to what is not a number make alike lists. -/
theorem quietedItems_map {f : Value → Value} {items : List Value}
    (h : ∀ x ∈ items, (f x).quieted = x.quieted) :
    quietedItems (items.map f) = quietedItems items := by
  induction items with
  | nil => rfl
  | cons x items ih =>
    obtain ⟨hx, hitems⟩ := List.forall_mem_cons.mp h
    rw [List.map_cons, quietedItems, quietedItems, hx, ih hitems]

theorem quietedEntries_map {f g : Value → Value} {entries : List (Value × Value)}
    (h : ∀ e ∈ entries, (f e.1).quieted = e.1.quieted ∧ (g e.2).quieted = e.2.quieted) :
    quietedEntries (entries.map fun e => (f e.1, g e.2)) = quietedEntries entries := by
  induction entries with
  | nil => rfl
  | cons e entries ih =>
    obtain ⟨he, hentries⟩ := List.forall_mem_cons.mp h
    rw [List.map_cons, quietedEntries, quietedEntries, he.1, he.2, ih hentries]

theorem find?_quietedMembers (name : String) (members : List (String × Value)) :
    Dictionary.find? name (quietedMembers members) =
      (Dictionary.find? name members).map quieted := by
  induction members with
  | nil => rfl
  | cons e members ih =>
    obtain ⟨n, v⟩ := e
    simp only [quietedMembers, Dictionary.find?]
    split
    · rfl
    · exact ih

theorem names_quietedMembers (members : List (String × Value)) :
    (quietedMembers members).map (·.1) = members.map (·.1) := by
  induction members with
  | nil => rfl
  | cons e members ih =>
    obtain ⟨n, v⟩ := e
    rw [quietedMembers, List.map_cons, List.map_cons, ih]

theorem sorted_quietedMembers {members : List (String × Value)} (h : Dictionary.Sorted members) :
    Dictionary.Sorted (quietedMembers members) := by
  have hnames := List.pairwise_map.mpr h
  rw [← names_quietedMembers] at hnames
  exact List.pairwise_map.mp hnames

/-- A primitive value as it is declared is its own normal form, up to what is not a number. -/
theorem quieted_asPrimitive {p : Primitive} {v : Value} (h : Form.declared.primitive p v) :
    (v.asPrimitive p).quieted = v.quieted := by
  cases p with
  | bool => rfl
  | char =>
    obtain ⟨c, rfl, -⟩ := h
    rfl
  | integer t =>
    obtain ⟨n, rfl, rfl⟩ := h
    simp [asPrimitive, asInt?, Integer.ofInt?, n.holds]
  | float32 =>
    obtain ⟨bits, rfl⟩ := h
    simp only [asPrimitive, asFloat?, quieted, Real.quieted_narrow_widen]
  | float64 =>
    obtain ⟨bits, rfl⟩ := h
    rfl

end Value

namespace Shape

variable {w : CountWidth} {role : Role} {admitted : String → Value → Prop}
  {follow : String → Value → Value}

mutual

/-- A value that is admitted in the declared form is its own normal form, up to what is not a
number. -/
theorem quieted_normalWith
    (hfollow : ∀ name v, admitted name v → (follow name v).quieted = v.quieted)
    {s : Shape} {v : Value} (h : s.AdmitsWith .declared w role admitted v) :
    (s.normalWith role follow v).quieted = v.quieted := by
  match s with
  | primitive p => exact Value.quieted_asPrimitive h
  | string _ => rfl
  | bytes _ =>
    obtain ⟨data, rfl, -⟩ := h
    rfl
  | array element _ =>
    obtain ⟨items, rfl, -, hitems⟩ := h
    exact congrArg Value.array
      (Value.quietedItems_map fun x hx => quieted_normalWith hfollow (hitems x hx))
  | sequence element _ =>
    obtain ⟨items, rfl, -, -, hitems⟩ := h
    exact congrArg Value.array
      (Value.quietedItems_map fun x hx => quieted_normalWith hfollow (hitems x hx))
  | map key value _ =>
    obtain ⟨entries, rfl, -, -, hentries⟩ := h
    exact congrArg Value.map (Value.quietedEntries_map fun e he =>
      ⟨quieted_normalWith hfollow (hentries e he).1, quieted_normalWith hfollow (hentries e he).2⟩)
  | enumeration _ =>
    obtain ⟨e, -, rfl⟩ := h
    rfl
  | union ⟨_, cases, none, keyed⟩ =>
    cases v with
    | union label payload =>
      rw [normalWith.eq_def]
      refine congrArg (Value.union label) ?_
      cases label with
      | none => exact (by simpa using admitsWith_default.mp h : False).elim
      | some label => exact quieted_normalCase hfollow (admitsWith_case.mp h)
    | _ => exact rfl
  | union ⟨_, cases, some ⟨_, content⟩, keyed⟩ =>
    cases v with
    | union label payload =>
      rw [normalWith.eq_def]
      refine congrArg (Value.union label) ?_
      cases label with
      | none =>
        obtain ⟨_, ⟨⟩, hpayload⟩ := admitsWith_default.mp h
        simp only at hpayload ⊢
        split
        · rename_i htag
          rw [if_pos htag] at hpayload
          exact congrArg Value.quieted (Eq.symm hpayload)
        · rename_i htag
          rw [if_neg htag] at hpayload
          exact quieted_normalWith hfollow hpayload
      | some label => exact quieted_normalCase hfollow (admitsWith_case.mp h)
    | _ => exact rfl
  | optional inner =>
    rw [normalWith]
    split
    · rfl
    · rename_i hnull
      rcases h with rfl | hinner
      · exact absurd rfl hnull
      · exact quieted_normalWith hfollow hinner
  | named name => exact hfollow name v h
termination_by structural s

/-- The payload of a case is its own normal form in the same way. -/
theorem quieted_normalCase
    (hfollow : ∀ name v, admitted name v → (follow name v).quieted = v.quieted) {tagOnly : Bool}
    {label : Label} {payload : Value} {cases : List (Case Shape)}
    (h : AdmitsCase .declared w role admitted tagOnly label payload cases) :
    (if tagOnly then Value.null else normalCase role follow label payload cases).quieted =
      payload.quieted := by
  match cases with
  | [] => exact h.elim
  | ⟨_, labels, content⟩ :: cases =>
    rw [AdmitsCase] at h
    rw [normalCase]
    by_cases hlabel : labels.contains label = true
    · rw [if_pos hlabel] at h ⊢
      cases tagOnly with
      | true => exact congrArg Value.quieted (Eq.symm h)
      | false => exact quieted_normalWith hfollow h
    · rw [if_neg hlabel] at h ⊢
      exact quieted_normalCase hfollow h
termination_by structural cases

end

end Shape

namespace Declaration

variable {d : Declaration} {w : CountWidth} {role : Role} {admitted : String → Value → Prop}
  {follow : String → Value → Value} {v : Value}

theorem quieted_normalWith
    (hfollow : ∀ name v, admitted name v → (follow name v).quieted = v.quieted)
    (hvalid : d.validate = .ok ()) (h : d.AdmitsWith .declared w role admitted v) :
    (d.normalWith role follow v).quieted = v.quieted := by
  unfold AdmitsWith at h
  unfold normalWith
  cases hbody : d.body with
  | struct members =>
    rw [hbody] at h
    obtain ⟨given, rfl, ⟨hsorted, hdeclared⟩, hmembers⟩ := h
    have hnodup := (@names_normalMembers_sublist follow role given
      (d.membersFor role members)).nodup (nodup_membersFor hvalid hbody role)
    refine congrArg Value.struct (Dictionary.Sorted.ext
      (Value.sorted_quietedMembers (Dictionary.sorted_insertAll List.Pairwise.nil _))
      (Value.sorted_quietedMembers hsorted) fun name => ?_)
    rw [Value.find?_quietedMembers, Value.find?_quietedMembers]
    -- Both dictionaries have the declared members, with values that are alike.
    cases hname : Dictionary.find? name given with
    | some x =>
      obtain ⟨m, hm, rfl⟩ := List.mem_map.mp (hdeclared _ (hsorted.mem_iff.mpr hname))
      obtain ⟨y, hy, hadmits⟩ := hmembers m hm
      obtain rfl : x = y := Option.some.inj (hname.symm.trans hy)
      have hfind := Dictionary.find?_insertAll_of_mem hnodup
        (mem_normalMembers.mpr ⟨m, hm, x, hname, rfl⟩) []
      refine (congrArg (Option.map Value.quieted) hfind).trans ?_
      exact congrArg some (Shape.quieted_normalWith hfollow hadmits)
    | none =>
      refine congrArg (Option.map Value.quieted)
        (Dictionary.find?_insertAll_of_not_mem (fun hmem => ?_) [])
      obtain ⟨e, he, rfl⟩ := List.mem_map.mp hmem
      obtain ⟨m, -, x, hx, rfl⟩ := mem_normalMembers.mp he
      rw [hname] at hx
      cases hx
  | union u =>
    rw [hbody] at h
    exact Shape.quieted_normalWith hfollow h
  | enumeration enumerators =>
    rw [hbody] at h
    obtain ⟨e, -, rfl⟩ := h
    rfl

end Declaration

namespace Catalog

theorem Coherent.quieted_normalNamed {c : Catalog} (h : c.Coherent []) {w : CountWidth}
    (role : Role) (budget : Nat) (name : String) (v : Value)
    (hv : c.AdmitsNamed .declared w role budget name v) :
    (c.normalNamed role budget name v).quieted = v.quieted := by
  induction budget generalizing name v with
  | zero => rfl
  | succ budget ih =>
    obtain ⟨d, ⟨hd, -⟩, hadmits⟩ := hv
    simp only [normalNamed, hd]
    exact Declaration.quieted_normalWith ih (h.declared?_valid hd) hadmits

end Catalog

namespace Registry

variable {r : Registry} {h : Handle} {v : Value}

/-- A value that a type admits as it is declared is its own normal form, up to what is not a
number. -/
theorem Sound.quieted_normal (hr : r.Sound) (hv : r.Admits .declared h v) :
    (r.normal h v).quieted = v.quieted := by
  obtain ⟨d, hd, hadmits⟩ := hv
  simp only [normal, hd]
  exact Declaration.quieted_normalWith (hr.coherent.quieted_normalNamed _ _)
    (hr.coherent.declared?_valid hd) hadmits

/-- A key that a type admits as it is declared is its own projection, up to what is not a number. -/
theorem Sound.quieted_projection (hr : r.Sound) (hv : r.AdmitsKey .declared h v) :
    (r.projection h v).quieted = v.quieted := by
  obtain ⟨d, hd, hadmits⟩ := hv
  simp only [projection, hd]
  split
  · rename_i hkeyless
    rw [if_pos hkeyless] at hadmits
    obtain ⟨given, rfl, -, hnames⟩ := hadmits
    rw [List.eq_nil_iff_forall_not_mem.mpr fun e he => List.not_mem_nil (hnames e he)]
  · rename_i hkeyless
    rw [if_neg hkeyless] at hadmits
    exact Declaration.quieted_normalWith (hr.coherent.quieted_normalNamed _ _)
      (hr.coherent.declared?_valid hd) hadmits

end Registry

end Cdr
