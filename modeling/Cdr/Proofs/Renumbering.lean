import Cdr.Layout.Measure
import Cdr.Layout.Read
import Cdr.Layout.Write
import Cdr.Proofs.WellFormed

/-! Layouts whose references carry other places.  What a layout writes, reads and measures depends
on the places only through what lies behind them. -/

namespace Cdr

/-- The reference with its place moved. -/
def Reference.renumber (g : Nat → Nat) (target : Reference) : Reference :=
  { target with id := g target.id }

namespace Layout

mutual

/-- The layout with the places of all references moved. -/
def renumber (g : Nat → Nat) : Layout → Layout
  | primitive p => primitive p
  | string bound => string bound
  | bytes bound => bytes bound
  | array element length => array (renumber g element) length
  | sequence element bound => sequence (renumber g element) bound
  | map key value bound => map (renumber g key) (renumber g value) bound
  | enumeration name enumerators => enumeration name enumerators
  | struct name members => struct name (renumberMembers g members)
  | union ⟨name, discriminator, cases, fallback, tagOnly⟩ =>
    union ⟨name, discriminator, renumberCases g cases, renumberFallback g fallback, tagOnly⟩
  | optional inner => optional (renumber g inner)
  | reference target => reference (target.renumber g)
termination_by structural l => l

/-- The members with the places of all references moved. -/
def renumberMembers (g : Nat → Nat) : List (Member Layout) → List (Member Layout)
  | [] => []
  | ⟨field, content⟩ :: members => ⟨field, renumber g content⟩ :: renumberMembers g members
termination_by structural members => members

/-- The cases with the places of all references moved. -/
def renumberCases (g : Nat → Nat) : List (Case Layout) → List (Case Layout)
  | [] => []
  | ⟨field, labels, content⟩ :: cases =>
    ⟨field, labels, renumber g content⟩ :: renumberCases g cases
termination_by structural cases => cases

/-- The default case with the places of all references moved. -/
def renumberFallback (g : Nat → Nat) : Option (Fallback Layout) → Option (Fallback Layout)
  | none => none
  | some ⟨field, sentinel, content⟩ => some ⟨field, sentinel, renumber g content⟩
termination_by structural fallback => fallback

end

mutual

theorem renumber_id (l : Layout) : l.renumber id = l := by
  match l with
  | primitive _ | string _ | bytes _ | enumeration _ _ | reference _ => rfl
  | array element _ | sequence element _ | optional element => simp only [renumber, renumber_id]
  | map key value _ => simp only [renumber, renumber_id]
  | struct _ members => simp only [renumber, renumberMembers_id]
  | union ⟨_, _, cases, fallback, _⟩ =>
    simp only [renumber, renumberCases_id, renumberFallback_id]
termination_by structural l

theorem renumberMembers_id (members : List (Member Layout)) :
    renumberMembers id members = members := by
  match members with
  | [] => rfl
  | ⟨_, content⟩ :: members => simp only [renumberMembers, renumber_id, renumberMembers_id]
termination_by structural members

theorem renumberCases_id (cases : List (Case Layout)) : renumberCases id cases = cases := by
  match cases with
  | [] => rfl
  | ⟨_, _, content⟩ :: cases => simp only [renumberCases, renumber_id, renumberCases_id]
termination_by structural cases

theorem renumberFallback_id (fallback : Option (Fallback Layout)) :
    renumberFallback id fallback = fallback := by
  match fallback with
  | none => rfl
  | some ⟨_, _, content⟩ => simp only [renumberFallback, renumber_id]
termination_by structural fallback

end

section Alignment

variable (w : CountWidth) (g : Nat → Nat)

mutual

theorem alignment_renumber (l : Layout) : (l.renumber g).alignment w = l.alignment w := by
  match l with
  | primitive _ | string _ | bytes _ | sequence _ _ | map _ _ _ | enumeration _ _ | struct _ _
  | optional _ | reference _ => rfl
  | array element _ => simp only [renumber, alignment, alignment_renumber element]
  | union ⟨_, _, cases, fallback, _⟩ =>
    simp only [renumber, alignment, casesAlignment_renumberCases cases,
      fallbackAlignment_renumberFallback fallback]
termination_by structural l

theorem casesAlignment_renumberCases (cases : List (Case Layout)) :
    casesAlignment w (renumberCases g cases) = casesAlignment w cases := by
  match cases with
  | [] => rfl
  | ⟨_, _, content⟩ :: cases =>
    simp only [renumberCases, casesAlignment, alignment_renumber content,
      casesAlignment_renumberCases cases]
termination_by structural cases

theorem fallbackAlignment_renumberFallback (fallback : Option (Fallback Layout)) :
    fallbackAlignment w (renumberFallback g fallback) = fallbackAlignment w fallback := by
  match fallback with
  | none => rfl
  | some ⟨_, _, content⟩ =>
    simp only [renumberFallback, fallbackAlignment, alignment_renumber content]
termination_by structural fallback

end

theorem unionAlignment_renumber (name : String) (discriminator : Discriminator)
    (cases : List (Case Layout)) (fallback : Option (Fallback Layout)) (tagOnly : Bool) :
    unionAlignment w
        ⟨name, discriminator, renumberCases g cases, renumberFallback g fallback, tagOnly⟩ =
      unionAlignment w ⟨name, discriminator, cases, fallback, tagOnly⟩ :=
  alignment_renumber w g (union ⟨name, discriminator, cases, fallback, tagOnly⟩)

end Alignment

section Following

variable {w : CountWidth} {g : Nat → Nat} {good : Reference → Prop}

section Writing

variable {follow follow' : Reference → Value → Coding Unit}

mutual

/-- Moved references write what lies behind the new places. -/
theorem writeWith_renumber
    (hfollow : ∀ target, good target → follow' (target.renumber g) = follow target) (l : Layout)
    (hl : l.WellFormed good) (v : Value) :
    writeWith w follow' (l.renumber g) v = writeWith w follow l v := by
  match l with
  | primitive _ | string _ | bytes _ | enumeration _ _ => rfl
  | array element _ | sequence element _ =>
    have helement := funext (writeWith_renumber hfollow element hl)
    simp only [renumber, writeWith, helement]
  | map key value _ =>
    have hkey := funext (writeWith_renumber hfollow key hl.1)
    have hvalue := funext (writeWith_renumber hfollow value hl.2)
    simp only [renumber, writeWith, hkey, hvalue]
  | struct _ members =>
    simp only [renumber, writeWith, writeMembers_renumberMembers hfollow members hl.2]
  | union ⟨name, d, cases, none, tagOnly⟩ =>
    have halign := unionAlignment_renumber w g name d cases none tagOnly
    simp only [renumberFallback] at halign
    cases v with
    | union label payload =>
      cases label <;>
        simp only [renumber, renumberFallback, writeWith, halign,
          writeCase_renumberCases hfollow cases hl.cases]
    | _ => rfl
  | union ⟨name, d, cases, some ⟨field, sentinel, content⟩, tagOnly⟩ =>
    have halign :=
      unionAlignment_renumber w g name d cases (some ⟨field, sentinel, content⟩) tagOnly
    simp only [renumberFallback] at halign
    cases v with
    | union label payload =>
      cases label <;>
        simp only [renumber, renumberFallback, writeWith, halign,
          writeCase_renumberCases hfollow cases hl.cases,
          writeWith_renumber hfollow content hl.2.2.2]
    | _ => rfl
  | optional inner => simp only [renumber, writeWith, writeWith_renumber hfollow inner hl]
  | reference target =>
    simp only [renumber, writeWith]
    rw [hfollow target hl]
termination_by structural l

theorem writeMembers_renumberMembers
    (hfollow : ∀ target, good target → follow' (target.renumber g) = follow target)
    (members : List (Member Layout)) (hm : MembersWellFormed good members) (name : String)
    (given : List (String × Value)) :
    writeMembers w follow' name given (renumberMembers g members) =
      writeMembers w follow name given members := by
  match members with
  | [] => rfl
  | ⟨_, content⟩ :: members =>
    simp only [renumberMembers, writeMembers, writeWith_renumber hfollow content hm.1,
      writeMembers_renumberMembers hfollow members hm.2]
termination_by structural members

theorem writeCase_renumberCases
    (hfollow : ∀ target, good target → follow' (target.renumber g) = follow target)
    (cases : List (Case Layout)) (hc : CasesWellFormed good cases) (label : Label)
    (payload : Value) :
    writeCase w follow' label payload (renumberCases g cases) =
      writeCase w follow label payload cases := by
  match cases with
  | [] => rfl
  | ⟨_, _, content⟩ :: cases =>
    simp only [renumberCases, writeCase, writeWith_renumber hfollow content hc.1,
      writeCase_renumberCases hfollow cases hc.2]
termination_by structural cases

end

end Writing

section Reading

variable {behind behind' : Reference → Coding Value}

mutual

theorem readWith_renumber
    (hbehind : ∀ target, good target → behind' (target.renumber g) = behind target) (l : Layout)
    (hl : l.WellFormed good) : readWith w behind' (l.renumber g) = readWith w behind l := by
  match l with
  | primitive _ | string _ | bytes _ | enumeration _ _ => rfl
  | array element _ | sequence element _ =>
    simp only [renumber, readWith, readWith_renumber hbehind element hl]
  | map key value _ =>
    simp only [renumber, readWith, readWith_renumber hbehind key hl.1,
      readWith_renumber hbehind value hl.2]
  | struct _ members =>
    simp only [renumber, readWith, readMembers_renumberMembers hbehind members hl.2]
  | union ⟨name, d, cases, none, tagOnly⟩ =>
    have halign := unionAlignment_renumber w g name d cases none tagOnly
    simp only [renumberFallback] at halign
    simp only [renumber, renumberFallback, readWith, halign,
      readCase_renumberCases hbehind cases hl.cases]
  | union ⟨name, d, cases, some ⟨field, sentinel, content⟩, tagOnly⟩ =>
    have halign :=
      unionAlignment_renumber w g name d cases (some ⟨field, sentinel, content⟩) tagOnly
    simp only [renumberFallback] at halign
    simp only [renumber, renumberFallback, readWith, halign,
      readCase_renumberCases hbehind cases hl.cases, readWith_renumber hbehind content hl.2.2.2]
  | optional inner => simp only [renumber, readWith, readWith_renumber hbehind inner hl]
  | reference target =>
    simp only [renumber, readWith]
    exact hbehind target hl
termination_by structural l

theorem readMembers_renumberMembers
    (hbehind : ∀ target, good target → behind' (target.renumber g) = behind target)
    (members : List (Member Layout)) (hm : MembersWellFormed good members)
    (done : List (String × Value)) :
    readMembers w behind' done (renumberMembers g members) = readMembers w behind done members := by
  match members with
  | [] => rfl
  | ⟨_, content⟩ :: members =>
    simp only [renumberMembers, readMembers, readWith_renumber hbehind content hm.1,
      readMembers_renumberMembers hbehind members hm.2]
termination_by structural members

theorem readCase_renumberCases
    (hbehind : ∀ target, good target → behind' (target.renumber g) = behind target)
    (cases : List (Case Layout)) (hc : CasesWellFormed good cases) (label : Label) :
    readCase w behind' label (renumberCases g cases) = readCase w behind label cases := by
  match cases with
  | [] => rfl
  | ⟨_, _, content⟩ :: cases =>
    simp only [renumberCases, readCase, readWith_renumber hbehind content hc.1,
      readCase_renumberCases hbehind cases hc.2]
termination_by structural cases

end

end Reading

section Measuring

variable {a : Assumptions} {follow follow' : Reference → Sizing Unit}

mutual

theorem measureWith_renumber
    (hfollow : ∀ target, good target → follow' (target.renumber g) = follow target) (l : Layout)
    (hl : l.WellFormed good) : measureWith a follow' (l.renumber g) = measureWith a follow l := by
  match l with
  | primitive _ | string _ | bytes _ | enumeration _ _ => rfl
  | array element _ | sequence element _ =>
    simp only [renumber, measureWith, measureWith_renumber hfollow element hl]
  | map key value _ =>
    simp only [renumber, measureWith, measureWith_renumber hfollow key hl.1,
      measureWith_renumber hfollow value hl.2]
  | struct _ members =>
    simp only [renumber, measureWith, measureMembers_renumberMembers hfollow members hl.2]
  | union ⟨name, d, cases, none, tagOnly⟩ =>
    have halign := unionAlignment_renumber a.countWidth g name d cases none tagOnly
    simp only [renumberFallback] at halign
    simp only [renumber, renumberFallback, measureWith, halign,
      measureCases_renumberCases hfollow cases hl.cases]
  | union ⟨name, d, cases, some ⟨field, sentinel, content⟩, tagOnly⟩ =>
    have halign :=
      unionAlignment_renumber a.countWidth g name d cases (some ⟨field, sentinel, content⟩) tagOnly
    simp only [renumberFallback] at halign
    simp only [renumber, renumberFallback, measureWith, halign,
      measureCases_renumberCases hfollow cases hl.cases,
      measureWith_renumber hfollow content hl.2.2.2]
  | optional inner => simp only [renumber, measureWith, measureWith_renumber hfollow inner hl]
  | reference target =>
    simp only [renumber, measureWith]
    rw [hfollow target hl]
termination_by structural l

theorem measureMembers_renumberMembers
    (hfollow : ∀ target, good target → follow' (target.renumber g) = follow target)
    (members : List (Member Layout)) (hm : MembersWellFormed good members) :
    measureMembers a follow' (renumberMembers g members) = measureMembers a follow members := by
  match members with
  | [] => rfl
  | ⟨_, content⟩ :: members =>
    simp only [renumberMembers, measureMembers, measureWith_renumber hfollow content hm.1,
      measureMembers_renumberMembers hfollow members hm.2]
termination_by structural members

theorem measureCases_renumberCases
    (hfollow : ∀ target, good target → follow' (target.renumber g) = follow target)
    (cases : List (Case Layout)) (hc : CasesWellFormed good cases) (start : Extent) :
    measureCases a follow' start (renumberCases g cases) = measureCases a follow start cases := by
  match cases with
  | [] => rfl
  | ⟨_, _, content⟩ :: cases =>
    simp only [renumberCases, measureCases, measureWith_renumber hfollow content hc.1,
      measureCases_renumberCases hfollow cases hc.2]
termination_by structural cases

end

end Measuring

/-- The second table is the first with its places moved, as far as good references reach. -/
structure Moved (good : Reference → Prop) (g : Nat → Nat) (types types' : Lookup) : Prop where
  lookup : ∀ target, good target →
    types' (g target.id) target.role = (types target.id target.role).map (renumber g)
  wellFormed : ∀ target, good target → ∀ l, types target.id target.role = .ok l →
    l.WellFormed good
  injective : ∀ s t, good s → good t → g s.id = g t.id → s.id = t.id

section Tables

variable {types types' : Lookup} (h : Moved good g types types')

include h

theorem write_renumber (budget : Nat) {l : Layout} (hl : l.WellFormed good) (v : Value) :
    write types' w budget (l.renumber g) v = write types w budget l v := by
  induction budget generalizing l v with
  | zero => exact writeWith_renumber (fun _ _ => rfl) l hl v
  | succ budget ih =>
    refine writeWith_renumber (fun target hgood => funext fun v => ?_) l hl v
    have hlookup := h.lookup target hgood
    have hwell := h.wellFormed target hgood
    simp only [Reference.renumber, hlookup]
    cases htypes : types target.id target.role with
    | ok layout => exact ih (hwell layout htypes) v
    | error fault => rfl

theorem read_renumber (budget : Nat) {l : Layout} (hl : l.WellFormed good) :
    read types' w budget (l.renumber g) = read types w budget l := by
  induction budget generalizing l with
  | zero => exact readWith_renumber (fun _ _ => rfl) l hl
  | succ budget ih =>
    refine readWith_renumber (fun target hgood => ?_) l hl
    have hlookup := h.lookup target hgood
    have hwell := h.wellFormed target hgood
    simp only [Reference.renumber, hlookup]
    cases htypes : types target.id target.role with
    | ok layout => exact ih (hwell layout htypes)
    | error fault => rfl

theorem measure_renumber (a : Assumptions) (budget : Nat) {visiting : List (Nat × Role)}
    (hvisiting : ∀ p ∈ visiting, ∃ target, good target ∧ target.id = p.1) {l : Layout}
    (hl : l.WellFormed good) :
    measure types' a budget (visiting.map fun p => (g p.1, p.2)) (l.renumber g) =
      measure types a budget visiting l := by
  induction budget generalizing visiting l with
  | zero => exact measureWith_renumber (fun _ _ => rfl) l hl
  | succ budget ih =>
    refine measureWith_renumber (fun target hgood => ?_) l hl
    have hlookup := h.lookup target hgood
    have hwell := h.wellFormed target hgood
    have hmem : (g target.id, target.role) ∈ visiting.map (fun p => (g p.1, p.2)) ↔
        (target.id, target.role) ∈ visiting := by
      constructor
      · intro hin
        obtain ⟨p, hp, heq⟩ := List.mem_map.mp hin
        obtain ⟨t, ht, hid⟩ := hvisiting p hp
        obtain ⟨hg, hrole⟩ := Prod.mk.inj heq
        have := h.injective t target ht hgood (by rw [hid, hg])
        rwa [← this, hid, ← hrole]
      · exact fun hin => List.mem_map_of_mem (f := fun p : Nat × Role => (g p.1, p.2)) hin
    simp only [Reference.renumber, hlookup, hmem]
    split
    · rfl
    · cases htypes : types target.id target.role with
      | ok layout =>
        have hdeeper : ∀ p ∈ (target.id, target.role) :: visiting,
            ∃ t, good t ∧ t.id = p.1 := List.forall_mem_cons.mpr ⟨⟨target, hgood, rfl⟩, hvisiting⟩
        exact ih hdeeper (hwell layout htypes)
      | error fault => rfl

end Tables

end Following

end Layout

end Cdr
