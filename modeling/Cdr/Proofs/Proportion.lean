import Cdr.Proofs.Locating

/-! The size of what is read.  The entries of a collection are read from bytes of their own, so
there are no more of them than bytes, provided that an entry takes a byte.  Hollow layouts take
none, and of hollow entries there are as many as the count says. -/

namespace Cdr

/-- A layout of no bytes: an array without elements or of hollow ones, a struct whose members are
all hollow, or a reference to a hollow layout. -/
inductive Layout.Hollow (types : Lookup) : Layout → Prop
  | none {element : Layout} {length : UInt64} (hlength : length.toNat = 0) :
    Hollow types (.array element length)
  | each {element : Layout} {length : UInt64} (helement : Hollow types element) :
    Hollow types (.array element length)
  | struct {name : String} {members : List (Member Layout)}
    (hmembers : ∀ m ∈ members, Hollow types m.content) : Hollow types (.struct name members)
  | reference {target : Reference} {l : Layout} (hfound : types target.id target.role = .ok l)
    (h : Hollow types l) : Hollow types (.reference target)

namespace Layout

open Coding

variable {types : Lookup} {w : CountWidth} {follow : Reference → Coding Value}

theorem advances_readMembers {members : List (Member Layout)} {m : Member Layout}
    (hskims : ∀ m ∈ members, Skims (readWith w follow m.content)) (hm : m ∈ members)
    (h : Advances (readWith w follow m.content)) (done : List (String × Value)) :
    Advances (readMembers w follow done members) := by
  induction members generalizing done with
  | nil => cases hm
  | cons first members ih =>
    obtain ⟨hfirst, hlater⟩ := List.forall_mem_cons.mp hskims
    rcases List.mem_cons.mp hm with rfl | hmem
    · exact h.bind_left fun _ => compositional_readMembers Skims.compositional hlater _
    · exact Advances.bind_right hfirst fun _ => ih hlater hmem _

theorem advances_readWith (hskims : ∀ target, Skims (follow target))
    (hfollow : ∀ target, ¬ Hollow types (.reference target) → Advances (follow target))
    {l : Layout} (hl : ¬ l.Hollow types) : Advances (readWith w follow l) := by
  induction l using induction_on_children with
  | layout l ih =>
    have hread : ∀ l, Skims (readWith w follow l) := fun l =>
      compositional_readWith Skims.compositional l fun target _ => hskims target
    cases l with
    | array element length =>
      have helement := ih element (List.mem_singleton_self _) fun h => hl (.each h)
      obtain ⟨n, hn⟩ := Nat.exists_eq_succ_of_ne_zero fun h => hl (.none h)
      rw [readWith, hn]
      exact (helement.bind_left fun x => compositional_readEach Skims.compositional (hread element)
        [x] n).bind_left fun _ => Skims.pure _
    | struct name members =>
      obtain ⟨m, hm, hcontent⟩ : ∃ m ∈ members, ¬ m.content.Hollow types := by
        by_contra hnone
        exact hl (.struct fun m hm => Classical.not_not.mp fun h => hnone ⟨m, hm, h⟩)
      have hmember := ih m.content (List.mem_map_of_mem hm) hcontent
      exact (advances_readMembers (fun m _ => hread m.content) hm hmember []).bind_left
        fun _ => Skims.pure _
    | reference target => exact hfollow target hl
    | _ => exact dominant_readWith Skims.compositional Advances.dominant trivial fun l _ => hread l

/-- Only what is hollow is read from no bytes. -/
theorem advances_read (budget : Nat) {l : Layout} (hl : ¬ l.Hollow types) :
    Advances (l.read types w budget) := by
  induction budget generalizing l with
  | zero => exact advances_readWith (fun _ => Skims.throw _) (fun _ _ => Advances.throw _) hl
  | succ budget ih =>
    refine advances_readWith (fun target => ?_) (fun target htarget => ?_) hl
    · split
      · exact skims_read types w budget _
      · exact Skims.throw _
    · split
      · rename_i hfound
        exact ih fun h => htarget (.reference hfound h)
      · exact Advances.throw _

/-- Steps that leave the buffer as it is do so one after the other. -/
theorem readEach_still {α : Type} {element : Coding α} {done xs : List α} {count : Nat}
    {b b' : Buffer} (h : ∀ {b b' : Buffer} {x : α}, element b = .ok x b' → b' = b)
    (hok : readEach element done count b = .ok xs b') : b' = b := by
  induction count generalizing done b with
  | zero =>
    cases hok
    rfl
  | succ count ih =>
    obtain ⟨x, c, hx, hrest⟩ := bind_eq_ok.mp hok
    rw [ih hrest, h hx]

theorem readMembers_still {members : List (Member Layout)} {done given : List (String × Value)}
    {b b' : Buffer} (h : ∀ m ∈ members, ∀ {b b' : Buffer} {x : Value},
      readWith w follow m.content b = .ok x b' → b' = b)
    (hok : readMembers w follow done members b = .ok given b') : b' = b := by
  induction members generalizing done b with
  | nil =>
    cases hok
    rfl
  | cons m members ih =>
    obtain ⟨hm, hmembers⟩ := List.forall_mem_cons.mp h
    obtain ⟨x, c, hx, hrest⟩ := bind_eq_ok.mp hok
    rw [ih hmembers hrest, hm hx]

theorem Hollow.still {l : Layout} (h : l.Hollow types) {budget : Nat} {b b' : Buffer} {v : Value}
    (hok : l.read types w budget b = .ok v b') : b' = b := by
  rw [read_eq_readWith] at hok
  induction h generalizing budget b b' v with
  | none hlength =>
    obtain ⟨items, c, heach, hpure⟩ := bind_eq_ok.mp hok
    rw [hlength] at heach
    cases heach
    cases hpure
    rfl
  | each _ ih =>
    obtain ⟨items, c, heach, hpure⟩ := bind_eq_ok.mp hok
    cases hpure
    exact readEach_still ih heach
  | struct _ ih =>
    obtain ⟨given, c, hmembers, hpure⟩ := bind_eq_ok.mp hok
    cases hpure
    exact readMembers_still (fun m hm => ih m hm) hmembers
  | @reference target l hfound _ ih =>
    have hbehind : readBehind types w budget target b = .ok v b' := hok
    cases budget with
    | zero => cases hbehind
    | succ budget =>
      rw [readBehind, hfound] at hbehind
      exact ih (by rwa [← read_eq_readWith])

/-- Just the values with a hollow layout are read from no bytes. -/
theorem read_nothing_iff {budget : Nat} {l : Layout} {b b' : Buffer} {v : Value}
    (hok : l.read types w budget b = .ok v b') : b'.cursor = b.cursor ↔ l.Hollow types := by
  constructor
  · intro hcursor
    by_contra hsolid
    have := advances_read budget hsolid hok
    omega
  · intro h
    rw [h.still hok]

end Layout

namespace Node

open Coding Layout

variable {types : Lookup} {w : CountWidth} {n : Node} {b b' : Buffer}

/-- A collection is in proportion to the number of bytes: it has no more entries, unless they are
hollow, and never more than a count can say. -/
def InProportion (types : Lookup) (w : CountWidth) (size : Nat) (n : Node) : Prop :=
  match n.layout with
  | .bytes _ => ∃ data, n.value = .bytes data ∧ data.length ≤ size
  | .sequence element _ => ∃ items, n.value = .array items ∧ items.length ≤ w.greatest ∧
      (¬ element.Hollow types → items.length ≤ size)
  | .map key value _ => ∃ entries, n.value = .map entries ∧ entries.length ≤ w.greatest ∧
      (¬ (key.Hollow types ∧ value.Hollow types) → entries.length ≤ size)
  | _ => True

theorem inProportion_of_read (hb : b.cursor ≤ b.length) (hroom : b.length ≤ b.capacity)
    (hok : n.read types w b = .ok n.value b') : n.InProportion types w b.length := by
  obtain ⟨budget, l, v⟩ := n
  have hskims := skims_readWith types w budget
  have hadvances : ∀ {l : Layout}, ¬ l.Hollow types →
      Advances (readWith w (readBehind types w budget) l) := by
    intro l hl
    rw [← read_eq_readWith]
    exact advances_read budget hl
  have hend := ((skims_read types w budget l).scanned hb hok)
  have hwithin := hend.within
  rw [hend.length] at hwithin
  have hread : readWith w (readBehind types w budget) l b = .ok v b' := by
    rw [← read_eq_readWith]
    exact hok
  cases l with
  | bytes bound =>
    obtain ⟨data, rfl, hlength⟩ := readWith_bytes_eq_ok hroom hread
    exact ⟨data, rfl, by omega⟩
  | sequence element bound =>
    obtain ⟨items, rfl, hgreatest, -, hlength⟩ :=
      readWith_sequence_eq_ok hskims hb hroom hread
    refine ⟨items, rfl, hgreatest, fun hsolid => ?_⟩
    have := hlength (hadvances hsolid)
    omega
  | map key value bound =>
    obtain ⟨entries, rfl, hgreatest, -, hlength⟩ := readWith_map_eq_ok hskims hb hroom hread
    refine ⟨entries, rfl, hgreatest, fun hsolid => ?_⟩
    have := hlength ((not_and_or.mp hsolid).imp hadvances hadvances)
    omega
  | _ => trivial

end Node

namespace Registry

/-- However deep a collection lies in a value that is deserialized, it has no more entries than the
sample has bytes, unless the entries are hollow.  All values in it, but for those that are absent,
have a layout there, so none escapes. -/
theorem deserialize_in_proportion {config : Config} {events : List Event} {h : Handle}
    {bytes : List UInt8} {v : Value}
    (hok : (after { config := config } events).deserialize h bytes = .ok v) :
    let r := after { config := config } events
    ∃ l, r.sampleLayout h = .ok l ∧
      let root : Node := ⟨r.context.maxDepth, l, v⟩
      (∀ node, root.Contains r.context.types node →
        node.InProportion r.context.types r.context.countWidth bytes.length) ∧
      ∀ x, v.Contains x → x = .null ∨ ∃ node, root.Contains r.context.types node ∧ node.value = x := by
  intro r
  have hr : r.Steady := steady_after config events
  obtain ⟨l, hl, hdecode⟩ := except_bind_eq_ok.mp hok
  obtain ⟨order, last, horder, hread⟩ := Sample.decode_eq_ok.mp hdecode
  obtain ⟨-, -, hlayout⟩ := sampleLayout_eq_ok.mp hl
  have hcoherent := hr.sound.coherent
  have hwell := hcoherent.wellFormed_layout Relation.ReflTransGen.refl hlayout
  have htypes : ∀ target l, r.catalog.Leads h.id .full target →
      r.context.types target.id target.role = .ok l → l.WellFormed (r.catalog.Leads h.id .full) :=
    fun _ _ hleads hfound => hcoherent.wellFormed_of_leads hleads hfound
  have hcursor : (Sample.opened order bytes).cursor ≤ (Sample.opened order bytes).length := by
    rw [Sample.length_opened]
    exact Sample.headerSize_le_of_headerOrder horder
  have hroom := Sample.room_opened order bytes
  refine ⟨l, hl, fun node hnode => ?_, fun x hx => ?_⟩
  · obtain ⟨-, c, c', hc, hnodeRead, -⟩ := hnode.ranWithin htypes hwell hcursor hroom hread
    have hin := Node.inProportion_of_read hc.within (hc.room hroom) hnodeRead
    rwa [hc.length, Sample.length_opened] at hin
  · exact Node.exists_contains_of_value_contains htypes hwell hcursor hroom hread hx

/-- A type without members. -/
def blankMark : Declaration := { name := "Mark", body := .struct [] }

/-- Marks and weights. -/
def row : Declaration :=
  { name := "Row"
    body := .struct [⟨"marks", .sequence (.named "Mark") none⟩,
      ⟨"weights", .sequence (.primitive (.integer .uint8)) none⟩] }

/-- A sample with the counts of twelve marks and of two weights. -/
def rowSample : List UInt8 := [0, 1, 0, 0, 12, 0, 2, 0, 5, 6]

def rowMarks : List Value := List.replicate 12 (.struct [])

def rowWeights : List Value := [5, 6].map fun n => .integer (Integer.ofBits .uint8 n)

def rowRead : Value := .struct [("marks", .array rowMarks), ("weights", .array rowWeights)]

/-- The types of marks and of rows. -/
def rows : Registry := after { } [.register blankMark, .register row]

theorem deserialize_in_proportion_row :
    rows.deserialize ⟨1, "Row"⟩ rowSample = .ok rowRead ∧
      ∃ l, rows.sampleLayout ⟨1, "Row"⟩ = .ok l ∧
        let root : Node := ⟨rows.context.maxDepth, l, rowRead⟩
        (∀ node, root.Contains rows.context.types node →
          node.InProportion rows.context.types rows.context.countWidth rowSample.length) ∧
        ∀ x, rowRead.Contains x →
          x = .null ∨ ∃ node, root.Contains rows.context.types node ∧ node.value = x := by
  have hok : rows.deserialize ⟨1, "Row"⟩ rowSample = .ok rowRead := by rfl
  exact ⟨hok, deserialize_in_proportion hok⟩

/-- The marks are more than the bytes. -/
theorem deserialize_out_of_proportion :
    rows.deserialize ⟨1, "Row"⟩ rowSample = .ok rowRead ∧
      ∃ l element bound, rows.sampleLayout ⟨1, "Row"⟩ = .ok l ∧
        Node.Contains rows.context.types ⟨rows.context.maxDepth, l, rowRead⟩
          ⟨rows.context.maxDepth, .sequence element bound, .array rowMarks⟩ ∧
        element.Hollow rows.context.types ∧ rowSample.length < rowMarks.length := by
  have hok : rows.deserialize ⟨1, "Row"⟩ rowSample = .ok rowRead := by rfl
  have hl : rows.sampleLayout ⟨1, "Row"⟩ = .ok (.struct "Row" [
      ⟨"marks", .sequence (.reference ⟨"Mark", 0, .full⟩) none⟩,
      ⟨"weights", .sequence (.primitive (.integer .uint8)) none⟩]) := by rfl
  have hmark : rows.context.types 0 .full = .ok (.struct "Mark" []) := by rfl
  have hhollow : (Layout.reference ⟨"Mark", 0, .full⟩).Hollow rows.context.types :=
    .reference hmark (.struct (List.forall_mem_nil _))
  exact ⟨hok, _, _, _, hl, .single (.member List.mem_cons_self rfl), hhollow, by decide⟩

end Registry

end Cdr
