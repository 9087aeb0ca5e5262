import Cdr.Proofs.Framing
import Cdr.Proofs.Offending
import Cdr.Proofs.Yielding

/-! Where the parts of a value are read.  While a value is read, each part of it is read in the
layout that it has there, at any depth, and the entries of a collection one after the other. -/

namespace Cdr

namespace Coding

variable {α β : Type} {step : Coding α} {rest : α → Coding β} {b b' : Buffer} {x : α}

theorem Skims.eq_advance (h : Skims step) (hok : step b = .ok x b') :
    ∃ n ≤ b.remaining, b' = b.advance n := by
  obtain ⟨n, hn, hfinal⟩ := h b
  rw [final, hok] at hfinal
  exact ⟨n, hn, hfinal⟩

theorem Skims.cursor_le (h : Skims step) (hok : step b = .ok x b') : b.cursor ≤ b'.cursor := by
  obtain ⟨n, -, rfl⟩ := h.eq_advance hok
  exact Nat.le_add_right _ _

theorem Skims.scanned (h : Skims step) (hb : b.cursor ≤ b.length) (hok : step b = .ok x b') :
    b.Scanned b' := by
  obtain ⟨n, hn, rfl⟩ := h.eq_advance hok
  exact Buffer.scanned_advance hn hb

/-- Where the step succeeds it takes a byte at least. -/
def Advances (step : Coding α) : Prop :=
  ∀ ⦃b b' : Buffer⦄ ⦃x : α⦄, step b = .ok x b' → b.cursor < b'.cursor

namespace Advances

protected theorem throw (fault : Fault) : Advances (throw fault : Coding α) :=
  fun _ _ _ hok => nomatch hok

theorem bind_left (h : Advances step) (hrest : ∀ x, Skims (rest x)) : Advances (step >>= rest) := by
  intro b b' y hok
  obtain ⟨x, c, hstep, hnext⟩ := bind_eq_ok.mp hok
  exact Nat.lt_of_lt_of_le (h hstep) ((hrest x).cursor_le hnext)

theorem bind_right (h : Skims step) (hrest : ∀ x, Advances (rest x)) :
    Advances (step >>= rest) := by
  intro b b' y hok
  obtain ⟨x, c, hstep, hnext⟩ := bind_eq_ok.mp hok
  exact Nat.lt_of_le_of_lt (h.cursor_le hstep) (hrest x hnext)

theorem take {count : Nat} (hcount : 0 < count) : Advances (Coding.take count) := by
  intro b b' bytes hok
  rw [take_eq] at hok
  split at hok
  · cases hok
  · cases hok
    exact Nat.lt_add_of_pos_right hcount

theorem takeWord {width : Nat} (hwidth : width ∣ Sizing.period) :
    Advances (Coding.takeWord width) := by
  refine bind_right (Skims.compositional.skipTo width hwidth) fun _ b b' n hok => ?_
  have hpos : 0 < width := Nat.pos_of_dvd_of_pos hwidth (by decide)
  have hword : Advances (Coding.take width >>= fun bytes => pure (b.order.decode bytes)) :=
    (take hpos).bind_left fun _ => Skims.pure _
  exact hword hok

theorem dominant : Dominant Skims Advances where
  fail _ _ := Advances.throw _
  takeWord _ := takeWord
  bind_left := bind_left
  bind_right := bind_right

end Advances

end Coding

namespace Buffer

variable {a b c : Buffer}

theorem Scanned.refl (hb : b.cursor ≤ b.length) : b.Scanned b :=
  ⟨Nat.le_refl _, hb, rfl, rfl, rfl, rfl⟩

theorem Scanned.trans (h : a.Scanned b) (h' : b.Scanned c) : a.Scanned c where
  forward := h.forward.trans h'.forward
  within := h'.within
  storage := h'.storage.trans h.storage
  length := h'.length.trans h.length
  origin := h'.origin.trans h.origin
  order := h'.order.trans h.order

theorem Scanned.room (h : a.Scanned b) (ha : a.length ≤ a.capacity) : b.length ≤ b.capacity := by
  rw [h.length, capacity, h.storage]
  exact ha

end Buffer

namespace Coding

/-- While the cursor moved from where it stands in the first buffer to where it stands in the
second, the step gave `x`. -/
def RanWithin {α : Type} (step : Coding α) (x : α) (b b' : Buffer) : Prop :=
  ∃ c c', b.Scanned c ∧ step c = .ok x c' ∧ c'.Scanned b'

variable {α : Type} {step : Coding α} {x : α} {a b b' d : Buffer}

theorem RanWithin.extend (h : RanWithin step x b b') (ha : a.Scanned b) (hd : b'.Scanned d) :
    RanWithin step x a d := by
  obtain ⟨c, c', hc, hstep, hc'⟩ := h
  exact ⟨c, c', ha.trans hc, hstep, hc'.trans hd⟩

theorem Skims.ranWithin (h : Skims step) (hb : b.cursor ≤ b.length) (hok : step b = .ok x b') :
    RanWithin step x b b' :=
  ⟨b, b', .refl hb, hok, .refl (h.scanned hb hok).within⟩

end Coding

/-- The payload of a value with the label has the layout: that of the first case with the label, or
without a label that of the default case. -/
def UnionLayout.Selects (u : UnionLayout Layout) (label : Option Label) (arm : Layout) : Prop :=
  match label with
  | some label => ∃ c, u.cases.find? (·.labels.contains label) = some c ∧ c.content = arm
  | none => ∃ f, u.fallback = some f ∧ f.content = arm

theorem UnionLayout.Selects.unique {u : UnionLayout Layout} {label : Option Label}
    {arm arm' : Layout} (h : u.Selects label arm) (h' : u.Selects label arm') : arm = arm' := by
  cases label <;>
  · obtain ⟨c, hc, rfl⟩ := h
    obtain ⟨c', hc', rfl⟩ := h'
    cases hc.symm.trans hc'
    rfl

theorem UnionLayout.Selects.mem_arms {u : UnionLayout Layout} {label : Option Label} {arm : Layout}
    (h : u.Selects label arm) : arm ∈ u.arms := by
  rw [Layout.mem_arms]
  cases label with
  | some label =>
    obtain ⟨c, hc, harm⟩ := h
    exact Or.inl ⟨c, List.mem_of_find?_eq_some hc, harm⟩
  | none => exact Or.inr h

namespace Layout

open Coding

variable {w : CountWidth} {follow : Reference → Coding Value} {a b b' : Buffer} {v : Value}

/-- Things that are read one after the other are read each from bytes of its own. -/
theorem readEach_eq_ok {α : Type} {element : Coding α} (h : Skims element) {done xs : List α}
    {count : Nat} (hb : b.cursor ≤ b.length) (hok : readEach element done count b = .ok xs b') :
    ∃ later, xs = done.reverse ++ later ∧ later.length = count ∧
      (∀ x ∈ later, RanWithin element x b b') ∧
      (Advances element → b.cursor + count ≤ b'.cursor) := by
  induction count generalizing done b with
  | zero =>
    cases hok
    exact ⟨[], (List.append_nil _).symm, rfl, List.forall_mem_nil _, fun _ => Nat.le_refl _⟩
  | succ count ih =>
    obtain ⟨x, c, hx, hrest⟩ := bind_eq_ok.mp hok
    have hc := h.scanned hb hx
    have hb' := (compositional_readEach Skims.compositional h (x :: done) count).scanned
      hc.within hrest
    obtain ⟨later, rfl, hlength, hlater, hadvances⟩ := ih hc.within hrest
    refine ⟨x :: later, by simp, by simp [hlength], List.forall_mem_cons.mpr ⟨?_, ?_⟩, fun h => ?_⟩
    · exact ⟨b, c, .refl hb, hx, hb'⟩
    · exact fun y hy => (hlater y hy).extend hc (.refl hb'.within)
    · have := h hx
      have := hadvances h
      omega

theorem readAll_eq_ok {α : Type} {element : Coding α} (h : Skims element) {xs : List α}
    {count : Nat} (hb : b.cursor ≤ b.length) (hok : readEach element [] count b = .ok xs b') :
    xs.length = count ∧ (∀ x ∈ xs, RanWithin element x b b') ∧
      (Advances element → b.cursor + count ≤ b'.cursor) := by
  obtain ⟨later, hxs, hread⟩ := readEach_eq_ok h hb hok
  obtain rfl : xs = later := hxs
  exact hread

/-- Members with different names are read each from bytes of its own. -/
theorem readMembers_eq_ok (h : ∀ l, Skims (readWith w follow l)) {members : List (Member Layout)}
    (hnames : (members.map (·.name)).Nodup) {done given : List (String × Value)}
    (hb : b.cursor ≤ b.length) (hdone : Dictionary.Sorted done)
    (hok : readMembers w follow done members b = .ok given b') :
    Dictionary.Sorted given ∧
      (∀ name ∉ members.map (·.name), Dictionary.find? name given = Dictionary.find? name done) ∧
      ∀ m ∈ members, ∃ x, Dictionary.find? m.name given = some x ∧
        RanWithin (readWith w follow m.content) x b b' := by
  induction members generalizing done b with
  | nil =>
    cases hok
    exact ⟨hdone, fun _ _ => rfl, List.forall_mem_nil _⟩
  | cons m members ih =>
    obtain ⟨x, c, hx, hrest⟩ := bind_eq_ok.mp hok
    obtain ⟨hnew, hnames⟩ := List.nodup_cons.mp hnames
    have hc := (h m.content).scanned hb hx
    have hb' := (compositional_readMembers Skims.compositional (fun m _ => h m.content) _).scanned
      hc.within hrest
    have hdone' := Dictionary.sorted_insert hdone m.name x
    obtain ⟨hsorted, hkept, hmembers⟩ := ih hnames hc.within hdone' hrest
    refine ⟨hsorted, fun name hname => ?_,
      List.forall_mem_cons.mpr ⟨⟨x, ?_, b, c, .refl hb, hx, hb'⟩, ?_⟩⟩
    · rw [List.map_cons, List.mem_cons, not_or] at hname
      rw [hkept name hname.2, Dictionary.find?_insert_of_ne hname.1]
    · rw [hkept m.name hnew, Dictionary.find?_insert_self]
    · intro m' hm'
      obtain ⟨x', hfind, hran⟩ := hmembers m' hm'
      exact ⟨x', hfind, hran.extend hc (.refl hb'.within)⟩

theorem skims_readCount (context : String) (bound : Option UInt64) :
    Skims (readCount w context bound) :=
  dominant_readCount Skims.compositional Skims.compositional.dominant context bound

theorem readWith_bytes_eq_ok {bound : Option UInt64} (hroom : b.length ≤ b.capacity)
    (hok : readWith w follow (.bytes bound) b = .ok v b') :
    ∃ data, v = .bytes data ∧ b.cursor + data.length ≤ b'.cursor := by
  obtain ⟨count, c, hcount, hrest⟩ := bind_eq_ok.mp hok
  obtain ⟨data, d, htake, hpure⟩ := bind_eq_ok.mp hrest
  cases hpure
  have hlength := (Yields.take count (yields_readCount "bytes" bound hroom hcount).2 htake).1
  refine ⟨data, rfl, ?_⟩
  have hforward := (skims_readCount "bytes" bound).cursor_le hcount
  rw [take_eq] at htake
  split at htake
  · cases htake
  · cases htake
    rw [hlength, Buffer.cursor_advance]
    omega

/-- The entries of a collection are as many as its count says. -/
theorem counted_eq_ok {α : Type} {element : Coding α} (helement : Skims element)
    {make : List α → Value} {context : String} {bound : Option UInt64}
    (hb : b.cursor ≤ b.length) (hroom : b.length ≤ b.capacity)
    (hok : (do
      let count ← readCount w context bound
      return make (← readEach element [] count) : Coding Value) b = .ok v b') :
    ∃ xs, v = make xs ∧ xs.length ≤ w.greatest ∧ (∀ x ∈ xs, RanWithin element x b b') ∧
      (Advances element → b.cursor + xs.length ≤ b'.cursor) := by
  obtain ⟨count, c, hcount, hrest⟩ := bind_eq_ok.mp hok
  obtain ⟨xs, d, heach, hpure⟩ := bind_eq_ok.mp hrest
  cases hpure
  have hc := (skims_readCount context bound).scanned hb hcount
  have hb' := (compositional_readEach Skims.compositional helement [] count).scanned hc.within heach
  obtain ⟨rfl, hitems, hadvances⟩ := readAll_eq_ok helement hc.within heach
  refine ⟨xs, rfl, ((yields_readCount context bound) hroom hcount).1.2, fun x hx => ?_,
    fun hadv => ?_⟩
  · exact (hitems x hx).extend hc (.refl hb'.within)
  · exact (Nat.add_le_add_right hc.forward _).trans (hadvances hadv)

theorem payload_eq_ok {content : Coding Value} (h : Skims content) (ha : a.Scanned b)
    {tagOnly : Bool} {label : Option Label}
    (hok : (if tagOnly then return Value.union label .null
      else return Value.union label (← content) : Coding Value) b = .ok v b') :
    ∃ payload, v = .union label payload ∧ ((tagOnly = true ∧ payload = .null) ∨
      (tagOnly = false ∧ RanWithin content payload a b')) := by
  cases tagOnly with
  | true =>
    cases hok
    exact ⟨.null, rfl, Or.inl ⟨rfl, rfl⟩⟩
  | false =>
    obtain ⟨payload, c, hcontent, hpure⟩ := bind_eq_ok.mp hok
    cases hpure
    have hb' := h.scanned ha.within hcontent
    exact ⟨payload, rfl, Or.inr ⟨rfl, (h.ranWithin ha.within hcontent).extend ha
      (.refl hb'.within)⟩⟩

section Inversion

variable (h : ∀ l, Skims (readWith w follow l)) (hb : b.cursor ≤ b.length)

include h hb

theorem readWith_array_eq_ok {element : Layout} {length : UInt64}
    (hok : readWith w follow (.array element length) b = .ok v b') :
    ∃ items, v = .array items ∧ ∀ x ∈ items, RanWithin (readWith w follow element) x b b' := by
  obtain ⟨items, c, heach, hpure⟩ := bind_eq_ok.mp hok
  cases hpure
  exact ⟨items, rfl, (readAll_eq_ok (h element) hb heach).2.1⟩

theorem readWith_sequence_eq_ok {element : Layout} {bound : Option UInt64}
    (hroom : b.length ≤ b.capacity)
    (hok : readWith w follow (.sequence element bound) b = .ok v b') :
    ∃ items, v = .array items ∧ items.length ≤ w.greatest ∧
      (∀ x ∈ items, RanWithin (readWith w follow element) x b b') ∧
      (Advances (readWith w follow element) → b.cursor + items.length ≤ b'.cursor) :=
  counted_eq_ok (h element) hb hroom hok

/-- An entry takes a byte if its key takes one or its value. -/
theorem readWith_map_eq_ok {key value : Layout} {bound : Option UInt64}
    (hroom : b.length ≤ b.capacity)
    (hok : readWith w follow (.map key value bound) b = .ok v b') :
    ∃ entries, v = .map entries ∧ entries.length ≤ w.greatest ∧
      (∀ e ∈ entries, RanWithin (readWith w follow key) e.1 b b' ∧
        RanWithin (readWith w follow value) e.2 b b') ∧
      (Advances (readWith w follow key) ∨ Advances (readWith w follow value) →
        b.cursor + entries.length ≤ b'.cursor) := by
  have hpair : Skims (do
      let k ← readWith w follow key
      let x ← readWith w follow value
      return (k, x)) := (h key).bind fun k => (h value).bind fun x => Skims.pure (k, x)
  obtain ⟨entries, rfl, hgreatest, hentries, hadvances⟩ := counted_eq_ok hpair hb hroom hok
  refine ⟨entries, rfl, hgreatest, fun e he => ?_, fun hadv => hadvances ?_⟩
  · obtain ⟨c, c', hc, hentry, hc'⟩ := hentries e he
    obtain ⟨k, d, hkey, hrest⟩ := bind_eq_ok.mp hentry
    obtain ⟨x, d', hvalue, hpure⟩ := bind_eq_ok.mp hrest
    cases hpure
    have hd := (h key).scanned hc.within hkey
    have hd' := (h value).scanned hd.within hvalue
    exact ⟨⟨c, d, hc, hkey, hd'.trans hc'⟩, ⟨d, c', hc.trans hd, hvalue, hc'⟩⟩
  · rcases hadv with hkey | hvalue
    · exact hkey.bind_left fun k => (h value).bind fun x => Skims.pure (k, x)
    · exact Advances.bind_right (h key) fun k => hvalue.bind_left fun x => Skims.pure (k, x)

theorem readWith_struct_eq_ok {name : String} {members : List (Member Layout)}
    (hnames : (members.map (·.name)).Nodup)
    (hok : readWith w follow (.struct name members) b = .ok v b') :
    ∃ given, v = .struct given ∧
      (∀ e ∈ given, ∃ m ∈ members, Dictionary.find? m.name given = some e.2) ∧
      ∀ m ∈ members, ∃ x, Dictionary.find? m.name given = some x ∧
        RanWithin (readWith w follow m.content) x b b' := by
  obtain ⟨given, c, hread, hpure⟩ := bind_eq_ok.mp hok
  cases hpure
  obtain ⟨hsorted, hkept, hmembers⟩ := readMembers_eq_ok h hnames hb List.Pairwise.nil hread
  refine ⟨given, rfl, fun e he => ?_, hmembers⟩
  have hfind := hsorted.mem_iff.mp he
  by_cases hname : e.1 ∈ members.map (·.name)
  · obtain ⟨m, hm, hmname⟩ := List.mem_map.mp hname
    exact ⟨m, hm, hmname ▸ hfind⟩
  · rw [hkept e.1 hname] at hfind
    cases hfind

theorem readWith_optional_eq_ok {inner : Layout}
    (hok : readWith w follow (.optional inner) b = .ok v b') :
    v = .null ∨ RanWithin (readWith w follow inner) v b b' := by
  rw [readWith] at hok
  obtain ⟨flag, c, hflag, hrest⟩ := bind_eq_ok.mp hok
  have hskims : Skims takeByte :=
    dominant_takeByte Skims.compositional Skims.compositional.dominant
  have hc := hskims.scanned hb hflag
  split at hrest
  · cases hrest
    exact Or.inl rfl
  · split at hrest
    · exact Or.inr (((h inner).ranWithin hc.within hrest).extend hc
        (.refl ((h inner).scanned hc.within hrest).within))
    · cases hrest

/-- The payload is read in the layout of the first case with the label, or in that of the default
case. -/
theorem readWith_union_eq_ok {u : UnionLayout Layout}
    (hok : readWith w follow (.union u) b = .ok v b') :
    ∃ label payload arm, v = .union label payload ∧ u.Selects label arm ∧
      ((u.tagOnly = true ∧ payload = .null) ∨
        (u.tagOnly = false ∧ RanWithin (readWith w follow arm) payload b b')) := by
  obtain ⟨name, d, cases, fallback, tagOnly⟩ := u
  rw [readWith] at hok
  obtain ⟨_, c, hskip, hrest⟩ := bind_eq_ok.mp hok
  obtain ⟨label, c', htag, hrest⟩ := bind_eq_ok.mp hrest
  have hword : Skims d.read := dominant_readTag Skims.compositional Skims.compositional.dominant d
  have hpadded := (Skims.compositional.skipTo _ (alignment_dvd w _)).scanned hb hskip
  have hc := hpadded.trans (hword.scanned hpadded.within htag)
  cases hcase : readCase w follow label cases with
  | some content =>
    rw [hcase] at hrest
    rw [readCase_eq] at hcase
    obtain ⟨found, hfound, rfl⟩ := Option.map_eq_some_iff.mp hcase
    obtain ⟨payload, rfl, hpayload⟩ := payload_eq_ok (h found.content) hc hrest
    exact ⟨some label, payload, found.content, rfl, ⟨found, hfound, rfl⟩, hpayload⟩
  | none =>
    rw [hcase] at hrest
    cases fallback with
    | none => cases hrest
    | some f =>
      obtain ⟨payload, rfl, hpayload⟩ := payload_eq_ok (h f.content) hc hrest
      exact ⟨none, payload, f.content, rfl, ⟨f, rfl, rfl⟩, hpayload⟩

end Inversion

/-- What lies behind a reference is read with one reference less to follow. -/
def readBehind (types : Lookup) (w : CountWidth) : Nat → Reference → Coding Value
  | 0, target => Coding.fail (nestingCause target.name)
  | budget + 1, target =>
    match types target.id target.role with
    | .ok l => l.read types w budget
    | .error fault => throw fault

theorem skims_read (types : Lookup) (w : CountWidth) (budget : Nat) (l : Layout) :
    Skims (l.read types w budget) :=
  compositional_read_any Skims.compositional Skims.throw types budget l

theorem read_eq_readWith (types : Lookup) (w : CountWidth) (budget : Nat) (l : Layout) :
    l.read types w budget = readWith w (readBehind types w budget) l := by
  cases budget <;> rfl

theorem skims_readWith (types : Lookup) (w : CountWidth) (budget : Nat) (l : Layout) :
    Skims (readWith w (readBehind types w budget) l) := by
  rw [← read_eq_readWith]
  exact skims_read types w budget l

end Layout

namespace Node

open Coding Layout

/-- Reads with the layout of the node. -/
def read (types : Lookup) (w : CountWidth) (n : Node) : Coding Value :=
  n.layout.read types w n.budget

/-- A part of a value that was read, with the layout that it has there. -/
inductive Part (types : Lookup) : Node → Node → Prop
  | element {budget : Nat} {element : Layout} {length : UInt64} {items : List Value} {x : Value}
    (hx : x ∈ items) : Part types ⟨budget, .array element length, .array items⟩ ⟨budget, element, x⟩
  | item {budget : Nat} {element : Layout} {bound : Option UInt64} {items : List Value} {x : Value}
    (hx : x ∈ items) :
    Part types ⟨budget, .sequence element bound, .array items⟩ ⟨budget, element, x⟩
  | key {budget : Nat} {key value : Layout} {bound : Option UInt64}
    {entries : List (Value × Value)} {e : Value × Value} (he : e ∈ entries) :
    Part types ⟨budget, .map key value bound, .map entries⟩ ⟨budget, key, e.1⟩
  | value {budget : Nat} {key value : Layout} {bound : Option UInt64}
    {entries : List (Value × Value)} {e : Value × Value} (he : e ∈ entries) :
    Part types ⟨budget, .map key value bound, .map entries⟩ ⟨budget, value, e.2⟩
  | member {budget : Nat} {name : String} {members : List (Member Layout)} {m : Member Layout}
    {given : List (String × Value)} {x : Value} (hm : m ∈ members)
    (hx : Dictionary.find? m.name given = some x) :
    Part types ⟨budget, .struct name members, .struct given⟩ ⟨budget, m.content, x⟩
  | payload {budget : Nat} {u : UnionLayout Layout} {label : Option Label} {arm : Layout}
    {x : Value} (htag : u.tagOnly = false) (harm : u.Selects label arm) :
    Part types ⟨budget, .union u, .union label x⟩ ⟨budget, arm, x⟩
  | present {budget : Nat} {inner : Layout} {x : Value} (hx : x ≠ .null) :
    Part types ⟨budget, .optional inner, x⟩ ⟨budget, inner, x⟩
  | behind {budget : Nat} {target : Reference} {l : Layout} {x : Value}
    (hfound : types target.id target.role = .ok l) :
    Part types ⟨budget + 1, .reference target, x⟩ ⟨budget, l, x⟩

/-- The second node is part of the first one, at any depth, or is that node. -/
def Contains (types : Lookup) : Node → Node → Prop := Relation.ReflTransGen (Part types)

variable {types : Lookup} {w : CountWidth} {good : Reference → Prop} {n m : Node}
  {b b' : Buffer}

/-- A part of a value that is read is read with the layout that it has there. -/
theorem Part.ranWithin (h : Part types n m) (hwell : n.layout.WellFormed good)
    (hb : b.cursor ≤ b.length) (hroom : b.length ≤ b.capacity)
    (hok : n.read types w b = .ok n.value b') : RanWithin (m.read types w) m.value b b' := by
  have hskims := skims_readWith types w n.budget
  have hchild : ∀ {child : Layout} {x : Value},
      RanWithin (readWith w (readBehind types w n.budget) child) x b b' →
        RanWithin (read types w ⟨n.budget, child, x⟩) x b b' := by
    intro child x hran
    rw [read, read_eq_readWith]
    exact hran
  have hread : readWith w (readBehind types w n.budget) n.layout b = .ok n.value b' := by
    rw [← read_eq_readWith]
    exact hok
  cases h with
  | element hx =>
    obtain ⟨items, heq, hitems⟩ := readWith_array_eq_ok hskims hb hread
    cases heq
    exact hchild (hitems _ hx)
  | item hx =>
    obtain ⟨items, heq, -, hitems, -⟩ := readWith_sequence_eq_ok hskims hb hroom hread
    cases heq
    exact hchild (hitems _ hx)
  | key he =>
    obtain ⟨entries, heq, -, hentries, -⟩ := readWith_map_eq_ok hskims hb hroom hread
    cases heq
    exact hchild (hentries _ he).1
  | value he =>
    obtain ⟨entries, heq, -, hentries, -⟩ := readWith_map_eq_ok hskims hb hroom hread
    cases heq
    exact hchild (hentries _ he).2
  | member hm hx =>
    obtain ⟨given, heq, -, hmembers⟩ := readWith_struct_eq_ok hskims hb hwell.1 hread
    cases heq
    obtain ⟨x, hfind, hran⟩ := hmembers _ hm
    cases hfind.symm.trans hx
    exact hchild hran
  | payload htag harm =>
    obtain ⟨label, payload, arm, heq, hselects, hpayload⟩ := readWith_union_eq_ok hskims hb hread
    cases heq
    obtain rfl := hselects.unique harm
    rcases hpayload with ⟨htagOnly, -⟩ | ⟨-, hran⟩
    · cases htag.symm.trans htagOnly
    · exact hchild hran
  | present hx => exact hchild ((readWith_optional_eq_ok hskims hb hread).resolve_left hx)
  | @behind budget target l x hfound =>
    have hbehind : readBehind types w (budget + 1) target b = .ok x b' := hread
    rw [readBehind, hfound] at hbehind
    exact (skims_read types w budget l).ranWithin hb hbehind

/-- The layout of a part is well formed, if what lies behind references is. -/
theorem Part.wellFormed (h : Part types n m) (htypes : ∀ target l, good target →
    types target.id target.role = .ok l → l.WellFormed good) (hwell : n.layout.WellFormed good) :
    m.layout.WellFormed good := by
  cases h with
  | element | item | present => exact hwell
  | key => exact hwell.1
  | value => exact hwell.2
  | member hm => exact hwell.2.of_mem hm
  | payload _ harm => exact hwell.of_mem_children harm.mem_arms
  | behind hfound => exact htypes _ _ hwell hfound

/-- All that a value contains is read with the layout that it has there, which is well formed. -/
theorem Contains.ranWithin (h : n.Contains types m) (htypes : ∀ target l, good target →
    types target.id target.role = .ok l → l.WellFormed good) (hwell : n.layout.WellFormed good)
    (hb : b.cursor ≤ b.length) (hroom : b.length ≤ b.capacity)
    (hok : n.read types w b = .ok n.value b') :
    m.layout.WellFormed good ∧ RanWithin (m.read types w) m.value b b' := by
  induction h with
  | refl => exact ⟨hwell, (skims_read types w n.budget n.layout).ranWithin hb hok⟩
  | tail _ hpart ih =>
    obtain ⟨hwell', c, c', hc, hread, hc'⟩ := ih
    exact ⟨hpart.wellFormed htypes hwell',
      (hpart.ranWithin hwell' hc.within (hc.room hroom) hread).extend hc hc'⟩

end Node

/-- The values that a value is made of. -/
def Value.children : Value → List Value
  | array items => items
  | map entries => entries.flatMap fun e => [e.1, e.2]
  | struct members => members.map (·.2)
  | union _ payload => [payload]
  | bool _ | char _ | integer _ | float32 _ | float64 _ | string _ | bytes _ | enumerator _ | null =>
    []

/-- The second value is contained in the first one, at any depth, or is that value. -/
def Value.Contains : Value → Value → Prop := Relation.ReflTransGen fun v x => x ∈ v.children

namespace Node

open Coding Layout

variable {types : Lookup} {w : CountWidth} {good : Reference → Prop}

/-- Each value that a value is made of has a layout there, unless it is absent. -/
theorem exists_contains_of_mem_children (htypes : ∀ target l, good target →
    types target.id target.role = .ok l → l.WellFormed good) {budget : Nat} {l : Layout}
    (hwell : l.WellFormed good) {b b' : Buffer} {v x : Value} (hb : b.cursor ≤ b.length)
    (hroom : b.length ≤ b.capacity) (hok : l.read types w budget b = .ok v b')
    (hx : x ∈ v.children) :
    x = .null ∨ ∃ m, Contains types ⟨budget, l, v⟩ m ∧ m.value = x := by
  induction budget using Nat.strong_induction_on generalizing l b b' with | _ budget ihbudget
  induction l using induction_on_children generalizing b b' with
  | layout l ih =>
    have hskims := skims_readWith types w budget
    rw [read_eq_readWith] at hok
    cases l with
    | array element length =>
      obtain ⟨items, rfl, -⟩ := readWith_array_eq_ok hskims hb hok
      exact Or.inr ⟨_, .single (.element hx), rfl⟩
    | sequence element bound =>
      obtain ⟨items, rfl, -⟩ := readWith_sequence_eq_ok hskims hb hroom hok
      exact Or.inr ⟨_, .single (.item hx), rfl⟩
    | map key value bound =>
      obtain ⟨entries, rfl, -⟩ := readWith_map_eq_ok hskims hb hroom hok
      obtain ⟨e, he, hpair⟩ := List.mem_flatMap.mp hx
      rcases List.mem_pair.mp hpair with rfl | rfl
      · exact Or.inr ⟨_, .single (.key he), rfl⟩
      · exact Or.inr ⟨_, .single (.value he), rfl⟩
    | struct name members =>
      obtain ⟨given, rfl, hgiven, -⟩ := readWith_struct_eq_ok hskims hb hwell.1 hok
      obtain ⟨e, he, rfl⟩ := List.mem_map.mp hx
      obtain ⟨m, hm, hfind⟩ := hgiven e he
      exact Or.inr ⟨_, .single (.member hm hfind), rfl⟩
    | union u =>
      obtain ⟨label, payload, arm, rfl, harm, hpayload⟩ := readWith_union_eq_ok hskims hb hok
      obtain rfl := List.mem_singleton.mp hx
      rcases hpayload with ⟨-, rfl⟩ | ⟨htag, -⟩
      · exact Or.inl rfl
      · exact Or.inr ⟨_, .single (.payload htag harm), rfl⟩
    | optional inner =>
      rcases readWith_optional_eq_ok hskims hb hok with rfl | ⟨c, c', hc, hread, -⟩
      · cases hx
      rw [← read_eq_readWith] at hread
      have hpresent : v ≠ .null := by
        rintro rfl
        cases hx
      rcases ih inner (List.mem_singleton_self _) hwell hc.within (hc.room hroom) hread with
        hnull | ⟨m, hm, hvalue⟩
      · exact Or.inl hnull
      · exact Or.inr ⟨m, .head (.present hpresent) hm, hvalue⟩
    | reference target =>
      have hbehind : readBehind types w budget target b = .ok v b' := hok
      cases budget with
      | zero => cases hbehind
      | succ budget =>
        rw [readBehind] at hbehind
        cases hfound : types target.id target.role with
        | error fault =>
          rw [hfound] at hbehind
          cases hbehind
        | ok l =>
          rw [hfound] at hbehind
          rcases ihbudget budget (Nat.lt_succ_self _) (htypes target l hwell hfound) hb hroom
            hbehind with hnull | ⟨m, hm, hvalue⟩
          · exact Or.inl hnull
          · exact Or.inr ⟨m, .head (.behind hfound) hm, hvalue⟩
    | primitive p =>
      have hform := (yields_readPrimitive p hroom hok).1
      cases p with
      | bool | float32 | float64 =>
        obtain ⟨_, rfl⟩ := hform
        cases hx
      | char | integer =>
        obtain ⟨_, rfl, -⟩ := hform
        cases hx
    | string bound =>
      obtain ⟨_, rfl, -⟩ := (yields_readString bound hroom hok).1
      cases hx
    | bytes bound =>
      obtain ⟨_, rfl, -⟩ := readWith_bytes_eq_ok hroom hok
      cases hx
    | enumeration name enumerators =>
      obtain ⟨_, -, rfl⟩ := (yields_readEnumerator name enumerators hroom hok).1
      cases hx

/-- Each value that is contained in a value that is read has a layout there, unless it is absent. -/
theorem exists_contains_of_value_contains (htypes : ∀ target l, good target →
    types target.id target.role = .ok l → l.WellFormed good) {n : Node}
    (hwell : n.layout.WellFormed good) {b b' : Buffer} {x : Value} (hb : b.cursor ≤ b.length)
    (hroom : b.length ≤ b.capacity) (hok : n.read types w b = .ok n.value b')
    (hx : n.value.Contains x) : x = .null ∨ ∃ m, n.Contains types m ∧ m.value = x := by
  induction hx with
  | refl => exact Or.inr ⟨n, .refl, rfl⟩
  | tail _ hx ih =>
    rcases ih with rfl | ⟨m, hm, rfl⟩
    · cases hx
    · obtain ⟨hwell', c, c', hc, hread, -⟩ := hm.ranWithin htypes hwell hb hroom hok
      refine (exists_contains_of_mem_children htypes hwell' hc.within (hc.room hroom) hread
        hx).imp_right ?_
      rintro ⟨inner, hinner, hvalue⟩
      exact ⟨inner, hm.trans hinner, hvalue⟩

end Node

end Cdr
