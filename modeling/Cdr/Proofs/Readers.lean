import Cdr.Proofs.Histories
import Cdr.Proofs.Parts
import Cdr.Proofs.Repeating

/-! What holds of every reader.  Readers take bytes, skip to alignments and refuse data, one after
the other.  A property of steps that these have, and that is kept where one step follows another,
is a property of reading with any layout whose references lead to layouts, and with any layout at
all if a step that fails has it whatever the fault is. -/

namespace Cdr

/-- A property of steps that a reader has because the steps that it is made of have it. -/
structure Coding.Compositional (P : ∀ {α : Type}, Coding α → Prop) : Prop where
  pure : ∀ {α : Type} (x : α), P (pure x : Coding α)
  bind : ∀ {α β : Type} {step : Coding α} {rest : α → Coding β},
    P step → (∀ x, P (rest x)) → P (step >>= rest)
  fail : ∀ {α : Type} (context message : String),
    P (Coding.fail (.invalidData context message) : Coding α)
  take : ∀ count, P (Coding.take count)
  skipTo : ∀ size, size ∣ Sizing.period → P (Coding.skipTo size)
  takeWord : ∀ width, width ∣ Sizing.period → P (Coding.takeWord width)

/-- If steps that look at the buffer first have the property too, words follow from bytes.  A step
need only look at what is the same in buffers that are related, as padding and byte order are. -/
theorem Coding.compositional_of_get_bind {P : ∀ {α : Type}, Coding α → Prop}
    {R : Buffer → Buffer → Prop}
    (hpadding : ∀ {b c : Buffer}, R b c → ∀ size, size ∣ Sizing.period →
      c.padding size = b.padding size)
    (horder : ∀ {b c : Buffer}, R b c → c.order = b.order)
    (hpure : ∀ {α : Type} (x : α), P (pure x : Coding α))
    (hbind : ∀ {α β : Type} {step : Coding α} {rest : α → Coding β},
      P step → (∀ x, P (rest x)) → P (step >>= rest))
    (hfail : ∀ {α : Type} (context message : String),
      P (Coding.fail (.invalidData context message) : Coding α))
    (htake : ∀ count, P (Coding.take count))
    (hget : ∀ {α : Type} {rest : Buffer → Coding α}, (∀ {b c : Buffer}, R b c → rest c = rest b) →
      (∀ b, P (rest b)) → P (get >>= rest)) :
    Coding.Compositional P := by
  have hskip : ∀ size, size ∣ Sizing.period → P (Coding.skipTo size) := by
    intro size hsize
    refine hget (fun h => by rw [hpadding h size hsize]) fun b => ?_
    show P (if b.padding size ≠ 0 then _ else _)
    split
    · exact hbind (htake (b.padding size)) fun _ => hpure ()
    · exact hpure ()
  have hword : ∀ width, width ∣ Sizing.period → P (Coding.takeWord width) := fun width hwidth =>
    hbind (hskip width hwidth) fun _ =>
      hget (fun h => by rw [horder h]) fun _ => hbind (htake width) fun _ => hpure _
  exact ⟨hpure, hbind, hfail, htake, hskip, hword⟩

/-- A property that a step has because one of the steps that it is made of has it and the others
have `P`.  Words have it, and steps that refuse data have it. -/
structure Coding.Dominant (P Q : ∀ {α : Type}, Coding α → Prop) : Prop where
  fail : ∀ {α : Type} (context message : String),
    Q (Coding.fail (.invalidData context message) : Coding α)
  takeWord : ∀ width, width ∣ Sizing.period → Q (Coding.takeWord width)
  bind_left : ∀ {α β : Type} {step : Coding α} {rest : α → Coding β},
    Q step → (∀ x, P (rest x)) → Q (step >>= rest)
  bind_right : ∀ {α β : Type} {step : Coding α} {rest : α → Coding β},
    P step → (∀ x, Q (rest x)) → Q (step >>= rest)

theorem Coding.Compositional.dominant {P : ∀ {α : Type}, Coding α → Prop}
    (hP : Coding.Compositional P) : Coding.Dominant P P where
  fail := hP.fail
  takeWord := hP.takeWord
  bind_left := hP.bind
  bind_right := hP.bind

namespace Layout

/-- Arrays and structs have no bytes of their own, and references have those behind them. -/
def StartsWithWord : Layout → Prop
  | array .. | struct .. | reference _ => False
  | _ => True

variable {P Q : ∀ {α : Type}, Coding α → Prop} {w : CountWidth} {good : Reference → Prop}
  {follow : Reference → Coding Value}

section Steps

variable (hP : Coding.Compositional P)

include hP

/-- Where a check stops the data, the steps behind it are not reached. -/
theorem compositional_check {α : Type} {next : Unit → Coding α} (h : P (next ())) (p : Prop)
    [Decidable p] (context message : String) :
    P (if p then Coding.fail (.invalidData context message) >>= next else next ()) := by
  split
  · exact hP.bind (hP.fail _ _) fun _ => h
  · exact h

theorem compositional_text (count : Nat) :
    P (do
      let raw ← Coding.take count
      if raw.getLast? ≠ some 0 then
        Coding.fail (.invalidData "string" "missing NUL terminator")
      match Text.Utf8.decode raw.dropLast with
      | .ok text => return Value.string text
      | .error flaw => Coding.fail (.invalidData "string" flaw.message)) := by
  refine hP.bind (hP.take count) fun raw => compositional_check hP ?_ _ _ _
  cases Text.Utf8.decode raw.dropLast with
  | ok text => exact hP.pure _
  | error flaw => exact hP.fail _ _

theorem compositional_readEach {α : Type} {element : Coding α} (h : P element) (done : List α)
    (count : Nat) : P (readEach element done count) := by
  induction count generalizing done with
  | zero => exact hP.pure _
  | succ count ih => exact hP.bind h fun x => ih (x :: done)

/-- The payload of a union is read unless only the label counts. -/
theorem compositional_payload {content : Coding Value} (h : P content) (tagOnly : Bool)
    (label : Option Label) : P (if tagOnly then return Value.union label .null
      else return Value.union label (← content) : Coding Value) := by
  split
  · exact hP.pure _
  · exact hP.bind h fun _ => hP.pure _

/-- The members of a struct are read one after the other. -/
theorem compositional_readMembers {members : List (Member Layout)}
    (h : ∀ m ∈ members, P (readWith w follow m.content)) (done : List (String × Value)) :
    P (readMembers w follow done members) := by
  induction members generalizing done with
  | nil => exact hP.pure done
  | cons m members ih =>
    rw [List.forall_mem_cons] at h
    exact hP.bind h.1 fun _ => ih h.2 _

end Steps

section Words

variable (hP : Coding.Compositional P) (hQ : Coding.Dominant P Q)

include hP hQ

theorem dominant_takeByte : Q takeByte :=
  hQ.bind_left (hQ.takeWord 1 (Nat.one_dvd _)) fun _ => hP.pure _

theorem dominant_readCount (context : String) (bound : Option UInt64) :
    Q (readCount w context bound) := by
  refine hQ.bind_left (hQ.takeWord w.bytes (bytes_dvd_period w)) fun count => ?_
  cases bound with
  | none => exact hP.pure count
  | some bound =>
    simp only
    split
    · exact hP.fail _ _
    · exact hP.pure count

theorem dominant_readPrimitive (p : Primitive) : Q (readPrimitive p) := by
  cases p with
  | bool =>
    refine hQ.bind_left (dominant_takeByte hP hQ) fun b => ?_
    split
    · exact hP.pure _
    · split
      · exact hP.pure _
      · exact hP.fail _ _
  | char => exact hQ.bind_left (dominant_takeByte hP hQ) fun _ => hP.pure _
  | integer t =>
    exact hQ.bind_left (hQ.takeWord _ (size_dvd_period (.integer t))) fun _ => hP.pure _
  | float32 | float64 => exact hQ.bind_left (hQ.takeWord _ (by decide)) fun _ => hP.pure _

theorem dominant_readString (bound : Option UInt64) : Q (readString bound) := by
  refine hQ.bind_left (hQ.takeWord 4 (by decide)) fun count => compositional_check hP ?_ _ _ _
  cases bound with
  | none => exact compositional_text hP count
  | some greatest => exact compositional_check hP (compositional_text hP count) _ _ _

theorem dominant_readBytes (bound : Option UInt64) : Q (readBytes w bound) :=
  hQ.bind_left (dominant_readCount hP hQ "bytes" bound) fun count =>
    hP.bind (hP.take count) fun _ => hP.pure _

theorem dominant_readEnumerator (name : String) (enumerators : List Enumerator) :
    Q (readEnumerator name enumerators) := by
  refine hQ.bind_left (hQ.takeWord 4 (by decide)) fun ordinal => ?_
  split
  · exact hP.pure _
  · exact hP.fail _ _

theorem dominant_readTag (d : Discriminator) : Q d.read := by
  unfold Discriminator.read
  split
  · rename_i t _
    refine hQ.bind_left (hQ.takeWord _ (size_dvd_period (.integer t))) fun n => ?_
    simp only
    split
    · exact hP.pure _
    · exact hP.fail _ _
  · exact hQ.fail _ _

/-- A union is read as its tag and the payload that the tag selects. -/
theorem dominant_union {u : UnionLayout Layout} (h : ∀ arm ∈ u.arms, P (readWith w follow arm)) :
    Q (readWith w follow (.union u)) := by
  have hcase : ∀ {label : Label} {content : Coding Value},
      readCase w follow label u.cases = some content → P content := by
    intro label content hcontent
    rw [readCase_eq] at hcontent
    obtain ⟨c, hc, rfl⟩ := Option.map_eq_some_iff.mp hcontent
    exact h _ (mem_arms.mpr (Or.inl ⟨c, List.mem_of_find?_eq_some hc, rfl⟩))
  obtain ⟨name, d, cases, fallback, tagOnly⟩ := u
  rw [readWith]
  refine hQ.bind_right (hP.skipTo _ (alignment_dvd w _)) fun _ =>
    hQ.bind_left (dominant_readTag hP hQ d) fun label => ?_
  split
  · rename_i content hcontent
    exact compositional_payload hP (hcase hcontent) tagOnly _
  · cases fallback with
    | none => exact hP.fail _ _
    | some f =>
      exact compositional_payload hP (h _ (mem_arms.mpr (Or.inr ⟨f, rfl, rfl⟩))) tagOnly _

/-- A word is read first, whatever the parts of the layout are: a count, a tag or a flag, or all
that there is. -/
theorem dominant_readWith {l : Layout} (hl : l.StartsWithWord)
    (hchild : ∀ child ∈ l.children, P (readWith w follow child)) : Q (readWith w follow l) := by
  cases l with
  | primitive p => exact dominant_readPrimitive hP hQ p
  | string bound => exact dominant_readString hP hQ bound
  | bytes bound => exact dominant_readBytes hP hQ bound
  | sequence element bound =>
    have helement := hchild element (List.mem_singleton_self _)
    exact hQ.bind_left (dominant_readCount hP hQ "sequence" bound) fun count =>
      hP.bind (compositional_readEach hP helement [] count) fun _ => hP.pure _
  | map key value bound =>
    have hkey := hchild key (List.mem_pair.mpr (Or.inl rfl))
    have hvalue := hchild value (List.mem_pair.mpr (Or.inr rfl))
    have hentry := hP.bind hkey fun k => hP.bind hvalue fun v => hP.pure (k, v)
    exact hQ.bind_left (dominant_readCount hP hQ "map" bound) fun count =>
      hP.bind (compositional_readEach hP hentry [] count) fun _ => hP.pure _
  | enumeration name enumerators => exact dominant_readEnumerator hP hQ name enumerators
  | union u => exact dominant_union hP hQ hchild
  | optional inner =>
    have hinner := hchild inner (List.mem_singleton_self _)
    rw [readWith]
    refine hQ.bind_left (dominant_takeByte hP hQ) fun flag => ?_
    split
    · exact hP.pure _
    · split
      · exact hinner
      · exact hP.fail _ _
  | array _ _ | struct _ _ | reference _ => exact hl.elim

end Words

/-- Reading with a layout has the property where it holds of what lies behind its references. -/
theorem compositional_readWith (hP : Coding.Compositional P) (l : Layout)
    (hfollow : ∀ target, l.Holds (.reference target) → P (follow target)) :
    P (readWith w follow l) := by
  induction l using induction_on_children with
  | layout l ih =>
    have hchild : ∀ child ∈ l.children, P (readWith w follow child) :=
      fun child hmem => ih child hmem fun target htarget => hfollow target (.child hmem htarget)
    cases l with
    | array element length =>
      have helement := hchild element (List.mem_singleton_self _)
      exact hP.bind (compositional_readEach hP helement [] _) fun _ => hP.pure _
    | struct _ members =>
      have hmembers := List.forall_mem_map.mp hchild
      exact hP.bind (compositional_readMembers hP hmembers []) fun _ => hP.pure _
    | reference target => exact hfollow target (.here _)
    | _ => exact dominant_readWith hP hP.dominant trivial hchild

/-- A value that nests through too many references is refused, so the property is kept however deep
a layout leads. -/
theorem compositional_read (hP : Coding.Compositional P) {types : Lookup}
    (htypes : ∀ target, good target → ∃ l, types target.id target.role = .ok l ∧ l.WellFormed good)
    (budget : Nat) {l : Layout} (hl : l.WellFormed good) : P (read types w budget l) := by
  induction budget generalizing l with
  | zero => exact compositional_readWith hP l fun _ _ => hP.fail _ _
  | succ budget ih =>
    refine compositional_readWith hP l fun target htarget => ?_
    obtain ⟨found, hfound, hwell⟩ := htypes target (hl.of_holds htarget)
    simp only [hfound]
    exact ih hwell

/-- Where a step that fails has the property whatever the fault is, what lies behind the references
need not be there. -/
theorem compositional_read_any (hP : Coding.Compositional P)
    (hthrow : ∀ fault, P (throw fault : Coding Value)) (types : Lookup) (budget : Nat)
    (l : Layout) : P (read types w budget l) := by
  induction budget generalizing l with
  | zero => exact compositional_readWith hP l fun _ _ => hthrow _
  | succ budget ih =>
    refine compositional_readWith hP l fun target _ => ?_
    split
    · exact ih _
    · exact hthrow _

end Layout

section Whole

variable {P : ∀ {α : Type}, Coding α → Prop} (hP : Coding.Compositional P)

include hP

/-- Whatever a type that is whole leads to can be read, so reading it has the property. -/
theorem Catalog.Whole.compositional_read {c : Catalog} {id : Nat} (h : c.Coherent [])
    (hwhole : c.Whole id) {role : Role} {l : Layout} (hl : l.WellFormed (c.Leads id role))
    (w : CountWidth) (budget : Nat) : P (l.read c.layout w budget) := by
  exact Layout.compositional_read hP (fun _ hleads => hwhole.exists_layout_of_leads h hleads)
    budget hl

namespace Registry

variable {r : Registry} {h : Handle} {l : Layout}

theorem Steady.compositional_sampleLayout (hr : r.Steady) (hl : r.sampleLayout h = .ok l) :
    P (r.context.read l) := by
  obtain ⟨size, hsize, hlayout⟩ := sampleLayout_eq_ok.mp hl
  have hwell := hr.sound.coherent.wellFormed_layout Relation.ReflTransGen.refl hlayout
  exact (hr.whole hsize).compositional_read hP hr.sound.coherent hwell _ _

theorem Steady.compositional_keyLayout (hr : r.Steady) (hl : r.keyLayout h = .ok l) :
    P (r.context.read l) := by
  obtain ⟨size, hsize, hlayout⟩ := keyLayout_eq_ok.mp hl
  have hwell := hr.sound.coherent.wellFormed_keyLayout Relation.ReflTransGen.refl hlayout
  exact (hr.whole hsize).compositional_read hP hr.sound.coherent hwell _ _

end Registry

end Whole

namespace Registry

variable {r : Registry} {h : Handle} {l : Layout}

theorem deserialize_of_sampleLayout (hl : r.sampleLayout h = .ok l) :
    r.deserialize h = Sample.decode r.context l := by
  funext bytes
  rw [deserialize, hl]
  rfl

theorem deserializeKey_of_keyLayout (hl : r.keyLayout h = .ok l) :
    r.deserializeKey h = Key.decode r.context l := by
  funext bytes
  rw [deserializeKey, hl]
  rfl

end Registry

end Cdr
