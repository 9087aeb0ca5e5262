import Cdr.Proofs.Encoding
import Cdr.Proofs.Usability

/-! The values that conform to a declared type, and that these are just the values that are
serialized.  Conformance is read off the declaration: it says which kinds a part may be given in and
within which limits, and does not look at layouts or bytes. -/

namespace Cdr

/-- The value is an integer, of any type, with the number of the byte. -/
def Value.IsByte (byte : UInt8) (v : Value) : Prop :=
  ∃ n : Integer, v = .integer n ∧ n.number = byte.toNat

/-- A number is given as an integer of any type that it fits, a character as a small character or
number, a float as any number, bytes as integers below 256, and an enumerator by its name or by its
ordinal.  Members that are not declared may be given too. -/
def Form.conforming : Form where
  primitive
    | .bool, v => ∃ b, v = .bool b
    | .char, v =>
      (∃ c, v = .char c ∧ c.toNat ≤ 255) ∨ ∃ n : Integer, v = .integer n ∧ n.type = .uint8
    | .integer t, v => ∃ n : Integer, v = .integer n ∧ t.Holds n.number
    | .float32, v | .float64, v =>
      (∃ n, v = .integer n) ∨ (∃ bits, v = .float32 bits) ∨ ∃ bits, v = .float64 bits
  bytes data v :=
    v = .bytes data ∨ ∃ items, v = .array items ∧ List.Forall₂ Value.IsByte data items
  enumerator enumerators v :=
    (∃ e ∈ enumerators, v = .enumerator e.name) ∨
      ∃ n : Integer, v = .integer n ∧ ∃ e ∈ enumerators, n.number = e.ordinal.toNat
  unused _ := True
  members _ _ := True

namespace Layout

theorem exists_charByte {v : Value} : (∃ byte, charByte v = .ok byte) ↔
    (∃ c, v = .char c ∧ c.toNat ≤ 255) ∨ ∃ n : Integer, v = .integer n ∧ n.type = .uint8 := by
  cases v with
  | char c =>
    by_cases hc : c.toNat < 256
    · simp [charByte, hc, Nat.le_of_lt_succ hc]
    · simp [charByte, hc]
      omega
  | integer n =>
    obtain ⟨t, n, h⟩ := n
    cases t <;> simp [charByte]
  | _ => simp [charByte]

theorem fittingNumber_eq_ok {t : IntegerType} {v : Value} {number : Int} :
    fittingNumber t v = .ok number ↔
      ∃ n : Integer, v = .integer n ∧ t.Holds n.number ∧ n.number = number := by
  cases v with
  | integer n =>
    by_cases hn : t.Holds n.number <;> simp [fittingNumber, Value.asInt?, hn]
  | _ => simp [fittingNumber, Value.asInt?]

theorem exists_asFloat? {v : Value} : (∃ bits, v.asFloat? = some bits) ↔
    (∃ n, v = .integer n) ∨ (∃ bits, v = .float32 bits) ∨ ∃ bits, v = .float64 bits := by
  cases v <;> simp [Value.asFloat?]

theorem isByte_iff {byte : UInt8} {v : Value} :
    v.IsByte byte ↔ fittingNumber .uint8 v = .ok byte.toNat := by
  have hholds : IntegerType.uint8.Holds byte.toNat := by
    have hlt := byte.toNat_lt
    simp [IntegerType.Holds, IntegerType.least, IntegerType.greatest, IntegerType.isSigned,
      IntegerType.size]
    omega
  rw [fittingNumber_eq_ok]
  constructor
  · rintro ⟨n, rfl, hn⟩
    exact ⟨n, rfl, hn ▸ hholds, hn⟩
  · rintro ⟨n, rfl, -, hn⟩
    exact ⟨n, rfl, hn⟩

/-- A number that fits a byte is that of a byte. -/
theorem exists_byte_of_fittingNumber {v : Value} {number : Int}
    (h : fittingNumber .uint8 v = .ok number) : ∃ byte : UInt8, number = byte.toNat := by
  obtain ⟨n, -, hholds, rfl⟩ := fittingNumber_eq_ok.mp h
  refine ⟨UInt8.ofNat n.number.toNat, ?_⟩
  simp [IntegerType.Holds, IntegerType.least, IntegerType.greatest, IntegerType.isSigned,
    IntegerType.size] at hholds
  rw [UInt8.toNat_ofNat']
  omega

/-- The bytes that come out are those of the items one by one, behind those that are there. -/
theorem itemBytes_eq_ok {items : List Value} {done out : List UInt8} :
    itemBytes done items = .ok out ↔
      ∃ data, out = done.reverse ++ data ∧ List.Forall₂ Value.IsByte data items := by
  induction items generalizing done with
  | nil => simp [itemBytes, eq_comm]
  | cons v items ih =>
    rw [itemBytes]
    cases hfit : fittingNumber .uint8 v with
    | ok number =>
      obtain ⟨byte, rfl⟩ := exists_byte_of_fittingNumber hfit
      simp only [Int.toNat_natCast, UInt8.ofNat_toNat]
      rw [ih]
      constructor
      · rintro ⟨data, rfl, hdata⟩
        exact ⟨byte :: data, by simp, .cons (isByte_iff.mpr hfit) hdata⟩
      · rintro ⟨_, rfl, hdata⟩
        cases hdata with
        | @cons first _ rest _ hfirst hrest =>
          have hsame := hfit.symm.trans (isByte_iff.mp hfirst)
          obtain rfl : byte = first := UInt8.toNat_inj.mp (by exact_mod_cast Except.ok.inj hsame)
          exact ⟨rest, by simp, hrest⟩
    | error cause =>
      constructor
      · rintro ⟨⟩
      · rintro ⟨_, -, hdata⟩
        cases hdata with
        | cons hfirst _ =>
          rw [isByte_iff.mp hfirst] at hfit
          cases hfit

theorem exists_ordinalOf?_name {enumerators : List Enumerator} {name : String} :
    (∃ ordinal, Enumerator.ordinalOf? name enumerators = some ordinal) ↔
      ∃ e ∈ enumerators, name = e.name := by
  rw [← Option.isSome_iff_exists, Enumerator.ordinalOf?, Option.isSome_map, List.find?_isSome]
  exact exists_congr fun e => and_congr_right fun _ => beq_iff_eq.trans eq_comm

theorem isSome_nameOf? {enumerators : List Enumerator} {ordinal : UInt32} :
    (Enumerator.nameOf? ordinal enumerators).isSome ↔ ∃ e ∈ enumerators, ordinal = e.ordinal := by
  rw [Enumerator.nameOf?, Option.isSome_map, List.find?_isSome]
  exact exists_congr fun e => and_congr_right fun _ => beq_iff_eq.trans eq_comm

/-- An ordinal given as a number is that of an enumerator. -/
theorem exists_ordinalOf?_integer {enumerators : List Enumerator} {n : Integer} :
    (∃ ordinal, ordinalOf? enumerators (.integer n) = some ordinal) ↔
      ∃ e ∈ enumerators, n.number = e.ordinal.toNat := by
  show (∃ ordinal, (if 0 ≤ n.number ∧ n.number < 2 ^ 32 then
    if (Enumerator.nameOf? (UInt32.ofNat n.number.toNat) enumerators).isSome then
      some (UInt32.ofNat n.number.toNat)
    else none else none) = some ordinal) ↔ _
  constructor
  · rintro ⟨ordinal, hordinal⟩
    split at hordinal
    · rename_i hrange
      split at hordinal
      · rename_i hsome
        obtain ⟨e, he, hnumber⟩ := isSome_nameOf?.mp hsome
        refine ⟨e, he, ?_⟩
        rw [← hnumber, UInt32.toNat_ofNat']
        omega
      · cases hordinal
    · cases hordinal
  · rintro ⟨e, he, hnumber⟩
    have hlt := e.ordinal.toNat_lt
    have hordinal : UInt32.ofNat n.number.toNat = e.ordinal := by
      rw [hnumber, Int.toNat_natCast, UInt32.ofNat_toNat]
    refine ⟨e.ordinal, ?_⟩
    rw [if_pos (by omega), hordinal, if_pos (isSome_nameOf?.mpr ⟨e, he, rfl⟩)]

theorem exists_ordinalOf? {enumerators : List Enumerator} {v : Value} :
    (∃ ordinal, ordinalOf? enumerators v = some ordinal) ↔
      (∃ e ∈ enumerators, v = .enumerator e.name) ∨
        ∃ n : Integer, v = .integer n ∧ ∃ e ∈ enumerators, n.number = e.ordinal.toNat := by
  cases v with
  | enumerator name => simpa [ordinalOf?] using exists_ordinalOf?_name
  | integer n => simpa using exists_ordinalOf?_integer
  | _ => simp [ordinalOf?, Value.asInt?]

end Layout

/-- What conforms is what a writer takes. -/
theorem Form.conforming_eq_accepted : Form.conforming = Form.accepted := by
  have hprimitive : conforming.primitive = accepted.primitive := by
    funext p v
    apply propext
    cases p with
    | bool => rfl
    | char => exact Layout.exists_charByte.symm
    | integer t => simp [conforming, accepted, Layout.fittingNumber_eq_ok]
    | float32 | float64 => exact Layout.exists_asFloat?.symm
  have hbytes : conforming.bytes = accepted.bytes := by
    funext data v
    simp [conforming, accepted, Layout.itemBytes_eq_ok]
  have henumerator : conforming.enumerator = accepted.enumerator := by
    funext enumerators v
    exact propext Layout.exists_ordinalOf?.symm
  calc conforming
      = ⟨accepted.primitive, accepted.bytes, accepted.enumerator, fun _ => True,
          fun _ _ => True⟩ := by rw [← hprimitive, ← hbytes, ← henumerator]; rfl
    _ = accepted := rfl

namespace Catalog

/-- The type of a registered name, nested through at most `budget` names, has the value. -/
def ConformsNamed (c : Catalog) (w : CountWidth) : Nat → String → Value → Prop
  | 0, _, _ => False
  | budget + 1, name, v =>
    ∃ d, c.declared? name = some d ∧
      d.AdmitsWith .conforming w .full (ConformsNamed c w budget) v

/-- A layout behind which nothing is missing writes a value just where it conforms to the declared
type. -/
theorem Whole.passes_write {c : Catalog} {id : Nat} (h : c.Coherent []) (hwhole : c.Whole id)
    (w : CountWidth) (budget : Nat) {next : Nat} {e : Entry} {layouts : Layouts}
    (hreach : c.Reaches id next) (he : c.entries[next]? = some e)
    (hbuild : Layouts.build c.resolve e.declaration = .ok layouts) (v : Value) :
    Coding.Passes ((layouts.ofRole .full).write c.layout w budget v)
      (e.declaration.AdmitsWith .conforming w .full (c.ConformsNamed w budget) v) := by
  induction budget generalizing next e layouts v with
  | zero =>
    rw [Form.conforming_eq_accepted]
    exact Layouts.passes_ofRole (fun _ _ _ => Coding.Passes.fail) (Layouts.build_among hbuild) v
  | succ budget ih =>
    rw [Form.conforming_eq_accepted]
    refine Layouts.passes_ofRole (fun target htarget v => ?_)
      (Layouts.build_among hbuild) v
    obtain ⟨hresolves, hnext⟩ := leads_of_resolves hreach he target htarget
    obtain ⟨e', layouts', he', hbuild'⟩ := hwhole target.id hnext
    obtain ⟨found, hfound, hdeclared⟩ := h.exists_entry_of_resolves hresolves
    obtain rfl : e' = found := Option.some.inj (he'.symm.trans hfound)
    have hlayout : c.layout target.id .full = .ok layouts'.full :=
      h.layout_eq_ok.mpr ⟨e', layouts', he', hbuild', rfl⟩
    simp only [hresolves.1, hlayout]
    exact (ih hnext he' hbuild' v).iff
      (by simp [ConformsNamed, hdeclared])

end Catalog

namespace Registry

/-- A registered type has the value, nested as deep as the registry allows. -/
def Conforms (r : Registry) (h : Handle) (v : Value) : Prop :=
  ∃ d, r.catalog.declared? h.name = some d ∧
    d.AdmitsWith .conforming r.config.countWidth .full
      (r.catalog.ConformsNamed r.config.countWidth r.config.maxDepth) v

/-- A usable type serializes a value just where the value conforms to the type, in whichever byte
order. -/
theorem serializeIn_iff_conforms {config : Config} {events : List Event} {h : Handle}
    (hcheck : (after { config := config } events).checkHandle h = .ok ())
    (hwhole : (after { config := config } events).catalog.Whole h.id) (order : ByteOrder)
    (v : Value) :
    let r := after { config := config } events
    (∃ bytes, r.serializeIn h order v = .ok bytes) ↔ r.Conforms h v := by
  intro r
  have hr : r.Steady := steady_after config events
  obtain ⟨⟨e, layouts, size, he, hbuild, -, hserved⟩, -⟩ :=
    (hr.serves_iff_whole hcheck).mpr hwhole
  obtain ⟨e', he', hdeclared⟩ := hr.sound.declared?_eq hcheck
  obtain rfl : e = e' := Option.some.inj (he.symm.trans he')
  have hpasses := hwhole.passes_write hr.sound.coherent r.config.countWidth r.config.maxDepth
    Relation.ReflTransGen.refl he hbuild v
  have hconforms : r.Conforms h v ↔ e.declaration.AdmitsWith .conforming r.config.countWidth .full
      (r.catalog.ConformsNamed r.config.countWidth r.config.maxDepth) v := by
    simp [Conforms, hdeclared]
  rw [hconforms, ← hpasses (Sample.start order r.config.initialCapacity)]
  simp only [hserved.serializeIn, Sample.encode_eq_ok]
  constructor
  · rintro ⟨_, b, hwrite, -⟩
    exact ⟨b, hwrite⟩
  · rintro ⟨b, hwrite⟩
    exact ⟨_, b, hwrite, rfl⟩

/-- A type that nests, with a short list. -/
def crate : Declaration :=
  { name := "Crate"
    body := .struct [⟨"marks", .bytes (some 2)⟩, ⟨"inside", .optional (.named "Crate")⟩] }

/-- What a crate holds. -/
def packed (marks inside : Value) : Value := .struct [("inside", inside), ("marks", marks)]

/-- A crate in a crate conforms where one reference may be followed.  One more crate inside does
not, nor does a list that is too long. -/
theorem serializeIn_iff_conforms_crate :
    let r := after { config := { maxDepth := 1 } } [.register crate]
    let two := Value.array [.integer ⟨.int32, 255, by decide⟩, .integer ⟨.uint8, 0, by decide⟩]
    let three := Value.bytes [1, 2, 3]
    r.checkHandle ⟨0, "Crate"⟩ = .ok () ∧ r.catalog.Whole 0 ∧
      r.Conforms ⟨0, "Crate"⟩ (packed two (packed two .null)) ∧
      ¬ r.Conforms ⟨0, "Crate"⟩ (packed two (packed two (packed two .null))) ∧
      ¬ r.Conforms ⟨0, "Crate"⟩ (packed two (packed three .null)) := by
  intro r two three
  have hcheck : r.checkHandle ⟨0, "Crate"⟩ = .ok () := rfl
  obtain ⟨size, hsize⟩ : ∃ size, r.maxKeySize ⟨0, "Crate"⟩ = .ok size := ⟨_, rfl⟩
  have hwhole : r.catalog.Whole 0 := (steady_after _ _).whole hsize
  have hiff := serializeIn_iff_conforms hcheck hwhole .little
  have hrefused : ∀ v fault, r.serializeIn ⟨0, "Crate"⟩ .little v = .error fault →
      ¬ r.Conforms ⟨0, "Crate"⟩ v := by
    intro v fault hfault hconforms
    obtain ⟨bytes, hok⟩ := (hiff v).mpr hconforms
    rw [hok] at hfault
    cases hfault
  have hok : r.serializeIn ⟨0, "Crate"⟩ .little (packed two (packed two .null)) =
      .ok [0, 1, 0, 0, 2, 0, 255, 0, 1, 0, 2, 0, 255, 0, 0, 0] := by decide
  refine ⟨hcheck, hwhole, (hiff _).mp ⟨_, hok⟩, ?_, ?_⟩
  · exact hrefused _ ((Layout.nestingCause "Crate").fault.inField "inside" |>.inField "inside")
      (by decide)
  · exact hrefused _ ((Cause.boundExceeded "bytes" 3 2).fault.inField "marks" |>.inField "inside")
      (by decide)

end Registry

end Cdr
