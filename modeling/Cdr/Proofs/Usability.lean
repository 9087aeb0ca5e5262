import Cdr.Proofs.Histories

/-! Which types can be used.  Every operation asks first whether all types that a type reaches are
built.  It goes on just where none of them is broken and no name that they refer to is missing, and
otherwise fails with the fault of a broken type or with all names that are missing. -/

namespace Cdr.Registry

variable {r : Registry} {h : Handle}

/-- The operations on a type do what its layouts say, with the size of its longest key. -/
structure Served (r : Registry) (h : Handle) (layouts : Layouts) (size : Nat) : Prop where
  maxKeySize : r.maxKeySize h = .ok size
  keyHashMode : r.keyHashMode h = .ok (KeyHashMode.ofMaxKeySize size)
  serialize : ∀ v, r.serialize h v =
    Sample.encode r.context layouts.full r.config.order r.config.initialCapacity v
  serializeIn : ∀ order v, r.serializeIn h order v =
    Sample.encode r.context layouts.full order r.config.initialCapacity v
  deserialize : ∀ bytes, r.deserialize h bytes = Sample.decode r.context layouts.full bytes
  key : ∀ v, r.key h v =
    r.onNewBuffer (do return padKey (← Key.encode r.context layouts.key v))
  keyHash : ∀ v, r.keyHash h v =
    r.onNewBuffer (do
      return KeyHash.ofKey (KeyHashMode.ofMaxKeySize size)
        (← Key.encode r.context layouts.key v))
  deserializeKey : ∀ bytes, r.deserializeKey h bytes = Key.decode r.context layouts.key bytes

/-- The type of a handle can be used: its operations do what its layouts say, the size is the
measure of its key layout, and whatever reference a value leads through has a layout behind it. -/
def Serves (r : Registry) (h : Handle) : Prop :=
  (∃ (e : Entry) (layouts : Layouts) (size : Nat), r.catalog.entries[h.id]? = some e ∧
    Layouts.build r.catalog.resolve e.declaration = .ok layouts ∧
    r.catalog.measureKey r.config h.id = .ok size ∧ Served r h layouts size) ∧
  ∀ next, r.catalog.Reaches h.id next → ∀ role, ∃ l, r.catalog.layout next role = .ok l

/-- Every operation on a type fails with the same fault, whatever it is given. -/
structure Refused (r : Registry) (h : Handle) (fault : Fault) : Prop where
  maxKeySize : r.maxKeySize h = .error fault
  keyHashMode : r.keyHashMode h = .error fault
  serialize : ∀ v, r.serialize h v = .error fault
  serializeIn : ∀ order v, r.serializeIn h order v = .error fault
  deserialize : ∀ bytes, r.deserialize h bytes = .error fault
  key : ∀ v, r.key h v = .error fault
  keyHash : ∀ v, r.keyHash h v = .error fault
  deserializeKey : ∀ bytes, r.deserializeKey h bytes = .error fault

/-- The size of the longest key is asked for before anything else. -/
theorem refused_of_maxKeySize {fault : Fault} (hsize : r.maxKeySize h = .error fault) :
    Refused r h fault := by
  have hsample : r.sampleLayout h = .error fault := by
    rw [sampleLayout, hsize]
    rfl
  have hkey : r.keyLayout h = .error fault := by
    rw [keyLayout, hsize]
    rfl
  have hwrite : ∀ v, r.writeKey h v = throw fault := by
    intro v
    rw [writeKey, hkey]
  have hserialize : ∀ order v, r.serializeIn h order v = .error fault := by
    intro order v
    rw [serializeIn, hsample]
    rfl
  refine ⟨hsize, ?_, fun v => hserialize _ v, hserialize, fun _ => ?_, fun v => ?_, fun v => ?_,
    fun _ => ?_⟩
  · rw [keyHashMode, hsize]
    rfl
  · rw [deserialize, hsample]
    rfl
  · rw [key, writePaddedKey, hwrite]
    rfl
  · rw [keyHash, writeKeyHash, hwrite]
    rfl
  · rw [deserializeKey, hkey]
    rfl

theorem served_of_maxKeySize {e : Entry} {layouts : Layouts} {size : Nat} (hr : r.Sound)
    (he : r.catalog.entries[h.id]? = some e)
    (hbuild : Layouts.build r.catalog.resolve e.declaration = .ok layouts)
    (hsize : r.maxKeySize h = .ok size) : Served r h layouts size := by
  have hsample : r.sampleLayout h = .ok layouts.full :=
    sampleLayout_eq_ok.mpr
      ⟨size, hsize, hr.coherent.layout_eq_ok.mpr ⟨e, layouts, he, hbuild, rfl⟩⟩
  have hkey : r.keyLayout h = .ok layouts.key :=
    keyLayout_eq_ok.mpr
      ⟨size, hsize, hr.coherent.keyLayout_eq_ok.mpr ⟨e, layouts, he, hbuild, rfl⟩⟩
  have hmode : r.keyHashMode h = .ok (KeyHashMode.ofMaxKeySize size) := by
    rw [keyHashMode, hsize]
    rfl
  have hwrite : ∀ v, r.writeKey h v = Key.encode r.context layouts.key v := by
    intro v
    rw [writeKey, hkey]
  have hserialize : ∀ order v, r.serializeIn h order v =
      Sample.encode r.context layouts.full order r.config.initialCapacity v := by
    intro order v
    rw [serializeIn, hsample]
    rfl
  refine ⟨hsize, hmode, fun v => hserialize _ v, hserialize, fun _ => ?_, fun v => ?_, fun v => ?_,
    fun _ => ?_⟩
  · rw [deserialize, hsample]
    rfl
  · rw [key, writePaddedKey, hwrite]
  · rw [keyHash, writeKeyHash, hwrite, hmode]
  · rw [deserializeKey, hkey]
    rfl

section Steady

variable (hr : r.Steady) (hcheck : r.checkHandle h = .ok ())

include hr hcheck

/-- The types that can be used are the whole ones. -/
theorem Steady.serves_iff_whole : Serves r h ↔ r.catalog.Whole h.id := by
  have hcoherent := hr.sound.coherent
  constructor
  · rintro ⟨⟨e, layouts, size, -, -, -, hserved⟩, -⟩
    exact hr.whole hserved.maxKeySize
  · intro hwhole
    obtain ⟨e, layouts, he, hbuild⟩ := hwhole h.id Relation.ReflTransGen.refl
    obtain ⟨size, hmeasure⟩ := hwhole.exists_measureKey hcoherent r.config
    have hsize : r.maxKeySize h = .ok size :=
      maxKeySize_eq_ok.mpr ⟨hcheck, (hwhole.maxKeySize_eq hcoherent hr.sound.sized).trans hmeasure⟩
    refine ⟨⟨e, layouts, size, he, hbuild, hmeasure,
      served_of_maxKeySize hr.sound he hbuild hsize⟩, fun next hreach role => ?_⟩
    obtain ⟨l, hl, -⟩ := hwhole.exists_layout hcoherent hreach role
    exact ⟨l, hl⟩

/-- A type that does not pass the check is refused with the fault of the check: its size is not
kept, since it is not whole. -/
theorem Steady.refused {fault : Fault} (hclosure : r.catalog.checkClosure h.id = .error fault) :
    Refused r h fault := by
  obtain ⟨e, he, -⟩ := checkHandle_eq_ok.mp hcheck
  have hnotKept : r.catalog.maxKeySize r.config h.id = .error fault := by
    unfold Catalog.maxKeySize
    split
    · rename_i size he
      have hwhole := hr.settled h.id _ size he rfl
      rw [(hr.sound.coherent.checkClosure_eq_ok ⟨_, he⟩).mpr hwhole] at hclosure
      cases hclosure
    · rw [hclosure]
      rfl
  apply refused_of_maxKeySize
  unfold maxKeySize
  rw [hcheck]
  exact hnotKept

end Steady

/-- After any events, a registered type can be used just where no type that it reaches is broken
and no name that they refer to is missing.  Where only names are missing every operation fails with
all of them, each once.  Where a type that is reached is broken every operation fails with the fault
that the build of such a type gives. -/
theorem serves_or_refused {config : Config} {events : List Event} {h : Handle}
    (hcheck : (after { config := config } events).checkHandle h = .ok ()) :
    let r := after { config := config } events
    let c := r.catalog
    (Serves r h ↔ c.Unbroken h.id ∧ ∀ name, ¬ c.Lacks h.id name) ∧
    (c.Unbroken h.id → (∃ name, c.Lacks h.id name) →
      ∃ missing : List String, missing.Nodup ∧ (∀ name, name ∈ missing ↔ c.Lacks h.id name) ∧
        Refused r h (Cause.unresolved h.name missing).fault) ∧
    (¬ c.Unbroken h.id →
      ∃ (next : Nat) (e : Entry) (fault : Fault), c.Reaches h.id next ∧
        c.entries[next]? = some e ∧ e.state = .broken fault ∧
        Layouts.build c.resolve e.declaration = .error (.fatal fault) ∧ Refused r h fault) := by
  intro r c
  have hr : r.Steady := steady_after config events
  have hcoherent : c.Coherent [] := hr.sound.coherent
  obtain ⟨e, he, hname⟩ := checkHandle_eq_ok.mp hcheck
  have hnameOf : c.nameOf h.id = h.name := (Catalog.nameOf_eq he).trans hname
  refine ⟨?_, fun hunbroken hlacks => ?_, fun hnot => ?_⟩
  · rw [hr.serves_iff_whole hcheck, hcoherent.whole_iff ⟨e, he⟩]
  · obtain ⟨name, hlacks⟩ := hlacks
    obtain ⟨missing, hnodup, hmem, hclosure⟩ :=
      hcoherent.checkClosure_of_lacks ⟨e, he⟩ hlacks hunbroken
    rw [hnameOf] at hclosure
    exact ⟨missing, hnodup, hmem, hr.refused hcheck hclosure⟩
  · have hexists : ∃ next fault, c.Reaches h.id next ∧ c.BrokenBy next fault := by
      unfold Catalog.Unbroken at hnot
      push Not at hnot
      obtain ⟨next, hreach, fault, hbroken⟩ := hnot
      exact ⟨next, fault, hreach, hbroken⟩
    obtain ⟨_, _, hreach, hbroken⟩ := hexists
    obtain ⟨next, fault, hnext, hfault, hclosure⟩ :=
      hcoherent.checkClosure_of_broken ⟨e, he⟩ hreach hbroken
    obtain ⟨broken, hentry, hbuild⟩ := hcoherent.build_of_brokenBy hfault
    obtain ⟨broken', hentry', hstate⟩ := hfault
    obtain rfl : broken = broken' := Option.some.inj (hentry.symm.trans hentry')
    exact ⟨next, broken, fault, hnext, hentry, hstate, hbuild, hr.refused hcheck hclosure⟩

/-- A type with members of three types. -/
def outer : Declaration :=
  { name := "Outer"
    body := .struct
      [⟨"left", .named "Left"⟩, ⟨"middle", .named "Middle"⟩,
        ⟨"right", .sequence (.named "Right") none⟩] }

/-- A type that refers to one of them, to another one, and back. -/
def middle : Declaration :=
  { name := "Middle"
    body := .struct
      [⟨"deep", .named "Deep"⟩, ⟨"left", .named "Left"⟩,
        ⟨"outer", .optional (.named "Outer")⟩] }

/-- No type is broken, so the type is refused with the names that are missing to it and to the type
that it reaches, one of which is asked for twice. -/
theorem refused_outer :
    let r := after { } [.register outer, .register middle]
    r.checkHandle ⟨0, "Outer"⟩ = .ok () ∧
      Refused r ⟨0, "Outer"⟩ (Cause.unresolved "Outer" ["Left", "Right", "Deep"]).fault ∧
      ∀ name, name ∈ ["Left", "Right", "Deep"] ↔ r.catalog.Lacks 0 name := by
  intro r
  have hcheck : r.checkHandle ⟨0, "Outer"⟩ = .ok () := rfl
  have hsize : r.maxKeySize ⟨0, "Outer"⟩ =
      .error (Cause.unresolved "Outer" ["Left", "Right", "Deep"]).fault := by decide
  have hunbroken : r.catalog.Unbroken 0 := by
    rintro next - fault ⟨e, he, hstate⟩
    match next with
    | 0 | 1 =>
      cases he
      cases hstate
    | _ + 2 => cases he
  have hmiddle : r.catalog.Lacks 0 "Left" :=
    ⟨rfl, 0, Relation.ReflTransGen.refl, _, rfl, by decide⟩
  obtain ⟨missing, -, hmem, hrefused⟩ :=
    (serves_or_refused hcheck).2.1 hunbroken ⟨_, hmiddle⟩
  have hmissing : missing = ["Left", "Right", "Deep"] := by
    have hfault := hrefused.maxKeySize.symm.trans hsize
    simpa [Cause.fault] using hfault
  rw [hmissing] at hmem hrefused
  exact ⟨hcheck, hrefused, hmem⟩

end Cdr.Registry
