import Cdr.Proofs.Declared
import Cdr.Proofs.Reachability
import Cdr.Proofs.RoundTrip

/-! Normal forms with names resolved.  The types that a declaration names are looked up in the
catalog, and a value nests through them as deep as the registry allows.  The layouts of a coherent
catalog read back what they write as these normal forms. -/

namespace Cdr

namespace Catalog

/-- The declaration of a registered name. -/
def declared? (c : Catalog) (name : String) : Option Declaration := (c.resolve name).map (·.2)

/-- The normal form of a value under a registered name, nested through at most `budget` names.  A
value that lies deeper is left as it is. -/
def normalNamed (c : Catalog) (role : Role) : Nat → String → Value → Value
  | 0, _, v => v
  | budget + 1, name, v =>
    match c.declared? name with
    | some d => d.normalWith role (normalNamed c role budget) v
    | none => v

variable {c : Catalog} {w : CountWidth}

theorem isNull_normalNamed (c : Catalog) (role : Role) (budget : Nat) (name : String) (v : Value) :
    (c.normalNamed role budget name v).isNull = v.isNull := by
  cases budget with
  | zero => rfl
  | succ budget =>
    rw [normalNamed]
    split
    · exact Declaration.isNull_normalWith _ _ _ v
    · rfl

theorem normalWith_ofRole (c : Catalog) (role : Role) (budget : Nat)
    {d : Declaration} {layouts : Layouts} (hbuild : Layouts.build c.resolve d = .ok layouts)
    (v : Value) :
    (layouts.ofRole role).normalWith (fun target => c.normalNamed role budget target.name) v =
      d.normalWith role (c.normalNamed role budget) v :=
  Layouts.normalWith_ofRole (fun _ _ => rfl) hbuild v

/-- What a built layout refers to is a registered type. -/
theorem Coherent.exists_entry_of_resolves (h : c.Coherent []) {role : Role} {target : Reference}
    (hgood : Resolves c.resolve role target) :
    ∃ e : Entry, c.entries[target.id]? = some e ∧
      c.declared? target.name = some e.declaration := by
  obtain ⟨-, d, hresolve⟩ := hgood
  obtain ⟨e, he, rfl, -⟩ := (resolve_eq_some h).mp hresolve
  exact ⟨e, he, by simp [declared?, hresolve]⟩

/-- The layout that a built layout refers to is itself built from the declaration of the name. -/
theorem Coherent.build_of_resolves (h : c.Coherent []) {role : Role} {target : Reference}
    (hgood : Resolves c.resolve role target) {l : Layout}
    (hlayout : c.layout target.id target.role = .ok l) :
    ∃ (e : Entry) (layouts : Layouts), c.entries[target.id]? = some e ∧
      c.declared? target.name = some e.declaration ∧
      Layouts.build c.resolve e.declaration = .ok layouts ∧ l = layouts.ofRole role := by
  obtain ⟨e, he, hdeclared⟩ := h.exists_entry_of_resolves hgood
  obtain ⟨e', layouts, he', hbuild, rfl⟩ := h.layout_eq_ok.mp hlayout
  obtain rfl : e = e' := by simpa [he] using he'
  exact ⟨e, layouts, he, hdeclared, hbuild, by rw [hgood.1]⟩

/-- A built layout reads back what it writes, as the normal form under its declaration. -/
theorem Coherent.roundTrips (h : c.Coherent []) (role : Role) (budget : Nat) {i : Nat} {e : Entry}
    {layouts : Layouts} (he : c.entries[i]? = some e)
    (hbuild : Layouts.build c.resolve e.declaration = .ok layouts) (v : Value) :
    Coding.RoundTrips ((layouts.ofRole role).write c.layout w budget v)
      ((layouts.ofRole role).read c.layout w budget)
      ((layouts.ofRole role).wire c.layout w budget
        (e.declaration.normalWith role (c.normalNamed role budget) v))
      (e.declaration.normalWith role (c.normalNamed role budget) v) := by
  induction budget generalizing i e layouts v with
  | zero =>
    rw [← c.normalWith_ofRole role 0 hbuild]
    exact Layout.roundTrips_writeWith ⟨fun _ _ _ => Coding.Lays.fail, fun _ _ => rfl⟩ _
      (Layouts.wellFormed_ofRole (h.valid i e he) hbuild role) v
  | succ budget ih =>
    rw [← c.normalWith_ofRole role (budget + 1) hbuild]
    refine Layout.roundTrips_writeWith ⟨fun target hgood v => ?_, fun target v => ?_⟩ _
      (Layouts.wellFormed_ofRole (h.valid i e he) hbuild role) v
    · cases hlayout : c.layout target.id target.role with
      | error fault => exact fun _ _ _ hs => nomatch hs
      | ok l =>
        obtain ⟨e', layouts', he', hdeclared, hbuild', rfl⟩ := h.build_of_resolves hgood hlayout
        simp only [normalNamed, hdeclared]
        exact ih he' hbuild' v
    · exact isNull_normalNamed c role (budget + 1) target.name v

end Catalog

namespace Registry

/-- The normal form of a value under a registered type: the value that its sample stands for. -/
def normal (r : Registry) (h : Handle) (v : Value) : Value :=
  match r.catalog.declared? h.name with
  | some d => d.normalWith .full (r.catalog.normalNamed .full r.config.maxDepth) v
  | none => v

/-- The projection of a value to the key of a registered type: the value that its key stands for. -/
def projection (r : Registry) (h : Handle) (v : Value) : Value :=
  match r.catalog.declared? h.name with
  | some d =>
    if d.isKeyless then .struct []
    else d.normalWith .key (r.catalog.normalNamed .key r.config.maxDepth) v
  | none => v

theorem checkHandle_eq_ok {r : Registry} {h : Handle} : r.checkHandle h = .ok () ↔
    ∃ e : Entry, r.catalog.entries[h.id]? = some e ∧ e.declaration.name = h.name := by
  unfold checkHandle
  cases r.catalog.entries[h.id]? with
  | none => simp
  | some e =>
    by_cases hname : e.declaration.name = h.name <;> simp [hname]

theorem maxKeySize_eq_ok {r : Registry} {h : Handle} {size : Nat} : r.maxKeySize h = .ok size ↔
    r.checkHandle h = .ok () ∧ r.catalog.maxKeySize r.config h.id = .ok size := by
  unfold maxKeySize
  rw [except_bind_eq_ok]
  constructor
  · rintro ⟨⟨⟩, hcheck, hsize⟩
    exact ⟨hcheck, hsize⟩
  · rintro ⟨hcheck, hsize⟩
    exact ⟨(), hcheck, hsize⟩

/-- A handle of a sound registry names a type of its catalog. -/
theorem Sound.declared?_eq {r : Registry} (hr : r.Sound) {h : Handle}
    (hcheck : r.checkHandle h = .ok ()) :
    ∃ e : Entry, r.catalog.entries[h.id]? = some e ∧
      r.catalog.declared? h.name = some e.declaration := by
  obtain ⟨e, he, hname⟩ := checkHandle_eq_ok.mp hcheck
  have := (Catalog.resolve_eq_some hr.coherent).mpr ⟨e, he, rfl, hname⟩
  exact ⟨e, he, by simp [Catalog.declared?, this]⟩

theorem sampleLayout_eq_ok {r : Registry} {h : Handle} {l : Layout} :
    r.sampleLayout h = .ok l ↔
      ∃ size, r.maxKeySize h = .ok size ∧ r.catalog.layout h.id .full = .ok l := by
  unfold sampleLayout
  cases r.maxKeySize h with
  | error fault => exact ⟨fun hl => (nomatch hl), fun ⟨_, hs, _⟩ => (nomatch hs)⟩
  | ok size => exact ⟨fun hl => ⟨size, rfl, hl⟩, fun ⟨_, _, hl⟩ => hl⟩

theorem keyLayout_eq_ok {r : Registry} {h : Handle} {l : Layout} :
    r.keyLayout h = .ok l ↔
      ∃ size, r.maxKeySize h = .ok size ∧ r.catalog.keyLayout h.id = .ok l := by
  unfold keyLayout
  cases r.maxKeySize h with
  | error fault => exact ⟨fun hl => (nomatch hl), fun ⟨_, hs, _⟩ => (nomatch hs)⟩
  | ok size => exact ⟨fun hl => ⟨size, rfl, hl⟩, fun ⟨_, _, hl⟩ => hl⟩

/-- The layout of the samples of a usable type is built from the declaration of its name. -/
theorem Sound.build_of_sampleLayout {r : Registry} (hr : r.Sound) {h : Handle} {l : Layout}
    (hl : r.sampleLayout h = .ok l) :
    ∃ (e : Entry) (layouts : Layouts), r.catalog.entries[h.id]? = some e ∧
      r.catalog.declared? h.name = some e.declaration ∧
      Layouts.build r.catalog.resolve e.declaration = .ok layouts ∧ l = layouts.ofRole .full := by
  obtain ⟨size, hsize, hl⟩ := sampleLayout_eq_ok.mp hl
  obtain ⟨e, he, hdeclared⟩ := hr.declared?_eq (maxKeySize_eq_ok.mp hsize).1
  obtain ⟨e', layouts, he', hbuild, rfl⟩ := hr.coherent.layout_eq_ok.mp hl
  obtain rfl : e = e' := by simpa [he] using he'
  exact ⟨e, layouts, he, hdeclared, hbuild, rfl⟩

/-- The layout of the keys of a usable type is built from it too. -/
theorem Sound.build_of_keyLayout {r : Registry} (hr : r.Sound) {h : Handle} {l : Layout}
    (hl : r.keyLayout h = .ok l) :
    ∃ (e : Entry) (layouts : Layouts), r.catalog.entries[h.id]? = some e ∧
      r.catalog.declared? h.name = some e.declaration ∧
      Layouts.build r.catalog.resolve e.declaration = .ok layouts ∧ l = layouts.key := by
  obtain ⟨size, hsize, hl⟩ := keyLayout_eq_ok.mp hl
  obtain ⟨e, he, hdeclared⟩ := hr.declared?_eq (maxKeySize_eq_ok.mp hsize).1
  obtain ⟨e', layouts, he', hbuild, rfl⟩ := hr.coherent.keyLayout_eq_ok.mp hl
  obtain rfl : e = e' := by simpa [he] using he'
  exact ⟨e, layouts, he, hdeclared, hbuild, rfl⟩

/-- The samples of a usable type are read back as the normal forms of the values. -/
theorem Sound.roundTrips_sampleLayout {r : Registry} (hr : r.Sound) {h : Handle} {l : Layout}
    (hl : r.sampleLayout h = .ok l) (v : Value) :
    Coding.RoundTrips (r.context.write l v) (r.context.read l)
      (l.wire r.catalog.layout r.config.countWidth r.config.maxDepth (r.normal h v))
      (r.normal h v) := by
  obtain ⟨e, layouts, he, hdeclared, hbuild, rfl⟩ := hr.build_of_sampleLayout hl
  simp only [normal, hdeclared]
  exact hr.coherent.roundTrips .full r.config.maxDepth he hbuild v

/-- The keys of a usable type are read back as the projections of the values. -/
theorem Sound.roundTrips_keyLayout {r : Registry} (hr : r.Sound) {h : Handle} {l : Layout}
    (hl : r.keyLayout h = .ok l) (v : Value) :
    Coding.RoundTrips (r.context.write l v) (r.context.read l)
      (l.wire r.catalog.layout r.config.countWidth r.config.maxDepth (r.projection h v))
      (r.projection h v) := by
  obtain ⟨e, layouts, he, hdeclared, hbuild, rfl⟩ := hr.build_of_keyLayout hl
  simp only [projection, hdeclared]
  rw [Layouts.key_eq hbuild]
  split
  · exact Layout.roundTrips_nothing _ _ _ v
  · exact hr.coherent.roundTrips .key r.config.maxDepth he hbuild v

end Registry

end Cdr
