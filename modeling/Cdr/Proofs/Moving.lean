import Cdr.Proofs.Reaching
import Cdr.Proofs.Resolved

/-! Catalogs that hold the same declarations at other places.  Where a type of one of them is whole,
it is whole in the other too, the layouts are the same up to the places of references, and every
answer about the type is the same. -/

namespace Cdr

/-- The configurations differ only in the byte order of samples and in the capacity of new buffers,
which have no part in the layouts and the sizes of keys. -/
structure Config.SameLimits (config config' : Config) : Prop where
  countWidth : config'.countWidth = config.countWidth
  maxUnboundedLength : config'.maxUnboundedLength = config.maxUnboundedLength
  maxDepth : config'.maxDepth = config.maxDepth

theorem Config.SameLimits.of_eq {config config' : Config} (h : config' = config) :
    config.SameLimits config' := by
  subst h
  exact ⟨rfl, rfl, rfl⟩

theorem Layouts.ofRole_renumber (layouts : Layouts) (g : Nat → Nat) (role : Role) :
    (layouts.renumber g).ofRole role = (layouts.ofRole role).renumber g := by
  cases role <;> rfl

namespace Catalog

variable {c c' : Catalog} {g : Nat → Nat}

/-- Every name that is declared in the first catalog is declared alike in the second. -/
def Within (c c' : Catalog) : Prop :=
  ∀ name d, c.declared? name = some d → c'.declared? name = some d

theorem declared?_eq_some {name : String} {d : Declaration} :
    c.declared? name = some d ↔ ∃ i, c.resolve name = some (i, d) := by
  simp [declared?]

theorem declared?_eq_none {name : String} : c.declared? name = none ↔ c.resolve name = none := by
  simp [declared?]

/-- The place in the second catalog of the type at a place of the first. -/
def placeIn (c c' : Catalog) (i : Nat) : Nat :=
  match (c.entries[i]?).bind fun e => c'.resolve e.declaration.name with
  | some (i', _) => i'
  | none => 0

/-- Names move with the places of their types. -/
theorem Within.extends {pending : List Nat} (h : c.Coherent pending) (hwithin : Within c c') :
    Extends (placeIn c c') c.resolve c'.resolve := by
  intro name i d hname
  obtain ⟨i', hresolve⟩ := declared?_eq_some.mp (hwithin name d (declared?_eq_some.mpr ⟨i, hname⟩))
  obtain ⟨e, he, rfl, rfl⟩ := (resolve_eq_some h).mp hname
  rw [hresolve, placeIn, he, Option.bind_some, hresolve]

section Places

variable (h : c.Coherent []) (h' : c'.Coherent []) (hext : Extends g c.resolve c'.resolve)

include hext

/-- What can be built can be built at other places too. -/
theorem build_moved {d : Declaration} {layouts : Layouts}
    (hbuild : Layouts.build c.resolve d = .ok layouts) :
    Layouts.build c'.resolve d = .ok (layouts.renumber g) := by
  have hkept := Layouts.kept_build hext d
  rwa [hbuild] at hkept

include h h'

theorem Coherent.exists_moved {i : Nat} {e : Entry} (he : c.entries[i]? = some e) :
    ∃ e', c'.entries[g i]? = some e' ∧ e'.declaration = e.declaration := by
  have hname := hext _ _ _ ((resolve_eq_some h).mpr ⟨e, he, rfl, rfl⟩)
  obtain ⟨e', he', hd, -⟩ := (resolve_eq_some h').mp hname
  exact ⟨e', he', hd⟩

theorem Coherent.layout_moved {i : Nat} {role : Role} {l : Layout}
    (hl : c.layout i role = .ok l) : c'.layout (g i) role = .ok (l.renumber g) := by
  obtain ⟨e, layouts, he, hbuild, rfl⟩ := h.layout_eq_ok.mp hl
  obtain ⟨e', he', hd⟩ := h.exists_moved h' hext he
  have hbuild' := build_moved hext hbuild
  rw [← hd] at hbuild'
  exact h'.layout_eq_ok.mpr ⟨e', _, he', hbuild', (layouts.ofRole_renumber g role).symm⟩

theorem Coherent.keyLayout_moved {i : Nat} {l : Layout} (hl : c.keyLayout i = .ok l) :
    c'.keyLayout (g i) = .ok (l.renumber g) := by
  obtain ⟨e, layouts, he, hbuild, rfl⟩ := h.keyLayout_eq_ok.mp hl
  obtain ⟨e', he', hd⟩ := h.exists_moved h' hext he
  have hbuild' := build_moved hext hbuild
  rw [← hd] at hbuild'
  exact h'.keyLayout_eq_ok.mpr ⟨e', _, he', hbuild', rfl⟩

section Whole

variable {i : Nat} (hwhole : c.Whole i)

include hwhole

theorem Whole.layouts_moved (role : Role) :
    Layout.Moved (c.Leads i role) g c.layout c'.layout where
  lookup target hleads := by
    obtain ⟨l, hl, -⟩ := hwhole.exists_layout h hleads.2 target.role
    rw [hl, h.layout_moved h' hext hl]
    rfl
  wellFormed target hleads l hl := h.wellFormed_of_leads hleads hl
  injective s t hs ht heq := by
    obtain ⟨⟨-, ds, hs⟩, -⟩ := hs
    obtain ⟨⟨-, dt, ht⟩, -⟩ := ht
    obtain ⟨e, he, hds, hsname⟩ := (resolve_eq_some h').mp (hext _ _ _ hs)
    obtain ⟨e', he', hdt, htname⟩ := (resolve_eq_some h').mp (hext _ _ _ ht)
    rw [heq, he', Option.some.injEq] at he
    subst he
    rw [← hsname, ← hds, hdt, htname, ht] at hs
    exact (Prod.mk.inj (Option.some.inj hs)).1.symm

theorem Whole.measureKey_moved {config config' : Config} (hlimits : config.SameLimits config') :
    c'.measureKey config' (g i) = c.measureKey config i := by
  obtain ⟨l, hl, hwell⟩ := hwhole.exists_keyLayout h
  have hmeasure := Layout.measure_renumber (hwhole.layouts_moved h h' hext .key)
    ⟨config.countWidth, config.maxUnboundedLength⟩ config.maxDepth
    (List.forall_mem_nil _) hwell
  rw [List.map_nil] at hmeasure
  unfold measureKey
  simp only [hl, h.keyLayout_moved h' hext hl, bind, Except.bind, hlimits.countWidth,
    hlimits.maxUnboundedLength, hlimits.maxDepth, hmeasure]

/-- A type that is whole reaches the types that it has reached, at their new places. -/
theorem Whole.exists_of_reaches {next' : Nat} (hreach' : c'.Reaches (g i) next') :
    ∃ next, c.Reaches i next ∧ g next = next' := by
  induction hreach' with
  | refl => exact ⟨i, Relation.ReflTransGen.refl, rfl⟩
  | tail _ hrefers ih =>
    obtain ⟨next, hreach, rfl⟩ := ih
    obtain ⟨name, ⟨e', he', hname⟩, hfind'⟩ := hrefers
    obtain ⟨e, layouts, he, hbuild⟩ := hwhole next hreach
    obtain ⟨e'', he'', hd⟩ := h.exists_moved h' hext he
    obtain rfl : e' = e'' := Option.some.inj (he'.symm.trans he'')
    rw [hd] at hname
    -- The type was built, so the name resolves in the first catalog already.
    obtain ⟨⟨last, d⟩, hresolve⟩ :=
      Option.ne_none_iff_exists'.mp (Layouts.resolve_of_build hbuild name hname)
    have hmoved := find?_of_resolve (hext _ _ _ hresolve)
    rw [hfind', Option.some.injEq] at hmoved
    exact ⟨last, hreach.tail ⟨name, ⟨e, he, hname⟩, find?_of_resolve hresolve⟩, hmoved.symm⟩

/-- A type that is whole stays whole at another place. -/
theorem Whole.moved : c'.Whole (g i) := by
  intro next' hreach'
  obtain ⟨next, hreach, rfl⟩ := hwhole.exists_of_reaches h h' hext hreach'
  obtain ⟨e, layouts, he, hbuild⟩ := hwhole next hreach
  obtain ⟨e', he', hd⟩ := h.exists_moved h' hext he
  refine ⟨e', layouts.renumber g, he', ?_⟩
  rw [hd]
  exact build_moved hext hbuild

end Whole

end Places

end Catalog

namespace Registry

/-- The answer to a query about the type of a name. -/
def ask {α : Type} (r : Registry) (name : String) (query : Handle → Except Fault α) :
    Except Fault α := do
  query (← r.handle name)

theorem ask_eq {α : Type} {r : Registry} {name : String} {h : Handle} (hh : r.handle name = .ok h)
    (query : Handle → Except Fault α) : r.ask name query = query h := by
  rw [ask, hh]
  rfl

theorem ask_eq_error {α : Type} {r : Registry} {name : String} {fault : Fault}
    (hh : r.handle name = .error fault) (query : Handle → Except Fault α) :
    r.ask name query = .error fault := by
  rw [ask, hh]
  rfl

/-- The answers of two registries about the type of a name are the same, faults included. -/
structure SameAnswers (r r' : Registry) (name : String) : Prop where
  maxKeySize : r'.ask name r'.maxKeySize = r.ask name r.maxKeySize
  keyHashMode : r'.ask name r'.keyHashMode = r.ask name r.keyHashMode
  serializeIn : ∀ order v,
    (r'.ask name fun h => r'.serializeIn h order v) = r.ask name fun h => r.serializeIn h order v
  deserialize : ∀ bytes,
    (r'.ask name fun h => r'.deserialize h bytes) = r.ask name fun h => r.deserialize h bytes
  key : ∀ v, (r'.ask name fun h => r'.key h v) = r.ask name fun h => r.key h v
  keyHash : ∀ v, (r'.ask name fun h => r'.keyHash h v) = r.ask name fun h => r.keyHash h v
  deserializeKey : ∀ bytes,
    (r'.ask name fun h => r'.deserializeKey h bytes) = r.ask name fun h => r.deserializeKey h bytes

section Moved

variable {r r' : Registry} {h h' : Handle}

/-- Two handles are to the same declaration, which is whole, in sound registries of the same
limits. -/
structure Moved (g : Nat → Nat) (r r' : Registry) (h h' : Handle) : Prop where
  sound : r.Sound
  sound' : r'.Sound
  whole : r.catalog.Whole h.id
  limits : r.config.SameLimits r'.config
  extend : Extends g r.catalog.resolve r'.catalog.resolve
  handle : r.checkHandle h = .ok ()
  name : h'.name = h.name
  place : h'.id = g h.id

namespace Moved

variable {g : Nat → Nat} (hm : Moved g r r' h h')

include hm

theorem checkHandle_eq : r'.checkHandle h' = r.checkHandle h := by
  obtain ⟨e, he, hname⟩ := checkHandle_eq_ok.mp hm.handle
  obtain ⟨e', he', hd⟩ := hm.sound.coherent.exists_moved hm.sound'.coherent hm.extend he
  rw [hm.handle, checkHandle_eq_ok, hm.place, hm.name]
  exact ⟨e', he', by rw [hd, hname]⟩

theorem maxKeySize_eq : r'.maxKeySize h' = r.maxKeySize h := by
  have hwhole' := hm.whole.moved hm.sound.coherent hm.sound'.coherent hm.extend
  unfold maxKeySize
  rw [hm.checkHandle_eq, hm.whole.maxKeySize_eq hm.sound.coherent hm.sound.sized, hm.place,
    hwhole'.maxKeySize_eq hm.sound'.coherent hm.sound'.sized,
    hm.whole.measureKey_moved hm.sound.coherent hm.sound'.coherent hm.extend hm.limits]

theorem sampleLayout_eq : r'.sampleLayout h' = (r.sampleLayout h).map (Layout.renumber g) := by
  obtain ⟨l, hl, -⟩ :=
    hm.whole.exists_layout hm.sound.coherent Relation.ReflTransGen.refl .full
  unfold sampleLayout
  rw [hm.maxKeySize_eq, hm.place, hl,
    hm.sound.coherent.layout_moved hm.sound'.coherent hm.extend hl]
  cases r.maxKeySize h <;> rfl

theorem keyLayout_eq : r'.keyLayout h' = (r.keyLayout h).map (Layout.renumber g) := by
  obtain ⟨l, hl, -⟩ := hm.whole.exists_keyLayout hm.sound.coherent
  unfold keyLayout
  rw [hm.maxKeySize_eq, hm.place, hl,
    hm.sound.coherent.keyLayout_moved hm.sound'.coherent hm.extend hl]
  cases r.maxKeySize h <;> rfl

theorem write_eq {role : Role} {l : Layout} (hl : l.WellFormed (r.catalog.Leads h.id role))
    (v : Value) : r'.context.write (l.renumber g) v = r.context.write l v := by
  unfold Context.write context
  rw [hm.limits.countWidth, hm.limits.maxDepth]
  exact Layout.write_renumber
    (hm.whole.layouts_moved hm.sound.coherent hm.sound'.coherent hm.extend role) _ hl v

theorem read_eq {role : Role} {l : Layout} (hl : l.WellFormed (r.catalog.Leads h.id role)) :
    r'.context.read (l.renumber g) = r.context.read l := by
  unfold Context.read context
  rw [hm.limits.countWidth, hm.limits.maxDepth]
  exact Layout.read_renumber
    (hm.whole.layouts_moved hm.sound.coherent hm.sound'.coherent hm.extend role) _ hl

theorem wellFormed_sampleLayout {l : Layout} (hl : r.sampleLayout h = .ok l) :
    l.WellFormed (r.catalog.Leads h.id .full) := by
  obtain ⟨size, -, hlayout⟩ := sampleLayout_eq_ok.mp hl
  exact hm.sound.coherent.wellFormed_layout Relation.ReflTransGen.refl hlayout

theorem wellFormed_keyLayout {l : Layout} (hl : r.keyLayout h = .ok l) :
    l.WellFormed (r.catalog.Leads h.id .key) := by
  obtain ⟨size, -, hlayout⟩ := keyLayout_eq_ok.mp hl
  exact hm.sound.coherent.wellFormed_keyLayout Relation.ReflTransGen.refl hlayout

theorem serializeIn_eq (hconfig : r'.config = r.config) (order : ByteOrder) (v : Value) :
    r'.serializeIn h' order v = r.serializeIn h order v := by
  unfold serializeIn
  rw [hm.sampleLayout_eq]
  cases hl : r.sampleLayout h with
  | error fault => rfl
  | ok l =>
    show Sample.encode r'.context (l.renumber g) order _ v = Sample.encode r.context l order _ v
    unfold Sample.encode
    rw [hm.write_eq (hm.wellFormed_sampleLayout hl), hconfig]

theorem deserialize_eq (bytes : List UInt8) : r'.deserialize h' bytes = r.deserialize h bytes := by
  unfold deserialize
  rw [hm.sampleLayout_eq]
  cases hl : r.sampleLayout h with
  | error fault => rfl
  | ok l =>
    show Sample.decode r'.context (l.renumber g) bytes = Sample.decode r.context l bytes
    unfold Sample.decode
    rw [hm.read_eq (hm.wellFormed_sampleLayout hl)]

theorem deserializeKey_eq (bytes : List UInt8) :
    r'.deserializeKey h' bytes = r.deserializeKey h bytes := by
  unfold deserializeKey
  rw [hm.keyLayout_eq]
  cases hl : r.keyLayout h with
  | error fault => rfl
  | ok l =>
    show Key.decode r'.context (l.renumber g) bytes = Key.decode r.context l bytes
    unfold Key.decode
    rw [hm.read_eq (hm.wellFormed_keyLayout hl)]

theorem writeKey_eq (v : Value) : r'.writeKey h' v = r.writeKey h v := by
  unfold writeKey
  rw [hm.keyLayout_eq]
  cases hl : r.keyLayout h with
  | error fault => rfl
  | ok l =>
    show Key.encode r'.context (l.renumber g) v = Key.encode r.context l v
    unfold Key.encode
    rw [hm.write_eq (hm.wellFormed_keyLayout hl)]

theorem keyHashMode_eq : r'.keyHashMode h' = r.keyHashMode h := by
  rw [keyHashMode, hm.maxKeySize_eq, keyHashMode]

theorem writePaddedKey_eq (v : Value) : r'.writePaddedKey h' v = r.writePaddedKey h v := by
  rw [writePaddedKey, hm.writeKey_eq, writePaddedKey]

theorem writeKeyHash_eq (v : Value) : r'.writeKeyHash h' v = r.writeKeyHash h v := by
  rw [writeKeyHash, hm.writeKey_eq, hm.keyHashMode_eq, writeKeyHash]

theorem key_eq (hconfig : r'.config = r.config) (v : Value) : r'.key h' v = r.key h v := by
  unfold key onNewBuffer
  rw [hm.writePaddedKey_eq, hconfig]

theorem keyHash_eq (hconfig : r'.config = r.config) (v : Value) :
    r'.keyHash h' v = r.keyHash h v := by
  unfold keyHash onNewBuffer
  rw [hm.writeKeyHash_eq, hconfig]

end Moved

end Moved

/-- The handle of a name is where the name resolves to. -/
theorem Sound.handle_eq {r : Registry} (hr : r.Sound) (name : String) :
    r.handle name = match r.catalog.resolve name with
      | some (i, _) => .ok ⟨i, name⟩
      | none => .error (Cause.unknownType name).fault := by
  unfold handle
  cases hfind : r.catalog.find? name with
  | none => rw [(Catalog.resolve_eq_none hr.coherent).mpr hfind]
  | some i =>
    obtain ⟨e, he, hname⟩ := (hr.coherent.index _ _).mp hfind
    rw [(Catalog.resolve_eq_some hr.coherent).mpr ⟨e, he, rfl, hname⟩]

/-- The name of a handle gives the handle. -/
theorem Sound.handle_of_checkHandle {r : Registry} (hr : r.Sound) {h : Handle}
    (hcheck : r.checkHandle h = .ok ()) : r.handle h.name = .ok h := by
  obtain ⟨e, he, hname⟩ := checkHandle_eq_ok.mp hcheck
  rw [hr.handle_eq, (Catalog.resolve_eq_some hr.coherent).mpr ⟨e, he, rfl, hname⟩]

/-- A registry with the types of another has a handle to each whole one. -/
theorem Sound.exists_moved {r r' : Registry} (hr : r.Sound) (hr' : r'.Sound)
    (hlimits : r.config.SameLimits r'.config) (hwithin : Catalog.Within r.catalog r'.catalog)
    {h : Handle} (hcheck : r.checkHandle h = .ok ()) (hwhole : r.catalog.Whole h.id) :
    ∃ h', r'.handle h.name = .ok h' ∧ Moved (r.catalog.placeIn r'.catalog) r r' h h' := by
  have hm : Moved (r.catalog.placeIn r'.catalog) r r' h
      ⟨r.catalog.placeIn r'.catalog h.id, h.name⟩ :=
    ⟨hr, hr', hwhole, hlimits, hwithin.extends hr.coherent, hcheck, rfl, rfl⟩
  have hhandle' := hr'.handle_of_checkHandle (hm.checkHandle_eq.trans hcheck)
  exact ⟨_, hhandle', hm⟩

/-- Complete registries that declare the same types give the same answers. -/
theorem Sound.sameAnswers {r r' : Registry} (hr : r.Sound) (hr' : r'.Sound)
    (hc : r.catalog.Complete) (hconfig : r'.config = r.config)
    (hto : Catalog.Within r.catalog r'.catalog) (hfrom : Catalog.Within r'.catalog r.catalog)
    (name : String) : SameAnswers r r' name := by
  cases hname : r.catalog.resolve name with
  | none =>
    have hnone : r'.catalog.resolve name = none := by
      rw [← Catalog.declared?_eq_none, Option.eq_none_iff_forall_ne_some]
      intro d hd
      have hdeclared := hfrom name d hd
      rw [Catalog.declared?_eq_none.mpr hname] at hdeclared
      cases hdeclared
    have hhandle := hr.handle_eq name
    have hhandle' := hr'.handle_eq name
    rw [hname] at hhandle
    rw [hnone] at hhandle'
    refine ⟨?_, ?_, fun _ _ => ?_, fun _ => ?_, fun _ => ?_, fun _ => ?_, fun _ => ?_⟩ <;>
      · rw [ask_eq_error hhandle, ask_eq_error hhandle']
  | some found =>
    obtain ⟨i, d⟩ := found
    obtain ⟨e, he, rfl, hd⟩ := (Catalog.resolve_eq_some hr.coherent).mp hname
    have hcheck : r.checkHandle ⟨i, name⟩ = .ok () := checkHandle_eq_ok.mpr ⟨e, he, hd⟩
    have hhandle := hr.handle_of_checkHandle hcheck
    obtain ⟨h', hhandle', hm⟩ := hr.exists_moved hr' (.of_eq hconfig) hto hcheck
      (hc.whole hr.coherent ⟨e, he⟩)
    constructor
    · rw [ask_eq hhandle, ask_eq hhandle']
      exact hm.maxKeySize_eq
    · rw [ask_eq hhandle, ask_eq hhandle']
      exact hm.keyHashMode_eq
    · intro order v
      rw [ask_eq hhandle, ask_eq hhandle']
      exact hm.serializeIn_eq hconfig order v
    · intro bytes
      rw [ask_eq hhandle, ask_eq hhandle']
      exact hm.deserialize_eq bytes
    · intro v
      rw [ask_eq hhandle, ask_eq hhandle']
      exact hm.key_eq hconfig v
    · intro v
      rw [ask_eq hhandle, ask_eq hhandle']
      exact hm.keyHash_eq hconfig v
    · intro bytes
      rw [ask_eq hhandle, ask_eq hhandle']
      exact hm.deserializeKey_eq bytes

end Registry

end Cdr
