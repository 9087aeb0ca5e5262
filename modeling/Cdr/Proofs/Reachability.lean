import Cdr.Proofs.Coherence
import Cdr.Proofs.Measuring
import Cdr.Registry.Access

/-! Registries that registration reaches.  Every such registry has a coherent catalog, and the sizes
that it keeps are those that measuring against the present catalog gives: a layout, once built,
stays the same, and so does the measure of a key. -/

namespace Cdr

namespace Catalog

section Layouts

variable {c c' : Catalog} {i : Nat} {role : Role} {l : Layout}

theorem Coherent.layout_eq_ok (h : c.Coherent []) :
    c.layout i role = .ok l ↔ ∃ e layouts, c.entries[i]? = some e ∧
      Layouts.build c.resolve e.declaration = .ok layouts ∧ l = layouts.ofRole role := by
  unfold layout
  cases he : c.entries[i]? with
  | none => simp
  | some e =>
    have hstate := h.state i e he List.not_mem_nil
    match hbuild : Layouts.build c.resolve e.declaration with
    | .ok layouts =>
      rw [hbuild] at hstate
      simp only [hstate, BuildState.ofOutcome]
      cases role <;> simp [Layouts.ofRole, hbuild, eq_comm]
    | .error (.awaits name) =>
      rw [hbuild] at hstate
      simp only [hstate, BuildState.ofOutcome]
      simp [hbuild]
    | .error (.fatal fault) =>
      rw [hbuild] at hstate
      simp only [hstate, BuildState.ofOutcome]
      simp [hbuild]

theorem Coherent.keyLayout_eq_ok (h : c.Coherent []) :
    c.keyLayout i = .ok l ↔ ∃ e layouts, c.entries[i]? = some e ∧
      Layouts.build c.resolve e.declaration = .ok layouts ∧ l = layouts.key := by
  unfold keyLayout layout
  cases he : c.entries[i]? with
  | none => simp
  | some e =>
    have hstate := h.state i e he List.not_mem_nil
    obtain ⟨declaration, state, size⟩ := e
    match hbuild : Layouts.build c.resolve declaration with
    | .ok layouts =>
      simp only [hbuild, BuildState.ofOutcome] at hstate
      subst hstate
      simp [hbuild, eq_comm]
    | .error (.awaits name) =>
      simp only [hbuild, BuildState.ofOutcome] at hstate
      subst hstate
      simp [hbuild]
    | .error (.fatal fault) =>
      simp only [hbuild, BuildState.ofOutcome] at hstate
      subst hstate
      simp [hbuild]

/-- A type that is built stays built where its names keep their places. -/
theorem Coherent.build_of_extends (h : c.Coherent []) (h' : c'.Coherent [])
    (hext : Extends id c.resolve c'.resolve) {e : Entry} {layouts : Layouts}
    (he : c.entries[i]? = some e) (hbuild : Layouts.build c.resolve e.declaration = .ok layouts) :
    ∃ e', c'.entries[i]? = some e' ∧ Layouts.build c'.resolve e'.declaration = .ok layouts := by
  have hresolve := hext _ _ _ ((resolve_eq_some h).mpr ⟨e, he, rfl, rfl⟩)
  obtain ⟨e', he', hd, -⟩ := (resolve_eq_some h').mp hresolve
  refine ⟨e', he', ?_⟩
  rw [hd, Layouts.build_eq_of_extends hext fun name hawaits => ?_, hbuild]
  rw [hbuild] at hawaits
  cases hawaits

theorem Coherent.layout_of_extends (h : c.Coherent []) (h' : c'.Coherent [])
    (hext : Extends id c.resolve c'.resolve) (hl : c.layout i role = .ok l) :
    c'.layout i role = .ok l := by
  obtain ⟨e, layouts, he, hbuild, rfl⟩ := h.layout_eq_ok.mp hl
  obtain ⟨e', he', hbuild'⟩ := h.build_of_extends h' hext he hbuild
  exact h'.layout_eq_ok.mpr ⟨e', layouts, he', hbuild', rfl⟩

theorem Coherent.keyLayout_of_extends (h : c.Coherent []) (h' : c'.Coherent [])
    (hext : Extends id c.resolve c'.resolve) (hl : c.keyLayout i = .ok l) :
    c'.keyLayout i = .ok l := by
  obtain ⟨e, layouts, he, hbuild, rfl⟩ := h.keyLayout_eq_ok.mp hl
  obtain ⟨e', he', hbuild'⟩ := h.build_of_extends h' hext he hbuild
  exact h'.keyLayout_eq_ok.mpr ⟨e', layouts, he', hbuild', rfl⟩

end Layouts

section Sizes

variable {c c' : Catalog} {config : Config} {i size : Nat}

theorem measureKey_eq_ok : c.measureKey config i = .ok size ↔
    ∃ l, c.keyLayout i = .ok l ∧
      l.measure c.layout ⟨config.countWidth, config.maxUnboundedLength⟩ config.maxDepth []
        Extent.zero = .ok () ⟨size⟩ := by
  unfold measureKey
  rw [except_bind_eq_ok]
  constructor
  · rintro ⟨l, hl, hmeasure⟩
    refine ⟨l, hl, ?_⟩
    simp only at hmeasure
    split at hmeasure
    · rename_i x e hok
      cases hmeasure
      exact hok
    · cases hmeasure
  · rintro ⟨l, hl, hmeasure⟩
    refine ⟨l, hl, ?_⟩
    simp only [hmeasure]
    rfl

/-- The measure of a key stays the same where names keep their places. -/
theorem Coherent.measureKey_of_extends (h : c.Coherent []) (h' : c'.Coherent [])
    (hext : Extends id c.resolve c'.resolve) (hsize : c.measureKey config i = .ok size) :
    c'.measureKey config i = .ok size := by
  obtain ⟨l, hl, hmeasure⟩ := measureKey_eq_ok.mp hsize
  exact measureKey_eq_ok.mpr ⟨l, h.keyLayout_of_extends h' hext hl,
    Layout.refines_measure (fun _ _ _ => h.layout_of_extends h' hext) _ _ _ _ hmeasure⟩

/-- The sizes that are kept are those that measuring gives. -/
def Sized (c : Catalog) (config : Config) : Prop :=
  ∀ (i : Nat) (e : Entry) (size : Nat), c.entries[i]? = some e → e.maxKeySize = some size →
    c.measureKey config i = .ok size

/-- The types and their states are the same, up to the sizes that are kept. -/
structure SameStates (c c' : Catalog) : Prop where
  index : c'.index = c.index
  waiting : c'.waiting = c.waiting
  states : ∀ i : Nat, (c'.entries[i]?).map (fun e => (e.declaration, e.state)) =
    (c.entries[i]?).map fun e => (e.declaration, e.state)

namespace SameStates

protected theorem refl (c : Catalog) : SameStates c c := ⟨rfl, rfl, fun _ => rfl⟩

protected theorem symm (h : SameStates c c') : SameStates c' c :=
  ⟨h.index.symm, h.waiting.symm, fun i => (h.states i).symm⟩

protected theorem trans {c'' : Catalog} (h : SameStates c c') (h' : SameStates c' c'') :
    SameStates c c'' :=
  ⟨h'.index.trans h.index, h'.waiting.trans h.waiting, fun i => (h'.states i).trans (h.states i)⟩

theorem exists_entry (h : SameStates c c') {e' : Entry} (he : c'.entries[i]? = some e') :
    ∃ e, c.entries[i]? = some e ∧ e'.declaration = e.declaration ∧ e'.state = e.state := by
  have hmap := h.states i
  rw [he] at hmap
  cases hc : c.entries[i]? with
  | none => rw [hc] at hmap; cases hmap
  | some e =>
    rw [hc] at hmap
    have := Prod.mk.inj (Option.some.inj hmap)
    exact ⟨e, rfl, this.1, this.2⟩

theorem entries_eq_none (h : SameStates c c') (hc : c.entries[i]? = none) :
    c'.entries[i]? = none := by
  have hmap := h.states i
  rw [hc] at hmap
  exact Option.map_eq_none_iff.mp hmap

theorem resolve_eq (h : SameStates c c') : c'.resolve = c.resolve := by
  funext name
  simp only [resolve, find?, h.index]
  cases Dictionary.find? name c.index with
  | none => rfl
  | some i =>
    simp only [Option.bind_eq_bind, Option.bind_some]
    cases hc : c.entries[i]? with
    | none => rw [h.entries_eq_none hc]
    | some e =>
      obtain ⟨e', he', hd, -⟩ := h.symm.exists_entry hc
      rw [he', Option.bind_some, Option.bind_some, hd]

theorem layout_eq (h : SameStates c c') : c'.layout = c.layout := by
  funext i role
  unfold layout
  cases hc : c.entries[i]? with
  | none => rw [h.entries_eq_none hc]
  | some e =>
    obtain ⟨e', he', hd, hstate⟩ := h.symm.exists_entry hc
    rw [he']
    simp only [hd, hstate]

theorem keyLayout_eq (h : SameStates c c') : c'.keyLayout = c.keyLayout := by
  funext i
  unfold keyLayout
  rw [h.layout_eq]
  cases hc : c.entries[i]? with
  | none => rw [h.entries_eq_none hc]
  | some e =>
    obtain ⟨e', he', -, hstate⟩ := h.symm.exists_entry hc
    obtain ⟨d, state, size⟩ := e
    obtain ⟨d', state', size'⟩ := e'
    cases hstate
    rw [he']
    cases state <;> rfl

theorem measureKey_eq (h : SameStates c c') (config : Config) (i : Nat) :
    c'.measureKey config i = c.measureKey config i := by
  simp only [measureKey, h.keyLayout_eq, h.layout_eq]

theorem coherent (h : SameStates c c') (hc : c.Coherent []) : c'.Coherent [] where
  index name i := by
    rw [find?, h.index]
    refine (hc.index name i).trans ⟨?_, ?_⟩
    · rintro ⟨e, he, rfl⟩
      obtain ⟨e', he', hd, -⟩ := h.symm.exists_entry he
      exact ⟨e', he', by rw [hd]⟩
    · rintro ⟨e', he', rfl⟩
      obtain ⟨e, he, hd, -⟩ := h.exists_entry he'
      exact ⟨e, he, by rw [hd]⟩
  valid i e' he' := by
    obtain ⟨e, he, hd, -⟩ := h.exists_entry he'
    rw [hd]
    exact hc.valid i e he
  state i e' he' hi := by
    obtain ⟨e, he, hd, hstate⟩ := h.exists_entry he'
    rw [hstate, hd, h.resolve_eq]
    exact hc.state i e he hi
  waiting name hname i := by
    rw [find?, h.index] at hname
    rw [waiters, h.waiting]
    refine (hc.waiting name hname i).trans ⟨?_, ?_⟩
    · rintro ⟨hi, e, he, hstate⟩
      obtain ⟨e', he', -, hs⟩ := h.symm.exists_entry he
      exact ⟨hi, e', he', by rw [← hs, hstate]⟩
    · rintro ⟨hi, e', he', hstate⟩
      obtain ⟨e, he, -, hs⟩ := h.exists_entry he'
      exact ⟨hi, e, he, by rw [← hs, hstate]⟩
  distinct name hname := by
    rw [find?, h.index] at hname
    rw [waiters, h.waiting]
    exact hc.distinct name hname

end SameStates

theorem Sized.measureKey (h : c.Sized config) (hsize : c.maxKeySize config i = .ok size) :
    c.measureKey config i = .ok size := by
  unfold maxKeySize at hsize
  split at hsize
  · rename_i he
    cases hsize
    exact h i _ _ he rfl
  · obtain ⟨_, -, hmeasure⟩ := except_bind_eq_ok.mp hsize
    exact hmeasure

theorem sameStates_keepKeySize (config : Config) (c : Catalog) (i : Nat) :
    SameStates c (c.keepKeySize config i) := by
  unfold keepKeySize
  split
  · refine ⟨rfl, rfl, fun j => ?_⟩
    simp only [Array.getElem?_modify]
    split
    · cases c.entries[j]? <;> rfl
    · rfl
  · exact SameStates.refl c

/-- A size is kept already, or it is the one that is kept now. -/
theorem kept_of_keepKeySize {j : Nat} {e : Entry}
    (he : (c.keepKeySize config i).entries[j]? = some e) (hsize : e.maxKeySize = some size) :
    c.entries[j]? = some e ∨ j = i ∧ c.maxKeySize config i = .ok size := by
  unfold keepKeySize at he
  split at he
  · rename_i kept hkept
    simp only [Array.getElem?_modify] at he
    split at he
    · rename_i heq
      obtain ⟨e₀, -, rfl⟩ := Option.map_eq_some_iff.mp he
      cases hsize
      exact Or.inr ⟨heq.symm, hkept⟩
    · exact Or.inl he
  · exact Or.inl he

theorem Sized.keepKeySize (h : c.Sized config) (i : Nat) :
    (c.keepKeySize config i).Sized config := by
  intro j e size he hsize
  rw [(sameStates_keepKeySize config c i).measureKey_eq]
  rcases kept_of_keepKeySize he hsize with hold | ⟨rfl, hkept⟩
  · exact h j e size hold hsize
  · exact h.measureKey hkept

/-- Keeping sizes changes no state, and the sizes that are kept are right. -/
theorem Sized.foldl_keepKeySize (h : c.Sized config) (ids : List Nat) :
    (ids.foldl (Catalog.keepKeySize config) c).Sized config ∧
      SameStates c (ids.foldl (Catalog.keepKeySize config) c) := by
  induction ids generalizing c with
  | nil => exact ⟨h, SameStates.refl c⟩
  | cons i ids ih =>
    obtain ⟨hsized, hsame⟩ := ih (h.keepKeySize i)
    exact ⟨hsized, (sameStates_keepKeySize config c i).trans hsame⟩

end Sizes

end Catalog

namespace Registry

/-- The catalog is coherent, and the sizes that it keeps are right. -/
structure Sound (r : Registry) : Prop where
  coherent : r.catalog.Coherent []
  sized : r.catalog.Sized r.config

/-- What registration of a new type does to a coherent catalog. -/
theorem add_eq_ok {config : Config} {c c' : Catalog} {d : Declaration} (h : c.Coherent [])
    (hsized : c.Sized config) (hnew : c.find? d.name = none) (hvalid : d.validate = .ok ())
    (hok : add config c d = .ok c') :
    c'.Coherent [] ∧ c'.Sized config ∧ c'.resolve = (c.push d).resolve := by
  unfold add at hok
  obtain ⟨built, hbuilt, hok⟩ := except_bind_eq_ok.mp hok
  cases hok
  obtain ⟨hwake, hsame⟩ := h.push_wake hnew hvalid hbuilt
  have hext : Extends id c.resolve (built.wake d.name).resolve := by
    rw [hsame.resolve_eq]
    exact Catalog.extends_push h hnew
  have hwakeSized : (built.wake d.name).Sized config := by
    intro i e size he hsize
    obtain ⟨e₀, he₀, hold⟩ := hsame.kept_of_push he hsize
    exact h.measureKey_of_extends hwake hext (hsized i e₀ size he₀ hold)
  obtain ⟨hfinal, hstates⟩ := hwakeSized.foldl_keepKeySize (c.entries.size :: built.waiters d.name)
  exact ⟨hstates.coherent hwake, hfinal, hstates.resolve_eq.trans hsame.resolve_eq⟩

/-- The registry after a declared type is registered, or refused. -/
def afterRegister (d : Declaration) (r : Registry) : Registry :=
  match register d r with
  | .ok _ r => r
  | .error _ r => r

/-- The registries that a number of registrations leads to. -/
inductive Reachable (config : Config) : Registry → Prop
  | new : Reachable config { config := config }
  | register (d : Declaration) {r : Registry} (h : Reachable config r) :
    Reachable config (r.afterRegister d)

/-- What registration can do to a registry.  The type is refused, or it is there already, and the
registry stays as it is; or the type is added to the catalog. -/
theorem Sound.register_cases {r : Registry} (hr : r.Sound) (d : Declaration) :
    (∃ fault, register d r = .error fault r) ∨
    (∃ id, r.catalog.resolve d.name = some (id, d) ∧ register d r = .ok ⟨id, d.name⟩ r) ∨
    ∃ c, d.validate = .ok () ∧ r.catalog.resolve d.name = none ∧
      add r.config r.catalog d = .ok c ∧
      register d r = .ok ⟨r.catalog.entries.size, d.name⟩ { r with catalog := c } := by
  unfold register
  cases hvalid : d.validate with
  | error fault => exact Or.inl ⟨fault, rfl⟩
  | ok _ =>
    cases hresolve : r.catalog.resolve d.name with
    | some found =>
      obtain ⟨id, known⟩ := found
      by_cases hknown : known = d
      · subst hknown
        exact Or.inr (Or.inl ⟨id, rfl, if_pos rfl⟩)
      · exact Or.inl ⟨_, if_neg hknown⟩
    | none =>
      cases hadd : add r.config r.catalog d with
      | error fault =>
        -- The type that cannot be built has been in the catalog.
        have hnew := (Catalog.resolve_eq_none hr.coherent).mp hresolve
        simp only [Catalog.retract_push r.catalog hnew]
        exact Or.inl ⟨fault, rfl⟩
      | ok c => exact Or.inr (Or.inr ⟨c, rfl, rfl, rfl, rfl⟩)

/-- Registration leaves a registry as it is, or adds the type to its catalog. -/
theorem Sound.afterRegister_cases {r : Registry} (hr : r.Sound) (d : Declaration) :
    r.afterRegister d = r ∨
      ∃ c, d.validate = .ok () ∧ r.catalog.resolve d.name = none ∧
        add r.config r.catalog d = .ok c ∧ r.afterRegister d = { r with catalog := c } := by
  unfold afterRegister
  obtain ⟨fault, hok⟩ | ⟨id, -, hok⟩ | ⟨c, hvalid, hresolve, hadd, hok⟩ := hr.register_cases d
  · rw [hok]
    exact Or.inl rfl
  · rw [hok]
    exact Or.inl rfl
  · rw [hok]
    exact Or.inr ⟨c, hvalid, hresolve, hadd, rfl⟩

theorem Sound.afterRegister {r : Registry} (h : r.Sound) (d : Declaration) :
    (r.afterRegister d).Sound := by
  rcases h.afterRegister_cases d with hsame | ⟨c, hvalid, hresolve, hadd, hafter⟩
  · rwa [hsame]
  · have hnew := (Catalog.resolve_eq_none h.coherent).mp hresolve
    obtain ⟨hcoherent, hsized, -⟩ := add_eq_ok h.coherent h.sized hnew hvalid hadd
    rw [hafter]
    exact ⟨hcoherent, hsized⟩

theorem config_afterRegister (d : Declaration) (r : Registry) :
    (r.afterRegister d).config = r.config := by
  unfold afterRegister register
  cases d.validate with
  | error fault => rfl
  | ok _ =>
    cases r.catalog.resolve d.name with
    | some found =>
      obtain ⟨id, known⟩ := found
      by_cases hknown : known = d <;> simp [hknown]
    | none => cases add r.config r.catalog d <;> rfl

namespace Reachable

variable {config : Config} {r : Registry}

/-- Every registry that registration reaches is sound. -/
theorem sound (h : Reachable config r) : r.Sound := by
  induction h with
  | new => exact ⟨Catalog.coherent_empty, fun _ _ _ he => nomatch he⟩
  | register d _ ih => exact ih.afterRegister d

theorem config_eq (h : Reachable config r) : r.config = config := by
  induction h with
  | new => rfl
  | register d _ ih => rw [config_afterRegister, ih]

end Reachable

end Registry

end Cdr
