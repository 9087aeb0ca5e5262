import Cdr.Proofs.Moving

/-! Histories of a registry: registrations, and first uses of types, at which the size of the
longest key is kept.  Whatever happens, names keep their places and sizes are kept of whole types
only, so a type that can be used is whole and stays so. -/

namespace Cdr

namespace Catalog

variable {c c' c'' : Catalog} {config : Config} {i size : Nat} {d : Declaration}

/-- The second catalog has the types of the first at the same places. -/
structure Grows (c c' : Catalog) : Prop where
  coherent : c.Coherent []
  coherent' : c'.Coherent []
  extend : Extends id c.resolve c'.resolve

namespace Grows

protected theorem refl (h : c.Coherent []) : Grows c c := ⟨h, h, fun _ _ _ hname => hname⟩

protected theorem trans (h : Grows c c') (h' : Grows c' c'') : Grows c c'' :=
  ⟨h.coherent, h'.coherent', fun name i d hname => h'.extend name i d (h.extend name i d hname)⟩

theorem whole (h : Grows c c') (hwhole : c.Whole i) : c'.Whole i :=
  hwhole.moved h.coherent h.coherent' h.extend

end Grows

theorem SameStates.grows (hsame : SameStates c c') (h : c.Coherent []) : Grows c c' := by
  refine ⟨h, hsame.coherent h, ?_⟩
  rw [hsame.resolve_eq]
  exact fun _ _ _ hname => hname

/-- Sizes are kept of types that are whole only. -/
def Settled (c : Catalog) : Prop :=
  ∀ (i : Nat) (e : Entry) (size : Nat), c.entries[i]? = some e → e.maxKeySize = some size →
    c.Whole i

namespace Settled

variable (hset : c.Settled) (h : c.Coherent [])

include hset h

/-- A type whose longest key has a size is whole. -/
theorem whole_of_maxKeySize {e : Entry} (he : c.entries[i]? = some e)
    (hsize : c.maxKeySize config i = .ok size) : c.Whole i := by
  unfold maxKeySize at hsize
  split at hsize
  · rename_i he
    exact hset i _ _ he rfl
  · obtain ⟨⟨⟩, hcheck, -⟩ := except_bind_eq_ok.mp hsize
    exact (h.checkClosure_eq_ok ⟨e, he⟩).mp hcheck

theorem keepKeySize (i : Nat) : (c.keepKeySize config i).Settled := by
  intro j e size he hsize
  have hsame := sameStates_keepKeySize config c i
  apply (hsame.grows h).whole
  rcases kept_of_keepKeySize he hsize with hold | ⟨rfl, hkept⟩
  · exact hset j e size hold hsize
  · obtain ⟨e₀, he₀, -⟩ := hsame.exists_entry he
    exact hset.whole_of_maxKeySize h he₀ hkept

theorem foldl_keepKeySize (ids : List Nat) :
    (ids.foldl (Catalog.keepKeySize config) c).Settled := by
  induction ids generalizing c with
  | nil => exact hset
  | cons i ids ih =>
    exact ih (hset.keepKeySize h i) ((sameStates_keepKeySize config c i).coherent h)

end Settled

end Catalog

namespace Registry

/-- What can happen to a registry. -/
inductive Event where
  | register (d : Declaration)
  /-- The type at a place is used, so the size of its longest key is kept. -/
  | use (id : Nat)
deriving DecidableEq, Repr

def step (r : Registry) : Event → Registry
  | .register d => r.afterRegister d
  | .use id => { r with catalog := r.catalog.keepKeySize r.config id }

theorem config_step (r : Registry) (event : Event) : (r.step event).config = r.config := by
  cases event with
  | register d => exact config_afterRegister d r
  | use id => rfl

/-- The registry after a number of events. -/
def after (r : Registry) (events : List Event) : Registry := events.foldl step r

/-- The catalog is coherent, the sizes that it keeps are right, and it keeps them of whole types
only. -/
structure Steady (r : Registry) : Prop where
  sound : r.Sound
  settled : r.catalog.Settled

/-- The second registry has the types of the first and its configuration, and is steady too. -/
structure Grows (r r' : Registry) : Prop where
  steady : r'.Steady
  config : r'.config = r.config
  catalog : Catalog.Grows r.catalog r'.catalog

variable {r r' r'' : Registry}

theorem Grows.trans (h : Grows r r') (h' : Grows r' r'') : Grows r r'' :=
  ⟨h'.steady, h'.config.trans h.config, h.catalog.trans h'.catalog⟩

namespace Steady

theorem new (config : Config) : Steady { config := config } :=
  ⟨(Reachable.new : Reachable config _).sound, fun _ _ _ he => nomatch he⟩

theorem grows_self (h : r.Steady) : Grows r r := ⟨h, rfl, Catalog.Grows.refl h.sound.coherent⟩

/-- The types that waited for a new type are built again, and no size is kept in between. -/
theorem add {d : Declaration} {c : Catalog} (h : r.Steady) (hvalid : d.validate = .ok ())
    (hnew : r.catalog.find? d.name = none) (hadd : Registry.add r.config r.catalog d = .ok c) :
    Grows r { r with catalog := c } := by
  have hcoherent := h.sound.coherent
  obtain ⟨hcoherent', hsized', hresolve⟩ := add_eq_ok hcoherent h.sound.sized hnew hvalid hadd
  obtain ⟨built, hbuilt, hok⟩ := except_bind_eq_ok.mp hadd
  cases hok
  obtain ⟨hwake, hsame⟩ := hcoherent.push_wake hnew hvalid hbuilt
  have hgrows : Catalog.Grows r.catalog (built.wake d.name) := by
    refine ⟨hcoherent, hwake, ?_⟩
    rw [hsame.resolve_eq]
    exact Catalog.extends_push hcoherent hnew
  have hsettled : (built.wake d.name).Settled := by
    intro i e size he hsize
    obtain ⟨e₀, he₀, hold⟩ := hsame.kept_of_push he hsize
    exact hgrows.whole (h.settled i e₀ size he₀ hold)
  refine ⟨⟨⟨hcoherent', hsized'⟩, hsettled.foldl_keepKeySize hwake _⟩, rfl, ?_⟩
  refine ⟨hcoherent, hcoherent', ?_⟩
  rw [hresolve]
  exact Catalog.extends_push hcoherent hnew

/-- Nothing that happens to a registry disturbs the types that it has. -/
theorem step (h : r.Steady) (event : Event) : Grows r (r.step event) := by
  cases event with
  | register d =>
    show Grows r (r.afterRegister d)
    rcases h.sound.afterRegister_cases d with hsame | ⟨c, hvalid, hresolve, hadd, hafter⟩
    · rw [hsame]
      exact h.grows_self
    · rw [hafter]
      exact h.add hvalid ((Catalog.resolve_eq_none h.sound.coherent).mp hresolve) hadd
  | use id =>
    have hsame := Catalog.sameStates_keepKeySize r.config r.catalog id
    have hgrows := hsame.grows h.sound.coherent
    exact ⟨⟨⟨hgrows.coherent', h.sound.sized.keepKeySize id⟩,
      h.settled.keepKeySize h.sound.coherent id⟩, rfl, hgrows⟩

/-- Nothing that happens to a registry, one event after the other, disturbs the types that it
has. -/
theorem after (h : r.Steady) (events : List Event) : Grows r (r.after events) := by
  induction events generalizing r with
  | nil => exact h.grows_self
  | cons event events ih =>
    have hstep := h.step event
    exact hstep.trans (ih hstep.steady)

end Steady

/-- Every history of a new registry leads to a steady one. -/
theorem steady_after (config : Config) (events : List Event) :
    (after { config := config } events).Steady := ((Steady.new config).after events).steady

theorem config_after (config : Config) (events : List Event) :
    (after { config := config } events).config = config := ((Steady.new config).after events).config

/-- A type whose longest key has a size is whole. -/
theorem Steady.whole {h : Handle} {size : Nat} (hr : r.Steady) (hsize : r.maxKeySize h = .ok size) :
    r.catalog.Whole h.id := by
  obtain ⟨hcheck, hkept⟩ := maxKeySize_eq_ok.mp hsize
  obtain ⟨e, he, -⟩ := checkHandle_eq_ok.mp hcheck
  exact hr.settled.whole_of_maxKeySize hr.sound.coherent he hkept

end Registry

end Cdr
