import Cdr.Proofs.Lasting
import Mathlib.Data.List.Induction

/-! Registrations that change nothing.  A type has its place in the catalog while it is built, and
the build may look it up there.  When the type is refused, all of this is undone.  When it is there
already, its first handle is given again. -/

namespace Cdr

namespace Catalog

variable {c : Catalog} {d known : Declaration} {name : String} {id : Nat}

/-- A name that is new since a type was added is the name of that type. -/
theorem eq_of_resolve_push (hnew : c.find? name = none)
    (hresolve : (c.push d).resolve name = some (id, known)) :
    id = c.entries.size ∧ known = d := by
  by_cases hname : name = d.name
  · subst hname
    simp only [resolve, find?_push_self, Option.bind_eq_bind, Option.bind_some,
      getElem?_push_size, Option.pure_def, Option.some.injEq, Prod.mk.injEq] at hresolve
    exact ⟨hresolve.1.symm, hresolve.2.symm⟩
  · rw [resolve, find?_push_of_ne c d hname, hnew] at hresolve
    cases hresolve

end Catalog

namespace Registry

variable {r r' : Registry} {d : Declaration} {h : Handle} {id : Nat}

/-- A refused type leaves the registry as it was. -/
theorem Sound.eq_of_refused (hr : r.Sound) {fault : Fault}
    (hrefused : Registry.register d r = .error fault r') : r' = r := by
  obtain ⟨fault', herror⟩ | ⟨id, -, hok⟩ | ⟨c, -, -, -, hok⟩ := hr.register_cases d
  · rw [herror] at hrefused
    cases hrefused
    rfl
  · rw [hok] at hrefused
    cases hrefused
  · rw [hok] at hrefused
    cases hrefused

/-- A type that is registered gives its handle again, and leaves the registry as it was. -/
theorem Sound.register_again (hr : r.Sound) (hresolve : r.catalog.resolve d.name = some (id, d)) :
    Registry.register d r = .ok ⟨id, d.name⟩ r := by
  obtain ⟨e, he, rfl, -⟩ := (Catalog.resolve_eq_some hr.coherent).mp hresolve
  unfold Registry.register
  rw [hr.coherent.valid id e he, hresolve]
  exact if_pos rfl

/-- A type that one event has brought was new, and is the type that was registered. -/
theorem Steady.register_of_new (hr : r.Steady) {event : Event}
    (hnew : r.catalog.resolve d.name = none)
    (hresolve : (r.step event).catalog.resolve d.name = some (id, d)) :
    event = .register d ∧ ∃ r', Registry.register d r = .ok ⟨id, d.name⟩ r' := by
  cases event with
  | use i =>
    rw [Registry.step, (Catalog.sameStates_keepKeySize r.config r.catalog i).resolve_eq, hnew]
      at hresolve
    cases hresolve
  | register d' =>
    rw [Registry.step, afterRegister] at hresolve
    obtain ⟨fault, hok⟩ | ⟨i, -, hok⟩ | ⟨c, hvalid, hresolve', hadd, hok⟩ :=
      hr.sound.register_cases d'
    · rw [hok, hnew] at hresolve
      cases hresolve
    · rw [hok, hnew] at hresolve
      cases hresolve
    · rw [hok] at hresolve
      have hcoherent := hr.sound.coherent
      have hnew' := (Catalog.resolve_eq_none hcoherent).mp hresolve'
      obtain ⟨-, -, hpush⟩ := add_eq_ok hcoherent hr.sound.sized hnew' hvalid hadd
      rw [hpush] at hresolve
      obtain ⟨rfl, rfl⟩ :=
        Catalog.eq_of_resolve_push ((Catalog.resolve_eq_none hcoherent).mp hnew) hresolve
      exact ⟨rfl, _, hok⟩

theorem after_concat (r : Registry) (events : List Event) (event : Event) :
    r.after (events ++ [event]) = (r.after events).step event := by
  simp [after]

/-- Every registered type was brought by one of the events, before which its name was new. -/
theorem exists_first_register (config : Config) {events : List Event}
    (hresolve : (after { config := config } events).catalog.resolve d.name = some (id, d)) :
    ∃ earlier later r', events = earlier ++ .register d :: later ∧
      (after { config := config } earlier).catalog.resolve d.name = none ∧
      register d (after { config := config } earlier) = .ok ⟨id, d.name⟩ r' := by
  -- The events are taken away from the last one on, until the name is new.
  induction events using List.reverseRecOn with
  | nil => cases hresolve
  | append_singleton events event ih =>
    have hr := steady_after config events
    rw [after_concat] at hresolve
    cases hold : (after { config := config } events).catalog.resolve d.name with
    | none =>
      obtain ⟨rfl, r', hok⟩ := hr.register_of_new hold hresolve
      exact ⟨events, [], r', rfl, hold, hok⟩
    | some found =>
      obtain ⟨i, known⟩ := found
      have hkept := (hr.step event).catalog.extend _ _ _ hold
      obtain ⟨rfl, rfl⟩ : i = id ∧ known = d := by simpa [hkept] using hresolve
      obtain ⟨earlier, later, r', rfl, hnew, hok⟩ := ih hold
      exact ⟨earlier, later ++ [event], r', by simp, hnew, hok⟩

/-- After any events, a declared type that is refused leaves the registry as it was, for whatever
fault.  So does one that is registered already, and its handle is the one that was given when its
name was new. -/
theorem register_changes_nothing (config : Config) (events : List Event) (d : Declaration) :
    let r := after { config := config } events
    (∀ fault r', register d r = .error fault r' → r' = r) ∧
    (r.catalog.declared? d.name = some d →
      ∃ h earlier later r', events = earlier ++ .register d :: later ∧
        (after { config := config } earlier).catalog.declared? d.name = none ∧
        register d (after { config := config } earlier) = .ok h r' ∧
        register d r = .ok h r) := by
  intro r
  have hr : r.Sound := (steady_after config events).sound
  refine ⟨fun fault r' hrefused => hr.eq_of_refused hrefused, fun hdeclared => ?_⟩
  obtain ⟨id, hresolve⟩ := Catalog.declared?_eq_some.mp hdeclared
  obtain ⟨earlier, later, r', hsplit, hnew, hok⟩ := exists_first_register config hresolve
  exact ⟨⟨id, d.name⟩, earlier, later, r', hsplit, Catalog.declared?_eq_none.mpr hnew, hok,
    hr.register_again hresolve⟩

/-- A union over itself, which the build finds in the catalog and which is no enumeration. -/
def loop : Declaration :=
  { name := "Mode", body := .union ⟨.named "Mode", [], some ⟨"text", .string none⟩, false⟩ }

/-- A type without a name, another one of a known name and one that cannot be built are refused.
The types that wait for the name of the last go on waiting, and the first type of all gives its
handle again. -/
theorem register_changes_nothing_loop :
    let r := after { } [.register route, .register trip, .register sensor]
    let unnamed : Declaration := { sensor with name := "" }
    let other : Declaration := { trip with body := .struct [] }
    (register unnamed r =
        .error (Cause.invalidSchema "<unnamed>" "type name is empty").fault
          (afterRegister unnamed r) ∧
      afterRegister unnamed r = r) ∧
    (register other r =
        .error (Cause.invalidSchema "Trip" "already registered with a different declaration").fault
          (afterRegister other r) ∧
      afterRegister other r = r) ∧
    (register loop r =
        .error (Cause.unencodable "Mode" "discriminator 'Mode' is not an enum").fault
          (afterRegister loop r) ∧
      afterRegister loop r = r) ∧
    r.catalog.waits = [("Mode", 0), ("Mode", 1)] ∧
    ∃ h earlier later r', [.register route, .register trip, .register sensor] =
        earlier ++ Event.register route :: later ∧
      (after { } earlier).catalog.declared? "Route" = none ∧
      register route (after { } earlier) = .ok h r' ∧ register route r = .ok h r := by
  intro r unnamed other
  have hrefused (d : Declaration) :=
    (register_changes_nothing { } [.register route, .register trip, .register sensor] d).1
  exact ⟨⟨rfl, hrefused unnamed _ _ rfl⟩, ⟨rfl, hrefused other _ _ rfl⟩,
    ⟨rfl, hrefused loop _ _ rfl⟩, rfl, (register_changes_nothing { } _ route).2 rfl⟩

end Registry

end Cdr
