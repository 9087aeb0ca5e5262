import Cdr.Proofs.Histories
import Cdr.Proofs.Keys
import Cdr.Registry.Support

/-! Types that can be used stay as they are.  A whole type reaches no name that is still to come,
so whatever is registered later, refused, woken or broken, its layouts and the size of its longest
key are the same. -/

namespace Cdr.Registry

/-- Every operation on a type has the same outcome in the second registry, for every value, every
byte string and every key buffer. -/
structure Unchanged (r r' : Registry) (h : Handle) : Prop where
  maxKeySize : r'.maxKeySize h = r.maxKeySize h
  keyHashMode : r'.keyHashMode h = r.keyHashMode h
  serialize : ∀ v, r'.serialize h v = r.serialize h v
  serializeIn : ∀ order v, r'.serializeIn h order v = r.serializeIn h order v
  deserialize : ∀ bytes, r'.deserialize h bytes = r.deserialize h bytes
  key : ∀ v, r'.key h v = r.key h v
  keyHash : ∀ v, r'.keyHash h v = r.keyHash h v
  deserializeKey : ∀ bytes, r'.deserializeKey h bytes = r.deserializeKey h bytes
  supportKey : ∀ s : Support, s.handle = h → ∀ v, s.key r' v = s.key r v
  supportKeyHash : ∀ s : Support, s.handle = h → ∀ v, s.keyHash r' v = s.keyHash r v

section Grows

variable {r r' : Registry} {h : Handle} {size : Nat}

/-- A registry that grows keeps a type that can be used at its place. -/
theorem Grows.moved (hgrows : Grows r r') (hr : r.Steady) (hsize : r.maxKeySize h = .ok size) :
    Moved id r r' h h where
  sound := hr.sound
  sound' := hgrows.steady.sound
  whole := hr.whole hsize
  limits := .of_eq hgrows.config
  extend := hgrows.catalog.extend
  handle := (maxKeySize_eq_ok.mp hsize).1
  name := rfl
  place := rfl

theorem Moved.unchanged (hm : Moved id r r' h h) (hconfig : r'.config = r.config) :
    Unchanged r r' h where
  maxKeySize := hm.maxKeySize_eq
  keyHashMode := hm.keyHashMode_eq
  serialize v := by
    unfold serialize
    rw [hm.serializeIn_eq hconfig, hconfig]
  serializeIn := hm.serializeIn_eq hconfig
  deserialize := hm.deserialize_eq
  key := hm.key_eq hconfig
  keyHash := hm.keyHash_eq hconfig
  deserializeKey := hm.deserializeKey_eq
  supportKey s hs v := by
    unfold Support.key
    rw [hs, hm.writePaddedKey_eq]
  supportKeyHash s hs v := by
    unfold Support.keyHash
    rw [hs, hm.writeKeyHash_eq]

end Grows

/-- Once a type can be used, nothing that happens later changes it: its name gives the same handle,
every operation on it has the same outcome, and the size of its longest key is the one that was
kept and the one that a new walk of its layouts gives. -/
theorem unchanged_after {config : Config} {events : List Event} {h : Handle} {size : Nat}
    (hsize : (after { config := config } events).maxKeySize h = .ok size) (later : List Event) :
    let r := after { config := config } events
    let r' := r.after later
    r'.handle h.name = .ok h ∧ Unchanged r r' h ∧
      r'.catalog.measureKey r'.config h.id = .ok size ∧
      ∀ (e : Entry) (kept : Nat), r'.catalog.entries[h.id]? = some e →
        e.maxKeySize = some kept → kept = size := by
  intro r r'
  have hr : r.Steady := steady_after config events
  have hgrows : Grows r r' := hr.after later
  have hm := hgrows.moved hr hsize
  have hsound' := hgrows.steady.sound
  have hsize' : r'.maxKeySize h = .ok size := hm.maxKeySize_eq.trans hsize
  obtain ⟨hcheck, hcatalog⟩ := maxKeySize_eq_ok.mp hsize'
  have hmeasure := hsound'.sized.measureKey hcatalog
  refine ⟨hsound'.handle_of_checkHandle hcheck, hm.unchanged hgrows.config, hmeasure, ?_⟩
  intro e kept he hkept
  have hkeptMeasure := hsound'.sized h.id e kept he hkept
  exact Except.ok.inj (hkeptMeasure.symm.trans hmeasure)

/-- A sensor can be used while other types wait.  Then another declaration of its name is refused,
a union breaks, and a type is woken twice. -/
theorem unchanged_sensor :
    let r := after { } [.register route, .register trip, .register sensor]
    let r' := r.after
      [.register { sensor with keyMembers := none },
        .register { name := "Mode", body := .struct [] },
        .register { name := "Stop", body := .enumeration [⟨"OPEN", 0⟩] }, .use 1]
    r.maxKeySize ⟨2, "Sensor"⟩ = .ok 2 ∧
      r'.names = ["Route", "Trip", "Sensor", "Mode", "Stop"] ∧
      r'.maxKeySize ⟨1, "Trip"⟩ = .ok 4 ∧
      r'.maxKeySize ⟨0, "Route"⟩ =
        .error (Cause.unencodable "Route" "discriminator 'Mode' is not an enum").fault ∧
      Unchanged r r' ⟨2, "Sensor"⟩ ∧ r'.catalog.measureKey r'.config 2 = .ok 2 :=
  have hsize : (after { } [.register route, .register trip, .register sensor]).maxKeySize
      ⟨2, "Sensor"⟩ = .ok 2 := rfl
  have h := unchanged_after hsize
    [.register { sensor with keyMembers := none },
      .register { name := "Mode", body := .struct [] },
      .register { name := "Stop", body := .enumeration [⟨"OPEN", 0⟩] }, .use 1]
  ⟨hsize, by decide, by decide, by decide, h.2.1, h.2.2.1⟩

end Cdr.Registry
