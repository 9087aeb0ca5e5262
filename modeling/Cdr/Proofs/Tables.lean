import Cdr.Proofs.Dictionaries
import Cdr.Proofs.Reachability
import Mathlib.Data.List.Nodup

/-! The tables of a catalog that registration reaches.  The index and the waiting table keep each
name once, and a name leaves the waiting table when it is registered.  With coherence this says that
the states of the types, the index and the waiting table are what building all types from scratch
against the present catalog would make them. -/

namespace Cdr

/-- The outcome of a build that gives a state to a type. -/
def BuildState.outcome : BuildState → Except Obstacle Layouts
  | .built layouts => .ok layouts
  | .waiting name => .error (.awaits name)
  | .broken fault => .error (.fatal fault)

@[simp] theorem BuildState.outcome_ofOutcome (out : Except Obstacle Layouts) :
    (BuildState.ofOutcome out).outcome = out := by
  match out with
  | .ok _ => rfl
  | .error (.awaits _) => rfl
  | .error (.fatal _) => rfl

namespace Catalog

variable {c c' : Catalog} {name : String} {id : Nat} {e : Entry} {d : Declaration}

/-- The waiting types, each with the name that it waits for. -/
def waits (c : Catalog) : List (String × Nat) :=
  c.waiting.flatMap fun row => row.2.map fun id => (row.1, id)

/-- The tables keep each name once, and types wait only for names that are not registered.  The
name that is just being registered, if any, may still have its row. -/
structure Tidy (c : Catalog) (registering : Option String) : Prop where
  index : Dictionary.Sorted c.index
  waiting : Dictionary.Sorted c.waiting
  unregistered : ∀ row ∈ c.waiting, row.1 ∉ registering → c.find? row.1 = none

theorem tidy_empty : Tidy { } none where
  index := List.Pairwise.nil
  waiting := List.Pairwise.nil
  unregistered _ h := nomatch h

section Builds

variable {registering : Option String}

theorem Tidy.of_eq (h : c.Tidy registering) (hindex : c'.index = c.index)
    (hwaiting : c'.waiting = c.waiting) : c'.Tidy registering where
  index := by rw [hindex]; exact h.index
  waiting := by rw [hwaiting]; exact h.waiting
  unregistered := by
    simp only [find?, hindex, hwaiting]
    exact h.unregistered

theorem Tidy.awaitName (h : c.Tidy registering) (hname : c.find? name = none) (id : Nat) :
    (c.awaitName id name).Tidy registering where
  index := h.index
  waiting := Dictionary.sorted_insert h.waiting _ _
  unregistered row hrow hne := by
    rcases Dictionary.mem_insert hrow with rfl | hold
    · exact hname
    · exact h.unregistered row hold hne

theorem Tidy.build {pending : List Nat} (h : c.Tidy registering) (hc : c.Coherent pending)
    (hok : c.build id = .ok c') : c'.Tidy registering := by
  unfold Catalog.build at hok
  split at hok
  · cases hok
    exact h
  · split at hok
    · cases hok
      exact h.of_eq rfl rfl
    · rename_i awaited hbuild
      cases hok
      exact h.awaitName (find?_of_awaits hc hbuild) id
    · cases hok

theorem Tidy.rebuild {pending : List Nat} (h : c.Tidy registering) (hc : c.Coherent pending) :
    (c.rebuild id).Tidy registering := by
  unfold Catalog.rebuild
  split
  · rename_i hok
    exact h.build hc hok
  · exact h.of_eq rfl rfl

theorem Tidy.foldl_rebuild {pending : List Nat} (h : c.Tidy registering) (hc : c.Coherent pending)
    (hnodup : pending.Nodup) : (pending.foldl Catalog.rebuild c).Tidy registering := by
  induction pending generalizing c with
  | nil => exact h
  | cons id pending ih =>
    obtain ⟨hid, hrest⟩ := List.nodup_cons.mp hnodup
    exact ih (h.rebuild hc) (hc.rebuild hid).1 hrest

end Builds

section Registration

/-- A new name may still have types that wait for it. -/
theorem Tidy.push (h : c.Tidy none) (d : Declaration) : (c.push d).Tidy (some d.name) where
  index := Dictionary.sorted_insert h.index _ _
  waiting := h.waiting
  unregistered row hrow hne := by
    rw [find?_push_of_ne c d fun heq => hne (heq ▸ rfl)]
    exact h.unregistered row hrow (Option.not_mem_none _)

/-- No row is left of a name whose waiting types are woken. -/
theorem Tidy.forget (h : c.Tidy (some name)) :
    Tidy { c with waiting := c.waiting.filter (·.1 != name) } none where
  index := h.index
  waiting := h.waiting.sublist List.filter_sublist
  unregistered row hrow _ := by
    obtain ⟨hrow, hne⟩ := List.mem_filter.mp hrow
    have hne : row.1 ≠ name := by simpa using hne
    exact h.unregistered row hrow fun hmem => hne (Option.mem_some.mp hmem).symm

theorem Tidy.push_wake (h : c.Tidy none) (hc : c.Coherent []) (hnew : c.find? d.name = none)
    (hvalid : d.validate = .ok ()) {built : Catalog}
    (hok : (c.push d).build c.entries.size = .ok built) : (built.wake d.name).Tidy none := by
  obtain ⟨hbuilt, -, hregistered, hwaiters⟩ := hc.push_build hnew hvalid hok
  have htidy : built.Tidy (some d.name) := (h.push d).build (hc.push hnew hvalid) hok
  unfold Catalog.wake
  rw [hwaiters]
  exact htidy.forget.foldl_rebuild (hbuilt.forget hregistered) (hc.distinct d.name hnew)

theorem Tidy.foldl_keepKeySize (h : c.Tidy none) (config : Config) (ids : List Nat) :
    (ids.foldl (Catalog.keepKeySize config) c).Tidy none := by
  induction ids generalizing c with
  | nil => exact h
  | cons id ids ih =>
    have hsame := sameStates_keepKeySize config c id
    exact ih (h.of_eq hsame.index hsame.waiting)

end Registration

section Coherence

/-- A type waits only for a name that is not registered. -/
theorem Coherent.find?_of_waiting (h : c.Coherent []) (he : c.entries[id]? = some e)
    (hstate : e.state = .waiting name) : c.find? name = none := by
  have hofOutcome := h.state id e he List.not_mem_nil
  rw [hstate] at hofOutcome
  have hbuild : Layouts.build c.resolve e.declaration = .error (.awaits name) := by
    rw [← BuildState.outcome_ofOutcome (Layouts.build c.resolve e.declaration), ← hofOutcome]
    rfl
  exact find?_of_awaits h hbuild

/-- Of the types in a coherent catalog, only those that are broken stop the search for missing
names. -/
theorem Coherent.blocked_eq_some (h : c.Coherent []) (he : c.entries[id]? = some e)
    {fault : Fault} : c.blocked e = some fault ↔ e.state = .broken fault := by
  unfold blocked
  match hstate : e.state with
  | .broken _ => simp
  | .waiting name => simp [h.find?_of_waiting he hstate]
  | .built _ => simp

theorem Coherent.build_eq_outcome (h : c.Coherent []) (he : c.entries[id]? = some e) :
    Layouts.build c.resolve e.declaration = e.state.outcome := by
  rw [h.state id e he List.not_mem_nil, BuildState.outcome_ofOutcome]

theorem Coherent.mem_index (h : c.Coherent []) (htidy : c.Tidy none) :
    (name, id) ∈ c.index ↔ ∃ e : Entry, c.entries[id]? = some e ∧ e.declaration.name = name :=
  htidy.index.mem_iff.trans (h.index name id)

theorem mem_waits_iff : (name, id) ∈ c.waits ↔ ∃ ids, (name, ids) ∈ c.waiting ∧ id ∈ ids := by
  simp [waits]

/-- The waiting table lists the waiting types under the names that they wait for. -/
theorem Coherent.mem_waits (h : c.Coherent []) (htidy : c.Tidy none) :
    (name, id) ∈ c.waits ↔ ∃ e : Entry, c.entries[id]? = some e ∧ e.state = .waiting name := by
  rw [mem_waits_iff]
  constructor
  · rintro ⟨ids, hrow, hid⟩
    have hname := htidy.unregistered _ hrow (Option.not_mem_none _)
    refine ((h.waiting name hname id).mp ?_).2
    rwa [waiters, htidy.waiting.mem_iff.mp hrow]
  · rintro ⟨e, he, hstate⟩
    have hid := (h.waiting name (h.find?_of_waiting he hstate) id).mpr
      ⟨List.not_mem_nil, e, he, hstate⟩
    unfold waiters at hid
    cases hfind : Dictionary.find? name c.waiting with
    | none => simp [hfind] at hid
    | some ids =>
      rw [hfind] at hid
      exact ⟨ids, htidy.waiting.mem_iff.mpr hfind, hid⟩

theorem Coherent.nodup_waits (h : c.Coherent []) (htidy : c.Tidy none) :
    (c.waits.map (·.2)).Nodup := by
  have hids : c.waits.map (·.2) = c.waiting.flatMap (·.2) := by
    simp [waits, List.map_flatMap, Function.comp_def]
  rw [hids, List.nodup_flatMap]
  constructor
  · intro row hrow
    have hdistinct := h.distinct row.1 (htidy.unregistered _ hrow (Option.not_mem_none _))
    rwa [waiters, htidy.waiting.mem_iff.mp (show (row.1, row.2) ∈ c.waiting from hrow)]
      at hdistinct
  · -- A type in two rows would wait for two names.
    refine htidy.waiting.imp_of_mem fun {a b} ha hb hlt =>
      List.disjoint_left.mpr fun id hida hidb => ?_
    obtain ⟨e, he, hstate⟩ := (h.mem_waits htidy).mp (mem_waits_iff.mpr ⟨a.2, ha, hida⟩)
    obtain ⟨e', he', hstate'⟩ := (h.mem_waits htidy).mp (mem_waits_iff.mpr ⟨b.2, hb, hidb⟩)
    obtain rfl : e = e' := by simpa [he] using he'
    rw [hstate] at hstate'
    exact hlt.ne (BuildState.waiting.inj hstate')

end Coherence

end Catalog

namespace Registry

variable {config : Config} {r : Registry}

theorem tidy_afterRegister (hr : r.Sound) (htidy : r.catalog.Tidy none) (d : Declaration) :
    (r.afterRegister d).catalog.Tidy none := by
  rcases hr.afterRegister_cases d with hsame | ⟨c, hvalid, hresolve, hadd, hafter⟩
  · rwa [hsame]
  · rw [hafter]
    have hnew := (Catalog.resolve_eq_none hr.coherent).mp hresolve
    obtain ⟨built, hbuilt, hok⟩ := except_bind_eq_ok.mp hadd
    cases hok
    exact (htidy.push_wake hr.coherent hnew hvalid hbuilt).foldl_keepKeySize _ _

theorem Reachable.tidy (h : Reachable config r) : r.catalog.Tidy none := by
  induction h with
  | new => exact Catalog.tidy_empty
  | register d hr ih => exact tidy_afterRegister hr.sound ih d

/-- After any registrations every type is in the state that building it from scratch gives, the
index is the inverse of the names, and the waiting table lists each waiting type once, under the
name that it waits for, which is not registered. -/
theorem Reachable.upkeep (h : Reachable config r) :
    (∀ (id : Nat) (e : Entry), r.catalog.entries[id]? = some e →
      Layouts.build r.catalog.resolve e.declaration = e.state.outcome) ∧
    (∀ (name : String) (id : Nat), (name, id) ∈ r.catalog.index ↔
      ∃ e : Entry, r.catalog.entries[id]? = some e ∧ e.declaration.name = name) ∧
    (r.catalog.index.map (·.1)).Nodup ∧
    (∀ (name : String) (id : Nat), (name, id) ∈ r.catalog.waits ↔
      ∃ e : Entry, r.catalog.entries[id]? = some e ∧ e.state = .waiting name) ∧
    (r.catalog.waits.map (·.2)).Nodup ∧
    ∀ row ∈ r.catalog.waiting, r.catalog.find? row.1 = none := by
  have hcoherent := h.sound.coherent
  have htidy := h.tidy
  exact ⟨fun _ _ => hcoherent.build_eq_outcome, fun _ _ => hcoherent.mem_index htidy,
    htidy.index.nodup, fun _ _ => hcoherent.mem_waits htidy, hcoherent.nodup_waits htidy,
    fun row hrow => htidy.unregistered row hrow (Option.not_mem_none _)⟩

/-- A union over a type that has to be an enumeration. -/
def route : Declaration :=
  { name := "Route", body := .union ⟨.named "Mode", [], some ⟨"text", .string none⟩, false⟩ }

/-- A type that refers to two others. -/
def trip : Declaration :=
  { name := "Trip", body := .struct [⟨"mode", .named "Mode"⟩, ⟨"stop", .named "Stop"⟩] }

/-- Two types wait for a name.  When it is registered as a struct, the union breaks and the other
type waits for the next name. -/
theorem upkeep_route_trip :
    let mode : Declaration := { name := "Mode", body := .struct [] }
    let waiting := afterRegister trip (afterRegister route { })
    let r := afterRegister mode waiting
    waiting.catalog.waits = [("Mode", 0), ("Mode", 1)] ∧ r.catalog.waits = [("Stop", 1)] ∧
      Layouts.build r.catalog.resolve route =
        .error (.fatal (Cause.unencodable "Route" "discriminator 'Mode' is not an enum").fault) ∧
      Layouts.build r.catalog.resolve trip = .error (.awaits "Stop") ∧
      Layouts.build r.catalog.resolve mode =
        .ok ⟨.struct "Mode" [], .struct "Mode" [], .struct "Mode" []⟩ ∧
      r.catalog.find? "Stop" = none :=
  have hr : Reachable { } (afterRegister { name := "Mode", body := .struct [] }
      (afterRegister trip (afterRegister route { }))) :=
    .register _ (.register trip (.register route .new))
  have h := hr.upkeep
  ⟨rfl, rfl, h.1 0 _ rfl, h.1 1 _ rfl, h.1 2 _ rfl, h.2.2.2.2.2 ("Stop", [1]) (by decide)⟩

end Registry

end Cdr
