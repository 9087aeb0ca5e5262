import Cdr.Proofs.Extending
import Cdr.Registry.Catalog

/-! Coherent catalogs.  In a coherent catalog the index is the inverse of the names, every type is
in the state that a build against the present catalog gives, and the waiting table lists the types
that wait for a name that is not registered.  While the types that waited for a new name are built
again, this holds of all types but those whose turn is still to come. -/

namespace Cdr

/-- The state that the outcome of a build gives to a type. -/
def BuildState.ofOutcome : Except Obstacle Layouts → BuildState
  | .ok layouts => .built layouts
  | .error (.awaits name) => .waiting name
  | .error (.fatal fault) => .broken fault

namespace Dictionary

variable {α : Type}

theorem find?_filter_of_ne {name other : String} (h : other ≠ name) (entries : List (String × α)) :
    find? other (entries.filter (·.1 != name)) = find? other entries := by
  induction entries with
  | nil => rfl
  | cons e entries ih =>
    rw [List.filter_cons]
    split
    · simp only [find?, ih]
    · rename_i hname
      have heq : e.1 = name := by simpa using hname
      rw [ih, find?, if_neg (heq ▸ h)]

theorem filter_of_find?_eq_none {name : String} {entries : List (String × α)}
    (h : find? name entries = none) : entries.filter (·.1 != name) = entries := by
  induction entries with
  | nil => rfl
  | cons e entries ih =>
    rw [find?] at h
    split at h
    · cases h
    · rename_i hne
      have hkeep : (e.1 != name) = true := bne_iff_ne.mpr (Ne.symm hne)
      rw [List.filter_cons, if_pos hkeep, ih h]

/-- A new name is taken out again without a trace. -/
theorem filter_insert {name : String} {entries : List (String × α)}
    (h : find? name entries = none) (value : α) :
    (insert name value entries).filter (·.1 != name) = entries := by
  induction entries with
  | nil => simp [insert]
  | cons e entries ih =>
    have hrest := filter_of_find?_eq_none h
    obtain ⟨n, v⟩ := e
    rw [find?] at h
    split at h
    · cases h
    · rename_i hne
      have hkeep : (n != name) = true := bne_iff_ne.mpr (Ne.symm hne)
      rw [insert]
      split
      · rwa [List.filter_cons_of_neg (by simp)]
      · rw [List.filter_cons, if_pos hkeep, ih h]

end Dictionary

namespace Catalog

/-- The types other than those in `pending` are where the index says, and in the state that a build
gives. -/
structure Coherent (c : Catalog) (pending : List Nat) : Prop where
  index : ∀ name id, c.find? name = some id ↔
    ∃ e : Entry, c.entries[id]? = some e ∧ e.declaration.name = name
  valid : ∀ (id : Nat) (e : Entry), c.entries[id]? = some e → e.declaration.validate = .ok ()
  state : ∀ (id : Nat) (e : Entry), c.entries[id]? = some e → id ∉ pending →
    e.state = .ofOutcome (Layouts.build c.resolve e.declaration)
  waiting : ∀ name, c.find? name = none → ∀ id, id ∈ c.waiters name ↔
    id ∉ pending ∧ ∃ e : Entry, c.entries[id]? = some e ∧ e.state = .waiting name
  distinct : ∀ name, c.find? name = none → (c.waiters name).Nodup

theorem coherent_empty : Coherent { } [] where
  index _ _ := ⟨fun h => (nomatch h), fun ⟨_, h, _⟩ => (nomatch h)⟩
  valid _ _ h := nomatch h
  state _ _ h := nomatch h
  waiting _ _ _ := ⟨fun h => (nomatch h), fun ⟨_, _, h, _⟩ => (nomatch h)⟩
  distinct _ _ := List.nodup_nil

section Basics

variable {c : Catalog} {pending : List Nat} {name : String} {id : Nat} {d : Declaration} {e : Entry}

theorem resolve_eq_some (h : c.Coherent pending) :
    c.resolve name = some (id, d) ↔
      ∃ e, c.entries[id]? = some e ∧ e.declaration = d ∧ d.name = name := by
  simp only [resolve, Option.bind_eq_bind, Option.bind_eq_some_iff, Option.pure_def,
    Option.some.injEq, Prod.mk.injEq]
  constructor
  · rintro ⟨i, hi, e, he, rfl, rfl⟩
    obtain ⟨e', he', hname⟩ := (h.index _ _).mp hi
    obtain rfl : e = e' := by simpa [he] using he'
    exact ⟨e, he, rfl, hname⟩
  · rintro ⟨e, he, rfl, rfl⟩
    exact ⟨id, (h.index _ _).mpr ⟨e, he, rfl⟩, e, he, rfl, rfl⟩

theorem resolve_eq_none (h : c.Coherent pending) : c.resolve name = none ↔ c.find? name = none := by
  constructor
  · intro hnone
    cases hfind : c.find? name with
    | none => rfl
    | some id =>
      obtain ⟨e, he, hname⟩ := (h.index _ _).mp hfind
      rw [(resolve_eq_some h).mpr ⟨e, he, rfl, hname⟩] at hnone
      cases hnone
  · intro hnone
    simp [resolve, hnone]

/-- A build waits only for names that are not registered. -/
theorem find?_of_awaits (h : c.Coherent pending)
    (hbuild : Layouts.build c.resolve d = .error (.awaits name)) : c.find? name = none := by
  have hkept := Layouts.kept_build (fun _ _ _ hr => hr : Extends id c.resolve c.resolve) d
  rw [hbuild] at hkept
  exact (resolve_eq_none h).mp hkept.1

end Basics

/-- The types are the same, up to their states. -/
structure SameTypes (c c' : Catalog) : Prop where
  index : c'.index = c.index
  types : ∀ id : Nat, (c'.entries[id]?).map (fun e => (e.declaration, e.maxKeySize)) =
    (c.entries[id]?).map fun e => (e.declaration, e.maxKeySize)

namespace SameTypes

variable {c c' c'' : Catalog}

protected theorem refl (c : Catalog) : SameTypes c c := ⟨rfl, fun _ => rfl⟩

protected theorem trans (h : SameTypes c c') (h' : SameTypes c' c'') : SameTypes c c'' :=
  ⟨h'.index.trans h.index, fun id => (h'.types id).trans (h.types id)⟩

theorem find?_eq (h : SameTypes c c') (name : String) : c'.find? name = c.find? name := by
  rw [find?, h.index, find?]

theorem exists_entry (h : SameTypes c c') {id : Nat} {e' : Entry} (he : c'.entries[id]? = some e') :
    ∃ e, c.entries[id]? = some e ∧ e'.declaration = e.declaration ∧
      e'.maxKeySize = e.maxKeySize := by
  have hmap := h.types id
  rw [he] at hmap
  cases hc : c.entries[id]? with
  | none => rw [hc] at hmap; cases hmap
  | some e =>
    rw [hc] at hmap
    have := Prod.mk.inj (Option.some.inj hmap)
    exact ⟨e, rfl, this.1, this.2⟩

protected theorem symm (h : SameTypes c c') : SameTypes c' c :=
  ⟨h.index.symm, fun id => (h.types id).symm⟩

theorem resolve_eq (h : SameTypes c c') : c'.resolve = c.resolve := by
  funext name
  simp only [resolve, h.find?_eq]
  cases hfind : c.find? name with
  | none => rfl
  | some id =>
    have hmap := h.types id
    simp only [Option.bind_eq_bind, Option.bind_some]
    cases hc : c.entries[id]? with
    | none =>
      rw [hc] at hmap
      rw [Option.map_eq_none_iff.mp hmap]
    | some e =>
      obtain ⟨e', he', hd, -⟩ := h.symm.exists_entry hc
      rw [he', Option.bind_some, Option.bind_some, hd]

theorem index_iff (h : SameTypes c c') {name : String} {id : Nat} :
    (∃ e, c'.entries[id]? = some e ∧ e.declaration.name = name) ↔
      ∃ e, c.entries[id]? = some e ∧ e.declaration.name = name := by
  constructor
  · rintro ⟨e', he', rfl⟩
    obtain ⟨e, he, hd, -⟩ := h.exists_entry he'
    exact ⟨e, he, by rw [hd]⟩
  · rintro ⟨e, he, rfl⟩
    obtain ⟨e', he', hd, -⟩ := h.symm.exists_entry he
    exact ⟨e', he', by rw [hd]⟩

end SameTypes

/-- Where the types are the same, only states and waiting types are left to check. -/
theorem Coherent.of_sameTypes {c c' : Catalog} {pending pending' : List Nat}
    (h : c.Coherent pending) (hsame : SameTypes c c')
    (hstate : ∀ (id : Nat) (e : Entry), c'.entries[id]? = some e → id ∉ pending' →
      e.state = .ofOutcome (Layouts.build c.resolve e.declaration))
    (hwaiting : ∀ name, c.find? name = none → (∀ id, id ∈ c'.waiters name ↔
      id ∉ pending' ∧ ∃ e : Entry, c'.entries[id]? = some e ∧ e.state = .waiting name) ∧
        (c'.waiters name).Nodup) : c'.Coherent pending' where
  index name id := by rw [hsame.find?_eq, h.index, hsame.index_iff]
  valid id e' he' := by
    obtain ⟨e, he, hd, -⟩ := hsame.exists_entry he'
    rw [hd]
    exact h.valid id e he
  state := by rwa [hsame.resolve_eq]
  waiting name hname := (hwaiting name (by rwa [hsame.find?_eq] at hname)).1
  distinct name hname := (hwaiting name (by rwa [hsame.find?_eq] at hname)).2

theorem getElem?_setState_self {c : Catalog} {id : Nat} {e : Entry} (h : c.entries[id]? = some e)
    (state : BuildState) : (c.setState id state).entries[id]? = some { e with state := state } := by
  simp [setState, Array.getElem?_modify, h]

theorem getElem?_setState_of_ne (c : Catalog) {id other : Nat} (h : other ≠ id)
    (state : BuildState) : (c.setState id state).entries[other]? = c.entries[other]? := by
  simp [setState, Array.getElem?_modify, h.symm]

theorem sameTypes_setState (c : Catalog) (id : Nat) (state : BuildState) :
    SameTypes c (c.setState id state) := by
  refine ⟨rfl, fun i => ?_⟩
  simp only [setState, Array.getElem?_modify]
  split
  · cases c.entries[i]? <;> rfl
  · rfl

theorem sameTypes_awaitName (c : Catalog) (id : Nat) (name : String) :
    SameTypes c (c.awaitName id name) :=
  ⟨rfl, (sameTypes_setState c id (.waiting name)).types⟩

theorem waiters_awaitName_self (c : Catalog) (id : Nat) (name : String) :
    (c.awaitName id name).waiters name = c.waiters name ++ [id] := by
  simp [awaitName, waiters]

theorem waiters_awaitName_of_ne (c : Catalog) (id : Nat) {name other : String}
    (h : other ≠ name) : (c.awaitName id name).waiters other = c.waiters other := by
  simp [awaitName, waiters, Dictionary.find?_insert_of_ne h]

section Turns

variable {c : Catalog} {pending : List Nat} {id : Nat} {e : Entry}

/-- A type that is set to the state that a build gives is no longer pending. -/
theorem Coherent.setState (h : c.Coherent (id :: pending)) (he : c.entries[id]? = some e)
    {state : BuildState} (hstate : state = .ofOutcome (Layouts.build c.resolve e.declaration))
    (hwait : ∀ name, state ≠ .waiting name) : (c.setState id state).Coherent pending := by
  have hentry := getElem?_setState_self he state
  have hother : ∀ i, i ≠ id → (c.setState id state).entries[i]? = c.entries[i]? :=
    fun i hi => getElem?_setState_of_ne c hi state
  refine h.of_sameTypes (sameTypes_setState c id state) (fun i e' he' hi => ?_) fun name hname =>
    ⟨fun i => ?_, h.distinct name hname⟩
  · by_cases heq : i = id
    · subst heq
      obtain rfl : _ = e' := by simpa [hentry] using he'
      exact hstate
    · rw [hother i heq] at he'
      exact h.state i e' he' (by simp [heq, hi])
  · show i ∈ c.waiters name ↔ _
    rw [h.waiting name hname i, List.mem_cons, not_or]
    by_cases heq : i = id
    · subst heq
      rw [hentry]
      simp [hwait name]
    · rw [hother i heq]
      simp [heq]

/-- A type that is set waiting as a build says is no longer pending. -/
theorem Coherent.awaitName (h : c.Coherent (id :: pending)) (hid : id ∉ pending)
    (he : c.entries[id]? = some e) {name : String}
    (hbuild : Layouts.build c.resolve e.declaration = .error (.awaits name)) :
    (c.awaitName id name).Coherent pending := by
  have hentry : (c.awaitName id name).entries[id]? = some { e with state := .waiting name } :=
    getElem?_setState_self he (.waiting name)
  have hother : ∀ i, i ≠ id → (c.awaitName id name).entries[i]? = c.entries[i]? :=
    fun i hi => getElem?_setState_of_ne c hi (.waiting name)
  refine h.of_sameTypes (sameTypes_awaitName c id name) (fun i e' he' hi => ?_)
    fun other hnone => ?_
  · by_cases heq : i = id
    · subst heq
      obtain rfl : _ = e' := by simpa [hentry] using he'
      rw [hbuild]
      rfl
    · rw [hother i heq] at he'
      exact h.state i e' he' (by simp [heq, hi])
  have hiff := h.waiting other hnone
  simp only [List.mem_cons, not_or] at hiff
  by_cases ho : other = name
  · subst ho
    rw [waiters_awaitName_self]
    refine ⟨fun i => ?_, ?_⟩
    · rw [List.mem_append, List.mem_singleton, hiff]
      by_cases heq : i = id
      · subst heq
        rw [hentry]
        simp [hid]
      · rw [hother i heq]
        simp [heq]
    · rw [List.nodup_append]
      refine ⟨h.distinct other hnone, List.pairwise_singleton _ _, fun i hi j hj => ?_⟩
      rw [List.mem_singleton.mp hj]
      exact ((hiff i).mp hi).1.1
  · rw [waiters_awaitName_of_ne c id ho]
    refine ⟨fun i => ?_, h.distinct other hnone⟩
    rw [hiff]
    by_cases heq : i = id
    · subst heq
      rw [hentry]
      simp [Ne.symm ho]
    · rw [hother i heq]
      simp [heq]

theorem Coherent.of_none (h : c.Coherent (id :: pending)) (hnone : c.entries[id]? = none) :
    c.Coherent pending := by
  have hne : ∀ i e, c.entries[i]? = some e → i ≠ id := fun i e he heq => by
    rw [heq, hnone] at he
    cases he
  refine h.of_sameTypes (SameTypes.refl c) (fun i e he hi => ?_) fun name hname =>
    ⟨fun i => ?_, h.distinct name hname⟩
  · exact h.state i e he (by simp [hne i e he, hi])
  · rw [h.waiting name hname i, List.mem_cons, not_or]
    constructor
    · exact fun ⟨hi, he⟩ => ⟨hi.2, he⟩
    · exact fun ⟨hi, e, he, hstate⟩ => ⟨⟨hne i e he, hi⟩, e, he, hstate⟩

theorem Coherent.build {c' : Catalog} (h : c.Coherent (id :: pending)) (hid : id ∉ pending)
    (hok : c.build id = .ok c') : c'.Coherent pending ∧ SameTypes c c' := by
  unfold Catalog.build at hok
  split at hok
  · rename_i hnone
    cases hok
    exact ⟨h.of_none hnone, SameTypes.refl c⟩
  · rename_i e he
    split at hok
    · rename_i layouts hbuild
      cases hok
      exact ⟨h.setState he (by rw [hbuild]; rfl) (by simp), sameTypes_setState _ _ _⟩
    · rename_i name hbuild
      cases hok
      exact ⟨h.awaitName hid he hbuild, sameTypes_awaitName _ _ _⟩
    · cases hok

theorem Coherent.rebuild (h : c.Coherent (id :: pending)) (hid : id ∉ pending) :
    (c.rebuild id).Coherent pending ∧ SameTypes c (c.rebuild id) := by
  unfold Catalog.rebuild
  split
  · rename_i c' hok
    exact h.build hid hok
  · rename_i fault hfault
    unfold Catalog.build at hfault
    split at hfault
    · cases hfault
    · rename_i e he
      split at hfault
      · cases hfault
      · cases hfault
      · rename_i hbuild
        cases hfault
        exact ⟨h.setState he (by rw [hbuild]; rfl) (by simp), sameTypes_setState _ _ _⟩

/-- After all pending types have had their turn the catalog is coherent. -/
theorem Coherent.foldl_rebuild (h : c.Coherent pending) (hnodup : pending.Nodup) :
    (pending.foldl Catalog.rebuild c).Coherent [] ∧
      SameTypes c (pending.foldl Catalog.rebuild c) := by
  induction pending generalizing c with
  | nil => exact ⟨h, SameTypes.refl c⟩
  | cons id pending ih =>
    obtain ⟨hid, hrest⟩ := List.nodup_cons.mp hnodup
    obtain ⟨hc, hsame⟩ := h.rebuild hid
    obtain ⟨hfold, hsame'⟩ := ih hc hrest
    exact ⟨hfold, hsame.trans hsame'⟩

end Turns

section Registration

variable {c : Catalog} {d : Declaration}

theorem getElem?_push_of_ne (c : Catalog) (d : Declaration) {id : Nat} (h : id ≠ c.entries.size) :
    (c.push d).entries[id]? = c.entries[id]? := by
  simp [push, Array.getElem?_push, h]

theorem getElem?_push_size (c : Catalog) (d : Declaration) :
    (c.push d).entries[c.entries.size]? = some ⟨d, .waiting "", none⟩ := by
  simp [push]

theorem find?_push_self (c : Catalog) (d : Declaration) :
    (c.push d).find? d.name = some c.entries.size := Dictionary.find?_insert_self _ _ _

theorem find?_push_of_ne (c : Catalog) (d : Declaration) {name : String} (h : name ≠ d.name) :
    (c.push d).find? name = c.find? name := Dictionary.find?_insert_of_ne h _ _

theorem ne_size_of_getElem? {id : Nat} {e : Entry} (h : c.entries[id]? = some e) :
    id ≠ c.entries.size := by
  rintro rfl
  simp at h

/-- A new type is taken out of the catalog again without a trace. -/
theorem retract_push (c : Catalog) {d : Declaration} (hnew : c.find? d.name = none) :
    (c.push d).retract d.name = c := by
  simp only [retract, push, Array.pop_push, Dictionary.filter_insert hnew]

/-- A new name leaves what other names resolve to. -/
theorem extends_push (h : c.Coherent []) (hnew : c.find? d.name = none) :
    Extends id c.resolve (c.push d).resolve := by
  intro name i declaration hname
  obtain ⟨e, he, hd, hdn⟩ := (resolve_eq_some h).mp hname
  have hfind := (h.index name i).mpr ⟨e, he, by rw [hd, hdn]⟩
  have hne : name ≠ d.name := by
    rintro rfl
    rw [hnew] at hfind
    cases hfind
  simp only [resolve, find?_push_of_ne c d hne, hfind, Option.bind_eq_bind, Option.bind_some,
    getElem?_push_of_ne c d (ne_size_of_getElem? he), he, hd]
  rfl

theorem getElem?_of_push {id : Nat} {e : Entry} (h : (c.push d).entries[id]? = some e)
    (hne : id ≠ c.entries.size) : c.entries[id]? = some e := by
  rwa [getElem?_push_of_ne c d hne] at h

theorem eq_of_getElem?_push_size {e : Entry}
    (h : (c.push d).entries[c.entries.size]? = some e) : e = ⟨d, .waiting "", none⟩ := by
  rw [getElem?_push_size] at h
  exact (Option.some.inj h).symm

/-- A size that is kept after a type is added was kept before. -/
theorem SameTypes.kept_of_push {c' : Catalog} (h : SameTypes (c.push d) c') {id size : Nat}
    {e : Entry} (he : c'.entries[id]? = some e) (hsize : e.maxKeySize = some size) :
    ∃ e₀, c.entries[id]? = some e₀ ∧ e₀.maxKeySize = some size := by
  obtain ⟨e₀, he₀, -, hs⟩ := h.exists_entry he
  rw [hs] at hsize
  by_cases hid : id = c.entries.size
  · subst hid
    rw [eq_of_getElem?_push_size he₀] at hsize
    cases hsize
  · exact ⟨e₀, getElem?_of_push he₀ hid, hsize⟩

theorem index_push (h : c.Coherent []) (hnew : c.find? d.name = none) (name : String) (i : Nat) :
    (c.push d).find? name = some i ↔
      ∃ e : Entry, (c.push d).entries[i]? = some e ∧ e.declaration.name = name := by
  by_cases hname : name = d.name
  · subst hname
    rw [find?_push_self, Option.some.injEq]
    constructor
    · rintro rfl
      exact ⟨_, getElem?_push_size c d, rfl⟩
    · rintro ⟨e, he, hed⟩
      by_cases heq : i = c.entries.size
      · exact heq.symm
      · rw [(h.index d.name i).mpr ⟨e, getElem?_of_push he heq, hed⟩] at hnew
        cases hnew
  · rw [find?_push_of_ne c d hname, h.index]
    constructor
    · rintro ⟨e, he, hed⟩
      exact ⟨e, by rwa [getElem?_push_of_ne c d (ne_size_of_getElem? he)], hed⟩
    · rintro ⟨e, he, rfl⟩
      refine ⟨e, getElem?_of_push he ?_, rfl⟩
      rintro rfl
      rw [eq_of_getElem?_push_size he] at hname
      exact hname rfl

/-- A new name changes the builds only of the types that waited for it. -/
theorem build_push (h : c.Coherent []) (hnew : c.find? d.name = none) {i : Nat} {e : Entry}
    (he : c.entries[i]? = some e) (hi : i ∉ c.waiters d.name) :
    Layouts.build (c.push d).resolve e.declaration = Layouts.build c.resolve e.declaration := by
  have hextends := extends_push h hnew
  refine Layouts.build_eq_of_extends hextends fun name hawaits => ?_
  have hstate := h.state i e he List.not_mem_nil
  have hkept := Layouts.kept_build hextends e.declaration
  rw [hawaits] at hstate hkept
  have hname : name ≠ d.name := by
    rintro rfl
    exact hi ((h.waiting d.name hnew i).mpr ⟨List.not_mem_nil, e, he, hstate⟩)
  have hfind : (c.push d).find? name = none := by
    rw [find?_push_of_ne c d hname]
    exact (resolve_eq_none h).mp hkept.1
  simp [resolve, hfind]

/-- A type waits for a name that is still unknown as it did before. -/
theorem waiting_push (h : c.Coherent []) (hnew : c.find? d.name = none) {name : String}
    (hne : name ≠ d.name) (hname : c.find? name = none) (i : Nat) :
    i ∈ c.waiters name ↔ i ∉ c.entries.size :: c.waiters d.name ∧
      ∃ e : Entry, (c.push d).entries[i]? = some e ∧ e.state = .waiting name := by
  rw [h.waiting name hname i, List.mem_cons, not_or]
  constructor
  · rintro ⟨-, e, he, hstate⟩
    have hi := ne_size_of_getElem? he
    refine ⟨⟨hi, fun hmem => ?_⟩, e, by rwa [getElem?_push_of_ne c d hi], hstate⟩
    obtain ⟨-, e', he', hstate'⟩ := (h.waiting d.name hnew i).mp hmem
    obtain rfl : e = e' := Option.some.inj (he.symm.trans he')
    rw [hstate] at hstate'
    exact hne (BuildState.waiting.inj hstate')
  · rintro ⟨⟨hi, -⟩, e, he, hstate⟩
    exact ⟨List.not_mem_nil, e, getElem?_of_push he hi, hstate⟩

/-- With a new type, that type and the types that waited for it are left to build. -/
theorem Coherent.push (h : c.Coherent []) (hnew : c.find? d.name = none)
    (hvalid : d.validate = .ok ()) :
    (c.push d).Coherent (c.entries.size :: c.waiters d.name) := by
  have hunknown : ∀ name, (c.push d).find? name = none → name ≠ d.name ∧ c.find? name = none := by
    intro name hname
    have hne : name ≠ d.name := by
      rintro rfl
      rw [find?_push_self] at hname
      cases hname
    exact ⟨hne, by rwa [find?_push_of_ne c d hne] at hname⟩
  refine ⟨index_push h hnew, fun i e he => ?_, fun i e he hi => ?_, fun name hname => ?_,
    fun name hname => h.distinct name (hunknown name hname).2⟩
  · by_cases heq : i = c.entries.size
    · subst heq
      rw [eq_of_getElem?_push_size he]
      exact hvalid
    · exact h.valid i e (getElem?_of_push he heq)
  · rw [List.mem_cons, not_or] at hi
    have hold := getElem?_of_push he hi.1
    rw [build_push h hnew hold hi.2]
    exact h.state i e hold List.not_mem_nil
  · obtain ⟨hne, hnone⟩ := hunknown name hname
    exact waiting_push h hnew hne hnone

/-- Taking a registered name out of the waiting table leaves the catalog coherent. -/
theorem Coherent.forget {pending : List Nat} (h : c.Coherent pending) {name : String}
    (hname : c.find? name ≠ none) :
    Coherent { c with waiting := c.waiting.filter (·.1 != name) } pending := by
  have hwaiters : ∀ other, c.find? other = none →
      waiters { c with waiting := c.waiting.filter (·.1 != name) } other = c.waiters other := by
    intro other hother
    have hne : other ≠ name := by
      rintro rfl
      exact hname hother
    simp [waiters, Dictionary.find?_filter_of_ne hne]
  refine h.of_sameTypes ⟨rfl, fun _ => rfl⟩ h.state fun other hother => ?_
  rw [hwaiters other hother]
  exact ⟨h.waiting other hother, h.distinct other hother⟩

/-- Waking the types that waited for a new name makes the catalog coherent again. -/
theorem Coherent.wake {pending : List Nat} (h : c.Coherent pending) {name : String}
    (hname : c.find? name ≠ none) (hpending : c.waiters name = pending) (hnodup : pending.Nodup) :
    (c.wake name).Coherent [] ∧ SameTypes c (c.wake name) := by
  unfold Catalog.wake
  rw [hpending]
  -- The name is registered by now, so nothing is said of its row in the waiting table.
  have hforget : SameTypes c { c with waiting := c.waiting.filter (·.1 != name) } :=
    ⟨rfl, fun _ => rfl⟩
  obtain ⟨hcoherent, hsame⟩ := (h.forget hname).foldl_rebuild hnodup
  exact ⟨hcoherent, hforget.trans hsame⟩

theorem waiters_build {pending : List Nat} (h : c.Coherent pending) {i : Nat} {c' : Catalog}
    (hok : c.build i = .ok c') {name : String} (hname : c.find? name ≠ none) :
    c'.waiters name = c.waiters name := by
  unfold Catalog.build at hok
  split at hok
  · cases hok
    rfl
  · rename_i e he
    split at hok
    · cases hok
      rfl
    · rename_i awaited hbuild
      cases hok
      refine waiters_awaitName_of_ne c _ ?_
      rintro rfl
      exact hname (find?_of_awaits h hbuild)
    · cases hok

/-- When a new type is built, the types that waited for it are still to be woken. -/
theorem Coherent.push_build (h : c.Coherent []) (hnew : c.find? d.name = none)
    (hvalid : d.validate = .ok ()) {built : Catalog}
    (hok : (c.push d).build c.entries.size = .ok built) :
    built.Coherent (c.waiters d.name) ∧ SameTypes (c.push d) built ∧
      built.find? d.name ≠ none ∧ built.waiters d.name = c.waiters d.name := by
  have hpush := h.push hnew hvalid
  have hregistered : (c.push d).find? d.name ≠ none := by simp [find?_push_self]
  have hfresh : c.entries.size ∉ c.waiters d.name := fun hmem => by
    obtain ⟨-, e, he, -⟩ := (h.waiting d.name hnew _).mp hmem
    exact ne_size_of_getElem? he rfl
  obtain ⟨hbuilt, hsame⟩ := hpush.build hfresh hok
  exact ⟨hbuilt, hsame, by rwa [hsame.find?_eq], waiters_build hpush hok hregistered⟩

/-- Building a new type and waking those that waited for it makes the catalog coherent again. -/
theorem Coherent.push_wake (h : c.Coherent []) (hnew : c.find? d.name = none)
    (hvalid : d.validate = .ok ()) {built : Catalog}
    (hok : (c.push d).build c.entries.size = .ok built) :
    (built.wake d.name).Coherent [] ∧ SameTypes (c.push d) (built.wake d.name) := by
  obtain ⟨hbuilt, hsame, hregistered, hwaiters⟩ := h.push_build hnew hvalid hok
  obtain ⟨hwake, hsame'⟩ := hbuilt.wake hregistered hwaiters (h.distinct d.name hnew)
  exact ⟨hwake, hsame.trans hsame'⟩

end Registration

end Catalog

end Cdr
