import Cdr.Proofs.Awaiting
import Cdr.Proofs.Tables
import Mathlib.Data.List.Perm.Subperm
import Mathlib.Data.List.TakeWhile
import Mathlib.Logic.Relation

/-! The types that a type reaches through references.  The search for missing names visits these
types and no others, each once, unless it meets one that is broken; so what it finds missing are the
names that they refer to and that are not registered.  A type that reaches only types that are built
is whole: nothing stands in the way of its use. -/

namespace Cdr.Catalog

/-- The type at a place refers to a name. -/
def Mentions (c : Catalog) (id : Nat) (name : String) : Prop :=
  ∃ e : Entry, c.entries[id]? = some e ∧ name ∈ e.declaration.referencedNames

/-- The type at a place refers to the registered type at the next. -/
def Refers (c : Catalog) (id next : Nat) : Prop :=
  ∃ name, c.Mentions id name ∧ c.find? name = some next

/-- References lead from one type to another, or it is the type itself. -/
def Reaches (c : Catalog) : Nat → Nat → Prop := Relation.ReflTransGen c.Refers

/-- The type at a place is broken by a fault. -/
def BrokenBy (c : Catalog) (id : Nat) (fault : Fault) : Prop :=
  ∃ e : Entry, c.entries[id]? = some e ∧ e.state = .broken fault

/-- No type that is reached is broken. -/
def Unbroken (c : Catalog) (id : Nat) : Prop :=
  ∀ next, c.Reaches id next → ∀ fault, ¬ c.BrokenBy next fault

/-- A type that is reached refers to the name, which is not registered. -/
def Lacks (c : Catalog) (id : Nat) (name : String) : Prop :=
  c.find? name = none ∧ ∃ next, c.Reaches id next ∧ c.Mentions next name

section Registered

variable {c : Catalog} {start id : Nat}

theorem find?_of_resolve {name : String} {d : Declaration} (h : c.resolve name = some (id, d)) :
    c.find? name = some id := by
  obtain ⟨found, hfind, hrest⟩ := Option.bind_eq_some_iff.mp h
  obtain ⟨e, -, hpair⟩ := Option.bind_eq_some_iff.mp hrest
  rw [hfind, (Prod.mk.inj (Option.some.inj hpair)).1]

theorem nameOf_eq {e : Entry} (he : c.entries[id]? = some e) :
    c.nameOf id = e.declaration.name := by
  rw [nameOf, he]

/-- A type is broken by the fault that its build gives. -/
theorem Coherent.build_of_brokenBy (h : c.Coherent []) {fault : Fault}
    (hbroken : c.BrokenBy id fault) : ∃ e : Entry, c.entries[id]? = some e ∧
      Layouts.build c.resolve e.declaration = .error (.fatal fault) := by
  obtain ⟨e, he, hstate⟩ := hbroken
  refine ⟨e, he, ?_⟩
  rw [h.build_eq_outcome he, hstate]
  rfl

/-- Only registered types are reached. -/
theorem Coherent.exists_entry_of_reaches (h : c.Coherent [])
    (hstart : ∃ e : Entry, c.entries[start]? = some e) (hreach : c.Reaches start id) :
    ∃ e : Entry, c.entries[id]? = some e := by
  induction hreach with
  | refl => exact hstart
  | tail _ hrefers _ =>
    obtain ⟨name, -, hfind⟩ := hrefers
    obtain ⟨e, he, -⟩ := (h.index _ _).mp hfind
    exact ⟨e, he⟩

end Registered

section AddMissing

variable {c : Catalog} {missing names : List String} {name : String}

theorem mem_addMissing : name ∈ c.addMissing missing names ↔
    name ∈ missing ∨ name ∈ names ∧ c.find? name = none := by
  unfold addMissing
  induction names generalizing missing with
  | nil => simp
  | cons other names ih =>
    rw [List.foldl_cons, ih]
    by_cases hknown : (c.find? other).isSome || missing.contains other
    · rw [if_pos hknown]
      rw [Bool.or_eq_true, List.contains_iff_mem, Option.isSome_iff_ne_none] at hknown
      constructor
      · rintro (hold | ⟨hmem, hnone⟩)
        · exact Or.inl hold
        · exact Or.inr ⟨List.mem_cons_of_mem _ hmem, hnone⟩
      · rintro (hold | ⟨hmem, hnone⟩)
        · exact Or.inl hold
        · rcases List.mem_cons.mp hmem with rfl | hrest
          · exact Or.inl (hknown.resolve_left (not_not_intro hnone))
          · exact Or.inr ⟨hrest, hnone⟩
    · rw [if_neg hknown]
      rw [Bool.or_eq_true, not_or, Option.not_isSome_iff_eq_none] at hknown
      rw [List.mem_append, List.mem_singleton, List.mem_cons]
      constructor
      · rintro ((hold | rfl) | ⟨hmem, hnone⟩)
        · exact Or.inl hold
        · exact Or.inr ⟨Or.inl rfl, hknown.1⟩
        · exact Or.inr ⟨Or.inr hmem, hnone⟩
      · rintro (hold | ⟨rfl | hmem, hnone⟩)
        · exact Or.inl (Or.inl hold)
        · exact Or.inl (Or.inr rfl)
        · exact Or.inr ⟨hmem, hnone⟩

theorem nodup_addMissing (h : missing.Nodup) : (c.addMissing missing names).Nodup := by
  unfold addMissing
  induction names generalizing missing with
  | nil => exact h
  | cons other names ih =>
    rw [List.foldl_cons]
    apply ih
    by_cases hknown : (c.find? other).isSome || missing.contains other
    · rwa [if_pos hknown]
    · rw [if_neg hknown]
      rw [Bool.or_eq_true, not_or, List.contains_iff_mem] at hknown
      rw [← List.concat_eq_append]
      exact h.concat hknown.2

end AddMissing

/-- What is known after some rounds of the search from a type: the types seen are distinct, reached
and not broken, what they refer to is seen or on the stack, and the missing names are theirs. -/
structure Searched (c : Catalog) (start : Nat) (seen : List Nat) (missing : List String)
    (stack : List Nat) : Prop where
  started : start ∈ seen ∨ start ∈ stack
  reached : ∀ id, id ∈ seen ∨ id ∈ stack → c.Reaches start id
  nodup : seen.Nodup
  unbroken : ∀ id ∈ seen, ∀ fault, ¬ c.BrokenBy id fault
  closed : ∀ id ∈ seen, ∀ next, c.Refers id next → next ∈ seen ∨ next ∈ stack
  distinct : missing.Nodup
  lacking : ∀ name, name ∈ missing ↔ c.find? name = none ∧ ∃ id ∈ seen, c.Mentions id name

namespace Searched

variable {c : Catalog} {start id : Nat} {seen stack : List Nat} {missing : List String}

theorem init (c : Catalog) (start : Nat) : Searched c start [] [] [start] where
  started := Or.inr List.mem_cons_self
  reached id hid := by
    have hstart : id = start := by simpa using hid
    rw [hstart]
    exact Relation.ReflTransGen.refl
  nodup := List.nodup_nil
  unbroken _ hid := by cases hid
  closed _ hid := by cases hid
  distinct := List.nodup_nil
  lacking name := by simp

/-- Types that have been seen may be taken off the stack. -/
theorem dropWhile (h : Searched c start seen missing stack) :
    Searched c start seen missing (stack.dropWhile seen.contains) := by
  have hstays : ∀ id, id ∈ seen ∨ id ∈ stack →
      id ∈ seen ∨ id ∈ stack.dropWhile seen.contains := by
    rintro id (hseen | hstack)
    · exact Or.inl hseen
    · rw [← List.takeWhile_append_dropWhile (p := seen.contains) (l := stack),
        List.mem_append] at hstack
      rcases hstack with htaken | hleft
      · exact Or.inl (List.contains_iff_mem.mp (List.mem_takeWhile_imp htaken))
      · exact Or.inr hleft
  refine ⟨hstays _ h.started, fun id hid => h.reached id ?_, h.nodup, h.unbroken,
    fun id hid next hnext => hstays next (h.closed id hid next hnext), h.distinct, h.lacking⟩
  exact hid.imp_right fun hmem => List.dropWhile_subset _ hmem

/-- A type that is not broken is seen next, and the types that it refers to go on the stack. -/
theorem visit (h : Searched c start seen missing (id :: stack)) (hnew : id ∉ seen) {e : Entry}
    (he : c.entries[id]? = some e) (hsound : ∀ fault, e.state ≠ .broken fault) :
    Searched c start (id :: seen) (c.addMissing missing e.declaration.referencedNames)
      ((e.declaration.referencedNames.filterMap c.find?).reverse ++ stack) := by
  have hmentions : ∀ name, c.Mentions id name ↔ name ∈ e.declaration.referencedNames := by
    intro name
    constructor
    · rintro ⟨e', he', hname⟩
      obtain rfl : e = e' := Option.some.inj (he.symm.trans he')
      exact hname
    · exact fun hname => ⟨e, he, hname⟩
  have hrefers : ∀ next, c.Refers id next ↔
      next ∈ (e.declaration.referencedNames.filterMap c.find?).reverse := by
    intro next
    rw [List.mem_reverse, List.mem_filterMap]
    exact exists_congr fun name => and_congr_left' (hmentions name)
  have hid : c.Reaches start id := h.reached id (Or.inr List.mem_cons_self)
  have hkept : ∀ next, next ∈ seen ∨ next ∈ id :: stack → next ∈ id :: seen ∨
      next ∈ (e.declaration.referencedNames.filterMap c.find?).reverse ++ stack := by
    rintro next (hseen | hstack)
    · exact Or.inl (List.mem_cons_of_mem _ hseen)
    · rcases List.mem_cons.mp hstack with rfl | hrest
      · exact Or.inl List.mem_cons_self
      · exact Or.inr (List.mem_append_right _ hrest)
  refine ⟨hkept _ h.started, ?_, List.nodup_cons.mpr ⟨hnew, h.nodup⟩, ?_, ?_,
    nodup_addMissing h.distinct, ?_⟩
  · rintro next (hseen | hstack)
    · rcases List.mem_cons.mp hseen with rfl | hold
      · exact hid
      · exact h.reached next (Or.inl hold)
    · rcases List.mem_append.mp hstack with hfound | hrest
      · exact Relation.ReflTransGen.tail hid ((hrefers next).mpr hfound)
      · exact h.reached next (Or.inr (List.mem_cons_of_mem _ hrest))
  · intro other hother fault hbroken
    rcases List.mem_cons.mp hother with rfl | hold
    · obtain ⟨e', he', hstate⟩ := hbroken
      obtain rfl : e = e' := Option.some.inj (he.symm.trans he')
      exact hsound fault hstate
    · exact h.unbroken other hold fault hbroken
  · intro other hother next hnext
    rcases List.mem_cons.mp hother with rfl | hold
    · exact Or.inr (List.mem_append_left _ ((hrefers next).mp hnext))
    · exact hkept next (h.closed other hold next hnext)
  · intro name
    rw [mem_addMissing, h.lacking, ← hmentions]
    simp only [List.mem_cons, exists_eq_or_imp]
    rw [and_or_left, or_comm, and_comm]

/-- The types seen are registered, so there are no more of them than registered types. -/
theorem length_seen_le (h : Searched c start seen missing stack) (hc : c.Coherent [])
    (hstart : ∃ e : Entry, c.entries[start]? = some e) : seen.length ≤ c.entries.size := by
  have hsub : seen ⊆ List.range c.entries.size := by
    intro id hid
    obtain ⟨e, he⟩ := hc.exists_entry_of_reaches hstart (h.reached id (Or.inl hid))
    rw [List.mem_range]
    exact (Array.getElem?_eq_some_iff.mp he).1
  have hle := (h.nodup.subperm hsub).length_le
  rwa [List.length_range] at hle

/-- The rest of the search, which has rounds enough to see every type, ends with an empty stack or
at a type that is broken. -/
theorem search (h : Searched c start seen missing stack) (hc : c.Coherent [])
    (hstart : ∃ e : Entry, c.entries[start]? = some e) (rounds : Nat)
    (hrounds : c.entries.size < seen.length + rounds) :
    match c.search seen missing rounds stack with
    | .ok found => ∃ all, Searched c start all found []
    | .error fault => ∃ id, c.Reaches start id ∧ c.BrokenBy id fault := by
  induction rounds generalizing seen missing stack with
  | zero =>
    have := h.length_seen_le hc hstart
    omega
  | succ rounds ih =>
    rw [Catalog.search]
    have hdropped := h.dropWhile
    cases hstack : stack.dropWhile seen.contains with
    | nil =>
      rw [hstack] at hdropped
      exact ⟨seen, hdropped⟩
    | cons id rest =>
      rw [hstack] at hdropped
      have hreach := hdropped.reached id (Or.inr List.mem_cons_self)
      obtain ⟨e, he⟩ := hc.exists_entry_of_reaches hstart hreach
      have hnew : id ∉ seen := by
        have := List.head?_dropWhile_not seen.contains stack
        simpa [hstack] using this
      simp only [he]
      cases hblocked : c.blocked e with
      | some fault => exact ⟨id, hreach, e, he, (hc.blocked_eq_some he).mp hblocked⟩
      | none =>
        refine ih (hdropped.visit hnew he fun fault hstate => ?_) ?_
        · rw [(hc.blocked_eq_some he).mpr hstate] at hblocked
          cases hblocked
        · rw [List.length_cons]
          omega

section Done

variable (h : Searched c start seen missing [])

include h

/-- When the stack is empty the types seen are those that are reached. -/
theorem mem_seen : id ∈ seen ↔ c.Reaches start id := by
  refine ⟨fun hseen => h.reached id (Or.inl hseen), fun hreach => ?_⟩
  induction hreach with
  | refl => exact h.started.resolve_right List.not_mem_nil
  | tail _ hrefers ih => exact (h.closed _ ih _ hrefers).resolve_right List.not_mem_nil

theorem mem_missing {name : String} : name ∈ missing ↔ c.Lacks start name := by
  rw [h.lacking]
  exact and_congr_right fun _ => exists_congr fun _ => and_congr_left' h.mem_seen

theorem unbroken_start : c.Unbroken start :=
  fun id hreach => h.unbroken id (h.mem_seen.mpr hreach)

end Done

end Searched

/-- All types that are reached can be built. -/
def Whole (c : Catalog) (id : Nat) : Prop :=
  ∀ next, c.Reaches id next → ∃ (e : Entry) (layouts : Layouts),
    c.entries[next]? = some e ∧ Layouts.build c.resolve e.declaration = .ok layouts

/-- Every type can be built against the catalog. -/
def Complete (c : Catalog) : Prop :=
  ∀ (i : Nat) (e : Entry), c.entries[i]? = some e →
    ∃ layouts, Layouts.build c.resolve e.declaration = .ok layouts

/-- In a complete catalog every type is whole. -/
theorem Complete.whole {c : Catalog} (hc : c.Complete) (h : c.Coherent []) {id : Nat}
    (hid : ∃ e : Entry, c.entries[id]? = some e) : c.Whole id := by
  intro next hreach
  obtain ⟨e, he⟩ := h.exists_entry_of_reaches hid hreach
  obtain ⟨layouts, hbuild⟩ := hc next e he
  exact ⟨e, layouts, he, hbuild⟩

section Closure

variable {c : Catalog} {id : Nat} (h : c.Coherent []) (hid : ∃ e : Entry, c.entries[id]? = some e)

include h hid

/-- The types that are reached can be built just where none is broken and no name is lacking. -/
theorem Coherent.whole_iff : c.Whole id ↔ c.Unbroken id ∧ ∀ name, ¬ c.Lacks id name := by
  constructor
  · intro hwhole
    constructor
    · rintro next hreach fault ⟨e, he, hbroken⟩
      obtain ⟨e', layouts, he', hbuild⟩ := hwhole next hreach
      obtain rfl : e = e' := Option.some.inj (he.symm.trans he')
      have hstate := h.state next e he List.not_mem_nil
      rw [hbuild, hbroken] at hstate
      cases hstate
    · rintro name ⟨hnone, next, hreach, e, he, hname⟩
      obtain ⟨e', layouts, he', hbuild⟩ := hwhole next hreach
      obtain rfl : e = e' := Option.some.inj (he.symm.trans he')
      exact Layouts.resolve_of_build hbuild name hname ((resolve_eq_none h).mpr hnone)
  · rintro ⟨hunbroken, hcomplete⟩ next hreach
    obtain ⟨e, he⟩ := h.exists_entry_of_reaches hid hreach
    have hstate := h.state next e he List.not_mem_nil
    match hbuild : Layouts.build c.resolve e.declaration with
    | .ok layouts => exact ⟨e, layouts, he, hbuild⟩
    | .error (.awaits name) =>
      have hname := Layouts.mem_of_awaits hbuild
      have hnone := find?_of_awaits h hbuild
      exact absurd ⟨hnone, next, hreach, e, he, hname⟩ (hcomplete name)
    | .error (.fatal fault) =>
      rw [hbuild] at hstate
      exact absurd ⟨e, he, hstate⟩ (hunbroken next hreach fault)

/-- The search finds a type that is broken, or the names that are lacking. -/
theorem Coherent.missingNames_cases :
    (∃ fault, c.missingNames id = .error fault ∧
      ∃ next, c.Reaches id next ∧ c.BrokenBy next fault) ∨
    (∃ missing, c.missingNames id = .ok missing ∧ missing.Nodup ∧
      (∀ name, name ∈ missing ↔ c.Lacks id name) ∧ c.Unbroken id) := by
  have hsearch := (Searched.init c id).search h hid (c.entries.size + 1) (by simp)
  unfold missingNames
  split at hsearch
  · rename_i missing hok
    obtain ⟨seen, hdone⟩ := hsearch
    exact Or.inr ⟨missing, hok, hdone.distinct, fun _ => hdone.mem_missing, hdone.unbroken_start⟩
  · rename_i fault herror
    exact Or.inl ⟨fault, herror, hsearch⟩

/-- The types that are whole are those that pass the check. -/
theorem Coherent.checkClosure_eq_ok : c.checkClosure id = .ok () ↔ c.Whole id := by
  rw [h.whole_iff hid, checkClosure]
  rcases h.missingNames_cases hid with ⟨fault, herror, next, hreach, hbroken⟩ |
    ⟨missing, hmissing, -, hlacks, hunbroken⟩
  · rw [herror]
    exact ⟨fun hok => (nomatch hok), fun hwhole => absurd hbroken (hwhole.1 next hreach fault)⟩
  · rw [hmissing]
    cases missing with
    | nil =>
      have hnone : ∀ name, ¬ c.Lacks id name :=
        fun name hname => List.not_mem_nil ((hlacks name).mpr hname)
      exact ⟨fun _ => ⟨hunbroken, hnone⟩, fun _ => rfl⟩
    | cons name names =>
      have hname := (hlacks name).mp List.mem_cons_self
      exact ⟨fun hok => (nomatch hok), fun hwhole => absurd hname (hwhole.2 name)⟩

/-- Where a type that is reached is broken, the check gives the fault of such a type. -/
theorem Coherent.checkClosure_of_broken {next : Nat} {fault : Fault} (hreach : c.Reaches id next)
    (hbroken : c.BrokenBy next fault) : ∃ next fault, c.Reaches id next ∧ c.BrokenBy next fault ∧
      c.checkClosure id = .error fault := by
  rcases h.missingNames_cases hid with ⟨fault, herror, next, hnext, hfault⟩ |
    ⟨missing, -, -, -, hunbroken⟩
  · refine ⟨next, fault, hnext, hfault, ?_⟩
    rw [checkClosure, herror]
    rfl
  · exact absurd hbroken (hunbroken next hreach fault)

/-- Where no type that is reached is broken but a name is lacking, the check names all that are. -/
theorem Coherent.checkClosure_of_lacks {name : String} (hlacks : c.Lacks id name)
    (hunbroken : c.Unbroken id) :
    ∃ missing : List String, missing.Nodup ∧ (∀ name, name ∈ missing ↔ c.Lacks id name) ∧
      c.checkClosure id = .error (Cause.unresolved (c.nameOf id) missing).fault := by
  rcases h.missingNames_cases hid with ⟨fault, -, next, hreach, hbroken⟩ |
    ⟨missing, hmissing, hnodup, hmem, -⟩
  · exact absurd hbroken (hunbroken next hreach fault)
  · refine ⟨missing, hnodup, hmem, ?_⟩
    have hne : missing ≠ [] := List.ne_nil_of_mem ((hmem name).mpr hlacks)
    rw [checkClosure, hmissing]
    show (if missing.isEmpty then _ else _) = _
    rw [if_neg (by simpa using hne)]
    rfl

end Closure

/-- The reference resolves, to a type that is reached. -/
def Leads (c : Catalog) (start : Nat) (role : Role) (target : Reference) : Prop :=
  Resolves c.resolve role target ∧ c.Reaches start target.id

section Layouts

variable {c : Catalog} {start id : Nat} {role : Role} {l : Layout}
  (hreach : c.Reaches start id)

include hreach

/-- The references of a declaration that is reached lead to types that are reached. -/
theorem leads_of_resolves {e : Entry} (he : c.entries[id]? = some e) (target : Reference)
    (hresolves : Resolves (Layouts.among e.declaration.referencedNames c.resolve) role target) :
    c.Leads start role target := by
  obtain ⟨hrole, d, hamong⟩ := hresolves
  unfold Layouts.among at hamong
  split at hamong
  · rename_i hname
    exact ⟨⟨hrole, d, hamong⟩,
      hreach.tail ⟨target.name, ⟨e, he, hname⟩, find?_of_resolve hamong⟩⟩
  · cases hamong

variable (h : c.Coherent [])

include h

theorem Coherent.wellFormed_layout (hl : c.layout id role = .ok l) :
    l.WellFormed (c.Leads start role) := by
  obtain ⟨e, layouts, he, hbuild, rfl⟩ := h.layout_eq_ok.mp hl
  have hwell := Layouts.wellFormed_ofRole (h.valid id e he) (Layouts.build_among hbuild) role
  exact hwell.mono (leads_of_resolves hreach he) _

theorem Coherent.wellFormed_keyLayout (hl : c.keyLayout id = .ok l) :
    l.WellFormed (c.Leads start .key) := by
  obtain ⟨e, layouts, he, hbuild, rfl⟩ := h.keyLayout_eq_ok.mp hl
  rw [Layouts.key_eq hbuild]
  split
  · exact ⟨List.nodup_nil, trivial⟩
  · exact h.wellFormed_layout hreach (h.layout_eq_ok.mpr ⟨e, layouts, he, hbuild, rfl⟩)

end Layouts

/-- What lies behind the references of a type has references of the same kind. -/
theorem Coherent.wellFormed_of_leads {c : Catalog} {start : Nat} {role : Role} {target : Reference}
    {l : Layout} (h : c.Coherent []) (hleads : c.Leads start role target)
    (hl : c.layout target.id target.role = .ok l) : l.WellFormed (c.Leads start role) := by
  obtain ⟨⟨hrole, -⟩, hreach⟩ := hleads
  rw [hrole] at hl
  exact h.wellFormed_layout hreach hl

namespace Whole

variable {c : Catalog} {id : Nat} (h : c.Coherent []) (hwhole : c.Whole id)

include h hwhole

theorem exists_layout {next : Nat} (hreach : c.Reaches id next) (role : Role) :
    ∃ l, c.layout next role = .ok l ∧ l.WellFormed (c.Leads id role) := by
  obtain ⟨e, layouts, he, hbuild⟩ := hwhole next hreach
  have hl : c.layout next role = .ok (layouts.ofRole role) :=
    h.layout_eq_ok.mpr ⟨e, layouts, he, hbuild, rfl⟩
  exact ⟨_, hl, h.wellFormed_layout hreach hl⟩

theorem exists_keyLayout : ∃ l, c.keyLayout id = .ok l ∧ l.WellFormed (c.Leads id .key) := by
  obtain ⟨e, layouts, he, hbuild⟩ := hwhole id Relation.ReflTransGen.refl
  have hl := h.keyLayout_eq_ok.mpr ⟨e, layouts, he, hbuild, rfl⟩
  exact ⟨_, hl, h.wellFormed_keyLayout Relation.ReflTransGen.refl hl⟩

/-- The references of a type that is whole can be followed. -/
theorem exists_layout_of_leads {role : Role} {target : Reference}
    (hleads : c.Leads id role target) :
    ∃ l, c.layout target.id target.role = .ok l ∧ l.WellFormed (c.Leads id role) := by
  obtain ⟨l, hl, -⟩ := hwhole.exists_layout h hleads.2 target.role
  exact ⟨l, hl, h.wellFormed_of_leads hleads hl⟩

/-- The keys of a type that is whole have a measure. -/
theorem exists_measureKey (config : Config) : ∃ size, c.measureKey config id = .ok size := by
  obtain ⟨l, hl, hwell⟩ := hwhole.exists_keyLayout h
  obtain ⟨e, hmeasure⟩ := Layout.succeeds_measure
    (fun target hleads => hwhole.exists_layout_of_leads h hleads)
    ⟨config.countWidth, config.maxUnboundedLength⟩ config.maxDepth [] hwell Extent.zero
  exact ⟨e.offset, measureKey_eq_ok.mpr ⟨l, hl, hmeasure⟩⟩

/-- The size of the longest key is its measure, whether it is kept or not. -/
theorem maxKeySize_eq {config : Config} (hsized : c.Sized config) :
    c.maxKeySize config id = c.measureKey config id := by
  obtain ⟨e, layouts, he, -⟩ := hwhole id Relation.ReflTransGen.refl
  unfold maxKeySize
  split
  · rename_i he
    exact (hsized id _ _ he rfl).symm
  · rw [(h.checkClosure_eq_ok ⟨e, he⟩).mpr hwhole]
    rfl

end Whole

end Cdr.Catalog
