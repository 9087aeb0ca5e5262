import Cdr.Dictionary
import Mathlib.Data.String.Basic

/-! Dictionaries made from lists: which values they hold, and when two of them are the same. -/

namespace Cdr.Dictionary

variable {α : Type}

/-- The dictionary with all entries of a list inserted, one after the other. -/
def insertAll (dict entries : List (String × α)) : List (String × α) :=
  entries.foldl (fun d e => insert e.1 e.2 d) dict

@[simp] theorem insertAll_cons (dict : List (String × α)) (name : String) (value : α)
    (entries : List (String × α)) :
    insertAll dict ((name, value) :: entries) = insertAll (insert name value dict) entries := rfl

/-- A name that is not inserted keeps its value. -/
theorem find?_insertAll_of_not_mem {name : String} {entries : List (String × α)}
    (h : name ∉ entries.map (·.1)) (dict : List (String × α)) :
    find? name (insertAll dict entries) = find? name dict := by
  induction entries generalizing dict with
  | nil => rfl
  | cons e entries ih =>
    rw [List.map_cons, List.mem_cons, not_or] at h
    rw [insertAll_cons, ih h.2, find?_insert_of_ne h.1]

/-- A name that is inserted once has the value that was inserted. -/
theorem find?_insertAll_of_mem {name : String} {value : α} {entries : List (String × α)}
    (hnodup : (entries.map (·.1)).Nodup) (hmem : (name, value) ∈ entries)
    (dict : List (String × α)) : find? name (insertAll dict entries) = some value := by
  induction entries generalizing dict with
  | nil => cases hmem
  | cons e entries ih =>
    rw [List.map_cons, List.nodup_cons] at hnodup
    rcases List.mem_cons.mp hmem with rfl | htail
    · rw [insertAll_cons, find?_insertAll_of_not_mem hnodup.1, find?_insert_self]
    · exact ih hnodup.2 htail _

/-- The entries are in the order of their names, each name once. -/
def Sorted (entries : List (String × α)) : Prop := entries.Pairwise fun a b => a.1 < b.1

theorem mem_insert {name : String} {value : α} {entries : List (String × α)} {e : String × α}
    (h : e ∈ insert name value entries) : e = (name, value) ∨ e ∈ entries := by
  induction entries with
  | nil => exact Or.inl (List.mem_singleton.mp h)
  | cons e' rest ih =>
    obtain ⟨n, v⟩ := e'
    simp only [insert] at h
    split at h
    · exact List.mem_cons.mp h
    · split at h
      · exact (List.mem_cons.mp h).imp_right (List.mem_cons_of_mem _)
      · rcases List.mem_cons.mp h with rfl | hrest
        · exact Or.inr List.mem_cons_self
        · exact (ih hrest).imp_right (List.mem_cons_of_mem _)

theorem sorted_insert {entries : List (String × α)} (h : Sorted entries) (name : String)
    (value : α) : Sorted (insert name value entries) := by
  induction entries with
  | nil => exact List.pairwise_singleton _ _
  | cons e rest ih =>
    obtain ⟨n, v⟩ := e
    obtain ⟨hhead, hrest⟩ := List.pairwise_cons.mp h
    simp only [insert]
    split
    · rename_i hlt
      exact List.pairwise_cons.mpr
        ⟨List.forall_mem_cons.mpr ⟨hlt, fun e he => hlt.trans (hhead e he)⟩, h⟩
    · rename_i hnlt
      split
      · rename_i heq
        subst heq
        exact List.pairwise_cons.mpr ⟨hhead, hrest⟩
      · rename_i hne
        have hlt : n < name := lt_of_le_of_ne (not_lt.mp hnlt) (Ne.symm hne)
        refine List.pairwise_cons.mpr ⟨fun e he => ?_, ih hrest⟩
        rcases mem_insert he with rfl | hmem
        · exact hlt
        · exact hhead e hmem

theorem sorted_insertAll {dict : List (String × α)} (h : Sorted dict)
    (entries : List (String × α)) : Sorted (insertAll dict entries) := by
  induction entries generalizing dict with
  | nil => exact h
  | cons e entries ih => exact ih (sorted_insert h e.1 e.2)

theorem mem_insertAll {dict entries : List (String × α)} {e : String × α}
    (h : e ∈ insertAll dict entries) : e ∈ entries ∨ e ∈ dict := by
  induction entries generalizing dict with
  | nil => exact Or.inr h
  | cons e' entries ih =>
    rcases ih h with hmem | hmem
    · exact Or.inl (List.mem_cons_of_mem _ hmem)
    · refine (mem_insert hmem).imp_left ?_
      rintro rfl
      exact List.mem_cons_self

theorem find?_eq_none_of_lt {name : String} {entries : List (String × α)}
    (h : ∀ e ∈ entries, name < e.1) : find? name entries = none := by
  induction entries with
  | nil => rfl
  | cons e rest ih =>
    obtain ⟨hlt, hrest⟩ := List.forall_mem_cons.mp h
    rw [find?, if_neg hlt.ne, ih hrest]

/-- The least name of a dictionary has no value in one whose names are all greater. -/
theorem find?_of_lt_head {name n : String} {v : α} {rest : List (String × α)}
    (h : Sorted ((n, v) :: rest)) (hlt : name < n) : find? name ((n, v) :: rest) = none :=
  find?_eq_none_of_lt (List.forall_mem_cons.mpr
    ⟨hlt, fun e he => hlt.trans ((List.pairwise_cons.mp h).1 e he)⟩)

theorem Sorted.nodup {entries : List (String × α)} (h : Sorted entries) :
    (entries.map (·.1)).Nodup :=
  List.pairwise_map.mpr (h.imp fun hlt => hlt.ne)

/-- The entries of a dictionary are the names with their values. -/
theorem Sorted.mem_iff {name : String} {value : α} {entries : List (String × α)}
    (h : Sorted entries) : (name, value) ∈ entries ↔ find? name entries = some value := by
  induction entries with
  | nil => simp [find?]
  | cons e rest ih =>
    obtain ⟨n, v⟩ := e
    obtain ⟨hhead, hrest⟩ := List.pairwise_cons.mp h
    rw [List.mem_cons, ih hrest, find?]
    split
    · rename_i heq
      subst heq
      simp [find?_eq_none_of_lt hhead, eq_comm]
    · rename_i hne
      simp [hne]

/-- Dictionaries that agree on every name are the same. -/
theorem Sorted.ext {xs ys : List (String × α)} (hx : Sorted xs) (hy : Sorted ys)
    (h : ∀ name, find? name xs = find? name ys) : xs = ys := by
  induction xs generalizing ys with
  | nil =>
    cases ys with
    | nil => rfl
    | cons e ys => exact absurd (h e.1) (by simp [find?])
  | cons e xs ih =>
    obtain ⟨n, v⟩ := e
    cases ys with
    | nil => exact absurd (h n) (by simp [find?])
    | cons e' ys =>
      obtain ⟨m, w⟩ := e'
      rcases lt_trichotomy n m with hlt | rfl | hlt
      · exact absurd (h n) (by rw [find?_of_lt_head hy hlt]; simp [find?])
      · obtain ⟨hxhead, hxs⟩ := List.pairwise_cons.mp hx
        obtain ⟨hyhead, hys⟩ := List.pairwise_cons.mp hy
        have hvalue : v = w := by simpa [find?] using h n
        rw [hvalue, ih hxs hys fun name => ?_]
        by_cases heq : name = n
        · rw [heq, find?_eq_none_of_lt hxhead, find?_eq_none_of_lt hyhead]
        · simpa [find?, heq] using h name
      · exact absurd (h m) (by rw [find?_of_lt_head hx hlt]; simp [find?])

theorem ofList_of_sorted {entries : List (String × α)} (h : Sorted entries) :
    ofList entries = entries := by
  refine (sorted_insertAll .nil entries).ext h fun name => ?_
  by_cases hmem : name ∈ entries.map (·.1)
  · obtain ⟨⟨_, value⟩, hvalue, rfl⟩ := List.mem_map.mp hmem
    exact (find?_insertAll_of_mem h.nodup hvalue []).trans (h.mem_iff.mp hvalue).symm
  · have hnone : find? name entries = none := Option.eq_none_iff_forall_ne_some.mpr
      fun value hvalue => hmem (List.mem_map_of_mem (h.mem_iff.mpr hvalue))
    exact (find?_insertAll_of_not_mem hmem []).trans hnone.symm

theorem insert_comm {name other : String} (hne : name ≠ other) (value value' : α)
    {entries : List (String × α)} (h : Sorted entries) :
    insert name value (insert other value' entries) =
      insert other value' (insert name value entries) := by
  refine (sorted_insert (sorted_insert h _ _) _ _).ext (sorted_insert (sorted_insert h _ _) _ _)
    fun n => ?_
  by_cases hname : n = name
  · subst hname
    rw [find?_insert_self, find?_insert_of_ne hne, find?_insert_self]
  by_cases hother : n = other
  · subst hother
    rw [find?_insert_self, find?_insert_of_ne hname, find?_insert_self]
  rw [find?_insert_of_ne hname, find?_insert_of_ne hother, find?_insert_of_ne hother,
    find?_insert_of_ne hname]

/-- A name that does not come again may as well be inserted last. -/
theorem insertAll_insert {name : String} {entries : List (String × α)}
    (hname : name ∉ entries.map (·.1)) (value : α) {dict : List (String × α)} (h : Sorted dict) :
    insertAll (insert name value dict) entries = insert name value (insertAll dict entries) := by
  induction entries generalizing dict with
  | nil => rfl
  | cons e entries ih =>
    obtain ⟨hne, hrest⟩ := List.ne_and_not_mem_of_not_mem_cons hname
    rw [insertAll_cons, insert_comm hne.symm e.2 value h]
    exact ih hrest (sorted_insert h e.1 e.2)

/-- A new name is inserted between the entries that are there. -/
theorem insert_eq_append {name : String} (value : α) {entries : List (String × α)}
    (hname : name ∉ entries.map (·.1)) :
    ∃ before after, insert name value entries = before ++ (name, value) :: after ∧
      entries = before ++ after := by
  induction entries with
  | nil => exact ⟨[], [], rfl, rfl⟩
  | cons e entries ih =>
    obtain ⟨n, v⟩ := e
    obtain ⟨hne, hrest⟩ := List.ne_and_not_mem_of_not_mem_cons hname
    obtain ⟨before, after, hinsert, hentries⟩ := ih hrest
    rw [insert]
    split
    · exact ⟨[], (n, v) :: entries, rfl, rfl⟩
    · rw [hinsert]
      exact ⟨(n, v) :: before, after, rfl, congrArg _ hentries⟩

theorem insert_map {β : Type} (f : α → β) (name : String) (value : α)
    (entries : List (String × α)) :
    insert name (f value) (entries.map fun e => (e.1, f e.2)) =
      (insert name value entries).map fun e => (e.1, f e.2) := by
  induction entries with
  | nil => rfl
  | cons e entries ih =>
    simp only [List.map_cons, insert, ih]
    split
    · rfl
    · split <;> rfl

theorem insertAll_map {β : Type} (f : α → β) (dict entries : List (String × α)) :
    insertAll (dict.map fun e => (e.1, f e.2)) (entries.map fun e => (e.1, f e.2)) =
      (insertAll dict entries).map fun e => (e.1, f e.2) := by
  induction entries generalizing dict with
  | nil => rfl
  | cons e entries ih =>
    rw [List.map_cons, insertAll_cons, insert_map]
    exact ih (insert e.1 e.2 dict)

/-- Values that change alike keep their places. -/
theorem ofList_map {β : Type} (f : α → β) (entries : List (String × α)) :
    ofList (entries.map fun e => (e.1, f e.2)) = (ofList entries).map fun e => (e.1, f e.2) :=
  insertAll_map f [] entries

end Cdr.Dictionary
