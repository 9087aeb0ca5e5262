import Cdr.Proofs.Moving
import Mathlib.Data.List.Perm.Basic

/-! The order of registration.  Types that can all be used after they are registered in one order
can be registered in every order, and all answers about them stay the same. -/

namespace Cdr

namespace Catalog

variable {c t : Catalog} {d : Declaration}

/-- A new name is declared, and the other names stay as they were. -/
theorem declared?_push (h : c.Coherent []) (hnew : c.find? d.name = none) (name : String) :
    (c.push d).declared? name = if name = d.name then some d else c.declared? name := by
  split
  · rename_i heq
    subst heq
    simp [declared?, resolve, find?_push_self, getElem?_push_size]
  · rename_i hne
    cases hname : c.resolve name with
    | some found =>
      obtain ⟨i, known⟩ := found
      simp [declared?, hname, extends_push h hnew name i known hname]
    | none =>
      have hfind := (resolve_eq_none h).mp hname
      simp [declared?, resolve, find?_push_of_ne c d hne, hfind]

/-- A type that can be built against a complete catalog can be added to one within it. -/
theorem Complete.exists_build_push (ht : t.Complete) (htc : t.Coherent []) (h : c.Coherent [])
    (hnew : c.find? d.name = none) (hd : t.declared? d.name = some d) (hwithin : Within c t) :
    ∃ built, (c.push d).build c.entries.size = .ok built := by
  obtain ⟨i, hresolve⟩ := declared?_eq_some.mp hd
  obtain ⟨e, he, rfl, -⟩ := (resolve_eq_some htc).mp hresolve
  have hpush := h.push hnew (htc.valid i e he)
  have hwithin' : Within (c.push e.declaration) t := by
    intro name known hname
    rw [declared?_push h hnew] at hname
    split at hname
    · rename_i heq
      cases hname
      rwa [heq]
    · exact hwithin name known hname
  obtain ⟨layouts, hbuild⟩ := ht i e he
  have hkept := Layouts.kept_build (hwithin'.extends hpush) e.declaration
  unfold build
  rw [getElem?_push_size]
  -- A fault would remain in the complete catalog, which has built the type.
  match hout : Layouts.build (c.push e.declaration).resolve e.declaration with
  | .ok _ =>
    simp only [hout]
    exact ⟨_, rfl⟩
  | .error (.awaits _) =>
    simp only [hout]
    exact ⟨_, rfl⟩
  | .error (.fatal fault) =>
    rw [hout, hbuild] at hkept
    cases hkept

end Catalog

namespace Registry

section Register

variable {r r' : Registry} {d : Declaration} {h : Handle}

/-- What registration of a new name has checked and added. -/
theorem register_eq_ok (hnew : r.catalog.resolve d.name = none) :
    register d r = .ok h r' ↔ d.validate = .ok () ∧ h = ⟨r.catalog.entries.size, d.name⟩ ∧
      ∃ c, add r.config r.catalog d = .ok c ∧ r' = { r with catalog := c } := by
  unfold register
  rw [hnew]
  cases d.validate with
  | error fault => simp
  | ok _ =>
    cases add r.config r.catalog d with
    | error fault => simp
    | ok c => simp [eq_comm]

/-- The second registry declares the types of the first, and those of a list. -/
structure Declares (r : Registry) (ds : List Declaration) (r' : Registry) : Prop where
  sound : r'.Sound
  config : r'.config = r.config
  declared : ∀ name d, r'.catalog.declared? name = some d ↔
    (d ∈ ds ∧ d.name = name) ∨ r.catalog.declared? name = some d

theorem Sound.register (hr : r.Sound) (hnew : r.catalog.resolve d.name = none)
    (hok : register d r = .ok h r') : Declares r [d] r' := by
  obtain ⟨hvalid, -, c, hadd, rfl⟩ := (register_eq_ok hnew).mp hok
  have hfind := (Catalog.resolve_eq_none hr.coherent).mp hnew
  obtain ⟨hcoherent, hsized, hresolve⟩ := add_eq_ok hr.coherent hr.sized hfind hvalid hadd
  refine ⟨⟨hcoherent, hsized⟩, rfl, fun name known => ?_⟩
  have hdeclared : c.declared? name = (r.catalog.push d).declared? name := by
    rw [Catalog.declared?, hresolve, Catalog.declared?]
  rw [hdeclared, Catalog.declared?_push hr.coherent hfind, List.mem_singleton]
  split
  · rename_i heq
    rw [heq, Catalog.declared?_eq_none.mpr hnew]
    constructor
    · rintro ⟨⟩
      exact Or.inl ⟨rfl, rfl⟩
    · rintro (⟨rfl, -⟩ | ⟨⟨⟩⟩)
      rfl
  · rename_i hne
    constructor
    · exact Or.inr
    · rintro (⟨rfl, rfl⟩ | hknown)
      · exact absurd rfl hne
      · exact hknown

end Register

section RegisterAll

variable {r r' : Registry} {ds : List Declaration}

theorem registerAll_cons {d : Declaration} {handles : List Handle} :
    registerAll (d :: ds) r = .ok handles r' ↔ ∃ h mid rest, register d r = .ok h mid ∧
      registerAll ds mid = .ok rest r' ∧ handles = h :: rest := by
  show EStateM.bind (register d) (fun h => EStateM.bind (registerAll ds)
    fun rest => EStateM.pure (h :: rest)) r = _ ↔ _
  simp only [EStateM.bind, EStateM.pure]
  cases register d r with
  | error fault mid => simp
  | ok h mid =>
    simp only
    cases hrest : registerAll ds mid with
    | error fault last => simp [hrest]
    | ok rest last => simp [hrest, eq_comm, and_comm]

/-- The names of the types are new to a registry, and differ from each other. -/
structure Fresh (r : Registry) (ds : List Declaration) : Prop where
  names : (ds.map (·.name)).Nodup
  unknown : ∀ d ∈ ds, r.catalog.resolve d.name = none

theorem Fresh.register {d : Declaration} {h : Handle} {mid : Registry}
    (hfresh : Fresh r (d :: ds)) (hr : r.Sound) (hok : Registry.register d r = .ok h mid) :
    Declares r [d] mid ∧ Fresh mid ds := by
  have hdeclares := hr.register (hfresh.unknown d List.mem_cons_self) hok
  obtain ⟨hd, hrest⟩ := List.nodup_cons.mp hfresh.names
  refine ⟨hdeclares, hrest, fun d' hd' => ?_⟩
  rw [← Catalog.declared?_eq_none, Option.eq_none_iff_forall_ne_some]
  intro known hknown
  rcases (hdeclares.declared _ _).mp hknown with ⟨hmem, hname⟩ | hold
  · rw [List.mem_singleton] at hmem
    subst hmem
    exact hd (List.mem_map.mpr ⟨d', hd', hname.symm⟩)
  · rw [Catalog.declared?_eq_none.mpr (hfresh.unknown d' (List.mem_cons_of_mem _ hd'))] at hold
    cases hold

/-- Types that are all registered are declared. -/
theorem Sound.registerAll (hr : r.Sound) (hfresh : Fresh r ds) {handles : List Handle}
    (hok : registerAll ds r = .ok handles r') : Declares r ds r' := by
  induction ds generalizing r handles with
  | nil =>
    cases hok
    exact ⟨hr, rfl, fun name d => by simp⟩
  | cons d ds ih =>
    obtain ⟨h, mid, rest, hfirst, hrest, -⟩ := registerAll_cons.mp hok
    obtain ⟨hmid, hfresh'⟩ := hfresh.register hr hfirst
    have hlast := ih hmid.sound hfresh' hrest
    refine ⟨hlast.sound, hlast.config.trans hmid.config, fun name known => ?_⟩
    rw [hlast.declared, hmid.declared, List.mem_singleton, List.mem_cons]
    constructor
    · rintro (⟨hmem, hname⟩ | ⟨rfl, hname⟩ | hold)
      · exact Or.inl ⟨Or.inr hmem, hname⟩
      · exact Or.inl ⟨Or.inl rfl, hname⟩
      · exact Or.inr hold
    · rintro (⟨rfl | hmem, hname⟩ | hold)
      · exact Or.inr (Or.inl ⟨rfl, hname⟩)
      · exact Or.inl ⟨hmem, hname⟩
      · exact Or.inr (Or.inr hold)

/-- Types that a complete catalog declares are accepted. -/
theorem exists_registerAll {t : Catalog} (ht : t.Complete) (htc : t.Coherent []) (hr : r.Sound)
    (hfresh : Fresh r ds) (hwithin : Catalog.Within r.catalog t)
    (hds : ∀ d ∈ ds, t.declared? d.name = some d) :
    ∃ handles r', Registry.registerAll ds r = .ok handles r' := by
  induction ds generalizing r with
  | nil => exact ⟨[], r, rfl⟩
  | cons d ds ih =>
    have hnew := hfresh.unknown d List.mem_cons_self
    have hd := hds d List.mem_cons_self
    obtain ⟨i, hresolve⟩ := Catalog.declared?_eq_some.mp hd
    obtain ⟨e, he, hed, -⟩ := (Catalog.resolve_eq_some htc).mp hresolve
    have hvalid : d.validate = .ok () := hed ▸ htc.valid i e he
    -- What is registered so far is part of the complete catalog, and so is the next type.
    obtain ⟨built, hbuilt⟩ := ht.exists_build_push htc hr.coherent
      ((Catalog.resolve_eq_none hr.coherent).mp hnew) hd hwithin
    have hfirst := (register_eq_ok hnew).mpr ⟨hvalid, rfl, _, by rw [add, hbuilt]; rfl, rfl⟩
    obtain ⟨hmid, hfresh'⟩ := hfresh.register hr hfirst
    obtain ⟨rest, r', hrest⟩ := ih hmid.sound hfresh' (fun name known hknown => by
      rcases (hmid.declared _ _).mp hknown with ⟨hmem, rfl⟩ | hold
      · rwa [List.mem_singleton.mp hmem]
      · exact hwithin name known hold) fun d' hd' => hds d' (List.mem_cons_of_mem _ hd')
    exact ⟨_, r', registerAll_cons.mpr ⟨_, _, rest, hfirst, hrest, rfl⟩⟩

end RegisterAll

/-- The type of a name is registered and can be used.  Every operation asks for the size of the
longest key first, which only the types that reach nothing missing have. -/
def Usable (r : Registry) (name : String) : Prop := ∃ size, r.ask name r.maxKeySize = .ok size

theorem Sound.complete {r : Registry} (hr : r.Sound)
    (husable : ∀ name d, r.catalog.declared? name = some d → r.Usable name) :
    r.catalog.Complete := by
  intro i e he
  have hname := (Catalog.resolve_eq_some hr.coherent).mpr ⟨e, he, rfl, rfl⟩
  obtain ⟨size, hask⟩ := husable _ _ (Catalog.declared?_eq_some.mpr ⟨i, hname⟩)
  have hhandle := hr.handle_eq e.declaration.name
  rw [hname] at hhandle
  rw [ask_eq hhandle] at hask
  have hmeasure := hr.sized.measureKey (maxKeySize_eq_ok.mp hask).2
  obtain ⟨l, hl, -⟩ := Catalog.measureKey_eq_ok.mp hmeasure
  obtain ⟨e', layouts, he', hbuild, -⟩ := hr.coherent.keyLayout_eq_ok.mp hl
  obtain rfl : e = e' := by simpa [he] using he'
  exact ⟨layouts, hbuild⟩

theorem sound_new (config : Config) : Sound { config := config } :=
  (Reachable.new : Reachable config _).sound

/-- If all types can be used after they are registered in one order, then they are accepted and can
be used in every order, and all answers about all names are the same. -/
theorem registerAll_perm {config : Config} {ds ds' : List Declaration} {handles : List Handle}
    {r : Registry} (hperm : ds.Perm ds') (hnames : (ds.map (·.name)).Nodup)
    (hok : registerAll ds { config := config } = .ok handles r)
    (husable : ∀ d ∈ ds, r.Usable d.name) :
    ∃ handles' r', registerAll ds' { config := config } = .ok handles' r' ∧
      (∀ d ∈ ds', r'.Usable d.name) ∧ ∀ name, SameAnswers r r' name := by
  have hnew := sound_new config
  have hfresh : Fresh { config := config } ds := ⟨hnames, fun _ _ => rfl⟩
  have hfresh' : Fresh { config := config } ds' :=
    ⟨(hperm.map _).nodup_iff.mp hnames, fun _ _ => rfl⟩
  have hr := hnew.registerAll hfresh hok
  have hdeclared : ∀ name d, r.catalog.declared? name = some d ↔ d ∈ ds ∧ d.name = name :=
    fun name d => (hr.declared name d).trans ⟨fun h => h.resolve_right (by rintro ⟨⟩), Or.inl⟩
  have hcomplete := hr.sound.complete fun name d hd => by
    obtain ⟨hmem, rfl⟩ := (hdeclared name d).mp hd
    exact husable d hmem
  -- The first catalog is complete, so it guides the registration in the other order.
  obtain ⟨handles', r', hok'⟩ := exists_registerAll hcomplete hr.sound.coherent hnew hfresh'
    (by rintro _ _ ⟨⟩) fun d hd => (hdeclared _ d).mpr ⟨hperm.mem_iff.mpr hd, rfl⟩
  have hr' := hnew.registerAll hfresh' hok'
  have hdeclared' : ∀ name d, r'.catalog.declared? name = some d ↔ d ∈ ds' ∧ d.name = name :=
    fun name d => (hr'.declared name d).trans ⟨fun h => h.resolve_right (by rintro ⟨⟩), Or.inl⟩
  have hsame := hr.sound.sameAnswers hr'.sound hcomplete (hr'.config.trans hr.config.symm)
    (fun name d hd => (hdeclared' name d).mpr <|
      ((hdeclared name d).mp hd).imp_left hperm.mem_iff.mp)
    (fun name d hd => (hdeclared name d).mpr <|
      ((hdeclared' name d).mp hd).imp_left hperm.mem_iff.mpr)
  refine ⟨handles', r', hok', fun d hd => ?_, hsame⟩
  obtain ⟨size, hsize⟩ := husable d (hperm.mem_iff.mpr hd)
  exact ⟨size, (hsame d.name).maxKeySize.trans hsize⟩

/-- A type that refers to one that refers to it. -/
def folder : Declaration :=
  { name := "Folder"
    keyMembers := some ["id"]
    body := .struct
      [⟨"id", .primitive (.integer .uint16)⟩, ⟨"files", .sequence (.named "File") none⟩] }

/-- A type that can lie in several of those that refer to it. -/
def file : Declaration :=
  { name := "File"
    body := .struct [⟨"name", .string none⟩, ⟨"folder", .optional (.named "Folder")⟩] }

/-- Two types that refer to each other can be registered in either order. -/
theorem registerAll_folder_file :
    registerAll [folder, file] { config := { } } =
        .ok [⟨0, "Folder"⟩, ⟨1, "File"⟩] (afterRegister file (afterRegister folder { })) ∧
      ∃ handles' r', registerAll [file, folder] { config := { } } = .ok handles' r' ∧
        (∀ d ∈ [file, folder], r'.Usable d.name) ∧
        ∀ name, SameAnswers (afterRegister file (afterRegister folder { })) r' name :=
  have hok : registerAll [folder, file] { config := { } } =
      .ok [⟨0, "Folder"⟩, ⟨1, "File"⟩] (afterRegister file (afterRegister folder { })) := rfl
  ⟨hok, registerAll_perm (.swap file folder []) (by decide) hok
    (by simpa using ⟨⟨2, rfl⟩, ⟨65544, rfl⟩⟩)⟩

end Registry

end Cdr
