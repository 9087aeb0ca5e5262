import Cdr.Proofs.Objecting
import Cdr.Proofs.Stability
import Cdr.Proofs.Usability

/-! Faults of writing point at the first node that cannot be written.  The fault of a value is that
of one node, which fails with the same cause on its own, behind the path that leads there.  The path
is empty where the value itself is that node, and the names in it are put in front only once. -/

namespace Cdr

namespace FirstFault

open Coding

variable {c : Context} {root origin origin' : Node} {path path' : List String}
  {cause cause' : Cause}

/-- The node that has the fault is the root or stands below it. -/
theorem eq_or_below (h : FirstFault c root path origin cause) :
    origin = root ∨ origin.Below root := by
  induction h with
  | own | missing => exact Or.inl rfl
  | part _ hturns _ _ ih =>
    have hbelow := Node.below_of_mem_turns (hturns ▸ List.mem_append_cons_self)
    rcases ih with rfl | hinner
    · exact Or.inr hbelow
    · exact Or.inr (hinner.trans hbelow)

/-- The body of a type has the fault itself just where the path is empty. -/
theorem path_eq_nil_iff (h : FirstFault c root path origin cause) (hbody : root.layout.IsBody) :
    path = [] ↔ origin = root := by
  cases h with
  | own | missing => simp
  | part _ hturns _ hfault =>
    have hmem := hturns ▸ List.mem_append_cons_self
    have hne : origin ≠ root := by
      rcases hfault.eq_or_below with rfl | hinner
      · exact (Node.below_of_mem_turns hmem).ne
      · exact (hinner.trans (Node.below_of_mem_turns hmem)).ne
    obtain ⟨segment, rfl⟩ :=
      Option.isSome_iff_exists.mp (Node.isSome_of_mem_turns hbody hmem)
    simp [hne]

section Closed

variable {good : Reference → Prop} (hlookup : ∀ target, good target →
  ∃ l, c.types target.id target.role = .ok l ∧ l.WellFormed good)

include hlookup

/-- A node with a first fault fails with it. -/
theorem gives (h : FirstFault c root path origin cause) (hroot : root.layout.WellFormed good) :
    Gives (root.write c) (.error ⟨path, cause⟩) := by
  induction h with
  | own hown =>
    have hgives := Node.gives_turns hlookup hroot
    rwa [hown] at hgives
  | missing hown hturns hearlier =>
    have hgives := Node.gives_turns hlookup hroot
    rwa [hown, Cause.before,
      (Turn.inTurn_eq_error c).mpr ⟨_, _, _, hturns, hearlier, rfl⟩] at hgives
  | @part root node _ _ _ segment path cause hown hturns hearlier _ ih =>
    have hgives := Node.gives_turns hlookup hroot
    have hnode := ih
      (Node.wellFormed_of_mem_turns hlookup hroot (hturns ▸ List.mem_append_cons_self))
    have hturn : (Turn.part segment node).outcome c = .error ⟨segment.toList ++ path, cause⟩ :=
      (Turn.outcome_part_eq_error c).mpr ⟨_, hnode Buffer.empty, rfl⟩
    rwa [hown, Cause.before,
      (Turn.inTurn_eq_error c).mpr ⟨_, _, _, hturns, hearlier, hturn⟩] at hgives

/-- The node that has the fault fails with its cause alone, without a path. -/
theorem alone (h : FirstFault c root path origin cause) (hroot : root.layout.WellFormed good) :
    Gives (origin.write c) (.error cause.fault) := by
  induction h with
  | own hown => exact (FirstFault.own hown).gives hlookup hroot
  | missing hown hturns hearlier =>
    exact (FirstFault.missing hown hturns hearlier).gives hlookup hroot
  | part _ hturns _ _ ih =>
    exact ih (Node.wellFormed_of_mem_turns hlookup hroot (hturns ▸ List.mem_append_cons_self))

theorem not_taken (h : FirstFault c root path origin cause) (hroot : root.layout.WellFormed good)
    (segment : Option String) : ¬ (Turn.part segment root).Taken c := by
  intro htaken
  have hok := Gives.iff_ok.mpr htaken Buffer.empty
  rw [h.gives hlookup hroot Buffer.empty] at hok
  cases hok

/-- One node has the first fault. -/
theorem unique (h : FirstFault c root path origin cause)
    (h' : FirstFault c root path' origin' cause') (hroot : root.layout.WellFormed good) :
    origin = origin' := by
  induction h generalizing path' with
  | own hown =>
    cases h' with
    | own | missing => rfl
    | part hown' => simp [hown] at hown'
  | @missing root _ _ typeName member _ hturns hearlier =>
    cases h' with
    | own | missing => rfl
    | part _ hturns' hearlier' hfault' =>
      have hnode' :=
        Node.wellFormed_of_mem_turns hlookup hroot (hturns' ▸ List.mem_append_cons_self)
      cases Turn.eq_of_first c (hturns.symm.trans hturns') hearlier id hearlier'
        (hfault'.not_taken hlookup hnode' _)
  | part hown hturns hearlier hfault ih =>
    have hnode := Node.wellFormed_of_mem_turns hlookup hroot (hturns ▸ List.mem_append_cons_self)
    have hfirst := hfault.not_taken hlookup hnode
    cases h' with
    | own hown' => simp [hown] at hown'
    | missing _ hturns' hearlier' =>
      cases Turn.eq_of_first c (hturns.symm.trans hturns') hearlier (hfirst _) hearlier' id
    | part _ hturns' hearlier' hfault' =>
      have hnode' :=
        Node.wellFormed_of_mem_turns hlookup hroot (hturns' ▸ List.mem_append_cons_self)
      cases Turn.eq_of_first c (hturns.symm.trans hturns') hearlier (hfirst _) hearlier'
        (hfault'.not_taken hlookup hnode' _)
      exact ih hfault' hnode

/-- A node that cannot be written has a first fault, and fails with it. -/
theorem iff_outcome {fault : Fault} (hroot : root.layout.WellFormed good) :
    (root.write c).outcome Buffer.empty = .error fault ↔
      ∃ origin, FirstFault c root fault.path origin fault.cause := by
  constructor
  · intro h
    induction root using Node.induction_on_turns c.types generalizing fault with
    | node root ih =>
      rw [Node.gives_turns hlookup hroot Buffer.empty] at h
      cases hown : root.objection? c.countWidth with
      | some cause =>
        rw [hown] at h
        cases h
        exact ⟨root, .own hown⟩
      | none =>
        rw [hown, Cause.before, Turn.inTurn_eq_error] at h
        obtain ⟨earlier, turn, later, hturns, hearlier, hturn⟩ := h
        have hmem : turn ∈ root.turns c.types := hturns ▸ List.mem_append_cons_self
        cases turn with
        | missing typeName member =>
          cases hturn
          exact ⟨root, .missing hown hturns hearlier⟩
        | part segment node =>
          have hnode := Node.wellFormed_of_mem_turns hlookup hroot hmem
          obtain ⟨inner, hinner, rfl⟩ := (Turn.outcome_part_eq_error c).mp hturn
          obtain ⟨origin, hfault⟩ := ih segment node hmem hnode hinner
          exact ⟨origin, .part hown hturns hearlier hfault⟩
  · rintro ⟨origin, hfault⟩
    exact hfault.gives hlookup hroot Buffer.empty

end Closed

end FirstFault

/-- The layout is the body of a type, and whatever its references lead to is there and well
formed. -/
structure Layout.Grounded (types : Lookup) (l : Layout) : Prop where
  body : l.IsBody
  leads : ∃ good : Reference → Prop, l.WellFormed good ∧
    ∀ target, good target → ∃ l, types target.id target.role = .ok l ∧ l.WellFormed good

/-- The fault is that of the first node that cannot be written: the cause that the node fails with
alone, behind the names that lead there from the root. -/
structure Fault.PointsAt (c : Context) (root : Node) (fault : Fault) (origin : Node) : Prop where
  first : FirstFault c root fault.path origin fault.cause
  alone : ∀ b, (origin.write c).outcome b = .error fault.cause.fault
  atRoot : origin = root → fault = fault.cause.fault
  inside : origin ≠ root → fault.fieldPath? = some (".".intercalate fault.path)

namespace Layout.Grounded

variable {c : Context} {l : Layout} {fault : Fault}

/-- What is grounded cannot be written just where some node has the first fault. -/
theorem write_eq_error_iff (h : l.Grounded c.types) (v : Value) (b : Buffer) :
    (c.write l v).outcome b = .error fault ↔
      ∃ origin, FirstFault c ⟨c.maxDepth, l, v⟩ fault.path origin fault.cause := by
  obtain ⟨good, hwell, hlookup⟩ := h.leads
  rw [← FirstFault.iff_outcome hlookup hwell]
  exact Eq.congr_left (Layout.uniform_write _ _ _ _ b Buffer.empty)

/-- The node that has the first fault is the only one that the fault points at. -/
theorem existsUnique_pointsAt (h : l.Grounded c.types) {v : Value} :
    (∃ origin, FirstFault c ⟨c.maxDepth, l, v⟩ fault.path origin fault.cause) ↔
      ∃! origin, fault.PointsAt c ⟨c.maxDepth, l, v⟩ origin := by
  obtain ⟨good, hwell, hlookup⟩ := h.leads
  constructor
  · rintro ⟨origin, hfirst⟩
    have hnil := hfirst.path_eq_nil_iff h.body
    refine ⟨origin, ⟨hfirst, hfirst.alone hlookup hwell, fun horigin => ?_, fun horigin => ?_⟩,
      fun origin' h' => h'.first.unique hlookup hfirst hwell⟩
    · exact congrArg (Fault.mk · fault.cause) (hnil.mpr horigin)
    · rw [Fault.fieldPath?, if_neg (by simpa using mt hnil.mp horigin)]
  · rintro ⟨origin, hpoints, -⟩
    exact ⟨origin, hpoints.first⟩

end Layout.Grounded

theorem Site.isBody_union {site : Site} {role : Role} {u : UnionOf Shape} {l : Layout}
    (h : site.layout role (.union u) = .ok l) : l.IsBody := by
  obtain ⟨discriminator, cases, fallback, keyed⟩ := u
  cases fallback with
  | none =>
    obtain ⟨_, _, _, -, -, -, rfl⟩ := layout_union_none h
    trivial
  | some f =>
    obtain ⟨_, _, _, _, _, -, -, -, -, -, rfl⟩ := layout_union_some h
    trivial

namespace Layouts

/-- The layouts of a declared type are those of a body. -/
theorem isBody_build {resolve : String → Option (Nat × Declaration)} {d : Declaration}
    {layouts : Layouts} (h : build resolve d = .ok layouts) :
    layouts.full.IsBody ∧ layouts.key.IsBody := by
  have hmember : layouts.full.IsBody ∧ layouts.memberKey.IsBody := by
    cases hbody : d.body with
    | struct members =>
      obtain ⟨full, key, -, -, rfl⟩ := build_struct hbody h
      exact ⟨trivial, trivial⟩
    | union u =>
      obtain ⟨full, key, hfull, hkey, rfl⟩ := build_union hbody h
      exact ⟨Site.isBody_union hfull, Site.isBody_union hkey⟩
    | enumeration enumerators =>
      obtain ⟨-, rfl⟩ := build_enumeration hbody h
      exact ⟨trivial, trivial⟩
  refine ⟨hmember.1, ?_⟩
  rw [key_eq h]
  split
  · trivial
  · exact hmember.2

end Layouts

theorem Sample.encode_eq_error {c : Context} {l : Layout} {order : ByteOrder} {capacity : Nat}
    {v : Value} {fault : Fault} : encode c l order capacity v = .error fault ↔
      (c.write l v).outcome (start order capacity) = .error fault := by
  unfold encode Coding.outcome
  cases c.write l v (start order capacity) <;> simp

namespace Registry

variable {r : Registry} {h : Handle}

/-- What is made of a key fails where the key cannot be written. -/
theorem onNewBuffer_key_eq_error {α : Type} {l : Layout} {v : Value} {fault : Fault}
    {f : List UInt8 → α} :
    r.onNewBuffer (do return f (← Key.encode r.context l v)) = .error fault ↔
      (r.context.write l v).outcome
        (Key.prepare (Buffer.ofCapacity r.config.initialCapacity)) = .error fault := by
  rw [onNewBuffer_eq, Coding.outcome_bind, Key.encode_apply]
  unfold Coding.outcome
  cases r.context.write l v (Key.prepare (Buffer.ofCapacity r.config.initialCapacity)) with
  | ok _ b => exact ⟨nofun, nofun⟩
  | error found b => simp

/-- The layouts that the operations on a type write with are grounded, and the operations fail where
some node of the value has the first fault. -/
structure Traced (r : Registry) (h : Handle) (full keyed : Layout) : Prop where
  layout : r.catalog.layout h.id .full = .ok full
  keyLayout : r.catalog.keyLayout h.id = .ok keyed
  full_grounded : full.Grounded r.context.types
  keyed_grounded : keyed.Grounded r.context.types
  serializeIn : ∀ order v fault, r.serializeIn h order v = .error fault ↔
    ∃ origin, FirstFault r.context ⟨r.config.maxDepth, full, v⟩ fault.path origin fault.cause
  key : ∀ v fault, r.key h v = .error fault ↔
    ∃ origin, FirstFault r.context ⟨r.config.maxDepth, keyed, v⟩ fault.path origin fault.cause
  keyHash : ∀ v fault, r.keyHash h v = .error fault ↔
    ∃ origin, FirstFault r.context ⟨r.config.maxDepth, keyed, v⟩ fault.path origin fault.cause

/-- A usable type fails to write just those values that have a first fault. -/
theorem Steady.exists_traced (hr : r.Steady) (hcheck : r.checkHandle h = .ok ())
    (hwhole : r.catalog.Whole h.id) : ∃ full keyed, Traced r h full keyed := by
  have hcoherent := hr.sound.coherent
  obtain ⟨⟨e, layouts, size, he, hbuild, -, hserved⟩, -⟩ := (hr.serves_iff_whole hcheck).mpr hwhole
  have hfull : r.catalog.layout h.id .full = .ok layouts.full :=
    hcoherent.layout_eq_ok.mpr ⟨e, layouts, he, hbuild, rfl⟩
  have hkey : r.catalog.keyLayout h.id = .ok layouts.key :=
    hcoherent.keyLayout_eq_ok.mpr ⟨e, layouts, he, hbuild, rfl⟩
  have hlookup : ∀ role target, r.catalog.Leads h.id role target →
      ∃ l, r.context.types target.id target.role = .ok l ∧
        l.WellFormed (r.catalog.Leads h.id role) :=
    fun _ _ hleads => hwhole.exists_layout_of_leads hcoherent hleads
  obtain ⟨hfullBody, hkeyBody⟩ := Layouts.isBody_build hbuild
  have hfullGrounded : layouts.full.Grounded r.context.types :=
    ⟨hfullBody, _, hcoherent.wellFormed_layout Relation.ReflTransGen.refl hfull, hlookup .full⟩
  have hkeyGrounded : layouts.key.Grounded r.context.types :=
    ⟨hkeyBody, _, hcoherent.wellFormed_keyLayout Relation.ReflTransGen.refl hkey, hlookup .key⟩
  refine ⟨layouts.full, layouts.key, hfull, hkey, hfullGrounded, hkeyGrounded,
    fun order v fault => ?_, fun v fault => ?_, fun v fault => ?_⟩
  · rw [hserved.serializeIn, Sample.encode_eq_error]
    exact hfullGrounded.write_eq_error_iff v _
  · rw [hserved.key, onNewBuffer_key_eq_error]
    exact hkeyGrounded.write_eq_error_iff v _
  · rw [hserved.keyHash, onNewBuffer_key_eq_error]
    exact hkeyGrounded.write_eq_error_iff v _

/-- After any events, a usable type fails to serialize a value, in whichever byte order, with the
fault that points at the first node that cannot be written, and with no other.  So it is with the
key and the keyhash of a value and the layout of the key. -/
theorem serializeIn_points_at {config : Config} {events : List Event} {h : Handle}
    (hcheck : (after { config := config } events).checkHandle h = .ok ())
    (hwhole : (after { config := config } events).catalog.Whole h.id) :
    let r := after { config := config } events
    ∃ full key, r.catalog.layout h.id .full = .ok full ∧ r.catalog.keyLayout h.id = .ok key ∧
      (∀ order v fault, r.serializeIn h order v = .error fault ↔
        ∃! origin, fault.PointsAt r.context ⟨r.config.maxDepth, full, v⟩ origin) ∧
      (∀ v fault, r.key h v = .error fault ↔
        ∃! origin, fault.PointsAt r.context ⟨r.config.maxDepth, key, v⟩ origin) ∧
      ∀ v fault, r.keyHash h v = .error fault ↔
        ∃! origin, fault.PointsAt r.context ⟨r.config.maxDepth, key, v⟩ origin := by
  intro r
  obtain ⟨full, key, ht⟩ := (steady_after config events).exists_traced hcheck hwhole
  exact ⟨full, key, ht.layout, ht.keyLayout,
    fun order v fault =>
      (ht.serializeIn order v fault).trans ht.full_grounded.existsUnique_pointsAt,
    fun v fault => (ht.key v fault).trans ht.keyed_grounded.existsUnique_pointsAt,
    fun v fault => (ht.keyHash v fault).trans ht.keyed_grounded.existsUnique_pointsAt⟩

/-- A load with a short note. -/
def load : Declaration :=
  { name := "Load"
    body := .struct [⟨"weight", .primitive (.integer .uint16)⟩, ⟨"note", .string (some 3)⟩] }

/-- Bays that are loaded or free, in numbered rows. -/
def depot : Declaration :=
  { name := "Depot"
    body := .struct
      [⟨"rows", .map (.primitive (.integer .uint8)) (.sequence (.union
          ⟨.primitive .bool, [⟨"load", [1], .optional (.named "Load")⟩],
            some ⟨"free", .primitive .bool⟩, false⟩) (some 2)) (some 1)⟩,
        ⟨"code", .string (some 4)⟩] }

/-- A depot with one row of two bays, of which the second is loaded. -/
def stocked (note : String) : Value :=
  .struct [("rows", .map [(.integer ⟨.int16, 40, by decide⟩,
    .array [.union none (.bool true), .union (some 1)
      (.struct [("note", .string note), ("weight", .integer ⟨.int16, 12, by decide⟩)])])])]

/-- The note of the load is too long.  The code is missing too, but it would have been written
later. -/
theorem serializeIn_points_at_depot :
    let r := after { config := { } } [.register depot, .register load]
    let fault : Fault :=
      ⟨["rows", "[0].value", "[1]", "load", "note"], .boundExceeded "string" 4 3⟩
    r.checkHandle ⟨0, "Depot"⟩ = .ok () ∧ r.catalog.Whole 0 ∧
      r.serializeIn ⟨0, "Depot"⟩ .big (stocked "long") = .error fault ∧
      r.key ⟨0, "Depot"⟩ (stocked "long") = .error fault ∧
      fault.fieldPath? = some "rows.[0].value.[1].load.note" ∧
      ∃ full key, r.catalog.layout 0 .full = .ok full ∧ r.catalog.keyLayout 0 = .ok key ∧
        (∃! origin, fault.PointsAt r.context ⟨r.config.maxDepth, full, stocked "long"⟩ origin) ∧
        ∃! origin, fault.PointsAt r.context ⟨r.config.maxDepth, key, stocked "long"⟩ origin := by
  intro r fault
  have hcheck : r.checkHandle ⟨0, "Depot"⟩ = .ok () := rfl
  obtain ⟨size, hsize⟩ : ∃ size, r.maxKeySize ⟨0, "Depot"⟩ = .ok size := ⟨_, rfl⟩
  have hwhole : r.catalog.Whole 0 := (steady_after _ _).whole hsize
  have hfault : r.serializeIn ⟨0, "Depot"⟩ .big (stocked "long") = .error fault := by decide
  have hkeyFault : r.key ⟨0, "Depot"⟩ (stocked "long") = .error fault := by decide
  obtain ⟨full, key, hfull, hkey, hsample, hkeyed, -⟩ := serializeIn_points_at hcheck hwhole
  exact ⟨hcheck, hwhole, hfault, hkeyFault, by decide, full, key, hfull, hkey,
    (hsample .big _ fault).mp hfault, (hkeyed _ fault).mp hkeyFault⟩

end Registry

end Cdr
