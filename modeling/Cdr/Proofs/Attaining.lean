import Cdr.Proofs.Walking

/-! Measures that are attained.  A layout has a value that is written just as far as the layout is
measured.  Which value that is depends on where it starts, because of the padding, so the values of
the parts are chosen one after the other, each from where the one before it ends, and a union takes
the arm that ends last. -/

namespace Cdr

namespace Extent

/-- An offset, or the limit if it lies beyond. -/
def clamp (offset : Nat) : Extent := ⟨min limit offset⟩

theorem skip_clamp (n offset : Nat) : (clamp offset).skip n = clamp (offset + n) := by
  simp only [clamp, skip]
  congr 1
  omega

theorem isUnbounded_clamp {offset : Nat} :
    (clamp offset).isUnbounded = true ↔ limit ≤ offset := by
  rw [isUnbounded_iff, clamp]
  simp only
  omega

theorem clamp_of_limit_le {offset : Nat} (h : limit ≤ offset) : clamp offset = unbounded := by
  rw [clamp, Nat.min_eq_left h]
  rfl

theorem align_clamp (size offset : Nat) :
    (clamp offset).align size = clamp (offset + gap size offset) := by
  by_cases hone : size ≤ 1
  · simp [align, gap, hone]
  rcases Nat.lt_or_ge offset limit with hlt | hle
  · have hbounded : ¬ (clamp offset).isUnbounded = true := by
      rw [isUnbounded_clamp]
      omega
    have hoffset : (clamp offset).offset = offset := Nat.min_eq_right hlt.le
    rw [align, if_neg (not_or.mpr ⟨hone, hbounded⟩), hoffset, gap, if_neg hone]
    by_cases hzero : offset % size = 0
    · rw [if_pos hzero, hzero, Nat.sub_zero, Nat.mod_self, Nat.add_zero]
    · have := Nat.mod_lt offset (by omega : 0 < size)
      rw [if_neg hzero, Nat.mod_eq_of_lt (by omega : size - offset % size < size), skip_clamp]
  · have hunbounded := isUnbounded_clamp.mpr hle
    rw [align, if_pos (Or.inr hunbounded), clamp_of_limit_le hle, clamp_of_limit_le (by omega)]

theorem primitive_clamp (size offset : Nat) :
    (clamp offset).primitive size = clamp (offset + gap size offset + size) := by
  rw [primitive, align_clamp, skip_clamp]

theorem merge_clamp (m n : Nat) : (clamp m).merge (clamp n) = clamp (max m n) := by
  simp only [clamp, merge]
  congr 1
  omega

end Extent

namespace Sizing

open Extent

/-- From `start` the write gets to `stop`, and the measure gets just as far, up to the limit. -/
structure Tracks (measure : Sizing Unit) (write : Coding Unit) (start stop : Nat) : Prop where
  forward : start ≤ stop
  measured : measure (clamp start) = .ok () (clamp stop)
  written : ∀ ⦃b : Buffer⦄ ⦃origin : Nat⦄, b.At origin start →
    ∃ b', write b = .ok () b' ∧ b'.At origin stop

namespace Tracks

variable {measure next : Sizing Unit} {write rest : Coding Unit} {start mid stop : Nat}

protected theorem pure : Tracks (pure ()) (pure ()) start start :=
  ⟨Nat.le_refl _, rfl, fun b _ hat => ⟨b, rfl, hat⟩⟩

theorem bind (h : Tracks measure write start mid) (hn : Tracks next rest mid stop) :
    Tracks (measure >>= fun _ => next) (write >>= fun _ => rest) start stop := by
  refine ⟨Nat.le_trans h.forward hn.forward, bind_eq_ok.mpr ⟨_, h.measured, hn.measured⟩, ?_⟩
  intro b origin hat
  obtain ⟨c, hwrite, hmid⟩ := h.written hat
  obtain ⟨b', hrest, hstop⟩ := hn.written hmid
  exact ⟨b', Coding.bind_eq_ok.mpr ⟨(), c, hwrite, hrest⟩, hstop⟩

theorem inField (h : Tracks measure write start stop) (field : String) :
    Tracks measure (Coding.inField field write) start stop := by
  refine ⟨h.forward, h.measured, fun b origin hat => ?_⟩
  obtain ⟨b', hwrite, hstop⟩ := h.written hat
  exact ⟨b', Coding.inField_eq_ok.mpr hwrite, hstop⟩

theorem unlessUnbounded (h : Tracks measure write start stop) :
    Tracks (Layout.unlessUnbounded measure) write start stop := by
  refine ⟨h.forward, ?_, h.written⟩
  have hforward := h.forward
  rw [Layout.unlessUnbounded_apply]
  split
  · rename_i hunbounded
    have hlimit := isUnbounded_clamp.mp hunbounded
    rw [clamp_of_limit_le hlimit, clamp_of_limit_le (by omega)]
  · exact h.measured

/-- One more round of a loop. -/
theorem naive_succ {count : Nat} (h : Tracks measure write start mid)
    (hn : Tracks (naive measure count) rest mid stop) :
    Tracks (naive measure (count + 1)) (write >>= fun _ => rest) start stop := by
  have hbind := (h.bind hn).unlessUnbounded
  refine ⟨hbind.forward, ?_, hbind.written⟩
  rw [Sizing.naive_succ, ← hbind.measured, Layout.unlessUnbounded_apply]

theorem times {count : Nat} (hm : Regular measure)
    (h : Tracks (naive measure count) write start stop) :
    Tracks (Sizing.times count measure) write start stop := by
  refine ⟨h.forward, ?_, h.written⟩
  exact (hm.times_eq count (Nat.min_le_left limit start)).trans h.measured

theorem put (bytes : List UInt8) (start : Nat) :
    Tracks (modify (Extent.skip bytes.length)) (Coding.put bytes) start (start + bytes.length) where
  forward := Nat.le_add_right _ _
  measured := modify_eq_ok.mpr (skip_clamp _ _)
  written _ _ hat := ⟨_, rfl, ((Coding.Lays.put bytes).at hat rfl).2⟩

theorem align (size start : Nat) :
    Tracks (modify (Extent.align size)) (Coding.align size) start (start + gap size start) where
  forward := Nat.le_add_right _ _
  measured := modify_eq_ok.mpr (align_clamp _ _)
  written _ _ hat := ⟨_, rfl, by
    simpa [Image.padding] using ((Coding.Lays.align size).at hat rfl).2⟩

theorem putWord (size n start : Nat) :
    Tracks (modify (Extent.primitive size)) (Coding.putWord size n) start
      (start + gap size start + size) where
  forward := by omega
  measured := modify_eq_ok.mpr (primitive_clamp _ _)
  written _ _ hat := ⟨_, rfl, by
    simpa [Image.bytes_word, Nat.add_assoc] using ((Coding.Lays.putWord size n).at hat rfl).2⟩

theorem putByte (byte : UInt8) (start : Nat) :
    Tracks (modify (Extent.primitive 1)) (Layout.putByte byte) start (start + 1) where
  forward := Nat.le_add_right _ _
  measured := modify_eq_ok.mpr (primitive_clamp _ _)
  written := (put [byte] start).written

end Tracks

/-- Wherever it starts, the step has a value to write that takes as much as is measured.  The value
is there and fits the assumptions. -/
def Attains (fits : Value → Prop) (measure : Sizing Unit) (write : Value → Coding Unit) : Prop :=
  ∀ start, ∃ v, v.isNull = false ∧ fits v ∧ ∃ stop, Tracks measure (write v) start stop

theorem Attains.unlessUnbounded {fits : Value → Prop} {measure : Sizing Unit}
    {write : Value → Coding Unit} (h : Attains fits measure write) :
    Attains fits (Layout.unlessUnbounded measure) write := by
  intro start
  obtain ⟨v, hnull, hfits, stop, htracks⟩ := h start
  exact ⟨v, hnull, hfits, stop, htracks.unlessUnbounded⟩

/-- As many items as are measured, each chosen from where the one before it ends. -/
theorem exists_rounds {α : Type} {fits : α → Prop} {measure : Sizing Unit}
    (step : Nat → α → Coding Unit) (run : Nat → List α → Coding Unit) (hm : Regular measure)
    (hnil : ∀ i, run i [] = pure ())
    (hcons : ∀ i x xs, run i (x :: xs) = (step i x >>= fun _ => run (i + 1) xs)) {count : Nat}
    (h : count ≠ 0 → ∀ i start, ∃ x, fits x ∧ ∃ stop, Tracks measure (step i x) start stop)
    (i start : Nat) :
    ∃ xs, xs.length = count ∧ (∀ x ∈ xs, fits x) ∧
      ∃ stop, Tracks (times count measure) (run i xs) start stop := by
  have hrounds : ∃ xs, xs.length = count ∧ (∀ x ∈ xs, fits x) ∧
      ∃ stop, Tracks (naive measure count) (run i xs) start stop := by
    induction count generalizing i start with
    | zero => exact ⟨[], rfl, fun _ hx => (nomatch hx), start, hnil i ▸ Tracks.pure⟩
    | succ count ih =>
      have hstep := h (Nat.succ_ne_zero count)
      obtain ⟨x, hx, mid, hfirst⟩ := hstep i start
      obtain ⟨xs, hlength, hxs, stop, hrest⟩ := ih (fun _ => hstep) (i + 1) mid
      refine ⟨x :: xs, by rw [List.length_cons, hlength], List.forall_mem_cons.mpr ⟨hx, hxs⟩,
        stop, ?_⟩
      rw [hcons]
      exact hfirst.naive_succ hrest
  obtain ⟨xs, hlength, hxs, stop, htracks⟩ := hrounds
  exact ⟨xs, hlength, hxs, stop, htracks.times hm⟩

end Sizing

namespace Layout

open Sizing Extent

/-- The greatest length of a node fits in front of it. -/
def Countable (a : Assumptions) : Layout → Prop
  | string bound => a.greatest bound ≤ greatestText
  | bytes bound | sequence _ bound | map _ _ bound => a.greatest bound ≤ a.countWidth.greatest
  | _ => True

/-- A node has a value if its parts have.  Enumerations and unions are not empty, no name stands
twice, every case is selected by one of its labels, and references are resolved. -/
def Fillable (types : Lookup) : Layout → Prop
  | enumeration _ enumerators => enumerators ≠ [] ∧ Enumerator.Distinct enumerators
  | struct _ members => (members.map (·.name)).Nodup
  | union u =>
    u.arms ≠ [] ∧
      (∀ c ∈ u.cases, ∃ label, u.discriminator.contains label = true ∧
        u.cases.find? (·.labels.contains label) = some c) ∧
      ∀ f, u.fallback = some f → u.discriminator.contains f.sentinel = true
  | reference target => ∃ l, types target.id target.role = .ok l
  | _ => True

section Leaves

variable {a : Assumptions} {bound : Option UInt64} {fits : Value → Prop}

theorem checkBound_greatest (member : String) (a : Assumptions) (bound : Option UInt64) :
    checkBound member (a.greatest bound) bound = pure () := by
  cases bound with
  | none => rfl
  | some n => exact if_neg (Nat.lt_irrefl n.toNat)

theorem writeCount_greatest {member : String} {n : Nat} (w : CountWidth) (h : n ≤ w.greatest) :
    writeCount w member n = Coding.putWord w.bytes n := if_neg (by omega)

theorem length_encode_replicate (n : Nat) :
    (Text.Utf8.encode (String.ofList (List.replicate n 'a'))).length = n := by
  have hone : Char.utf8Size 'a' = 1 := by decide
  simp [Text.Utf8.encode, List.length_flatMap, hone]

theorem attains_primitive (p : Primitive) (h : ∀ v, fits v) :
    Attains fits (modify (Extent.primitive p.size)) (writePrimitive p) := by
  intro start
  cases p with
  | bool => exact ⟨.bool true, rfl, h _, _, Tracks.putByte 1 start⟩
  | char => exact ⟨.char 'a', rfl, h _, _, Tracks.putByte 97 start⟩
  | integer t =>
    have hzero : t.Holds 0 := by cases t <;> decide
    have hfitting : fittingNumber t (.integer ⟨t, 0, hzero⟩) = .ok 0 := if_pos hzero
    refine ⟨.integer ⟨t, 0, hzero⟩, rfl, h _, ?_⟩
    rw [writePrimitive, hfitting]
    exact ⟨_, Tracks.putWord t.size (t.toBits 0) start⟩
  | float32 => exact ⟨.float32 0, rfl, h _, _, Tracks.putWord 4 _ start⟩
  | float64 => exact ⟨.float64 0, rfl, h _, _, Tracks.putWord 8 _ start⟩

theorem attains_string (hcount : a.greatest bound ≤ greatestText)
    (h : ∀ text, (Text.Utf8.encode text).length = a.greatest bound → fits (.string text)) :
    Attains fits (modify fun e => ((e.primitive 4).skip (a.greatest bound)).skip 1)
      (writeString bound) := by
  intro start
  have hlength := length_encode_replicate (a.greatest bound)
  refine ⟨.string (String.ofList (List.replicate (a.greatest bound) 'a')), rfl, h _ hlength, ?_⟩
  generalize String.ofList (List.replicate (a.greatest bound) 'a') = text at hlength ⊢
  have hwrite : writeString bound (.string text) =
      (Coding.putWord 4 (a.greatest bound + 1) >>= fun _ =>
        Coding.put (Text.Utf8.encode text) >>= fun _ => putByte 0) := by
    simp only [writeString, Value.asString?, hlength, checkBound_greatest, pure_bind,
      if_neg (Nat.not_lt.mpr hcount)]
  have hput := Tracks.put (Text.Utf8.encode text) (start + gap 4 start + 4)
  rw [hlength] at hput
  rw [hwrite]
  exact ⟨_, (Tracks.putWord 4 _ start).bind (hput.bind (Tracks.put [0] _))⟩

theorem attains_bytes (hcount : a.greatest bound ≤ a.countWidth.greatest)
    (h : ∀ data : List UInt8, data.length = a.greatest bound → fits (.bytes data)) :
    Attains fits (modify fun e => (e.primitive a.countWidth.bytes).skip (a.greatest bound))
      (writeBytes a.countWidth bound) := by
  intro start
  have hlength : (List.replicate (a.greatest bound) (0 : UInt8)).length = a.greatest bound :=
    List.length_replicate
  refine ⟨.bytes (List.replicate (a.greatest bound) 0), rfl, h _ hlength, ?_⟩
  generalize List.replicate (a.greatest bound) (0 : UInt8) = data at hlength ⊢
  have hwrite : writeBytes a.countWidth bound (.bytes data) =
      (Coding.putWord a.countWidth.bytes (a.greatest bound) >>= fun _ => Coding.put data) := by
    simp only [writeBytes, orFail, pure_bind, hlength, checkBound_greatest,
      writeCount_greatest a.countWidth hcount]
  have hput := Tracks.put data (start + gap a.countWidth.bytes start + a.countWidth.bytes)
  rw [hlength] at hput
  rw [hwrite]
  exact ⟨_, (Tracks.putWord a.countWidth.bytes _ start).bind hput⟩

theorem attains_enumerator (name : String) {enumerators : List Enumerator}
    (hne : enumerators ≠ []) (hdistinct : Enumerator.Distinct enumerators) (h : ∀ v, fits v) :
    Attains fits (modify (Extent.primitive 4)) (writeEnumerator name enumerators) := by
  intro start
  obtain ⟨e, he⟩ := List.exists_mem_of_ne_nil _ hne
  refine ⟨.enumerator e.name, rfl, h _, ?_⟩
  have hordinal : ordinalOf? enumerators (.enumerator e.name) = some e.ordinal :=
    hdistinct.ordinalOf?_name he
  rw [writeEnumerator, hordinal]
  exact ⟨_, Tracks.putWord 4 _ start⟩

/-- All tags take the same way. -/
theorem tracks_tag {d : Discriminator} {label : Label} (h : d.contains label = true)
    (start : Nat) : Tracks (modify (Extent.primitive d.alignment)) (d.write label) start
      (start + gap d.alignment start + d.alignment) := by
  obtain ⟨t, ht, -⟩ := Discriminator.exists_tagType? h
  have hsize : d.alignment = t.size := by
    cases d with
    | primitive p => cases p <;> cases ht <;> rfl
    | enumeration _ _ =>
      cases ht
      rfl
  rw [Discriminator.write, ht, hsize]
  exact Tracks.putWord t.size _ start

end Leaves

section Trees

variable {a : Assumptions} {fits : Nat → Prop} {behind : Reference → Value → Prop}
  {measure : Reference → Sizing Unit} {write : Reference → Value → Coding Unit}

/-- The layout has a value that is written as far as the layout is measured, with what is given for
what lies behind references. -/
def AttainedWith (a : Assumptions) (fits : Nat → Prop) (behind : Reference → Value → Prop)
    (measure : Reference → Sizing Unit) (write : Reference → Value → Coding Unit)
    (l : Layout) : Prop :=
  Attains (AssumedWith fits behind l) (measureWith a measure l) (writeWith a.countWidth write l)

section Collections

variable {element key value : Layout} {count : Nat} {bound : Option UInt64}

theorem exists_items (hm : Regular (measureWith a measure element))
    (h : count ≠ 0 → AttainedWith a fits behind measure write element) (start : Nat) :
    ∃ items : List Value, items.length = count ∧
      (∀ x ∈ items, AssumedWith fits behind element x) ∧
      ∃ stop, Tracks (times count (measureWith a measure element))
        (writeEach (writeWith a.countWidth write element) 0 items) start stop := by
  refine exists_rounds _ (writeEach (writeWith a.countWidth write element)) hm (fun _ => rfl)
    (fun _ _ _ => rfl) (fun hne i start => ?_) 0 start
  obtain ⟨x, -, hx, stop, htracks⟩ := h hne start
  exact ⟨x, hx, stop, htracks.inField _⟩

theorem exists_entries (hk : Regular (measureWith a measure key))
    (hv : Regular (measureWith a measure value))
    (hkey : count ≠ 0 → AttainedWith a fits behind measure write key)
    (hvalue : count ≠ 0 → AttainedWith a fits behind measure write value) (start : Nat) :
    ∃ entries : List (Value × Value), entries.length = count ∧
      (∀ e ∈ entries, AssumedWith fits behind key e.1 ∧ AssumedWith fits behind value e.2) ∧
      ∃ stop, Tracks
        (times count (measureWith a measure key >>= fun _ => measureWith a measure value))
        (writeEntries (writeWith a.countWidth write key) (writeWith a.countWidth write value) 0
          entries) start stop := by
  refine exists_rounds
    (fun i e => do
      Coding.inField (elementName i ++ ".key") (writeWith a.countWidth write key e.1)
      Coding.inField (elementName i ++ ".value") (writeWith a.countWidth write value e.2))
    (writeEntries (writeWith a.countWidth write key) (writeWith a.countWidth write value))
    (hk.bind hv) (fun _ => rfl) (fun _ _ _ => (bind_assoc _ _ _).symm) (fun hne i start => ?_) 0
    start
  obtain ⟨x, -, hx, mid, hfirst⟩ := hkey hne start
  obtain ⟨y, -, hy, stop, hsecond⟩ := hvalue hne mid
  exact ⟨(x, y), ⟨hx, hy⟩, stop, (hfirst.inField _).bind (hsecond.inField _)⟩

theorem attained_array (hm : Regular (measureWith a measure element)) {length : UInt64}
    (h : length.toNat ≠ 0 → AttainedWith a fits behind measure write element) :
    AttainedWith a fits behind measure write (.array element length) := by
  refine Attains.unlessUnbounded fun start => ?_
  obtain ⟨items, hlength, hitems, stop, htracks⟩ := exists_items hm h start
  refine ⟨.array items, rfl, ?_, stop, ?_⟩
  · rintro _ ⟨⟩ x hx
    exact hitems x hx
  · have hwrite : writeWith a.countWidth write (.array element length) (.array items) =
        writeEach (writeWith a.countWidth write element) 0 items := if_pos hlength
    rwa [hwrite]

theorem attained_sequence (hm : Regular (measureWith a measure element))
    (hcount : a.greatest bound ≤ a.countWidth.greatest)
    (hfits : bound = none → fits (a.greatest bound))
    (h : a.greatest bound ≠ 0 → AttainedWith a fits behind measure write element) :
    AttainedWith a fits behind measure write (.sequence element bound) := by
  refine Attains.unlessUnbounded fun start => ?_
  have hword := Tracks.putWord a.countWidth.bytes (a.greatest bound) start
  obtain ⟨items, hlength, hitems, stop, htracks⟩ := exists_items hm h _
  refine ⟨.array items, rfl, ?_, stop, ?_⟩
  · rintro _ ⟨⟩
    exact ⟨fun hnone => hlength ▸ hfits hnone, hitems⟩
  · have hwrite : writeWith a.countWidth write (.sequence element bound) (.array items) =
        (Coding.putWord a.countWidth.bytes (a.greatest bound) >>= fun _ =>
          writeEach (writeWith a.countWidth write element) 0 items) := by
      simp only [writeWith, Value.asItems?, hlength, checkBound_greatest, pure_bind,
        writeCount_greatest a.countWidth hcount]
    rw [hwrite]
    exact hword.bind htracks

theorem attained_map (hk : Regular (measureWith a measure key))
    (hv : Regular (measureWith a measure value))
    (hcount : a.greatest bound ≤ a.countWidth.greatest)
    (hfits : bound = none → fits (a.greatest bound))
    (hkey : a.greatest bound ≠ 0 → AttainedWith a fits behind measure write key)
    (hvalue : a.greatest bound ≠ 0 → AttainedWith a fits behind measure write value) :
    AttainedWith a fits behind measure write (.map key value bound) := by
  refine Attains.unlessUnbounded fun start => ?_
  have hword := Tracks.putWord a.countWidth.bytes (a.greatest bound) start
  obtain ⟨entries, hlength, hentries, stop, htracks⟩ := exists_entries hk hv hkey hvalue _
  refine ⟨.map entries, rfl, ?_, stop, ?_⟩
  · rintro _ ⟨⟩
    exact ⟨fun hnone => hlength ▸ hfits hnone, hentries⟩
  · have hwrite : writeWith a.countWidth write (.map key value bound) (.map entries) =
        (Coding.putWord a.countWidth.bytes (a.greatest bound) >>= fun _ =>
          writeEntries (writeWith a.countWidth write key) (writeWith a.countWidth write value) 0
            entries) := by
      simp only [writeWith, hlength, checkBound_greatest, pure_bind,
        writeCount_greatest a.countWidth hcount]
    rw [hwrite]
    exact hword.bind htracks

end Collections

theorem exists_members (members : List (Member Layout)) (hnodup : (members.map (·.name)).Nodup)
    (h : ∀ m ∈ members, AttainedWith a fits behind measure write m.content) (start : Nat) :
    ∃ chosen : String → Value, ∃ stop, ∀ name given,
      (∀ m ∈ members, Dictionary.find? m.name given = some (chosen m.name)) →
        MembersAssumed fits behind given members ∧
          Tracks (measureMembers a measure members)
            (writeMembers a.countWidth write name given members) start stop := by
  induction members generalizing start with
  | nil => exact ⟨fun _ => .null, start, fun _ _ _ => ⟨trivial, Tracks.pure⟩⟩
  | cons m members ih =>
    obtain ⟨hm, hrest⟩ := List.forall_mem_cons.mp h
    obtain ⟨hfresh, hnodup⟩ := List.nodup_cons.mp hnodup
    obtain ⟨v, -, hv, mid, hfirst⟩ := hm start
    obtain ⟨chosen, stop, hchosen⟩ := ih hnodup hrest mid
    refine ⟨Function.update chosen m.name v, stop, fun name given hgiven => ?_⟩
    obtain ⟨hhead, htail⟩ := List.forall_mem_cons.mp hgiven
    rw [Function.update_self] at hhead
    obtain ⟨hassumed, htracks⟩ := hchosen name given fun m' hm' => by
      have hother : m'.name ≠ m.name := fun heq => hfresh (List.mem_map.mpr ⟨m', hm', heq⟩)
      rw [htail m' hm', Function.update_of_ne hother]
    refine ⟨⟨fun x hx => ?_, hassumed⟩, ?_⟩
    · obtain rfl : v = x := Option.some.inj (hhead.symm.trans hx)
      exact hv
    · rw [writeMembers, hhead]
      exact (hfirst.inField m.name).bind htracks

theorem attained_struct {name : String} {members : List (Member Layout)}
    (hnodup : (members.map (·.name)).Nodup)
    (h : ∀ m ∈ members, AttainedWith a fits behind measure write m.content) :
    AttainedWith a fits behind measure write (.struct name members) := by
  refine Attains.unlessUnbounded fun start => ?_
  obtain ⟨chosen, stop, hchosen⟩ := exists_members members hnodup h start
  let entries : List (String × Value) := members.map fun m => (m.name, chosen m.name)
  have hnames : (entries.map (·.1)).Nodup := by
    simpa [entries, Function.comp_def] using hnodup
  obtain ⟨hassumed, htracks⟩ := hchosen name (Dictionary.ofList entries) fun m hm =>
    Dictionary.find?_insertAll_of_mem hnames (List.mem_map.mpr ⟨m, hm, rfl⟩) []
  refine ⟨.ofMembers entries, rfl, ?_, stop, htracks⟩
  rintro _ ⟨⟩
  exact hassumed

theorem attained_optional {inner : Layout} (h : AttainedWith a fits behind measure write inner) :
    AttainedWith a fits behind measure write (.optional inner) := by
  refine Attains.unlessUnbounded fun start => ?_
  obtain ⟨v, hnull, hassumed, stop, htracks⟩ := h (start + 1)
  refine ⟨v, hnull, fun _ => hassumed, stop, ?_⟩
  have hwrite : writeWith a.countWidth write (.optional inner) v =
      (putByte 1 >>= fun _ => writeWith a.countWidth write inner v) := by
    rw [writeWith, hnull]
    rfl
  rw [hwrite]
  exact (Tracks.put [1] start).bind htracks

section Unions

/-- Among several layouts there is one with a value that is written as far as all of them together
are measured. -/
theorem exists_greatest_arm {arms : List Layout} (hne : arms ≠ [])
    (h : ∀ l ∈ arms, AttainedWith a fits behind measure write l) (start : Nat) :
    ∃ l ∈ arms, ∃ v, AssumedWith fits behind l v ∧ ∃ stop, start ≤ stop ∧
      (∀ ⦃b : Buffer⦄ ⦃origin : Nat⦄, b.At origin start →
        ∃ b', writeWith a.countWidth write l v b = .ok () b' ∧ b'.At origin stop) ∧
      ∀ n, measureArms a measure (clamp start) arms (clamp n) = .ok () (clamp (max n stop)) := by
  induction arms with
  | nil => exact absurd rfl hne
  | cons l arms ih =>
    obtain ⟨hl, hrest⟩ := List.forall_mem_cons.mp h
    obtain ⟨v, -, hv, stop, htracks⟩ := hl start
    have hbranch : ∀ n, measureArms a measure (clamp start) (l :: arms) (clamp n) =
        measureArms a measure (clamp start) arms (clamp (max n stop)) := by
      intro n
      rw [measureArms, bind_apply, Sizing.branch, htracks.measured]
      simp only [merge_clamp]
    cases arms with
    | nil => exact ⟨l, List.mem_cons_self, v, hv, stop, htracks.forward, htracks.written, hbranch⟩
    | cons l' arms =>
      obtain ⟨best, hbest, v', hv', stop', hforward, hwritten, hmerged⟩ :=
        ih (List.cons_ne_nil l' arms) hrest
      rcases Nat.le_total stop stop' with hle | hle
      · refine ⟨best, List.mem_cons_of_mem _ hbest, v', hv', stop', hforward, hwritten, ?_⟩
        intro n
        rw [hbranch, hmerged, Nat.max_assoc, Nat.max_eq_right hle]
      · refine ⟨l, List.mem_cons_self, v, hv, stop, htracks.forward, htracks.written, ?_⟩
        intro n
        rw [hbranch, hmerged, Nat.max_assoc, Nat.max_eq_left hle]

/-- Among the arms of a union there is one that is written as far as the arms are measured. -/
theorem exists_arm {arms : List Layout} (hne : arms ≠ [])
    (h : ∀ l ∈ arms, AttainedWith a fits behind measure write l) (start : Nat) :
    ∃ l ∈ arms, ∃ v, AssumedWith fits behind l v ∧ ∃ stop,
      Tracks (get >>= fun e => measureArms a measure e arms) (writeWith a.countWidth write l v)
        start stop := by
  obtain ⟨l, hl, v, hv, stop, hforward, hwritten, hmerged⟩ := exists_greatest_arm hne h start
  refine ⟨l, hl, v, hv, stop, hforward, ?_, hwritten⟩
  rw [get_bind_apply, hmerged, Nat.max_eq_right hforward]

variable {u : UnionLayout Layout} {c : Case Layout} {label : Label} {types : Lookup}

theorem casesAssumed_iff {payload : Value} {cases : List (Case Layout)}
    (hfound : cases.find? (·.labels.contains label) = some c) :
    CasesAssumed fits behind label payload cases ↔ AssumedWith fits behind c.content payload := by
  induction cases with
  | nil => cases hfound
  | cons c' cases ih =>
    rw [List.find?_cons] at hfound
    rw [CasesAssumed]
    split at hfound
    · rename_i hlabel
      cases hfound
      rw [if_pos hlabel]
    · rename_i hlabel
      rw [if_neg (Bool.eq_false_iff.mp hlabel), ih hfound]

/-- Every arm of a union is selected by a tag that the discriminator can hold. -/
theorem exists_tag_of_mem_arms (w : CountWidth) (fits : Nat → Prop)
    (behind : Reference → Value → Prop) (write : Reference → Value → Coding Unit)
    (hfill : (union u).Fillable types) {l : Layout} (hl : l ∈ u.arms) :
    ∃ (selected : Option Label) (tag : Label) (field : String),
      u.discriminator.contains tag = true ∧ ∀ payload,
        ((u.tagOnly = false → AssumedWith fits behind l payload) →
          AssumedWith fits behind (union u) (.union selected payload)) ∧
        writeWith w write (union u) (.union selected payload) =
          (Coding.align (unionAlignment w u) >>= fun _ =>
            u.discriminator.write tag >>= fun _ =>
              if !u.tagOnly then Coding.inField field (writeWith w write l payload)
              else pure ()) := by
  obtain ⟨-, hcases, hfallback⟩ := hfill
  obtain ⟨name, d, cases, fallback, tagOnly⟩ := u
  rcases List.mem_append.mp hl with hcase | hdefault
  · obtain ⟨c, hc, rfl⟩ := List.mem_map.mp hcase
    obtain ⟨label, hcontains, hfound⟩ := hcases c hc
    refine ⟨some label, label, c.name, hcontains, fun payload => ⟨?_, ?_⟩⟩
    · rintro hassumed _ _ htag ⟨⟩
      exact (casesAssumed_iff hfound).mpr (hassumed htag)
    · have hcontains' : d.contains label = true := hcontains
      simp only [writeWith, writeCase_eq, hfound, Option.map_some, hcontains']
  · cases fallback with
    | none => cases hdefault
    | some f =>
      obtain rfl : l = f.content := by simpa using hdefault
      refine ⟨none, f.sentinel, f.name, hfallback f rfl, fun payload => ⟨?_, rfl⟩⟩
      rintro hassumed _ _ htag ⟨⟩
      exact hassumed htag

theorem attained_union (hfill : (union u).Fillable types)
    (h : u.tagOnly = false → ∀ l ∈ u.arms, AttainedWith a fits behind measure write l) :
    AttainedWith a fits behind measure write (.union u) := by
  unfold AttainedWith
  rw [measureWith_union_arms]
  refine Attains.unlessUnbounded fun start => ?_
  have halign := Tracks.align (unionAlignment a.countWidth u) start
  -- The tag ends at one place, whichever arm it selects, so the arm is chosen from there.
  generalize start + gap (unionAlignment a.countWidth u) start = mid at halign
  cases htag : u.tagOnly with
  | true =>
    obtain ⟨l, hl⟩ := List.exists_mem_of_ne_nil _ hfill.1
    obtain ⟨selected, tag, field, hcontains, hpayload⟩ :=
      exists_tag_of_mem_arms a.countWidth fits behind write hfill hl
    obtain ⟨hassumed, hwrite⟩ := hpayload .null
    refine ⟨.union selected .null, rfl, hassumed fun hfull => ?_,
      mid + gap u.discriminator.alignment mid + u.discriminator.alignment, ?_⟩
    · rw [htag] at hfull
      cases hfull
    · rw [hwrite, htag]
      exact halign.bind ((tracks_tag hcontains mid).bind Tracks.pure)
  | false =>
    obtain ⟨l, hl, v, hv, stop, htracks⟩ := exists_arm hfill.1 (h htag) _
    obtain ⟨selected, tag, field, hcontains, hpayload⟩ :=
      exists_tag_of_mem_arms a.countWidth fits behind write hfill hl
    obtain ⟨hassumed, hwrite⟩ := hpayload v
    refine ⟨.union selected v, rfl, hassumed fun _ => hv, stop, ?_⟩
    rw [hwrite, htag]
    exact halign.bind ((tracks_tag hcontains mid).bind (htracks.inField field))

end Unions

/-- A layout is attained where its nodes can be filled and counted, and what its references lead to
is attained. -/
theorem attainedWith (hmeasure : ∀ target, Regular (unlessUnbounded (measure target)))
    {types : Lookup} (hfits : fits a.unboundedLength) (l : Layout)
    (hfill : ∀ node, Walk types a l [] node → node.Fillable types)
    (hcount : ∀ node, Walk types a l [] node → node.Countable a)
    (hfollow : ∀ target, Walk types a l [] (.reference target) →
      Attains (behind target) (measure target) (write target)) :
    AttainedWith a fits behind measure write l := by
  have hregular := regular_measureWith (a := a) hmeasure
  induction l using induction_on_parts a with
  | node l ih =>
    have hpart : ∀ part ∈ l.parts a, AttainedWith a fits behind measure write part :=
      fun part hpart => ih part hpart (fun node hw => hfill node (.part hpart hw))
        (fun node hw => hcount node (.part hpart hw))
        (fun target hw => hfollow target (.part hpart hw))
    have hfilled := hfill l (.here l)
    have hcounted := hcount l (.here l)
    cases l with
    | primitive p => exact (attains_primitive p fun _ => trivial).unlessUnbounded
    | string bound =>
      refine (attains_string hcounted fun text hlength => ?_).unlessUnbounded
      cases bound with
      | none =>
        rintro _ ⟨⟩
        exact hlength ▸ hfits
      | some n => trivial
    | bytes bound =>
      refine (attains_bytes hcounted fun data hlength => ?_).unlessUnbounded
      cases bound with
      | none => exact (hlength.symm ▸ hfits : fits data.length)
      | some n => trivial
    | array element length =>
      exact attained_array (hregular element) fun hne =>
        hpart element (mem_parts_array.mpr ⟨hne, rfl⟩)
    | sequence element bound =>
      refine attained_sequence (hregular element) hcounted ?_ fun hne =>
        hpart element (mem_parts_sequence.mpr ⟨hne, rfl⟩)
      rintro rfl
      exact hfits
    | map key value bound =>
      refine attained_map (hregular key) (hregular value) hcounted ?_
        (fun hne => hpart key (mem_parts_map.mpr ⟨hne, Or.inl rfl⟩))
        fun hne => hpart value (mem_parts_map.mpr ⟨hne, Or.inr rfl⟩)
      rintro rfl
      exact hfits
    | enumeration name enumerators =>
      exact (attains_enumerator name hfilled.1 hfilled.2 fun _ => trivial).unlessUnbounded
    | struct name members =>
      exact attained_struct hfilled fun m hm =>
        hpart m.content (mem_parts_struct.mpr ⟨m, hm, rfl⟩)
    | union u =>
      exact attained_union hfilled fun htag l hl => hpart l (mem_parts_union.mpr ⟨htag, hl⟩)
    | optional inner => exact attained_optional (hpart inner (mem_parts_optional.mpr rfl))
    | reference target => exact (hfollow target (.here _)).unlessUnbounded

end Trees

/-- A layout is attained from wherever the walk that measures it is never over. -/
theorem attains_measure {types : Lookup} {a : Assumptions} {fits : Nat → Prop}
    (hfits : fits a.unboundedLength) {budget : Nat} {visiting : List (Nat × Role)} {l : Layout}
    (hfill : ∀ path node, Walk types a l path node → node.Fillable types)
    (hcount : ∀ path node, Walk types a l path node → node.Countable a)
    (hgoes : ∀ path target, Walk types a l path (.reference target) →
      ¬ Stops budget visiting path target) :
    Attains (Assumed fits types budget l) (l.measure types a budget visiting)
      (l.write types a.countWidth budget) := by
  induction budget generalizing visiting l with
  | zero =>
    rw [measure_eq]
    refine attainedWith (regular_measureBehind types a 0 visiting) hfits l (hfill []) (hcount [])
      fun target hwalk => ?_
    exact absurd (Or.inr (Or.inr (Nat.zero_le _))) (hgoes [] target hwalk)
  | succ budget ih =>
    rw [measure_eq]
    refine attainedWith (regular_measureBehind types a (budget + 1) visiting) hfits l
      (hfill []) (hcount []) fun target hwalk => ?_
    obtain ⟨found, hfound⟩ := hfill [] _ hwalk
    have hnew : target.entry ∉ visiting := fun hmem =>
      hgoes [] target hwalk (Or.inr (Or.inl hmem))
    have hon : ∀ {path node}, Walk types a found path node →
        Walk types a l (target :: path) node := fun hw => hwalk.trans (.follow hfound hw)
    have hattains : Attains (Assumed fits types budget found)
        (found.measure types a budget (target.entry :: visiting))
        (found.write types a.countWidth budget) :=
      ih (fun _ node hw => hfill _ node (hon hw)) (fun _ node hw => hcount _ node (hon hw))
        fun _ next hw hstops => hgoes _ next (hon hw) (stops_cons.mpr hstops)
    intro start
    obtain ⟨v, hnull, hassumed, stop, htracks⟩ := hattains start
    refine ⟨v, hnull, fun layout hlayout => ?_, stop, ?_⟩
    · obtain rfl : found = layout := Except.ok.inj (hfound.symm.trans hlayout)
      exact hassumed
    · rw [measureBehind, if_neg fun hmem => hnew (List.contains_iff_mem.mp hmem)]
      simp only [hfound]
      exact htracks

end Layout

end Cdr
