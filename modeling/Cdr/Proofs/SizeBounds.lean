import Cdr.Layout.Write
import Cdr.Proofs.Covering
import Cdr.Proofs.RoundTrip

/-! Bounds on sizes hold.  Below a cap, a layout writes no further than it measures, provided that
the unbounded collections of the value are as long as is assumed at most, or that the cap is so low
that a longer one would have been measured beyond it. -/

namespace Cdr.Layout

open Sizing

section Assumptions

variable (fits : Nat → Prop)

mutual

/-- The lengths of all unbounded collections of a value fit, with `behind` for what lies behind a
reference. -/
def AssumedWith (behind : Reference → Value → Prop) : Layout → Value → Prop
  | primitive _, _ | string (some _), _ | bytes (some _), _ | enumeration _ _, _ => True
  | string none, v => ∀ text, v.asString? = some text → fits (Text.Utf8.encode text).length
  | bytes none, v =>
    match v with
    | .bytes data => fits data.length
    | .array items => fits items.length
    | _ => True
  | array element _, v =>
    ∀ items, v.asItems? = some items → ∀ x ∈ items, AssumedWith behind element x
  | sequence element bound, v =>
    ∀ items, v.asItems? = some items →
      (bound = none → fits items.length) ∧ ∀ x ∈ items, AssumedWith behind element x
  | map key value bound, v =>
    ∀ entries, v = .map entries →
      (bound = none → fits entries.length) ∧
        ∀ entry ∈ entries, AssumedWith behind key entry.1 ∧ AssumedWith behind value entry.2
  | struct _ members, v => ∀ given, v.asMembers? = some given → MembersAssumed behind given members
  | union ⟨_, _, cases, fallback, tagOnly⟩, v =>
    ∀ label payload, tagOnly = false → v = .union label payload →
      match label with
      | some label => CasesAssumed behind label payload cases
      | none => FallbackAssumed behind payload fallback
  | optional inner, v => v.isNull = false → AssumedWith behind inner v
  | reference target, v => behind target v
termination_by structural l => l

/-- The lengths of all unbounded collections of the declared members fit. -/
def MembersAssumed (behind : Reference → Value → Prop) (given : List (String × Value)) :
    List (Member Layout) → Prop
  | [] => True
  | ⟨field, content⟩ :: members =>
    (∀ x, Dictionary.find? field given = some x → AssumedWith behind content x) ∧
      MembersAssumed behind given members
termination_by structural members => members

/-- The lengths of all unbounded collections of the payload of the case with a label fit. -/
def CasesAssumed (behind : Reference → Value → Prop) (label : Label) (payload : Value) :
    List (Case Layout) → Prop
  | [] => True
  | ⟨_, labels, content⟩ :: cases =>
    if labels.contains label then AssumedWith behind content payload
    else CasesAssumed behind label payload cases
termination_by structural cases => cases

/-- The lengths of all unbounded collections of the payload of the default case fit. -/
def FallbackAssumed (behind : Reference → Value → Prop) (payload : Value) :
    Option (Fallback Layout) → Prop
  | none => True
  | some ⟨_, _, content⟩ => AssumedWith behind content payload
termination_by structural fallback => fallback

end

/-- The lengths of all unbounded collections of a value that nests through at most `budget`
references fit. -/
def Assumed (types : Lookup) : Nat → Layout → Value → Prop
  | 0 => AssumedWith fits fun _ _ => True
  | budget + 1 => AssumedWith fits fun target v =>
    ∀ layout, types target.id target.role = .ok layout → Assumed types budget layout v

end Assumptions

section Leaves

variable {cap : Nat} {a : Assumptions}

/-- A length that is written is within the greatest that is measured, or the cap is low. -/
theorem le_greatest {n : Nat} {fits : Nat → Prop}
    (hfits : ∀ m, fits m → m ≤ a.unboundedLength ∨ cap ≤ a.countWidth.bytes + a.unboundedLength)
    {bound : Option UInt64} (hbound : ∀ m, bound = some m → n ≤ m.toNat)
    (hnone : bound = none → fits n) :
    n ≤ a.greatest bound ∨ cap ≤ a.countWidth.bytes + a.greatest bound := by
  cases bound with
  | none => exact hfits n (hnone rfl)
  | some m => exact Or.inl (hbound m rfl)

theorem covers_orFail {α : Type} {e : Except Cause α} {measure : Sizing Unit}
    {next : α → Coding Unit} (h : ∀ x, e = .ok x → Covers cap measure (next x)) :
    Covers cap measure (orFail e >>= next) := by
  cases e with
  | ok x => exact h x rfl
  | error cause => exact Covers.fail

theorem covers_primitive (p : Primitive) (v : Value) (hcap : cap ≤ Extent.limit) :
    Covers cap (modify (Extent.primitive p.size)) (writePrimitive p v) := by
  have hbyte : ∀ b, Covers cap (modify (Extent.primitive 1)) (putByte b) := fun b =>
    (moves_primitive (Nat.one_dvd _)).covers (Covers.put (Nat.le_refl _) hcap).bounds
  cases p with
  | bool =>
    cases v with
    | bool b => exact hbyte _
    | _ => exact Covers.fail
  | char => exact covers_orFail fun byte _ => hbyte byte
  | integer t => exact covers_orFail fun n _ => Covers.putWord (size_dvd_period (.integer t)) _ hcap
  | float32 => exact covers_orFail fun bits _ => Covers.putWord (by decide : 4 ∣ period) _ hcap
  | float64 => exact covers_orFail fun bits _ => Covers.putWord (by decide : 8 ∣ period) _ hcap

theorem covers_byte (b : UInt8) (hcap : cap ≤ Extent.limit) :
    Covers cap (modify (Extent.skip 1)) (putByte b) := Covers.put (Nat.le_refl _) hcap

theorem covers_string {fits : Nat → Prop}
    (hfits : ∀ m, fits m → m ≤ a.unboundedLength ∨ cap ≤ a.countWidth.bytes + a.unboundedLength)
    (bound : Option UInt64) (v : Value)
    (hv : bound = none → ∀ text, v.asString? = some text → fits (Text.Utf8.encode text).length)
    (hcap : cap ≤ Extent.limit) :
    Covers cap (modify fun e => ((e.primitive 4).skip (a.greatest bound)).skip 1)
      (writeString bound v) := by
  have hfour : 4 ∣ period := by decide
  have hword := Regular.primitive hfour
  have hskips := (Regular.skip (a.greatest bound)).bind (Regular.skip 1)
  show Covers cap (modify (Extent.primitive 4) >>= fun _ =>
    modify (Extent.skip (a.greatest bound)) >>= fun _ => modify (Extent.skip 1)) _
  unfold writeString
  cases htext : v.asString? with
  | none => exact Covers.fail
  | some text =>
    refine Covers.check (lays_checkBound "string" _ bound) fun hbound => ?_
    rcases le_greatest hfits hbound (fun hb => hv hb text htext) with hle | hsmall
    · simp only
      split
      · exact Covers.fail
      · exact (Covers.putWord hfour _ hcap).bind
          ((Covers.put hle hcap).bind (covers_byte 0 hcap) (Regular.skip _) (Regular.skip 1))
          hword hskips
    · refine ((moves_primitive hfour).bind_left hword hskips).covers (Bounds.of_exceeds ?_)
      intro e e' he hok
      obtain ⟨f, hf, hok⟩ := bind_eq_ok.mp hok
      obtain ⟨g, hg, hok⟩ := bind_eq_ok.mp hok
      have hwidth : a.countWidth.bytes ≤ 4 := by
        cases a.countWidth <;> decide
      rw [← modify_eq_ok.mp hok, ← modify_eq_ok.mp hg, ← modify_eq_ok.mp hf]
      simp only [Extent.primitive, Extent.offset_skip]
      omega

theorem length_itemBytes {items : List Value} {done data : List UInt8}
    (h : itemBytes done items = .ok data) : data.length = done.length + items.length := by
  induction items generalizing done with
  | nil =>
    cases h
    simp
  | cons v items ih =>
    rw [itemBytes] at h
    split at h
    · rw [ih h, List.length_cons, List.length_cons]
      omega
    · cases h

theorem covers_bytes {fits : Nat → Prop}
    (hfits : ∀ m, fits m → m ≤ a.unboundedLength ∨ cap ≤ a.countWidth.bytes + a.unboundedLength)
    (bound : Option UInt64) (v : Value)
    (hv : bound = none → ∀ n, (∃ data, v = .bytes data ∧ data.length = n) ∨
      (∃ items, v = .array items ∧ items.length = n) → fits n)
    (hcap : cap ≤ Extent.limit) :
    Covers cap (modify fun e => (e.primitive a.countWidth.bytes).skip (a.greatest bound))
      (writeBytes a.countWidth bound v) := by
  have hwidth := bytes_dvd_period a.countWidth
  have hword := Regular.primitive hwidth
  have hskip := Regular.skip (a.greatest bound)
  show Covers cap (modify (Extent.primitive a.countWidth.bytes) >>= fun _ =>
    modify (Extent.skip (a.greatest bound))) _
  refine covers_orFail fun data hdata => ?_
  have hlength : (∃ bytes, v = .bytes bytes ∧ bytes.length = data.length) ∨
      (∃ items, v = .array items ∧ items.length = data.length) := by
    split at hdata
    · cases hdata
      exact Or.inl ⟨_, rfl, rfl⟩
    · have := length_itemBytes hdata
      exact Or.inr ⟨_, rfl, by simpa using this.symm⟩
    · cases hdata
  refine Covers.check (lays_checkBound "bytes" _ bound) fun hbound => ?_
  unfold writeCount
  split
  · exact Covers.fail
  rcases le_greatest hfits hbound (fun hb => hv hb _ hlength) with hle | hsmall
  · exact (Covers.putWord hwidth _ hcap).bind (Covers.put hle hcap) hword hskip
  · refine ((moves_primitive hwidth).bind_left hword hskip).covers (Bounds.of_exceeds ?_)
    intro e e' he hok
    obtain ⟨f, hf, hok⟩ := bind_eq_ok.mp hok
    rw [← modify_eq_ok.mp hok, ← modify_eq_ok.mp hf]
    simp only [Extent.primitive, Extent.offset_skip]
    omega

theorem covers_enumerator (name : String) (enumerators : List Enumerator) (v : Value)
    (hcap : cap ≤ Extent.limit) :
    Covers cap (modify (Extent.primitive 4)) (writeEnumerator name enumerators v) := by
  unfold writeEnumerator
  split
  · exact Covers.putWord (by decide : 4 ∣ period) _ hcap
  · exact Covers.fail

theorem covers_tag (d : Discriminator) (label : Label) (hcap : cap ≤ Extent.limit) :
    Covers cap (modify (Extent.primitive d.alignment)) (d.write label) := by
  cases d with
  | primitive p =>
    cases p with
    | integer t => exact Covers.putWord (size_dvd_period (.integer t)) _ hcap
    | bool | char => exact Covers.putWord (by decide : 1 ∣ period) _ hcap
    | float32 | float64 => exact Covers.fail
  | enumeration _ _ => exact Covers.putWord (by decide : 4 ∣ period) _ hcap

theorem writeEach_eq_inTurn (element : Value → Coding Unit) (i : Nat) (items : List Value) :
    ∃ steps, writeEach element i items = Coding.inTurn steps ∧ steps.length = items.length ∧
      ∀ step ∈ steps, ∃ v ∈ items, ∃ field, step = Coding.inField field (element v) := by
  induction items generalizing i with
  | nil => exact ⟨[], rfl, rfl, fun _ hs => nomatch hs⟩
  | cons v items ih =>
    obtain ⟨steps, heq, hlength, hsteps⟩ := ih (i + 1)
    refine ⟨Coding.inField (elementName i) (element v) :: steps, ?_, by simp [hlength], ?_⟩
    · rw [writeEach, heq]
      rfl
    · refine List.forall_mem_cons.mpr ⟨⟨v, List.mem_cons_self, _, rfl⟩, fun step hs => ?_⟩
      obtain ⟨x, hx, hstep⟩ := hsteps step hs
      exact ⟨x, List.mem_cons_of_mem _ hx, hstep⟩

theorem writeEntries_eq_inTurn (key value : Value → Coding Unit) (i : Nat)
    (entries : List (Value × Value)) :
    ∃ steps, writeEntries key value i entries = Coding.inTurn steps ∧
      steps.length = entries.length ∧
      ∀ step ∈ steps, ∃ entry ∈ entries, ∃ field field',
        step = (Coding.inField field (key entry.1) >>= fun _ =>
          Coding.inField field' (value entry.2)) := by
  induction entries generalizing i with
  | nil => exact ⟨[], rfl, rfl, fun _ hs => nomatch hs⟩
  | cons entry entries ih =>
    obtain ⟨k, v⟩ := entry
    obtain ⟨steps, heq, hlength, hsteps⟩ := ih (i + 1)
    refine ⟨(do
      Coding.inField (elementName i ++ ".key") (key k)
      Coding.inField (elementName i ++ ".value") (value v)) :: steps, ?_, by simp [hlength], ?_⟩
    · rw [writeEntries, heq, Coding.inTurn, bind_assoc]
    · refine List.forall_mem_cons.mpr ⟨⟨(k, v), List.mem_cons_self, _, _, rfl⟩, fun step hs => ?_⟩
      obtain ⟨x, hx, hstep⟩ := hsteps step hs
      exact ⟨x, List.mem_cons_of_mem _ hx, hstep⟩

end Leaves

/-- A cap, lengths that fit below it, and a way of following references that measures what it
writes. -/
structure Follows (cap : Nat) (fits : Nat → Prop) (a : Assumptions)
    (behind : Reference → Value → Prop) (measure : Reference → Sizing Unit)
    (write : Reference → Value → Coding Unit) : Prop where
  limited : cap ≤ Extent.limit
  lengths : ∀ n, fits n → n ≤ a.unboundedLength ∨ cap ≤ a.countWidth.bytes + a.unboundedLength
  regular : ∀ target, Regular (unlessUnbounded (measure target))
  covers : ∀ target v, behind target v → Covers cap (measure target) (write target v)

section Trees

variable {cap : Nat} {fits : Nat → Prop} {a : Assumptions} {behind : Reference → Value → Prop}
  {measure : Reference → Sizing Unit} {write : Reference → Value → Coding Unit}

/-- A tag, and a payload that is measured among several. -/
theorem bounds_tagged {branches : Extent → Sizing Unit} (hb : Merges branches) {tagOnly : Bool}
    {step : Coding Unit} (hcap : cap ≤ Extent.limit)
    (hc : tagOnly = false → ∃ content, Bounds cap content step ∧ Includes branches content)
    (d : Discriminator) (label : Label) :
    Bounds cap
      (modify (Extent.primitive d.alignment) >>= fun _ =>
        if (!tagOnly) = true then get >>= branches else pure ())
      (d.write label >>= fun _ => if (!tagOnly) = true then step else pure ()) := by
  have htag := Regular.primitive (alignment_discriminator_dvd d)
  cases tagOnly with
  | true => exact (covers_tag d label hcap).bounds.bind Bounds.pure htag Regular.pure
  | false =>
    obtain ⟨content, hbounds, hincludes⟩ := hc rfl
    exact (covers_tag d label hcap).bounds.bind (hincludes.bounds hbounds) htag hb.regular

/-- What follows the padding of a union is a regular step that moves every extent. -/
theorem regular_tagged {branches : Extent → Sizing Unit} (hb : Merges branches) (tagOnly : Bool)
    (d : Discriminator) :
    Regular (modify (Extent.primitive d.alignment) >>= fun _ =>
        if (!tagOnly) = true then get >>= branches else pure ()) ∧
      Moves (modify (Extent.primitive d.alignment) >>= fun _ =>
        if (!tagOnly) = true then get >>= branches else pure ()) := by
  have hd := alignment_discriminator_dvd d
  have hrest : Regular (if (!tagOnly) = true then get >>= branches else pure ()) := by
    cases tagOnly
    · exact hb.regular
    · exact Regular.pure
  exact ⟨(Regular.primitive hd).bind hrest,
    (moves_primitive hd).bind_left (Regular.primitive hd) hrest⟩

/-- A union: padding, a tag and a payload. -/
theorem covers_tagged {branches : Extent → Sizing Unit} (hb : Merges branches) {tagOnly : Bool}
    {size : Nat} (hsize : size ∣ period) (hcap : cap ≤ Extent.limit) {d : Discriminator}
    {rest : Coding Unit}
    (hrest : Bounds cap (modify (Extent.primitive d.alignment) >>= fun _ =>
      if (!tagOnly) = true then get >>= branches else pure ()) rest) :
    Covers cap (modify (Extent.align size) >>= fun _ =>
      modify (Extent.primitive d.alignment) >>= fun _ =>
        if (!tagOnly) = true then get >>= branches else pure ())
      (Coding.align size >>= fun _ => rest) := by
  obtain ⟨hregular, hmoves⟩ := regular_tagged hb tagOnly d
  have halign := Regular.align hsize
  exact (hmoves.bind_right halign hregular).covers
    ((bounds_align size hcap).bind hrest halign hregular)

/-- The measure of the payload of a default case, merged with what was measured from the same
start. -/
def measureFallback (a : Assumptions) (measure : Reference → Sizing Unit)
    (fallback : Option (Fallback Layout)) (start : Extent) : Sizing Unit :=
  match fallback with
  | some ⟨_, _, content⟩ => Sizing.branch start (measureWith a measure content)
  | none => pure ()

theorem merges_measureFallback (hmeasure : ∀ target, Regular (unlessUnbounded (measure target)))
    (fallback : Option (Fallback Layout)) : Merges (measureFallback a measure fallback) := by
  cases fallback with
  | none => exact Merges.pure
  | some f => exact Merges.branch (regular_measureWith hmeasure f.content)

theorem measureWith_union (u : UnionLayout Layout) :
    measureWith a measure (union u) = unlessUnbounded
      (modify (Extent.align (unionAlignment a.countWidth u)) >>= fun _ =>
        modify (Extent.primitive u.discriminator.alignment) >>= fun _ =>
          if (!u.tagOnly) = true then get >>= fun start =>
            measureCases a measure start u.cases >>= fun _ =>
              measureFallback a measure u.fallback start
          else pure ()) := by
  obtain ⟨name, d, cases, fallback, tagOnly⟩ := u
  cases fallback <;> rfl

section Nodes

variable {element key value inner : Layout} {v : Value}

theorem covers_array (h : Follows cap fits a behind measure write) (length : UInt64)
    (helement : ∀ items, v.asItems? = some items → ∀ x ∈ items,
      Covers cap (measureWith a measure element) (writeWith a.countWidth write element x)) :
    Covers cap (measureWith a measure (.array element length))
      (writeWith a.countWidth write (.array element length) v) := by
  refine Covers.unlessUnbounded ?_ h.limited
  rw [writeWith]
  cases hitems : v.asItems? with
  | none => exact Covers.fail
  | some items =>
    simp only
    split
    · rename_i hlength
      obtain ⟨steps, heq, hsteps, hall⟩ :=
        writeEach_eq_inTurn (writeWith a.countWidth write element) 0 items
      rw [heq]
      refine Covers.array (regular_measureWith h.regular element) h.limited (fun step hs => ?_)
        (hsteps.trans hlength)
      obtain ⟨x, hx, field, rfl⟩ := hall step hs
      exact (helement items hitems x hx).inField field
    · exact Covers.fail

theorem covers_sequence (h : Follows cap fits a behind measure write) (bound : Option UInt64)
    (hlength : ∀ items, v.asItems? = some items → bound = none → fits items.length)
    (helement : ∀ items, v.asItems? = some items → ∀ x ∈ items,
      Covers cap (measureWith a measure element) (writeWith a.countWidth write element x)) :
    Covers cap (measureWith a measure (.sequence element bound))
      (writeWith a.countWidth write (.sequence element bound) v) := by
  refine Covers.unlessUnbounded ?_ h.limited
  rw [writeWith]
  cases hitems : v.asItems? with
  | none => exact Covers.fail
  | some items =>
    refine Covers.check (lays_checkBound "sequence" _ bound) fun hbound => ?_
    unfold writeCount
    split
    · exact Covers.fail
    obtain ⟨steps, heq, hsteps, hall⟩ :=
      writeEach_eq_inTurn (writeWith a.countWidth write element) 0 items
    rw [heq]
    refine Covers.collection (regular_measureWith h.regular element) h.limited
      (fun step hs => ?_) (hsteps ▸ le_greatest h.lengths hbound (hlength items hitems))
    obtain ⟨x, hx, field, rfl⟩ := hall step hs
    exact (helement items hitems x hx).inField field

theorem covers_map (h : Follows cap fits a behind measure write) (bound : Option UInt64)
    (hlength : ∀ entries, v = .map entries → bound = none → fits entries.length)
    (hentry : ∀ entries, v = .map entries → ∀ e ∈ entries,
      Covers cap (measureWith a measure key) (writeWith a.countWidth write key e.1) ∧
        Covers cap (measureWith a measure value) (writeWith a.countWidth write value e.2)) :
    Covers cap (measureWith a measure (.map key value bound))
      (writeWith a.countWidth write (.map key value bound) v) := by
  refine Covers.unlessUnbounded ?_ h.limited
  cases v with
  | map entries =>
    refine Covers.check (lays_checkBound "map" _ bound) fun hbound => ?_
    unfold writeCount
    split
    · exact Covers.fail
    obtain ⟨steps, heq, hsteps, hall⟩ := writeEntries_eq_inTurn
      (writeWith a.countWidth write key) (writeWith a.countWidth write value) 0 entries
    rw [heq]
    have hkey := regular_measureWith (a := a) h.regular key
    have hvalue := regular_measureWith (a := a) h.regular value
    refine Covers.collection (hkey.bind hvalue) h.limited (fun step hs => ?_)
      (hsteps ▸ le_greatest h.lengths hbound (hlength entries rfl))
    obtain ⟨entry, he, field, field', rfl⟩ := hall step hs
    obtain ⟨hk, hv⟩ := hentry entries rfl entry he
    exact (hk.inField field).bind (hv.inField field') hkey hvalue
  | _ => exact Covers.fail

/-- A union writes one of the payloads whose measures are merged. -/
theorem covers_union (h : Follows cap fits a behind measure write) {u : UnionLayout Layout}
    (hcase : ∀ label payload step, v = .union (some label) payload → u.tagOnly = false →
      writeCase a.countWidth write label payload u.cases = some step →
        ∃ content, Bounds cap content step ∧
          Includes (fun start => measureCases a measure start u.cases) content)
    (hfallback : ∀ field sentinel content payload, u.fallback = some ⟨field, sentinel, content⟩ →
      v = .union none payload → u.tagOnly = false →
        Covers cap (measureWith a measure content) (writeWith a.countWidth write content payload)) :
    Covers cap (measureWith a measure (.union u)) (writeWith a.countWidth write (.union u) v) := by
  have hcases := merges_measureCases (a := a) h.regular u.cases
  have hdefault := merges_measureFallback (a := a) h.regular u.fallback
  have halign := alignment_dvd a.countWidth (union u)
  rw [measureWith_union]
  refine Covers.unlessUnbounded ?_ h.limited
  obtain ⟨name, d, cases, fallback, tagOnly⟩ := u
  cases v with
  | union label payload =>
    cases label with
    | some label =>
      rw [writeWith]
      refine covers_tagged (hcases.bind hdefault) halign h.limited ?_
      cases hstep : writeCase a.countWidth write label payload cases with
      | none => exact Covers.fail.bounds
      | some step =>
        cases d.contains label with
        | false => exact Covers.fail.bounds
        | true =>
          refine bounds_tagged (hcases.bind hdefault) h.limited (fun htag => ?_) d label
          obtain ⟨content, hbounds, hincludes⟩ := hcase label payload step rfl htag hstep
          exact ⟨content, hbounds, hincludes.bind_left hcases hdefault⟩
    | none =>
      cases fallback with
      | none =>
        rw [writeWith]
        exact covers_tagged (hcases.bind hdefault) halign h.limited Covers.fail.bounds
      | some f =>
        obtain ⟨field, sentinel, content⟩ := f
        rw [writeWith]
        refine covers_tagged (hcases.bind hdefault) halign h.limited ?_
        refine bounds_tagged (hcases.bind hdefault) h.limited (fun htag => ?_) d sentinel
        exact ⟨_, ((hfallback _ _ _ _ rfl rfl htag).inField field).bounds,
          (Includes.branch _).bind_right hcases⟩
  | _ => exact Covers.fail

/-- An optional value is measured as one that is there, which takes no less than one that is not. -/
theorem covers_optional (h : Follows cap fits a behind measure write)
    (hinner : v.isNull = false →
      Covers cap (measureWith a measure inner) (writeWith a.countWidth write inner v)) :
    Covers cap (measureWith a measure (.optional inner))
      (writeWith a.countWidth write (.optional inner) v) := by
  refine Covers.unlessUnbounded ?_ h.limited
  have hskip := Regular.skip 1
  have hregular := regular_measureWith (a := a) h.regular inner
  refine (Moves.bind_left (moves_skip Nat.one_pos) hskip hregular).covers ?_
  rw [writeWith]
  split
  · exact (covers_byte 0 h.limited).bounds.bind_pure hskip hregular
  · rename_i hnull
    have hcovers := hinner (by simpa using hnull)
    exact (covers_byte 1 h.limited).bounds.bind hcovers.bounds hskip hregular

end Nodes

mutual

/-- The measure of a layout covers what the layout writes. -/
theorem covers_writeWith (h : Follows cap fits a behind measure write) (l : Layout) (v : Value)
    (hv : AssumedWith fits behind l v) :
    Covers cap (measureWith a measure l) (writeWith a.countWidth write l v) := by
  match l with
  | primitive p => exact (covers_primitive p v h.limited).unlessUnbounded h.limited
  | string bound =>
    refine (covers_string h.lengths bound v (fun hb => ?_) h.limited).unlessUnbounded h.limited
    subst hb
    exact hv
  | bytes bound =>
    refine (covers_bytes h.lengths bound v (fun hb n hn => ?_) h.limited).unlessUnbounded h.limited
    subst hb
    rcases hn with ⟨data, rfl, rfl⟩ | ⟨items, rfl, rfl⟩ <;> exact hv
  | enumeration name enumerators =>
    exact (covers_enumerator name enumerators v h.limited).unlessUnbounded h.limited
  | array element length =>
    exact covers_array h length fun items hitems x hx =>
      covers_writeWith h element x (hv items hitems x hx)
  | sequence element bound =>
    exact covers_sequence h bound (fun items hitems => (hv items hitems).1) fun items hitems x hx =>
      covers_writeWith h element x ((hv items hitems).2 x hx)
  | map key value bound =>
    refine covers_map h bound (fun entries hentries => (hv entries hentries).1)
      fun entries hentries e he => ?_
    obtain ⟨hk, hx⟩ := (hv entries hentries).2 e he
    exact ⟨covers_writeWith h key e.1 hk, covers_writeWith h value e.2 hx⟩
  | struct name members =>
    refine Covers.unlessUnbounded ?_ h.limited
    rw [writeWith]
    cases hgiven : v.asMembers? with
    | none => exact Covers.fail
    | some given => exact covers_writeMembers h members name given (hv given hgiven)
  | union ⟨name, d, cases, none, tagOnly⟩ =>
    refine covers_union h (fun label payload step hlabel htag hstep =>
      bounds_writeCase h cases label payload (hv _ _ htag hlabel) hstep) ?_
    rintro _ _ _ _ ⟨⟩
  | union ⟨name, d, cases, some ⟨field, sentinel, content⟩, tagOnly⟩ =>
    refine covers_union h (fun label payload step hlabel htag hstep =>
      bounds_writeCase h cases label payload (hv _ _ htag hlabel) hstep) ?_
    rintro _ _ _ payload ⟨⟩ hnone htag
    exact covers_writeWith h content payload (hv _ _ htag hnone)
  | optional inner => exact covers_optional h fun hnull => covers_writeWith h inner v (hv hnull)
  | reference target => exact (h.covers target v hv).unlessUnbounded h.limited
termination_by structural l

theorem covers_writeMembers (h : Follows cap fits a behind measure write)
    (members : List (Member Layout)) (name : String) (given : List (String × Value))
    (hv : MembersAssumed fits behind given members) :
    Covers cap (measureMembers a measure members)
      (writeMembers a.countWidth write name given members) := by
  match members with
  | [] => exact Covers.pure
  | ⟨field, content⟩ :: members =>
    rw [writeMembers]
    cases hfind : Dictionary.find? field given with
    | none => exact Covers.fail
    | some x =>
      exact ((covers_writeWith h content x (hv.1 x hfind)).inField field).bind
        (covers_writeMembers h members name given hv.2) (regular_measureWith h.regular content)
        (regular_measureMembers h.regular members)
termination_by structural members

/-- The payload of a case is measured among those of all cases. -/
theorem bounds_writeCase (h : Follows cap fits a behind measure write)
    (cases : List (Case Layout)) (label : Label) (payload : Value)
    (hv : CasesAssumed fits behind label payload cases) {step : Coding Unit}
    (hstep : writeCase a.countWidth write label payload cases = some step) :
    ∃ content, Bounds cap content step ∧
      Includes (fun start => measureCases a measure start cases) content := by
  match cases with
  | [] => cases hstep
  | ⟨field, labels, content⟩ :: cases =>
    have hcontent := regular_measureWith (a := a) h.regular content
    have hcases := merges_measureCases (a := a) h.regular cases
    rw [writeCase] at hstep
    rw [CasesAssumed] at hv
    split at hstep
    · rename_i hlabel
      rw [if_pos hlabel] at hv
      cases hstep
      exact ⟨_, ((covers_writeWith h content payload hv).inField field).bounds,
        (Includes.branch _).bind_left (Merges.branch hcontent) hcases⟩
    · rename_i hlabel
      rw [if_neg hlabel] at hv
      obtain ⟨inner, hbounds, hincludes⟩ := bounds_writeCase h cases label payload hv hstep
      exact ⟨inner, hbounds, hincludes.bind_right (Merges.branch hcontent)⟩
termination_by structural cases

end

end Trees

/-- The measure of a layout covers what the layout writes through references, wherever the two
start. -/
theorem covers_write {cap : Nat} {fits : Nat → Prop} {types : Lookup} {a : Assumptions}
    (hcap : cap ≤ Extent.limit)
    (hfits : ∀ n, fits n → n ≤ a.unboundedLength ∨ cap ≤ a.countWidth.bytes + a.unboundedLength)
    (budget : Nat) (visiting : List (Nat × Role)) (l : Layout) (v : Value)
    (hv : Assumed fits types budget l v) :
    Covers cap (measure types a budget visiting l) (write types a.countWidth budget l v) := by
  induction budget generalizing visiting l v with
  | zero =>
    exact covers_writeWith ⟨hcap, hfits, fun _ => regular_unlessUnbounded Regular.unbounded,
      fun _ _ _ => Covers.fail⟩ l v hv
  | succ budget ih =>
    refine covers_writeWith ⟨hcap, hfits, fun target => ?_, fun target v hbehind => ?_⟩ l v hv
    · split
      · exact regular_unlessUnbounded Regular.unbounded
      · cases types target.id target.role with
        | ok layout => exact regular_unlessUnbounded (regular_measure types a budget _ layout)
        | error fault => exact regular_of_shifts (shifts_throw fault)
    · split
      · exact Covers.unbounded hcap
      · cases htypes : types target.id target.role with
        | ok layout => exact ih _ layout v (hbehind layout htypes)
        | error fault => exact Covers.measure_throw

/-- Measuring is sound.  Where the extent starts no lower than the writer, and no unbounded
collection of the value is longer than assumed, it ends no lower than the writer ends, or without
bound.  The types may refer to each other in cycles. -/
theorem write_within_measure {types : Lookup} {a : Assumptions} {budget : Nat}
    {visiting : List (Nat × Role)} {l : Layout} {v : Value}
    (hv : Assumed (· ≤ a.unboundedLength) types budget l v)
    {b b' : Buffer} {origin offset : Nat} {e e' : Extent} (hat : b.At origin offset)
    (hlimit : e.offset ≤ Extent.limit) (hle : offset ≤ e.offset)
    (hwrite : write types a.countWidth budget l v b = .ok () b')
    (hmeasure : measure types a budget visiting l e = .ok () e') :
    e'.isUnbounded ∨ ∃ offset', b'.At origin offset' ∧ offset' ≤ e'.offset := by
  have hgrows := (regular_measure types a budget visiting l).grows e e' hlimit hmeasure
  -- The finder stops counting at its limit; below it, what it has counted covers what is written.
  rcases hgrows.2.lt_or_eq with hlt | heq
  · have hcovers := covers_write (Nat.le_refl Extent.limit) (fun _ hn => Or.inl hn) budget visiting
      l v hv
    exact Or.inr (hcovers.bounds hat hwrite hlimit hle hmeasure hlt)
  · exact Or.inl (Extent.isUnbounded_iff.mpr heq)

/-- Numbers at the place 1, and elsewhere a type that refers to itself. -/
def numbers : Lookup
  | 1, _ => .ok (sequence (primitive (.integer .uint16)) none)
  | _, _ => .ok (sequence (reference ⟨"Tree", 0, .full⟩) none)

/-- Two numbers behind a byte, written from offset 1 on, end no later than three numbers behind a
byte that are measured from offset 2 on. -/
theorem write_within_measure_numbers :
    let l := struct "Row"
      [⟨"kind", primitive (.integer .int8)⟩, ⟨"numbers", reference ⟨"Numbers", 1, .full⟩⟩]
    let v := Value.struct
      [("kind", .integer ⟨.int8, 1, by decide⟩),
        ("numbers", .array [.integer ⟨.uint16, 5, by decide⟩, .integer ⟨.uint16, 6, by decide⟩])]
    let written : Buffer := ⟨#[0, 1, 2, 0, 5, 0, 6, 0], 8, 8, 0, .little⟩
    write numbers .u16 2 l v ⟨#[0, 0, 0, 0, 0, 0, 0, 0], 1, 1, 0, .little⟩ = .ok () written ∧
      measure numbers ⟨.u16, 3⟩ 2 [] l ⟨2⟩ = .ok () ⟨12⟩ ∧
      ∃ offset', written.At 0 offset' ∧ offset' ≤ 12 := by
  intro l v written
  have hv : Assumed (· ≤ 3) numbers 2 l v := by
    simp [Assumed, AssumedWith, MembersAssumed, numbers, l, v, Value.asMembers?, Value.asItems?,
      Dictionary.find?]
  have hwrite : write numbers .u16 2 l v ⟨#[0, 0, 0, 0, 0, 0, 0, 0], 1, 1, 0, .little⟩ =
      .ok () written := by rfl
  have hmeasure : measure numbers ⟨.u16, 3⟩ 2 [] l ⟨2⟩ = .ok () ⟨12⟩ := by rfl
  have hat : Buffer.At ⟨#[0, 0, 0, 0, 0, 0, 0, 0], 1, 1, 0, .little⟩ 0 1 := ⟨rfl, rfl⟩
  exact ⟨hwrite, hmeasure, (write_within_measure (a := ⟨.u16, 3⟩) hv hat (by decide) (by decide)
    hwrite hmeasure).resolve_left (by decide)⟩

section Unlimited

variable {behind : Reference → Value → Prop}

mutual

/-- Without a limit on lengths all lengths fit. -/
theorem assumedWith_true (hbehind : ∀ target v, behind target v) (l : Layout) (v : Value) :
    AssumedWith (fun _ => True) behind l v := by
  match l with
  | primitive _ | string (some _) | bytes (some _) | enumeration _ _ => trivial
  | string none => exact fun _ _ => trivial
  | bytes none => cases v <;> trivial
  | array element _ => exact fun _ _ x _ => assumedWith_true hbehind element x
  | sequence element _ =>
    exact fun _ _ => ⟨fun _ => trivial, fun x _ => assumedWith_true hbehind element x⟩
  | map key value _ =>
    exact fun _ _ => ⟨fun _ => trivial, fun entry _ =>
      ⟨assumedWith_true hbehind key entry.1, assumedWith_true hbehind value entry.2⟩⟩
  | struct _ members => exact fun given _ => membersAssumed_true hbehind members given
  | union ⟨_, _, cases, fallback, _⟩ =>
    intro label payload _ _
    cases label with
    | some label => exact casesAssumed_true hbehind cases label payload
    | none => exact fallbackAssumed_true hbehind fallback payload
  | optional inner => exact fun _ => assumedWith_true hbehind inner v
  | reference target => exact hbehind target v
termination_by structural l

theorem membersAssumed_true (hbehind : ∀ target v, behind target v)
    (members : List (Member Layout)) (given : List (String × Value)) :
    MembersAssumed (fun _ => True) behind given members := by
  match members with
  | [] => trivial
  | ⟨_, content⟩ :: members =>
    exact ⟨fun x _ => assumedWith_true hbehind content x,
      membersAssumed_true hbehind members given⟩
termination_by structural members

theorem casesAssumed_true (hbehind : ∀ target v, behind target v) (cases : List (Case Layout))
    (label : Label) (payload : Value) :
    CasesAssumed (fun _ => True) behind label payload cases := by
  match cases with
  | [] => trivial
  | ⟨_, _, content⟩ :: cases =>
    rw [CasesAssumed]
    split
    · exact assumedWith_true hbehind content payload
    · exact casesAssumed_true hbehind cases label payload
termination_by structural cases

theorem fallbackAssumed_true (hbehind : ∀ target v, behind target v)
    (fallback : Option (Fallback Layout)) (payload : Value) :
    FallbackAssumed (fun _ => True) behind payload fallback := by
  match fallback with
  | none => trivial
  | some ⟨_, _, content⟩ => exact assumedWith_true hbehind content payload
termination_by structural fallback

end

theorem assumed_true (types : Lookup) (budget : Nat) (l : Layout) (v : Value) :
    Assumed (fun _ => True) types budget l v := by
  induction budget generalizing l v with
  | zero => exact assumedWith_true (fun _ _ => trivial) l v
  | succ budget ih => exact assumedWith_true (fun _ v layout _ => ih layout v) l v

end Unlimited

end Cdr.Layout
