import Cdr.Layout.Read
import Cdr.Proofs.Dictionaries
import Cdr.Proofs.Retrieving
import Cdr.Proofs.Utf8
import Cdr.Proofs.WellFormed

/-! What a layout writes it reads back.  Where a layout writes a value at all, it stores the wire
image of the value's normal form, and reading that image gives the normal form.  The proof follows
the layout: one lemma for each leaf, one for each kind of collection, and an induction over the
tree for a fixed way of following references. -/

namespace Cdr

/-- Whenever the step `write` succeeds it stores the image, and then the step `read` reads the image
back as `x`. -/
def Coding.RoundTrips {α : Type} (write : Coding Unit) (read : Coding α) (image : Image) (x : α) :
    Prop :=
  Coding.Lays write (Coding.Reads read image x) image

namespace Layout

open Coding

variable {w : CountWidth}

theorem lays_orFail {α : Type} {e : Except Cause α} {next : α → Coding Unit} {fact : Prop}
    {image : Image} (h : ∀ x, e = .ok x → Lays (next x) fact image) :
    Lays (orFail e >>= next) fact image := by
  intro b b' hb hs
  cases e with
  | error cause => exact nomatch hs
  | ok x => exact h x rfl hb hs

theorem lays_checkBound (member : String) (length : Nat) (bound : Option UInt64) :
    Lays (checkBound member length bound) (∀ n, bound = some n → length ≤ n.toNat) Image.nil := by
  unfold checkBound
  split
  · rename_i n
    split
    · exact Lays.fail
    · exact Lays.pure.imp fun _ m hm => by
        obtain rfl : n = m := by simpa using hm
        omega
  · exact Lays.pure.imp fun _ n hn => by simp at hn

theorem lays_writeCount (w : CountWidth) (member : String) (count : Nat) :
    Lays (writeCount w member count) (count ≤ w.greatest) (Image.word w.bytes count) := by
  unfold writeCount
  split
  · exact Lays.fail
  · exact (Lays.putWord _ _).imp fun _ => by omega

theorem word_one (b : UInt8) : Image.word 1 b.toNat = Image.raw [b] := by
  ext order offset
  cases order <;> simp [Image.bytes_word, ByteOrder.encode, ByteOrder.ascending]

theorem reads_takeByte (b : UInt8) : Reads takeByte (Image.raw [b]) b := by
  have h := Reads.takeWord (show b.toNat < 256 ^ 1 from b.toNat_lt)
  rw [word_one] at h
  have := h.map UInt8.ofNat
  rwa [UInt8.ofNat_toNat] at this

theorem reads_readCount {context : String} {bound : Option UInt64} {count : Nat}
    (hw : count ≤ w.greatest) (hbound : ∀ n, bound = some n → count ≤ n.toNat) :
    Reads (readCount w context bound) (Image.word w.bytes count) count := by
  have hlt : count < 256 ^ w.bytes := by
    unfold CountWidth.greatest at hw
    cases w <;> simp [CountWidth.bytes] at hw ⊢ <;> omega
  unfold readCount
  refine (Reads.takeWord hlt).bind_end ?_
  cases bound with
  | none => exact Reads.pure count
  | some n =>
    have := hbound n rfl
    simp only
    rw [if_neg (by omega)]
    exact Reads.pure count

theorem toNat_ofNat_byte (byte : UInt8) : (Char.ofNat byte.toNat).toNat = byte.toNat := by
  have hvalid : byte.toNat.isValidChar := Or.inl (by have := byte.toNat_lt; omega)
  unfold Char.ofNat
  rw [dif_pos hvalid]
  rfl

/-- The byte of a character or small integer stands for its normal form. -/
theorem asPrimitive_charByte {v : Value} {byte : UInt8} (h : charByte v = .ok byte) :
    v.asPrimitive .char = .char (Char.ofNat byte.toNat) := by
  unfold charByte at h
  split at h
  · rename_i c
    split at h
    · rename_i hlt
      cases h
      rw [UInt8.toNat_ofNat_of_lt' hlt, Char.ofNat_toNat]
      rfl
    · cases h
  · rename_i n hn
    cases h
    simp [IntegerType.Holds, IntegerType.least, IntegerType.greatest, IntegerType.isSigned,
      IntegerType.size] at hn
    rw [UInt8.toNat_ofNat_of_lt' (by simp [UInt8.size]; omega)]
    rfl
  · cases h

/-- The number that is written is that of the normal form. -/
theorem asPrimitive_fittingNumber {t : IntegerType} {v : Value} {n : Int}
    (h : fittingNumber t v = .ok n) :
    ∃ hn : t.Holds n, v.asPrimitive (.integer t) = .integer ⟨t, n, hn⟩ := by
  unfold fittingNumber at h
  split at h
  · cases h
  · rename_i m hm
    split at h
    · rename_i hn
      cases h
      exact ⟨hn, by simp [Value.asPrimitive, hm, Integer.ofInt?, hn]⟩
    · cases h

theorem asFloat?_floatBits {expected : String} {v : Value} {bits : UInt64}
    (h : floatBits expected v = .ok bits) : v.asFloat? = some bits := by
  unfold floatBits at h
  split at h
  · cases h
    assumption
  · cases h

/-- A value is written as a primitive and read back as one of its type. -/
theorem roundTrips_primitive (p : Primitive) (v : Value) :
    RoundTrips (writePrimitive p v) (readPrimitive p) (wirePrimitive (v.asPrimitive p))
      (v.asPrimitive p) := by
  cases p with
  | bool =>
    cases v with
    | bool b =>
      refine (Lays.put _).imp fun _ => (reads_takeByte _).bind_end ?_
      cases b <;> exact Reads.pure _
    | _ => exact Lays.fail
  | char =>
    refine lays_orFail fun byte hbyte => ?_
    rw [asPrimitive_charByte hbyte]
    have himage : wirePrimitive (.char (Char.ofNat byte.toNat)) = Image.raw [byte] := by
      simp [wirePrimitive, toNat_ofNat_byte]
    rw [himage]
    exact (Lays.put _).imp fun _ =>
      (reads_takeByte byte).map fun b => Value.char (Char.ofNat b.toNat)
  | integer t =>
    refine lays_orFail fun n hn => ?_
    obtain ⟨hholds, hnormal⟩ := asPrimitive_fittingNumber hn
    rw [hnormal]
    refine (Lays.putWord _ _).imp fun _ => ?_
    have hread :=
      (Reads.takeWord (t.toBits_lt n)).map fun bits => Value.integer (Integer.ofBits t bits)
    rwa [show Integer.ofBits t (t.toBits n) = ⟨t, n, hholds⟩ from
      Integer.ofBits_toBits ⟨t, n, hholds⟩] at hread
  | float32 =>
    refine lays_orFail fun bits hbits => ?_
    have hnormal : v.asPrimitive .float32 = .float32 (Real.narrow bits) := by
      simp [Value.asPrimitive, asFloat?_floatBits hbits]
    rw [hnormal]
    refine (Lays.putWord _ _).imp fun _ => ?_
    have hread := (Reads.takeWord (show (Real.narrow bits).toNat < 256 ^ 4 from
      (Real.narrow bits).toNat_lt)).map fun n => Value.float32 (UInt32.ofNat n)
    rwa [UInt32.ofNat_toNat] at hread
  | float64 =>
    refine lays_orFail fun bits hbits => ?_
    have hnormal : v.asPrimitive .float64 = .float64 bits := by
      simp [Value.asPrimitive, asFloat?_floatBits hbits]
    rw [hnormal]
    refine (Lays.putWord _ _).imp fun _ => ?_
    have hread := (Reads.takeWord (show bits.toNat < 256 ^ 8 from bits.toNat_lt)).map
      fun n => Value.float64 (UInt64.ofNat n)
    rwa [UInt64.ofNat_toNat] at hread

theorem reads_readString {bound : Option UInt64} (text : String)
    (hbound : ∀ n, bound = some n → (Text.Utf8.encode text).length ≤ n.toNat)
    (hlen : (Text.Utf8.encode text).length ≤ greatestText) :
    Reads (readString bound) (wireString (.string text)) (.string text) := by
  have hdecode := Text.Utf8.decode_encode text
  simp only [wireString]
  generalize Text.Utf8.encode text = bytes at *
  have hcount : bytes.length + 1 < 256 ^ 4 := by
    unfold greatestText at hlen
    omega
  refine (Reads.takeWord hcount).bind ?_
  simp only [Nat.add_one_ne_zero, if_false, Nat.add_sub_cancel]
  have hraw : Reads (Coding.take (bytes.length + 1)) (Image.raw (bytes ++ [0])) (bytes ++ [0]) :=
    Reads.take (by simp)
  cases bound with
  | none =>
    refine hraw.bind_end ?_
    simp [hdecode, Reads.pure]
  | some n =>
    have hle := hbound n rfl
    simp only [if_neg (show ¬n.toNat < bytes.length by omega)]
    refine hraw.bind_end ?_
    simp [hdecode, Reads.pure]

theorem roundTrips_string (bound : Option UInt64) (v : Value) :
    RoundTrips (writeString bound v) (readString bound) (wireString v) v := by
  cases v with
  | string text =>
    have hread := @reads_readString bound text
    simp only [wireString] at hread ⊢
    unfold RoundTrips writeString
    simp only [Value.asString?]
    generalize Text.Utf8.encode text = bytes at *
    refine (lays_checkBound "string" bytes.length bound).bind_nil fun hbound => ?_
    split
    · intro b b' _ hs
      cases hs
    · rename_i hlen
      refine (Lays.putWord 4 (bytes.length + 1)).bind fun _ => ?_
      rw [← Image.raw_append]
      exact (Lays.put bytes).bind fun _ =>
        (Lays.put [0]).imp fun _ => hread hbound (by omega)
  | _ => exact Lays.fail

/-- Items that are read as bytes are the bytes of an array. -/
theorem mapM_asByte? {items : List Value} {done data : List UInt8}
    (h : itemBytes done items = .ok data) :
    ∃ bytes, items.mapM Value.asByte? = some bytes ∧ data = done.reverse ++ bytes := by
  induction items generalizing done with
  | nil =>
    cases h
    exact ⟨[], rfl, by simp⟩
  | cons v items ih =>
    rw [itemBytes] at h
    split at h
    · rename_i n hn
      obtain ⟨bytes, hbytes, hdata⟩ := ih h
      have hbyte : v.asByte? = some (UInt8.ofNat n.toNat) := by
        unfold fittingNumber at hn
        split at hn
        · cases hn
        · rename_i m hm
          split at hn
          · rename_i hholds
            cases hn
            simp [IntegerType.Holds, IntegerType.least, IntegerType.greatest,
              IntegerType.isSigned, IntegerType.size] at hholds
            simp only [Value.asByte?, hm]
            rw [if_pos (by omega)]
          · cases hn
      exact ⟨UInt8.ofNat n.toNat :: bytes, by simp [hbyte, hbytes], by simp [hdata]⟩
    · cases h

theorem roundTrips_bytes (bound : Option UInt64) (v : Value) :
    RoundTrips (writeBytes w bound v) (readBytes w bound) (wireBytes w v.asBytes) v.asBytes := by
  refine lays_orFail fun data hdata => ?_
  have hnormal : v.asBytes = .bytes data := by
    split at hdata
    · cases hdata
      rfl
    · obtain ⟨bytes, hbytes, rfl⟩ := mapM_asByte? hdata
      simp [Value.asBytes, hbytes]
    · cases hdata
  rw [hnormal]
  refine (lays_checkBound "bytes" data.length bound).bind_nil fun hbound =>
    (lays_writeCount w "bytes" data.length).bind fun hcount => (Lays.put data).imp fun _ => ?_
  exact (reads_readCount hcount hbound).bind ((Reads.take rfl).map Value.bytes)

theorem asEnumerator_ordinalOf? {enumerators : List Enumerator} {v : Value} {ordinal : UInt32}
    (h : ordinalOf? enumerators v = some ordinal) :
    ∃ e ∈ enumerators, e.ordinal = ordinal ∧ v.asEnumerator enumerators = .enumerator e.name := by
  cases v with
  | enumerator name =>
    simp only [ordinalOf?, Enumerator.ordinalOf?, Option.map_eq_some_iff] at h
    obtain ⟨e, hfind, rfl⟩ := h
    refine ⟨e, List.mem_of_find?_eq_some hfind, rfl, ?_⟩
    have hname := List.find?_some hfind
    simp only [beq_iff_eq] at hname
    rw [hname]
    rfl
  | integer n =>
    simp only [ordinalOf?, Value.asInt?, Option.bind_eq_bind, Option.bind_some] at h
    split at h
    · rename_i hrange
      split at h
      · rename_i hsome
        cases h
        have htest : (fun e : Enumerator => e.ordinal == UInt32.ofNat n.number.toNat) =
            fun e => (e.ordinal.toNat : Int) == n.number := by
          funext e
          have hlt := e.ordinal.toNat_lt
          rw [Bool.eq_iff_iff, beq_iff_eq, beq_iff_eq, ← UInt32.toNat_inj,
            UInt32.toNat_ofNat_of_lt' (by simp [UInt32.size]; omega)]
          omega
        rw [Enumerator.nameOf?, Option.isSome_map, Option.isSome_iff_exists] at hsome
        obtain ⟨e, hfind⟩ := hsome
        refine ⟨e, List.mem_of_find?_eq_some hfind, by simpa using List.find?_some hfind, ?_⟩
        rw [htest] at hfind
        simp only [Value.asEnumerator, hfind]
      · cases h
    · cases h
  | _ => simp [ordinalOf?, Value.asInt?] at h

theorem roundTrips_enumerator {enumerators : List Enumerator}
    (h : Enumerator.Distinct enumerators) (name : String) (v : Value) :
    RoundTrips (writeEnumerator name enumerators v) (readEnumerator name enumerators)
      (wireEnumerator enumerators (v.asEnumerator enumerators)) (v.asEnumerator enumerators) := by
  unfold writeEnumerator
  split
  · rename_i ordinal hordinal
    obtain ⟨e, he, rfl, hnormal⟩ := asEnumerator_ordinalOf? hordinal
    rw [hnormal]
    simp only [wireEnumerator, h.ordinalOf?_name he]
    refine (Lays.putWord _ _).imp fun _ => ?_
    refine (Reads.takeWord (show e.ordinal.toNat < 256 ^ 4 from e.ordinal.toNat_lt)).bind_end ?_
    rw [UInt32.ofNat_toNat, h.nameOf?_ordinal he]
    exact Reads.pure _
  · exact Lays.fail

section Collections

variable {element : Value → Coding Unit} {image : Value → Image} {normal : Value → Value}

/-- Elements that are read back one by one are read back in a row. -/
theorem lays_writeEach {read : Coding Value}
    (h : ∀ v, RoundTrips (element v) read (image (normal v)) (normal v)) (i : Nat)
    (items : List Value) :
    Lays (writeEach element i items)
      (∀ done, Reads (readEach read done items.length) (wireEach image (items.map normal))
        (done.reverse ++ items.map normal))
      (wireEach image (items.map normal)) := by
  induction items generalizing i with
  | nil =>
    refine Lays.pure.imp fun _ done => ?_
    rw [List.map_nil, List.append_nil]
    exact Reads.pure done.reverse
  | cons v items ih =>
    refine ((h v).inField _).bind fun hread => (ih (i + 1)).imp fun hrest done => ?_
    rw [List.map_cons, List.append_cons, ← List.reverse_cons]
    exact Reads.bind hread (hrest (normal v :: done))

variable {value : Value → Coding Unit} {valueImage : Value → Image} {valueNormal : Value → Value}

theorem wireEntries_cons (image valueImage : Value → Image) (k v : Value)
    (entries : List (Value × Value)) :
    wireEntries image valueImage ((k, v) :: entries) =
      image k ++ valueImage v ++ wireEntries image valueImage entries := rfl

theorem lays_writeEntries {readKey readValue : Coding Value}
    (hk : ∀ v, RoundTrips (element v) readKey (image (normal v)) (normal v))
    (hv : ∀ v, RoundTrips (value v) readValue (valueImage (valueNormal v)) (valueNormal v))
    (i : Nat) (entries : List (Value × Value)) :
    Lays (writeEntries element value i entries)
      (∀ done, Reads
        (readEach (do let k ← readKey; let v ← readValue; return (k, v)) done entries.length)
        (wireEntries image valueImage (entries.map fun e => (normal e.1, valueNormal e.2)))
        (done.reverse ++ entries.map fun e => (normal e.1, valueNormal e.2)))
      (wireEntries image valueImage (entries.map fun e => (normal e.1, valueNormal e.2))) := by
  induction entries generalizing i with
  | nil =>
    refine Lays.pure.imp fun _ done => ?_
    rw [List.map_nil, List.append_nil]
    exact Reads.pure done.reverse
  | cons e entries ih =>
    obtain ⟨k, v⟩ := e
    rw [List.map_cons, wireEntries_cons, Image.append_assoc]
    refine ((hk k).inField _).bind fun hkey => ((hv v).inField _).bind fun hvalue =>
      (ih (i + 1)).imp fun hrest done => ?_
    have hentry : Reads (do let k ← readKey; let v ← readValue; return (k, v))
        (image (normal k) ++ valueImage (valueNormal v)) (normal k, valueNormal v) :=
      hkey.bind (hvalue.map fun v => (normal k, v))
    rw [← Image.append_assoc, List.append_cons, ← List.reverse_cons]
    exact Reads.bind hentry (hrest ((normal k, valueNormal v) :: done))

end Collections

/-- The names of the normal forms are names of members. -/
theorem names_normalMembers_sublist (normal : Reference → Value → Value)
    (given : List (String × Value)) (members : List (Member Layout)) :
    ((normalMembers normal given members).map (·.1)).Sublist (members.map (·.name)) := by
  induction members with
  | nil => exact List.Sublist.refl _
  | cons m members ih =>
    rw [normalMembers]
    split
    · exact ih.cons_cons _
    · exact ih.cons _

/-- A label that stands in no case selects none. -/
theorem readCase_eq_none (behind : Reference → Coding Value) {label : Label}
    {cases : List (Case Layout)} (h : ∀ c ∈ cases, label ∉ c.labels) :
    readCase w behind label cases = none := by
  induction cases with
  | nil => rfl
  | cons c cases ih =>
    rw [readCase, if_neg (by simpa using h c List.mem_cons_self)]
    exact ih fun c' hc' => h c' (List.mem_cons_of_mem _ hc')

section Tree

variable {follow : Reference → Value → Coding Unit} {behind : Reference → Coding Value}
  {image : Reference → Value → Image} {normal : Reference → Value → Value}
  {good : Reference → Prop}

/-- What lies behind good references is read back. -/
structure Behind (good : Reference → Prop) (follow : Reference → Value → Coding Unit)
    (behind : Reference → Coding Value) (image : Reference → Value → Image)
    (normal : Reference → Value → Value) : Prop where
  roundTrips : ∀ target, good target → ∀ v, RoundTrips (follow target v) (behind target)
    (image target (normal target v)) (normal target v)
  isNull : ∀ target v, (normal target v).isNull = v.isNull

/-- The layout reads back what it writes, as the normal form. -/
def ReadsBack (w : CountWidth) (follow : Reference → Value → Coding Unit)
    (behind : Reference → Coding Value) (image : Reference → Value → Image)
    (normal : Reference → Value → Value) (l : Layout) : Prop :=
  ∀ v, RoundTrips (writeWith w follow l v) (readWith w behind l)
    (wireWith w image l (normalWith normal l v)) (normalWith normal l v)

/-- A tag is read back, and then the payload that it leads the reader to. -/
theorem roundTrips_tagged {d : Discriminator} {label : Label} (hlabel : d.contains label = true)
    (size : Nat) {tagOnly : Bool} {write : Coding Unit} {read : Coding Value} (tail : Value → Image)
    {x : Value} (hpayload : tagOnly = false → RoundTrips write read (tail x) x)
    (selected : Option Label) {next : Label → Coding Value}
    (hnext : next label = if tagOnly = true then pure (Value.union selected .null)
      else read >>= fun x => pure (Value.union selected x)) :
    RoundTrips
      (Coding.align size >>= fun _ => d.write label >>= fun _ =>
        if (!tagOnly) = true then write else pure ())
      (Coding.skipTo size >>= fun _ => d.read >>= next)
      (Image.padding size ++ (d.tag label ++
        if tagOnly = true then Image.nil else tail (if tagOnly = true then .null else x)))
      (Value.union selected (if tagOnly = true then .null else x)) := by
  refine (Lays.align _).bind fun _ => (Discriminator.lays_write hlabel).bind fun _ => ?_
  have htag := Discriminator.reads_tag hlabel
  cases tagOnly with
  | true =>
    refine Lays.pure.imp fun _ => (Reads.skipTo _).bind (htag.bind ?_)
    rw [hnext]
    exact Reads.pure _
  | false =>
    refine (hpayload rfl).imp fun hread => (Reads.skipTo _).bind (htag.bind ?_)
    rw [hnext]
    exact hread.map fun x => Value.union selected x

namespace ReadsBack

variable {element key value inner : Layout}

protected theorem array (h : ReadsBack w follow behind image normal element) (length : UInt64) :
    ReadsBack w follow behind image normal (.array element length) := by
  intro v
  cases v with
  | array items =>
    have heach := lays_writeEach h 0 items
    show Lays (if items.length = length.toNat then _ else _) _ _
    split
    · rename_i hlen
      refine heach.imp fun hread => ?_
      rw [hlen] at hread
      exact (hread []).map Value.array
    · exact Lays.fail
  | _ => exact Lays.fail

protected theorem sequence (h : ReadsBack w follow behind image normal element)
    (bound : Option UInt64) :
    ReadsBack w follow behind image normal (.sequence element bound) := by
  intro v
  cases v with
  | array items =>
    have hlen : (items.map (normalWith normal element)).length = items.length := List.length_map _
    simp only [normalWith, Value.mapItems, wireWith, hlen]
    refine (lays_checkBound "sequence" items.length bound).bind_nil fun hbound =>
      (lays_writeCount w "sequence" items.length).bind fun hcount =>
        (lays_writeEach h 0 items).imp fun hread => ?_
    exact (reads_readCount hcount hbound).bind ((hread []).map Value.array)
  | _ => exact Lays.fail

protected theorem map (hkey : ReadsBack w follow behind image normal key)
    (hvalue : ReadsBack w follow behind image normal value) (bound : Option UInt64) :
    ReadsBack w follow behind image normal (.map key value bound) := by
  intro v
  cases v with
  | map entries =>
    have hlen :
        (entries.map fun e => (normalWith normal key e.1, normalWith normal value e.2)).length =
          entries.length := List.length_map _
    simp only [normalWith, Value.mapEntries, wireWith, hlen]
    refine (lays_checkBound "map" entries.length bound).bind_nil fun hbound =>
      (lays_writeCount w "map" entries.length).bind fun hcount =>
        (lays_writeEntries hkey hvalue 0 entries).imp fun hread => ?_
    exact (reads_readCount hcount hbound).bind ((hread []).map Value.map)
  | _ => exact Lays.fail

/-- A value that is absent is written as a flag alone, and so is its normal form. -/
protected theorem optional (hnull : ∀ target v, (normal target v).isNull = v.isNull)
    (h : ReadsBack w follow behind image normal inner) :
    ReadsBack w follow behind image normal (.optional inner) := by
  intro v
  have hinner := isNull_normalWith hnull inner v
  simp only [normalWith, wireWith]
  show Lays (if v.isNull then _ else _) _ _
  split
  · rename_i hv
    obtain rfl : v = .null := by cases v <;> simp_all [Value.isNull]
    exact (Lays.put _).imp fun _ => (reads_takeByte 0).bind_end (Reads.pure _)
  · rename_i hv
    rw [if_neg (by rwa [hinner])]
    exact (Lays.put _).bind fun _ => (h v).imp fun hread => (reads_takeByte 1).bind hread

/-- A union reads back its cases, and its default case if no label of a case stands for that. -/
protected theorem union {name : String} {d : Discriminator} {cases : List (Case Layout)}
    {fallback : Option (Fallback Layout)} {tagOnly : Bool}
    (hcases : ∀ label payload content, writeCase w follow label payload cases = some content →
      ∃ reader, readCase w behind label cases = some reader ∧
        RoundTrips content reader
          (wireCase w image label (normalCase normal label payload cases) cases)
          (normalCase normal label payload cases))
    (hfallback : ∀ field sentinel content, fallback = some ⟨field, sentinel, content⟩ →
      d.contains sentinel = true ∧ (∀ c ∈ cases, sentinel ∉ c.labels) ∧
        ReadsBack w follow behind image normal content) :
    ReadsBack w follow behind image normal (.union ⟨name, d, cases, fallback, tagOnly⟩) := by
  intro v
  cases v with
  | union label payload =>
    cases label with
    | some label =>
      simp only [normalWith, wireWith, readWith]
      rw [writeWith]
      split
      · rename_i content hcontent hlabel
        obtain ⟨reader, hreader, htrip⟩ := hcases label payload content hcontent
        refine roundTrips_tagged hlabel _ (fun x => wireCase w image label x cases) (fun _ => htrip)
          (some label) ?_
        rw [hreader]
      · exact (Lays.align _).bind fun _ => Lays.fail
    | none =>
      cases fallback with
      | none =>
        simp only [normalWith, wireWith]
        exact (Lays.align _).bind fun _ => Lays.fail
      | some f =>
        obtain ⟨field, sentinel, content⟩ := f
        obtain ⟨hsentinel, hunused, hcontent⟩ := hfallback _ _ _ rfl
        simp only [normalWith, wireWith, readWith]
        -- The sentinel selects no case, so the reader takes the default case.
        have hreader := readCase_eq_none (w := w) behind hunused
        refine roundTrips_tagged hsentinel _ (wireWith w image content)
          (fun _ => (hcontent payload).inField field) none ?_
        rw [hreader]
  | _ => exact Lays.fail

end ReadsBack

mutual

/-- A layout reads back what it writes if what lies behind references is read back. -/
theorem roundTrips_writeWith (h : Behind good follow behind image normal) (l : Layout)
    (hl : l.WellFormed good) : ReadsBack w follow behind image normal l := by
  match l with
  | primitive p => exact roundTrips_primitive p
  | string bound => exact roundTrips_string bound
  | bytes bound => exact roundTrips_bytes bound
  | array element length => exact ReadsBack.array (roundTrips_writeWith h element hl) length
  | sequence element bound => exact ReadsBack.sequence (roundTrips_writeWith h element hl) bound
  | map key value bound =>
    exact ReadsBack.map (roundTrips_writeWith h key hl.1) (roundTrips_writeWith h value hl.2) bound
  | enumeration name enumerators => exact roundTrips_enumerator hl name
  | struct name members =>
    intro v
    cases v with
    | struct given =>
      -- The members have different names, so the normal form has the value of each of them.
      have hnames := (names_normalMembers_sublist normal given members).nodup hl.1
      refine (lays_writeMembers h members hl.2 name given
        (Dictionary.ofList (normalMembers normal given members)) fun e he =>
          Dictionary.find?_insertAll_of_mem hnames he []).imp fun hread => ?_
      exact (hread []).map Value.struct
    | _ => exact Lays.fail
  | union ⟨name, d, cases, none, tagOnly⟩ =>
    refine ReadsBack.union (fun label payload content => roundTrips_writeCase h cases hl.cases label
      payload) ?_
    rintro _ _ _ ⟨⟩
  | union ⟨name, d, cases, some ⟨field, sentinel, content⟩, tagOnly⟩ =>
    obtain ⟨hsentinel, hunused, hcontent⟩ := hl.2
    refine ReadsBack.union (fun label payload content => roundTrips_writeCase h cases hl.cases label
      payload) ?_
    rintro _ _ _ ⟨⟩
    exact ⟨hsentinel, hunused, roundTrips_writeWith h content hcontent⟩
  | optional inner => exact ReadsBack.optional h.isNull (roundTrips_writeWith h inner hl)
  | reference target => exact h.roundTrips target hl
termination_by structural l

/-- Members that are read back one by one are inserted in a row. -/
theorem lays_writeMembers (h : Behind good follow behind image normal)
    (members : List (Member Layout)) (hm : MembersWellFormed good members)
    (name : String) (given dict : List (String × Value))
    (hdict : ∀ e ∈ normalMembers normal given members, Dictionary.find? e.1 dict = some e.2) :
    Lays (writeMembers w follow name given members)
      (∀ done, Reads (readMembers w behind done members) (wireMembers w image dict members)
        (Dictionary.insertAll done (normalMembers normal given members)))
      (wireMembers w image dict members) := by
  match members with
  | [] => exact Lays.pure.imp fun _ done => Reads.pure done
  | ⟨field, content⟩ :: members =>
    rw [writeMembers, wireMembers]
    cases hfield : Dictionary.find? field given with
    | none => exact Lays.fail
    | some v =>
      -- The image is that of the whole struct, so the dictionary stays as the members get fewer.
      simp only [normalMembers, hfield] at hdict ⊢
      rw [hdict _ List.mem_cons_self]
      refine ((roundTrips_writeWith h content hm.1 v).inField field).bind fun hread =>
        (lays_writeMembers h members hm.2 name given dict fun e he =>
          hdict e (List.mem_cons_of_mem _ he)).imp fun hrest done => ?_
      exact hread.bind (hrest _)
termination_by structural members

/-- The payload of a case is read back by the case that its label selects. -/
theorem roundTrips_writeCase (h : Behind good follow behind image normal)
    (cases : List (Case Layout)) (hc : CasesWellFormed good cases) (label : Label)
    (payload : Value) {content : Coding Unit}
    (hcontent : writeCase w follow label payload cases = some content) :
    ∃ reader, readCase w behind label cases = some reader ∧
      RoundTrips content reader
        (wireCase w image label (normalCase normal label payload cases) cases)
        (normalCase normal label payload cases) := by
  match cases with
  | [] => cases hcontent
  | ⟨field, labels, inner⟩ :: cases =>
    rw [writeCase] at hcontent
    simp only [readCase, wireCase, normalCase]
    split at hcontent
    · rename_i hlabel
      cases hcontent
      simp only [hlabel, if_true]
      exact ⟨_, rfl, (roundTrips_writeWith h inner hc.1 payload).inField field⟩
    · rename_i hlabel
      simp only [hlabel]
      exact roundTrips_writeCase h cases hc.2 label payload hcontent
termination_by structural cases

end

end Tree

/-- A struct without members is written as nothing and read back from it. -/
theorem roundTrips_nothing (types : Lookup) (budget : Nat) (name : String) (v : Value) :
    RoundTrips (write types w budget (.struct name []) v) (read types w budget (.struct name []))
      (wire types w budget (.struct name []) (.struct [])) (.struct []) := by
  cases v with
  | struct given =>
    cases budget <;> exact Lays.pure.imp fun _ => Reads.pure (Value.struct [])
  | _ => cases budget <;> exact Lays.fail

end Layout

end Cdr
