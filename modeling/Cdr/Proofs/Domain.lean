import Cdr.Proofs.Judging
import Cdr.Proofs.Selecting

/-! The labels that a tag can hold.  They are the candidates of its discriminator, each of which
comes once, and a tag that is written for one of them is read back as that label wherever it stands.
So a label is known from the bytes of its tag and their order. -/

namespace Cdr

namespace Buffer

/-- A buffer that has room up to the cursor is not made to grow by going back. -/
theorem seek_of_le {b : Buffer} {position : Nat} (h : position ≤ b.storage.size) :
    b.seek position = { b with cursor := position } := by
  rw [seek, reserve, if_neg (by omega)]

/-- What was stored is what comes first where the cursor was, if all of it counts. -/
theorem Stores.prefix_rest {a b : Buffer} {bytes : List UInt8} (h : a.Stores b bytes)
    (hlength : b.cursor ≤ b.length) (hroom : b.cursor ≤ b.storage.size) :
    bytes <+: ({ b with cursor := a.cursor } : Buffer).rest := by
  have hcursor := h.cursor
  refine List.prefix_iff_getElem?.mpr fun i hi => ?_
  have hbyte := h.inside i hi
  rw [byteAt, Array.getD_eq_getD_getElem?, Array.getElem?_eq_getElem (by omega)] at hbyte
  simp only [rest, toList, List.getElem?_drop, List.getElem?_take, Array.getElem?_toList]
  rw [if_pos (by omega), Array.getElem?_eq_getElem (by omega)]
  exact congrArg some hbyte

/-- A word is written so that all of it counts. -/
theorem room_putWord (width n : Nat) (b : Buffer) :
    (b.putWord width n).cursor ≤ (b.putWord width n).length ∧
      (b.putWord width n).cursor ≤ (b.putWord width n).storage.size := by
  refine ⟨Nat.le_max_right _ _, ?_⟩
  simp only [putWord, put, size_overwrite]
  exact (size_reserve _ _).1

end Buffer

namespace Discriminator

variable {d : Discriminator} {label : Label}

/-- The bytes that stand for a label, behind the padding. -/
def word (d : Discriminator) (order : ByteOrder) (label : Label) : List UInt8 :=
  match d.tagType? with
  | some t => order.encode t.size (t.toBits label.toInt)
  | none => []

theorem alignment_of_tagType? {t : IntegerType} (h : d.tagType? = some t) :
    d.alignment = t.size := by
  cases d with
  | primitive p => cases p <;> cases h <;> rfl
  | enumeration name enumerators =>
    cases h
    rfl

/-- The tag of a label is read back as the label, wherever it was written. -/
theorem read_write (h : d.contains label = true) (b : Buffer) :
    ∃ b', d.write label b = .ok () b' ∧
      b.Stores b' (List.replicate (b.padding d.alignment) 0 ++ d.word b.order label) ∧
      d.read (b'.seek b.cursor) = .ok label b' := by
  obtain ⟨t, ht, hholds⟩ := exists_tagType? h
  have hstores := Buffer.stores_putWord t.size (t.toBits label.toInt) b
  obtain ⟨hlength, hroom⟩ := Buffer.room_putWord t.size (t.toBits label.toInt) b
  refine ⟨b.putWord t.size (t.toBits label.toInt), ?_, ?_, ?_⟩
  · rw [write, ht]
    rfl
  · rwa [word, ht, alignment_of_tagType? ht]
  · generalize b.putWord t.size (t.toBits label.toInt) = b' at hstores hlength hroom ⊢
    have hcursor := hstores.cursor
    have hpre := hstores.prefix_rest hlength hroom
    rw [Buffer.seek_of_le (by omega)]
    -- Padding is counted from the cursor, the origin and the size, which are as they were.
    have hpadding :
        ({ b' with cursor := b.cursor } : Buffer).padding t.size = b.padding t.size := by
      rw [Buffer.padding_eq_gap, Buffer.padding_eq_gap, hstores.origin]
    have hword := Coding.takeWord_of_prefix (b := { b' with cursor := b.cursor })
      (t.toBits_lt label.toInt) (by rw [hpadding, hstores.order]; exact hpre)
    rw [read, ht]
    simp only
    rw [Coding.bind_apply, hword]
    simp only [IntegerType.ofBits_toBits hholds, ofInt?_toInt, hpadding]
    rw [Buffer.advance]
    simp only [List.length_append, List.length_replicate, ByteOrder.length_encode] at hcursor
    rw [← hcursor]
    rfl

/-- Different labels have different tags. -/
theorem eq_of_word_eq {label' : Label} {order : ByteOrder} (h : d.contains label = true)
    (h' : d.contains label' = true) (hword : d.word order label = d.word order label') :
    label = label' := by
  obtain ⟨t, ht, hholds⟩ := exists_tagType? h
  obtain ⟨t', ht', hholds'⟩ := exists_tagType? h'
  obtain rfl := Option.some.inj (ht.symm.trans ht')
  simp only [word, ht] at hword
  have hbits := congrArg order.decode hword
  rw [ByteOrder.decode_encode, ByteOrder.decode_encode, Nat.mod_eq_of_lt (t.toBits_lt _),
    Nat.mod_eq_of_lt (t.toBits_lt _)] at hbits
  apply Int64.toInt_inj.mp
  rw [← IntegerType.ofBits_toBits hholds, ← IntegerType.ofBits_toBits hholds', hbits]

namespace Counts

variable {numbers : List Int}

/-- The candidates are the labels among the numbers. -/
theorem mem_candidates (h : d.Counts numbers) :
    label.toInt ∈ numbers ↔ ∃ count, label ∈ d.candidates count := by
  have hcandidate : ∀ i, d.candidate? i = some label ↔ numbers[i]? = some label.toInt := by
    intro i
    rw [h.candidate, Option.bind_eq_some_iff]
    constructor
    · rintro ⟨n, hn, hlabel⟩
      rw [hn, toInt_of_ofInt? hlabel]
    · exact fun hn => ⟨label.toInt, hn, ofInt?_toInt label⟩
  rw [List.mem_iff_getElem?]
  simp only [candidates, List.mem_filterMap, List.mem_range, hcandidate]
  constructor
  · rintro ⟨i, hi⟩
    exact ⟨i + 1, i, Nat.lt_succ_self i, hi⟩
  · rintro ⟨count, i, -, hi⟩
    exact ⟨i, hi⟩

/-- No candidate comes twice, because no number does. -/
theorem nodup_candidates (h : d.Counts numbers) (hnodup : numbers.Nodup) (count : Nat) :
    (d.candidates count).Nodup := by
  refine List.Nodup.filterMap (fun i j label hi hj => ?_) List.nodup_range
  rw [h.candidate] at hi hj
  obtain ⟨n, hn, hlabel⟩ := Option.bind_eq_some_iff.mp hi
  obtain ⟨m, hm, hlabel'⟩ := Option.bind_eq_some_iff.mp hj
  have hsame : n = m := (toInt_of_ofInt? hlabel).symm.trans (toInt_of_ofInt? hlabel')
  refine (List.getElem?_inj (List.getElem?_eq_some_iff.mp hn).1 hnodup).mp ?_
  rw [hn, hm, hsame]

end Counts

end Discriminator

namespace Site

/-- The labels that a discriminator can hold are its candidates, each of which comes once.  Wherever
a buffer stands and whatever its byte order is, the tag of such a label is written there behind its
padding, and from the same place it is read back as the label, up to where it was written.  Its
bytes depend on the byte order and on the label only, and differ from those of every other label. -/
theorem domain_of_discriminator {s : Site} {shape : Shape} {d : Discriminator}
    (h : s.discriminator shape = .ok d) :
    (∀ label, d.contains label = true ↔ ∃ count, label ∈ d.candidates count) ∧
      (∀ count, (d.candidates count).Nodup) ∧
      (∀ label, d.contains label = true → ∀ b : Buffer, ∃ b', d.write label b = .ok () b' ∧
        b.Stores b' (List.replicate (b.padding d.alignment) 0 ++ d.word b.order label) ∧
        d.read (b'.seek b.cursor) = .ok label b') ∧
      ∀ (order : ByteOrder) (label label' : Label), d.contains label = true →
        d.contains label' = true → d.word order label = d.word order label' → label = label' := by
  let lookup : String → Option Declaration := fun name => (s.resolve name).map (·.2)
  have hlookup := lookup_of_resolve (fun name => (rfl : lookup name = (s.resolve name).map (·.2)))
  have hcounts := counts_of_discriminator hlookup h
  refine ⟨fun label => ?_, hcounts.nodup_candidates (nodup_tagNumbers hlookup h),
    fun label hlabel b => Discriminator.read_write hlabel b,
    fun order label label' hlabel hlabel' => Discriminator.eq_of_word_eq hlabel hlabel'⟩
  rw [contains_iff_mem_tagNumbers hlookup h, hcounts.mem_candidates]

/-- The greatest label is a number of eight bytes, and the least one is not.  Behind three bytes and
in front of the origin it is written without padding, and read back. -/
theorem domain_of_discriminator_uint64 :
    let s : Site := ⟨fun _ => none, "Meter"⟩
    let d : Discriminator := .primitive (.integer .uint64)
    let greatest : Label := 9223372036854775807
    let b : Buffer := { Buffer.ofBytes [1, 2, 3] with cursor := 3, origin := 5, order := .big }
    s.discriminator (.primitive (.integer .uint64)) = .ok d ∧
      (∃ count, greatest ∈ d.candidates count) ∧
      (¬ ∃ count, (-9223372036854775808 : Label) ∈ d.candidates count) ∧
      (d.candidates 300).Nodup ∧
      (∃ b', d.write greatest b = .ok () b' ∧ d.read (b'.seek 3) = .ok greatest b') ∧
      d.word .big greatest = [127, 255, 255, 255, 255, 255, 255, 255] := by
  intro s d greatest b
  have hd : s.discriminator (.primitive (.integer .uint64)) = .ok d := rfl
  obtain ⟨hcandidates, hnodup, hread, -⟩ := domain_of_discriminator hd
  obtain ⟨b', hwrite, -, hback⟩ := hread greatest (by decide) b
  refine ⟨hd, (hcandidates greatest).mp (by decide), fun h => ?_, hnodup 300,
    ⟨b', hwrite, hback⟩, by decide⟩
  have := (hcandidates _).mpr h
  revert this
  decide

end Site

end Cdr
