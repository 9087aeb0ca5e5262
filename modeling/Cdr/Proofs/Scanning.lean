import Cdr.Json.Outline
import Cdr.Json.Render
import Mathlib.Data.List.Basic

/-! The texts of documents read back.  A document whose numbers are integers of sixty-four bits is
scanned from its text as the outline of the document, up to the end of the text: a numeral ends
where no character follows that continues it, a string where its quote closes, and the length of the
text is enough fuel, because every value, item and entry takes a character of its own. -/

namespace Cdr.Json

namespace Numeral

/-- The text does not go on with a numeral. -/
def Ended (text : List Char) : Prop :=
  ∀ c ∈ text.head?, c.isDigit = false ∧ c ≠ '.' ∧ c ≠ 'e' ∧ c ≠ 'E'

/-- The number of a decimal digit. -/
def digitOf (c : Char) : Nat := c.toNat - 48

/-- The number of a list of digits behind the digits of another number. -/
def number (word : Nat) (ds : List Nat) : Nat := ds.foldl (fun n d => 10 * n + d) word

theorem digits_append {ds rest : List Char} (hds : ∀ c ∈ ds, c.isDigit = true)
    (hrest : Ended rest) : digits (ds ++ rest) = (ds.map digitOf, rest) := by
  induction ds with
  | nil =>
    cases rest with
    | nil => rfl
    | cons c cs => simp [digits, (hrest c rfl).1]
  | cons c ds ih =>
    obtain ⟨hc, hds⟩ := List.forall_mem_cons.mp hds
    simp [digits, hc, ih hds, digitOf]

theorem le_number (word : Nat) (ds : List Nat) : word ≤ number word ds := by
  induction ds generalizing word with
  | nil => exact Nat.le_refl word
  | cons d ds ih => exact Nat.le_trans (by omega) (ih (10 * word + d))

/-- All digits of a number that fits a word are gathered. -/
theorem gather_eq {word : Nat} {ds : List Nat} (h : number word ds ≤ greatest) :
    gather word ds = (number word ds, []) := by
  induction ds generalizing word with
  | nil => rfl
  | cons d ds ih =>
    have hfits : 10 * word + d ≤ greatest := Nat.le_trans (le_number _ ds) h
    rw [gather, if_pos hfits, ih h]
    rfl

theorem number_toDigits (n : Nat) : number 0 ((naturalChars n).map digitOf) = n := by
  have h := Nat.ofDigitChars_toDigits (b := 10) (n := n) (by decide) (by decide)
  rwa [Nat.ofDigitChars_eq_foldl, ← List.foldl_map] at h

/-- The numeral of a positive number does not start with a zero. -/
theorem head?_toDigits_ne {n : Nat} (h : 0 < n) : (naturalChars n).head? ≠ some '0' := by
  induction n using Nat.strongRecOn with
  | ind n ih =>
    unfold naturalChars
    by_cases hsmall : n < 10
    · rw [Nat.toDigits_of_lt_base hsmall]
      exact (by decide : ∀ n < 10, 0 < n → [Nat.digitChar n].head? ≠ some '0') n hsmall h
    · rw [Nat.toDigits_of_base_le (by decide) (by omega),
        List.head?_append_of_ne_nil _ Nat.toDigits_ne_nil]
      exact ih (n / 10) (by omega) (by omega)

theorem isDigit_of_mem_naturalChars {n : Nat} {c : Char} (h : c ∈ naturalChars n) :
    c.isDigit = true :=
  Nat.isDigit_of_mem_toDigits (by decide) (by decide) h

theorem eq_zero_of_digitOf {c : Char} (h : c.isDigit = true) (hzero : digitOf c = 0) : c = '0' := by
  have hle : 48 ≤ c.toNat := (Char.isDigit_iff_toNat.mp h).1
  exact Char.toNat_inj.mp (by unfold digitOf at hzero; simp; omega)

theorem exists_naturalChars (n : Nat) : ∃ c cs, naturalChars n = c :: cs ∧ c.isDigit = true := by
  obtain ⟨c, cs, h⟩ := List.exists_cons_of_ne_nil (Nat.toDigits_ne_nil (n := n) (b := 10))
  exact ⟨c, cs, h, isDigit_of_mem_naturalChars (h ▸ List.mem_cons_self)⟩

/-- A numeral with more than one digit does not start with a zero. -/
theorem naturalChars_ne_zero_cons (n : Nat) (c : Char) (cs : List Char) :
    naturalChars n ≠ '0' :: c :: cs := by
  intro h
  rcases Nat.eq_zero_or_pos n with rfl | hpos
  · cases h
  · exact head?_toDigits_ne hpos (by rw [h]; rfl)

theorem scanWhole_naturalChars (n : Nat) {rest : List Char} (hrest : Ended rest) :
    scanWhole (naturalChars n ++ rest) = some ((naturalChars n).map digitOf, rest) := by
  have hdigits := fun c (hc : c ∈ naturalChars n) => isDigit_of_mem_naturalChars hc
  have hzero := naturalChars_ne_zero_cons n
  rw [scanWhole, digits_append hdigits hrest]
  obtain ⟨c, cs, hchars, hc⟩ := exists_naturalChars n
  rw [hchars] at hzero ⊢
  cases cs with
  | nil => cases hd : digitOf c <;> simp [hd]
  | cons c' cs =>
    cases hd : digitOf c with
    | zero => exact absurd (by rw [eq_zero_of_digitOf hc hd]) (hzero c' cs)
    | succ d => simp [hd]

theorem scanDecimals_of_ended {rest : List Char} (hrest : Ended rest) :
    scanDecimals rest = some (none, rest) := by
  unfold scanDecimals
  split
  · exact absurd rfl (hrest _ rfl).2.1
  · rfl

theorem scanExponent_of_ended {rest : List Char} (hrest : Ended rest) :
    scanExponent rest = some (none, rest) := by
  unfold scanExponent
  split
  · exact absurd rfl (hrest _ rfl).2.2.1
  · exact absurd rfl (hrest _ rfl).2.2.2
  · rfl

theorem scan_integerChars (n : Int) {rest : List Char} (hrest : Ended rest) :
    scan (integerChars n ++ rest) =
      some (⟨n < 0, (naturalChars n.natAbs).map digitOf, none, none⟩, rest) := by
  have hwhole := scanWhole_naturalChars n.natAbs hrest
  by_cases hneg : n < 0
  · simp [scan, integerChars, hneg, hwhole, scanDecimals_of_ended hrest,
      scanExponent_of_ended hrest]
  · obtain ⟨c, cs, hchars, hc⟩ := exists_naturalChars n.natAbs
    have hsign : c ≠ '-' := by
      rintro rfl
      cases hc
    rw [integerChars, if_neg hneg]
    rw [hchars, List.cons_append] at hwhole ⊢
    simp [scan, hsign, hwhole, scanDecimals_of_ended hrest, scanExponent_of_ended hrest, hneg]

/-- An integer of sixty-four bits has itself for its value. -/
theorem value?_integer {n : Int} (hleast : -2 ^ 63 ≤ n) (hgreatest : n < 2 ^ 64) :
    value? ⟨n < 0, (naturalChars n.natAbs).map digitOf, none, none⟩ = some (.integer n) := by
  have hnumber := number_toDigits n.natAbs
  have hfits : number 0 ((naturalChars n.natAbs).map digitOf) ≤ greatest := by
    rw [hnumber, greatest]
    omega
  have hgather := gather_eq hfits
  rw [hnumber] at hgather
  rw [value?]
  simp only [hgather]
  by_cases hneg : n < 0
  · have hfits : ¬ (n.natAbs = 0 ∨ 2 ^ 63 < n.natAbs) := by omega
    simp only [hneg, decide_true, if_true, if_neg hfits]
    congr 2
    omega
  · simp only [hneg, decide_false, Bool.false_eq_true, if_false]
    congr 2
    omega

end Numeral

namespace Outline

/-- How the scan reads the escape of a character: as a code only where no letter stands for it. -/
def partOf (c : Char) : Part :=
  if c.toNat < 32 ∧ c ≠ '\n' ∧ c ≠ '\r' ∧ c ≠ '\t' ∧ c.toNat ≠ 8 ∧ c.toNat ≠ 12 then .coded c.toNat
  else .plain c

theorem scanString_coded {n : Nat} (h : n < 32) (done : List Part) (rest : List Char) :
    scanString done
        ('\\' :: 'u' :: '0' :: '0' :: Text.Hex.digit (n / 16) :: Text.Hex.digit (n % 16) :: rest) =
      scanString (.coded n :: done) rest := by
  have hnumber : Text.Hex.number? ['0', '0', Text.Hex.digit (n / 16), Text.Hex.digit (n % 16)] =
      some n :=
    (by decide +kernel : ∀ n < 32, Text.Hex.number?
      ['0', '0', Text.Hex.digit (n / 16), Text.Hex.digit (n % 16)] = some n) n h
  rw [scanString, hnumber]

theorem eq_ofNat_of_toNat {c : Char} {n : Nat} (h : c.toNat = n) : c = Char.ofNat n := by
  rw [← h, Char.ofNat_toNat]

/-- A control is escaped by a letter if there is one for it, and by its code otherwise. -/
theorem scanString_escapeChar_control {c : Char} (h : c.toNat < 32) (done : List Part)
    (rest : List Char) :
    scanString done (escapeChar c ++ rest) = scanString (partOf c :: done) rest := by
  by_cases hnewline : c = '\n'
  · subst hnewline
    rfl
  by_cases hreturn : c = '\r'
  · subst hreturn
    rfl
  by_cases htab : c = '\t'
  · subst htab
    rfl
  by_cases hback : c.toNat = 8
  · obtain rfl := eq_ofNat_of_toNat hback
    rfl
  by_cases hfeed : c.toNat = 12
  · obtain rfl := eq_ofNat_of_toNat hfeed
    rfl
  have hquote : c ≠ '"' := by
    rintro rfl
    exact absurd h (by decide)
  have hslash : c ≠ '\\' := by
    rintro rfl
    exact absurd h (by decide)
  have hpart : partOf c = .coded c.toNat :=
    if_pos ⟨h, hnewline, hreturn, htab, hback, hfeed⟩
  simp only [escapeChar, hquote, hslash, h, hnewline, hreturn, htab, hback, hfeed, if_false,
    if_true, hpart]
  exact scanString_coded h done rest

theorem scanString_escapeChar (c : Char) (done : List Part) (rest : List Char) :
    scanString done (escapeChar c ++ rest) = scanString (partOf c :: done) rest := by
  by_cases hquote : c = '"'
  · subst hquote
    rfl
  by_cases hslash : c = '\\'
  · subst hslash
    rfl
  by_cases hcontrol : c.toNat < 32
  · exact scanString_escapeChar_control hcontrol done rest
  have hpart : partOf c = .plain c := if_neg fun h => hcontrol h.1
  have hescape : escapeChar c = [c] := by
    simp only [escapeChar, hquote, hslash, hcontrol, if_false]
  rw [hpart, hescape, List.singleton_append, scanString, if_neg hcontrol]
  · exact fun h => hquote h
  · exact fun _ _ _ _ _ h => absurd h hslash
  · exact fun _ _ h => absurd h hslash

theorem scanString_escape (text : List Char) (done : List Part) (rest : List Char) :
    scanString done (text.flatMap escapeChar ++ '"' :: rest) =
      some (done.reverse ++ text.map partOf, rest) := by
  induction text generalizing done with
  | nil => simp [scanString]
  | cons c text ih =>
    rw [List.flatMap_cons, List.append_assoc, scanString_escapeChar, ih]
    simp

theorem assemble_partOf (done text : List Char) :
    assemble done (text.map partOf) = some (done.reverse ++ text) := by
  induction text generalizing done with
  | nil => simp [assemble]
  | cons c text ih =>
    rw [List.map_cons, partOf]
    split
    · rename_i hc
      have hbasic : c.toNat < 0xD800 ∨ 0xDFFF < c.toNat := Or.inl (by omega)
      rw [assemble.eq_def]
      simp only [if_pos hbasic, ih, Char.ofNat_toNat]
      simp
    · rw [assemble, ih]
      simp

/-- A string is scanned from its text as itself. -/
theorem scanText_escape (text : String) (rest : List Char) :
    scanText (text.toList.flatMap escapeChar ++ '"' :: rest) = some (some text, rest) := by
  rw [scanText, scanString_escape]
  simp [assemble_partOf]

end Outline

/-- Every number in the document is an integer of sixty-four bits. -/
inductive Integral : Json → Prop
  | null : Integral .null
  | bool (b : Bool) : Integral (.bool b)
  | number {n : Int} (hleast : -2 ^ 63 ≤ n) (hgreatest : n < 2 ^ 64) : Integral (ofInt n)
  | string (text : String) : Integral (.string text)
  | array {items : List Json} (h : ∀ item ∈ items, Integral item) : Integral (.array items)
  | object {entries : List (String × Json)} (h : ∀ e ∈ entries, Integral e.2) :
    Integral (.object entries)

namespace Outline

open Numeral (Ended)

/-- A character that a value can start with. -/
def Starts (c : Char) : Prop :=
  c ∈ ['n', 't', 'f', '"', '[', '{', '-'] ∨ c.isDigit = true

instance (c : Char) : Decidable (Starts c) := inferInstanceAs (Decidable (_ ∨ _))

theorem exists_integerChars (n : Int) :
    ∃ c cs, integerChars n = c :: cs ∧ (c = '-' ∨ c.isDigit = true) := by
  obtain ⟨c, cs, hchars, hc⟩ := Numeral.exists_naturalChars n.natAbs
  unfold integerChars
  split
  · exact ⟨'-', naturalChars n.natAbs, rfl, Or.inl rfl⟩
  · exact ⟨c, cs, hchars, Or.inr hc⟩

theorem exists_chars {j : Json} (hj : j.Integral) : ∃ c cs, j.chars = c :: cs ∧ Starts c := by
  cases hj with
  | null => exact ⟨_, _, rfl, by decide⟩
  | bool b => cases b <;> exact ⟨_, _, rfl, by decide⟩
  | number hleast hgreatest =>
    obtain ⟨c, cs, hchars, hc⟩ := exists_integerChars _
    exact ⟨c, cs, hchars, hc.imp_left fun h => by simp [h]⟩
  | string text => exact ⟨_, _, rfl, by decide⟩
  | @array items h => cases items <;> exact ⟨_, _, rfl, by decide⟩
  | @object entries h => cases entries <;> exact ⟨_, _, rfl, by decide⟩

theorem length_chars_pos {j : Json} (hj : j.Integral) : 0 < j.chars.length := by
  obtain ⟨c, cs, hchars, -⟩ := exists_chars hj
  rw [hchars]
  exact Nat.zero_lt_succ _

/-- No blanks are skipped in front of a value. -/
theorem skipBlanks_of_starts {c : Char} (hc : Starts c) (rest : List Char) :
    skipBlanks (c :: rest) = c :: rest := by
  have hblank : (c == ' ' || c == '\n' || c == '\t' || c == '\r') = false := by
    rw [Bool.eq_false_iff]
    intro h
    simp only [Bool.or_eq_true, beq_iff_eq] at h
    rcases h with ((rfl | rfl) | rfl) | rfl <;> exact absurd hc (by decide)
  rw [skipBlanks, List.dropWhile_cons, hblank]
  rfl

theorem scanValue_of_numeral {c : Char} (hc : c = '-' ∨ c.isDigit = true) (fuel : Nat)
    (cs : List Char) :
    scanValue (fuel + 1) (c :: cs) =
      match Numeral.scan (c :: cs) with
      | some (parts, rest) => (.number (Numeral.value? parts), some rest)
      | none => (.broken, none) := by
  rw [scanValue, skipBlanks_of_starts (hc.imp_left fun h => by simp [h])]
  split <;> first
    | rfl
    | rename_i heq
      obtain ⟨rfl, -⟩ := List.cons.inj heq
      exact absurd hc (by decide)

theorem scanValue_integer {n : Int} (hleast : -2 ^ 63 ≤ n) (hgreatest : n < 2 ^ 64) (fuel : Nat)
    {rest : List Char} (hrest : Ended rest) :
    scanValue (fuel + 1) (integerChars n ++ rest) = (number (some (.integer n)), some rest) := by
  have hscan := Numeral.scan_integerChars n hrest
  obtain ⟨c, cs, hchars, hc⟩ := exists_integerChars n
  rw [hchars, List.cons_append] at hscan ⊢
  rw [scanValue_of_numeral hc, hscan]
  simp only [Numeral.value?_integer hleast hgreatest]

theorem ended_itemsChars (items : List Json) (rest : List Char) :
    Ended (itemsChars items ++ rest) := by
  cases items <;> exact fun c hc => by cases hc; decide

theorem ended_entriesChars (entries : List (String × Json)) (rest : List Char) :
    Ended (entriesChars entries ++ rest) := by
  cases entries <;> exact fun c hc => by cases hc; decide

theorem stringChars_append (text : String) (rest : List Char) :
    stringChars text ++ rest = '"' :: (text.toList.flatMap escapeChar ++ '"' :: rest) := by
  simp [stringChars]

theorem scanValue_array {c : Char} (hc : Starts c) (fuel : Nat) (cs : List Char) :
    scanValue (fuel + 1) ('[' :: c :: cs) = scanItems fuel [] (c :: cs) := by
  rw [scanValue, skipBlanks_of_starts (by decide)]
  simp only [skipBlanks_of_starts hc]
  split
  · rename_i heq
    obtain ⟨rfl, -⟩ := List.cons.inj heq
    exact absurd hc (by decide)
  · rfl

theorem scanValue_object (fuel : Nat) (cs : List Char) :
    scanValue (fuel + 1) ('{' :: '"' :: cs) = scanEntries fuel [] ('"' :: cs) := by
  rw [scanValue, skipBlanks_of_starts (by decide)]
  simp only [skipBlanks_of_starts (show Starts '"' by decide)]
  rfl

/-- An entry is scanned as its name and the value behind the colon. -/
theorem scanEntries_key (fuel : Nat) (done : List (Option String × Outline)) (key : String)
    (text : List Char) :
    scanEntries (fuel + 1) done (stringChars key ++ ':' :: text) =
      match scanValue fuel text with
      | (value, none) => (.object ((some key, value) :: done).reverse false, none)
      | (value, some rest) =>
        match skipBlanks rest with
        | '}' :: rest => (.object ((some key, value) :: done).reverse true, some rest)
        | ',' :: rest => scanEntries fuel ((some key, value) :: done) rest
        | _ => (.object ((some key, value) :: done).reverse false, none) := by
  rw [stringChars_append, scanEntries, skipBlanks_of_starts (by decide)]
  simp only [scanText_escape]
  rfl

mutual

theorem scanValue_chars : ∀ (fuel : Nat) (j : Json) (rest : List Char), j.Integral →
    j.chars.length ≤ fuel → Ended rest → scanValue fuel (j.chars ++ rest) = (ofJson j, some rest)
  | 0, j, rest, hj, hfuel, hrest => absurd (length_chars_pos hj) (by omega)
  | fuel + 1, j, rest, hj, hfuel, hrest => by
    cases hj with
    | null => rfl
    | bool b => cases b <;> rfl
    | number hleast hgreatest => exact scanValue_integer hleast hgreatest fuel hrest
    | string text =>
      rw [chars, stringChars_append, scanValue, skipBlanks_of_starts (by decide)]
      simp only [scanText_escape, ofJson]
    | @array items h =>
      cases items with
      | nil => rfl
      | cons item items =>
        obtain ⟨hitem, hitems⟩ := List.forall_mem_cons.mp h
        have hscan := scanItems_chars fuel [] item items rest hitem hitems
          (Nat.le_of_succ_le_succ hfuel)
        obtain ⟨c, cs, hchars, hc⟩ := exists_chars hitem
        rw [hchars] at hscan
        rw [chars, hchars]
        exact (scanValue_array hc fuel _).trans hscan
    | @object entries h =>
      cases entries with
      | nil => rfl
      | cons e entries =>
        obtain ⟨key, value⟩ := e
        obtain ⟨hvalue, hentries⟩ := List.forall_mem_cons.mp h
        have hscan := scanEntries_chars fuel [] key value entries rest hvalue hentries
          (Nat.le_of_succ_le_succ hfuel)
        exact (scanValue_object fuel _).trans hscan

theorem scanItems_chars : ∀ (fuel : Nat) (done : List Outline) (item : Json) (items : List Json)
    (rest : List Char), item.Integral → (∀ item ∈ items, Integral item) →
    (item.chars ++ itemsChars items).length ≤ fuel →
    scanItems fuel done (item.chars ++ itemsChars items ++ rest) =
      (array (done.reverse ++ ofJson item :: ofJsonItems items) true, some rest)
  | 0, done, item, items, rest, hitem, hitems, hfuel => by
    have hpos := length_chars_pos hitem
    rw [List.length_append] at hfuel
    omega
  | fuel + 1, done, item, items, rest, hitem, hitems, hfuel => by
    rw [List.length_append] at hfuel
    have hpos := length_chars_pos hitem
    cases items with
    | nil =>
      have hvalue := scanValue_chars fuel item (']' :: rest) hitem
        (by simp only [itemsChars, List.length_singleton] at hfuel; omega)
        (ended_itemsChars [] rest)
      rw [itemsChars, List.append_assoc, List.singleton_append, scanItems, hvalue]
      simp [skipBlanks, ofJsonItems]
    | cons next items =>
      simp only [itemsChars, List.length_append, List.cons_append, List.length_cons] at hfuel
      obtain ⟨hnext, hitems⟩ := List.forall_mem_cons.mp hitems
      have hvalue := scanValue_chars fuel item (itemsChars (next :: items) ++ rest) hitem
        (by omega) (ended_itemsChars _ rest)
      have hscan := scanItems_chars fuel (ofJson item :: done) next items rest hnext hitems
        (by rw [List.length_append]; omega)
      rw [List.append_assoc, scanItems, hvalue]
      simpa [skipBlanks, ofJsonItems, itemsChars] using hscan

theorem scanEntries_chars : ∀ (fuel : Nat) (done : List (Option String × Outline)) (key : String)
    (value : Json) (entries : List (String × Json)) (rest : List Char), value.Integral →
    (∀ e ∈ entries, Integral e.2) →
    (stringChars key ++ ':' :: value.chars ++ entriesChars entries).length ≤ fuel →
    scanEntries fuel done (stringChars key ++ ':' :: value.chars ++ entriesChars entries ++ rest) =
      (object (done.reverse ++ (some key, ofJson value) :: ofJsonEntries entries) true, some rest)
  | 0, done, key, value, entries, rest, hvalue, hentries, hfuel => by
    simp at hfuel
  | fuel + 1, done, key, value, entries, rest, hvalue, hentries, hfuel => by
    simp only [List.length_append, List.length_cons] at hfuel
    rw [List.append_assoc, List.append_assoc, List.cons_append, scanEntries_key]
    cases entries with
    | nil =>
      have hscan := scanValue_chars fuel value ('}' :: rest) hvalue (by omega)
        (ended_entriesChars [] rest)
      rw [entriesChars, List.singleton_append, hscan]
      simp [skipBlanks, ofJsonEntries]
    | cons e entries =>
      obtain ⟨next, content⟩ := e
      obtain ⟨hcontent, hentries⟩ := List.forall_mem_cons.mp hentries
      have hscan := scanValue_chars fuel value (entriesChars ((next, content) :: entries) ++ rest)
        hvalue (by omega) (ended_entriesChars _ rest)
      simp only [entriesChars, List.length_append, List.cons_append, List.length_cons] at hfuel
      have hrest := scanEntries_chars fuel ((some key, ofJson value) :: done) next content entries
        rest hcontent hentries (by simp only [List.length_append, List.length_cons]; omega)
      rw [hscan]
      simpa [skipBlanks, ofJsonEntries, entriesChars] using hrest

end

/-- A document whose numbers are integers is scanned from its text as its outline. -/
theorem ofText_render {j : Json} (hj : j.Integral) : ofText (render j) = (ofJson j, true) := by
  have hended : Ended [] := fun c hc => by cases hc
  have hscan := scanValue_chars (2 * j.chars.length + 2) j [] hj (by omega) hended
  rw [List.append_nil] at hscan
  simp [ofText, render, hscan, skipBlanks]

end Outline

end Cdr.Json
