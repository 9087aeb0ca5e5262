import Cdr.Text.Utf8

/-! The bytes of a text are read back as the text, and no other bytes are. -/

namespace Cdr.Text.Utf8

/-- A first byte of three leaves room for the second byte that follows it in a character. -/
theorem lead?_three {byte second : Nat} (index : Nat) (hb : 0xE0 ≤ byte ∧ byte ≤ 0xEF)
    (hs : 0x80 ≤ second ∧ second ≤ 0xBF) (hlong : byte = 0xE0 → 0xA0 ≤ second)
    (hsurrogate : byte = 0xED → second ≤ 0x9F) :
    ∃ low high, lead? index byte = some ⟨index, 1, 2, low, high, byte - 0xE0⟩ ∧
      low ≤ second ∧ second ≤ high := by
  unfold lead?
  rw [if_neg (by omega)]
  by_cases h0 : byte = 0xE0
  · subst h0
    exact ⟨0xA0, 0xBF, rfl, hlong rfl, hs.2⟩
  by_cases hD : byte = 0xED
  · subst hD
    exact ⟨0x80, 0x9F, rfl, hs.1, hsurrogate rfl⟩
  · rw [if_neg h0, if_neg hD, if_pos (by omega)]
    exact ⟨0x80, 0xBF, rfl, hs⟩

/-- A first byte of four leaves room for the second byte that follows it in a character. -/
theorem lead?_four {byte second : Nat} (index : Nat) (hb : 0xF0 ≤ byte ∧ byte ≤ 0xF4)
    (hs : 0x80 ≤ second ∧ second ≤ 0xBF) (hlong : byte = 0xF0 → 0x90 ≤ second)
    (hlast : byte = 0xF4 → second ≤ 0x8F) :
    ∃ low high, lead? index byte = some ⟨index, 1, 3, low, high, byte - 0xF0⟩ ∧
      low ≤ second ∧ second ≤ high := by
  unfold lead?
  rw [if_neg (by omega), if_neg (by omega), if_neg (by omega), if_neg (by omega)]
  by_cases h0 : byte = 0xF0
  · subst h0
    exact ⟨0x90, 0xBF, rfl, hlong rfl, hs.2⟩
  by_cases h4 : byte = 0xF4
  · subst h4
    exact ⟨0x80, 0x8F, rfl, hs.1, hlast rfl⟩
  · rw [if_neg h0, if_pos (by omega)]
    exact ⟨0x80, 0xBF, rfl, hs⟩

section Steps

variable (done : List Char) (index : Nat) (bytes : List UInt8)

theorem decodeFrom_lead {n : Nat} {p : Pending} (hn : 0x80 ≤ n ∧ n < 256)
    (hp : lead? index n = some p) :
    decodeFrom done index none (UInt8.ofNat n :: bytes) =
      decodeFrom done (index + 1) (some p) bytes := by
  have hto : (UInt8.ofNat n).toNat = n := UInt8.toNat_ofNat_of_lt' hn.2
  rw [decodeFrom, hto, if_neg (by omega), hp]

theorem decodeFrom_middle {n start seen left low high code : Nat} (hn : low ≤ n ∧ n ≤ high)
    (hlt : n < 256) (hleft : 1 < left) :
    decodeFrom done index (some ⟨start, seen, left, low, high, code⟩) (UInt8.ofNat n :: bytes) =
      decodeFrom done (index + 1)
        (some ⟨start, seen + 1, left - 1, 0x80, 0xBF, 64 * code + n % 64⟩) bytes := by
  have hto : (UInt8.ofNat n).toNat = n := UInt8.toNat_ofNat_of_lt' hlt
  rw [decodeFrom, hto, if_pos hn]
  simp only [show ¬left ≤ 1 by omega, if_false]

theorem decodeFrom_last {n start seen low high code : Nat} (hn : low ≤ n ∧ n ≤ high)
    (hlt : n < 256) :
    decodeFrom done index (some ⟨start, seen, 1, low, high, code⟩) (UInt8.ofNat n :: bytes) =
      decodeFrom (Char.ofNat (64 * code + n % 64) :: done) (index + 1) none bytes := by
  have hto : (UInt8.ofNat n).toNat = n := UInt8.toNat_ofNat_of_lt' hlt
  rw [decodeFrom, hto, if_pos hn]
  simp

end Steps

/-- The bytes of a character are read as the character. -/
theorem decodeFrom_encodeChar (c : Char) (done : List Char) (index : Nat) (bytes : List UInt8) :
    ∃ next, decodeFrom done index none (String.utf8EncodeChar c ++ bytes) =
      decodeFrom (c :: done) next none bytes := by
  have hvalid : c.toNat < 0xD800 ∨ 0xDFFF < c.toNat ∧ c.toNat < 0x110000 := c.valid
  have hc : Char.ofNat c.toNat = c := Char.ofNat_toNat c
  have hval : c.val.toNat = c.toNat := rfl
  generalize hv : c.toNat = v at *
  unfold String.utf8EncodeChar
  simp only [hval]
  split
  · refine ⟨index + 1, ?_⟩
    have hto : (UInt8.ofNat v).toNat = v := UInt8.toNat_ofNat_of_lt' (by simp [UInt8.size]; omega)
    rw [List.cons_append, List.nil_append, decodeFrom, hto, if_pos (by omega), hc]
  split
  · have hlead : lead? index (v / 64 % 32 + 192) =
        some ⟨index, 1, 1, 0x80, 0xBF, v / 64 % 32 + 192 - 0xC0⟩ := if_pos (by omega)
    simp only [List.cons_append, List.nil_append]
    rw [decodeFrom_lead _ _ _ (by omega) hlead, decodeFrom_last _ _ _ (by omega) (by omega),
      show 64 * (v / 64 % 32 + 192 - 0xC0) + (v % 64 + 128) % 64 = v by omega, hc]
    exact ⟨_, rfl⟩
  split
  · obtain ⟨low, high, hlead, hsecond⟩ :=
      @lead?_three (v / 4096 % 16 + 224) (v / 64 % 64 + 128) index (by omega)
        (by omega) (by omega) (by omega)
    simp only [List.cons_append, List.nil_append]
    rw [decodeFrom_lead _ _ _ (by omega) hlead,
      decodeFrom_middle _ _ _ hsecond (by omega) (by omega),
      decodeFrom_last _ _ _ (by omega) (by omega),
      show 64 * (64 * (v / 4096 % 16 + 224 - 0xE0) + (v / 64 % 64 + 128) % 64) +
        (v % 64 + 128) % 64 = v by omega, hc]
    exact ⟨_, rfl⟩
  · obtain ⟨low, high, hlead, hsecond⟩ :=
      @lead?_four (v / 262144 % 8 + 240) (v / 4096 % 64 + 128) index (by omega)
        (by omega) (by omega) (by omega)
    simp only [List.cons_append, List.nil_append]
    rw [decodeFrom_lead _ _ _ (by omega) hlead,
      decodeFrom_middle _ _ _ hsecond (by omega) (by omega),
      decodeFrom_middle _ _ _ (by omega) (by omega) (by omega),
      decodeFrom_last _ _ _ (by omega) (by omega),
      show 64 * (64 * (64 * (v / 262144 % 8 + 240 - 0xF0) + (v / 4096 % 64 + 128) % 64) +
        (v / 64 % 64 + 128) % 64) + (v % 64 + 128) % 64 = v by omega, hc]
    exact ⟨_, rfl⟩

theorem decodeFrom_flatMap_encodeChar (text done : List Char) (index : Nat) :
    decodeFrom done index none (text.flatMap String.utf8EncodeChar) =
      .ok (done.reverse ++ text) := by
  induction text generalizing done index with
  | nil => simp [decodeFrom]
  | cons c text ih =>
    obtain ⟨next, hnext⟩ :=
      decodeFrom_encodeChar c done index (text.flatMap String.utf8EncodeChar)
    rw [List.flatMap_cons, hnext, ih]
    simp

theorem decode_encode (text : String) : decode (encode text) = .ok text := by
  rw [decode, encode, decodeFrom_flatMap_encodeChar]
  simp [Except.map]

/-- What a first byte says of the bytes that follow it. -/
theorem lead?_eq_some {index byte : Nat} {p : Pending} (h : lead? index byte = some p) :
    (0xC2 ≤ byte ∧ byte ≤ 0xDF ∧ p = ⟨index, 1, 1, 0x80, 0xBF, byte - 0xC0⟩) ∨
    (0xE0 ≤ byte ∧ byte ≤ 0xEF ∧ ∃ low high, p = ⟨index, 1, 2, low, high, byte - 0xE0⟩ ∧
      0x80 ≤ low ∧ high ≤ 0xBF ∧ (byte = 0xE0 → 0xA0 ≤ low) ∧ (byte = 0xED → high ≤ 0x9F)) ∨
    (0xF0 ≤ byte ∧ byte ≤ 0xF4 ∧ ∃ low high, p = ⟨index, 1, 3, low, high, byte - 0xF0⟩ ∧
      0x80 ≤ low ∧ high ≤ 0xBF ∧ (byte = 0xF0 → 0x90 ≤ low) ∧ (byte = 0xF4 → high ≤ 0x8F)) := by
  unfold lead? at h
  split at h
  · rename_i hb
    cases h
    exact .inl ⟨hb.1, hb.2, rfl⟩
  split at h
  · rename_i hb
    subst hb
    cases h
    exact .inr (.inl ⟨by omega, by omega, _, _, rfl, by omega⟩)
  split at h
  · rename_i hb
    subst hb
    cases h
    exact .inr (.inl ⟨by omega, by omega, _, _, rfl, by omega⟩)
  split at h
  · cases h
    exact .inr (.inl ⟨by omega, by omega, _, _, rfl, by omega⟩)
  split at h
  · rename_i hb
    subst hb
    cases h
    exact .inr (.inr ⟨by omega, by omega, _, _, rfl, by omega⟩)
  split at h
  · cases h
    exact .inr (.inr ⟨by omega, by omega, _, _, rfl, by omega⟩)
  split at h
  · rename_i hb
    subst hb
    cases h
    exact .inr (.inr ⟨by omega, by omega, _, _, rfl, by omega⟩)
  · cases h

/-- In the middle of a character the next byte is within its bounds, and the reader goes on. -/
theorem decodeFrom_pending {done text : List Char} {index start seen left low high code : Nat}
    {bytes : List UInt8}
    (h : decodeFrom done index (some ⟨start, seen, left, low, high, code⟩) bytes = .ok text) :
    ∃ b rest, bytes = b :: rest ∧ low ≤ b.toNat ∧ b.toNat ≤ high ∧
      (if left ≤ 1 then
        decodeFrom (Char.ofNat (64 * code + b.toNat % 64) :: done) (index + 1) none rest = .ok text
      else
        decodeFrom done (index + 1)
          (some ⟨start, seen + 1, left - 1, 0x80, 0xBF, 64 * code + b.toNat % 64⟩) rest =
            .ok text) := by
  cases bytes with
  | nil => cases h
  | cons b rest =>
    rw [decodeFrom] at h
    split at h
    · rename_i hb
      refine ⟨b, rest, rfl, hb.1, hb.2, ?_⟩
      simp only at h
      split at h
      · rename_i hleft
        rwa [if_pos hleft]
      · rename_i hleft
        rwa [if_neg hleft]
    · cases h

theorem toNat_ofNat_of_valid {v : Nat} (h : v.isValidChar) : (Char.ofNat v).val.toNat = v := by
  unfold Char.ofNat
  rw [dif_pos h]
  rfl

theorem ofNat_eq_of_toNat {n : Nat} {b : UInt8} (h : n = b.toNat) : UInt8.ofNat n = b := by
  rw [h, UInt8.ofNat_toNat]

/-- The bytes that are read as a character are those of the character. -/
theorem exists_encodeChar {done text : List Char} {index : Nat} {b : UInt8} {bytes : List UInt8}
    (h : decodeFrom done index none (b :: bytes) = .ok text) :
    ∃ c next rest, b :: bytes = String.utf8EncodeChar c ++ rest ∧
      decodeFrom (c :: done) next none rest = .ok text := by
  rw [decodeFrom] at h
  split at h
  · rename_i hb
    refine ⟨_, _, bytes, ?_, h⟩
    have hvalid : b.toNat.isValidChar := Or.inl (by omega)
    unfold String.utf8EncodeChar
    simp only [toNat_ofNat_of_valid hvalid]
    rw [if_pos (by omega), ofNat_eq_of_toNat rfl]
    rfl
  split at h
  · rename_i p hp
    rcases lead?_eq_some hp with ⟨hlow, hhigh, rfl⟩ | ⟨hlow, hhigh, low, high, rfl, hbounds⟩ |
      ⟨hlow, hhigh, low, high, rfl, hbounds⟩
    · obtain ⟨b₂, rest, rfl, hlow₂, hhigh₂, h⟩ := decodeFrom_pending h
      rw [if_pos (by omega)] at h
      refine ⟨_, _, rest, ?_, h⟩
      generalize hv : 64 * (b.toNat - 0xC0) + b₂.toNat % 64 = v
      have hvalid : v.isValidChar := Or.inl (by omega)
      unfold String.utf8EncodeChar
      simp only [toNat_ofNat_of_valid hvalid]
      rw [if_neg (by omega), if_pos (by omega),
        ofNat_eq_of_toNat (by omega : v / 64 % 32 + 192 = b.toNat),
        ofNat_eq_of_toNat (by omega : v % 64 + 128 = b₂.toNat)]
      rfl
    · obtain ⟨b₂, rest, rfl, hlow₂, hhigh₂, h⟩ := decodeFrom_pending h
      rw [if_neg (by omega)] at h
      obtain ⟨b₃, rest, rfl, hlow₃, hhigh₃, h⟩ := decodeFrom_pending h
      rw [if_pos (by omega)] at h
      refine ⟨_, _, rest, ?_, h⟩
      generalize hv :
        64 * (64 * (b.toNat - 0xE0) + b₂.toNat % 64) + b₃.toNat % 64 = v
      have hvalid : v.isValidChar := by
        show v < 0xD800 ∨ 0xDFFF < v ∧ v < 0x110000
        omega
      unfold String.utf8EncodeChar
      simp only [toNat_ofNat_of_valid hvalid]
      rw [if_neg (by omega), if_neg (by omega), if_pos (by omega),
        ofNat_eq_of_toNat (by omega : v / 4096 % 16 + 224 = b.toNat),
        ofNat_eq_of_toNat (by omega : v / 64 % 64 + 128 = b₂.toNat),
        ofNat_eq_of_toNat (by omega : v % 64 + 128 = b₃.toNat)]
      rfl
    · obtain ⟨b₂, rest, rfl, hlow₂, hhigh₂, h⟩ := decodeFrom_pending h
      rw [if_neg (by omega)] at h
      obtain ⟨b₃, rest, rfl, hlow₃, hhigh₃, h⟩ := decodeFrom_pending h
      rw [if_neg (by omega)] at h
      obtain ⟨b₄, rest, rfl, hlow₄, hhigh₄, h⟩ := decodeFrom_pending h
      rw [if_pos (by omega)] at h
      refine ⟨_, _, rest, ?_, h⟩
      generalize hv :
        64 * (64 * (64 * (b.toNat - 0xF0) + b₂.toNat % 64) + b₃.toNat % 64) + b₄.toNat % 64 = v
      have hvalid : v.isValidChar := Or.inr (by omega)
      unfold String.utf8EncodeChar
      simp only [toNat_ofNat_of_valid hvalid]
      rw [if_neg (by omega), if_neg (by omega), if_neg (by omega),
        ofNat_eq_of_toNat (by omega : v / 262144 % 8 + 240 = b.toNat),
        ofNat_eq_of_toNat (by omega : v / 4096 % 64 + 128 = b₂.toNat),
        ofNat_eq_of_toNat (by omega : v / 64 % 64 + 128 = b₃.toNat),
        ofNat_eq_of_toNat (by omega : v % 64 + 128 = b₄.toNat)]
      rfl
  · cases h

theorem flatMap_encodeChar_of_decodeFrom {done text : List Char} {index : Nat}
    {bytes : List UInt8} (h : decodeFrom done index none bytes = .ok text) :
    ∃ chars, text = done.reverse ++ chars ∧ chars.flatMap String.utf8EncodeChar = bytes := by
  -- A character has one byte at least, so what is left after it is shorter.
  induction hlen : bytes.length using Nat.strongRecOn generalizing done index bytes with
  | ind n ih =>
    cases bytes with
    | nil =>
      cases h
      exact ⟨[], by simp, rfl⟩
    | cons b bytes =>
      obtain ⟨c, next, rest, hbytes, hrest⟩ := exists_encodeChar h
      have hlength := congrArg List.length hbytes
      rw [List.length_append, String.length_utf8EncodeChar] at hlength
      have hpos := c.utf8Size_pos
      obtain ⟨chars, rfl, hchars⟩ := ih rest.length (by omega) hrest rfl
      exact ⟨c :: chars, by simp, by rw [List.flatMap_cons, hchars, hbytes]⟩

/-- Bytes that are read as a text are those of the text. -/
theorem encode_of_decode {bytes : List UInt8} {text : String} (h : decode bytes = .ok text) :
    encode text = bytes := by
  unfold decode at h
  cases hchars : decodeFrom [] 0 none bytes with
  | error flaw => rw [hchars] at h; cases h
  | ok chars =>
    rw [hchars] at h
    cases h
    obtain ⟨chars', rfl, hflat⟩ := flatMap_encodeChar_of_decodeFrom hchars
    rw [encode, String.toList_ofList]
    exact hflat

end Cdr.Text.Utf8
