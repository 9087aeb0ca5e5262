import Cdr.Declaration.OfJson
import Mathlib.Data.List.Infix

/-! Which flaws are taken for unknown variants.  The kind of a fault is found by searching the text
of the flaw for a phrase.  A text that is quoted in it holds the phrase if and only if the text
itself does: what is escaped starts with a backslash, and no occurrence of the phrase starts in an
escape. -/

namespace Cdr.Declaration

/-- The words that are searched for. -/
def phrase : List Char :=
  ['u', 'n', 'k', 'n', 'o', 'w', 'n', ' ', 'v', 'a', 'r', 'i', 'a', 'n', 't']

theorem mentionsPhrase_iff {words text : List Char} :
    mentionsPhrase words text = true ↔ words <:+: text := by
  induction text with
  | nil => simp [mentionsPhrase]
  | cons c text ih =>
    rw [mentionsPhrase, Bool.or_eq_true, ih, List.isPrefixOf_iff_prefix, List.infix_cons_iff]

/-- No occurrence of the phrase starts at a character other than its first one. -/
theorem phrase_infix_of_cons {c : Char} (hc : c ≠ 'u') {text : List Char}
    (h : phrase <:+: c :: text) : phrase <:+: text := by
  rcases List.infix_cons_iff.mp h with hprefix | hrest
  · exact absurd (List.cons_prefix_cons.mp hprefix).1.symm hc
  · exact hrest

theorem phrase_infix_of_append {front : List Char} (hfront : 'u' ∉ front) {text : List Char}
    (h : phrase <:+: front ++ text) : phrase <:+: text := by
  induction front with
  | nil => exact h
  | cons c front ih =>
    obtain ⟨hc, hfront⟩ := List.ne_and_not_mem_of_not_mem_cons hfront
    exact ih hfront (phrase_infix_of_cons hc.symm h)

end Cdr.Declaration

namespace Cdr.Text

theorem unseenRanges_apart : ∀ r ∈ unseenRanges.toList, r.2 < 32 ∨ 127 ≤ r.1 := by decide +kernel

/-- The printable characters of seven bits are seen. -/
theorem isUnseen_of_printable {c : Char} (hleast : 32 ≤ c.toNat) (hgreatest : c.toNat < 127) :
    isUnseen c = false := by
  rw [isUnseen, ← Array.any_toList, List.any_eq_false]
  intro r hr
  have hapart := unseenRanges_apart r hr
  simp only [Bool.and_eq_true, decide_eq_true_eq]
  omega

end Cdr.Text

namespace Cdr.Text.Quoted

open Declaration (phrase phrase_infix_of_cons phrase_infix_of_append)

theorem not_mem_toDigits (n : Nat) : 'u' ∉ Nat.toDigits 16 n := by
  induction n using Nat.strongRecOn with
  | ind n ih =>
    have hdigit : ∀ d < 16, 'u' ≠ Nat.digitChar d := by decide
    by_cases hsmall : n < 16
    · rw [Nat.toDigits_of_lt_base hsmall, List.mem_singleton]
      exact hdigit n hsmall
    · rw [Nat.toDigits_of_base_le (by decide) (by omega), List.mem_append, List.mem_singleton,
        not_or]
      exact ⟨ih (n / 16) (by omega), hdigit (n % 16) (by omega)⟩

/-- A character stands for itself, or it is escaped and no occurrence of the phrase starts in its
escape. -/
theorem escape_cases (c : Char) :
    (escape '"' c = [c] ∧ c ≠ '"' ∧ c ≠ '\\') ∨
      ∃ rest, escape '"' c = '\\' :: rest ∧
        ∀ text, phrase <:+: rest ++ text → phrase <:+: text := by
  unfold escape
  split
  · rename_i hc
    refine Or.inr ⟨[c], rfl, fun text => phrase_infix_of_append ?_⟩
    rcases hc with rfl | rfl <;> decide
  rename_i hquoted
  split
  · exact Or.inr ⟨['0'], rfl, fun text => phrase_infix_of_append (by decide)⟩
  split
  · exact Or.inr ⟨['t'], rfl, fun text => phrase_infix_of_append (by decide)⟩
  split
  · exact Or.inr ⟨['r'], rfl, fun text => phrase_infix_of_append (by decide)⟩
  split
  · exact Or.inr ⟨['n'], rfl, fun text => phrase_infix_of_append (by decide)⟩
  split
  · refine Or.inr ⟨'u' :: '{' :: (code c ++ ['}']), rfl, fun text h => ?_⟩
    have hcode : 'u' ∉ '{' :: (code c ++ ['}']) := by
      simp [code, not_mem_toDigits]
    rcases List.infix_cons_iff.mp h with hprefix | hrest
    · have hsecond := (List.cons_prefix_cons.mp hprefix).2
      exact absurd (List.cons_prefix_cons.mp hsecond).1 (by decide)
    · exact phrase_infix_of_append hcode hrest
  · exact Or.inl ⟨rfl, not_or.mp hquoted⟩

theorem escape_of_printable {c : Char} (hleast : 32 ≤ c.toNat) (hgreatest : c.toNat < 127)
    (hquote : c ≠ '"') (hslash : c ≠ '\\') : escape '"' c = [c] := by
  have hcontrol : ∀ control : Char, control.toNat < 32 → c ≠ control := by
    rintro _ hcontrol rfl
    omega
  have hzero : c.toNat ≠ 0 := by omega
  rw [escape, if_neg (not_or.mpr ⟨hquote, hslash⟩), if_neg hzero,
    if_neg (hcontrol '\t' (by decide)), if_neg (hcontrol '\r' (by decide)),
    if_neg (hcontrol '\n' (by decide)), isUnseen_of_printable hleast hgreatest]
  rfl

theorem plain_of_mem_phrase : ∀ c ∈ phrase, c ≠ '"' ∧ c ≠ '\\' := by simp [phrase]

theorem flatMap_escape_phrase : phrase.flatMap (escape '"') = phrase := by
  have hprintable : ∀ c ∈ phrase, 32 ≤ c.toNat ∧ c.toNat < 127 := by simp [phrase]
  have hplain : ∀ c ∈ phrase, escape '"' c = [c] := fun c hc =>
    have ⟨hleast, hgreatest⟩ := hprintable c hc
    have ⟨hquote, hslash⟩ := plain_of_mem_phrase c hc
    escape_of_printable hleast hgreatest hquote hslash
  rw [List.flatMap_def, List.map_congr_left hplain]
  rfl

theorem prefix_of_escape {words : List Char} (hwords : ∀ c ∈ words, c ≠ '"' ∧ c ≠ '\\')
    {text : List Char} (h : words <+: text.flatMap (escape '"') ++ ['"']) : words <+: text := by
  induction words generalizing text with
  | nil => exact List.nil_prefix
  | cons w words ih =>
    obtain ⟨⟨hquote, hslash⟩, hwords⟩ := List.forall_mem_cons.mp hwords
    cases text with
    | nil => exact absurd (List.cons_prefix_cons.mp h).1 hquote
    | cons c text =>
      rw [List.flatMap_cons, List.append_assoc] at h
      rcases escape_cases c with ⟨hplain, -, -⟩ | ⟨rest, hescape, -⟩
      · rw [hplain, List.singleton_append, List.cons_prefix_cons] at h
        exact List.cons_prefix_cons.mpr ⟨h.1, ih hwords h.2⟩
      · rw [hescape, List.cons_append, List.cons_prefix_cons] at h
        exact absurd h.1 hslash

theorem phrase_infix_of_escape {text : List Char}
    (h : phrase <:+: text.flatMap (escape '"') ++ ['"']) : phrase <:+: text := by
  induction text with
  | nil => exact absurd h (by decide)
  | cons c text ih =>
    rw [List.flatMap_cons, List.append_assoc] at h
    rcases escape_cases c with ⟨hplain, -, -⟩ | ⟨rest, hescape, hquiet⟩
    · rw [hplain, List.singleton_append] at h
      rcases List.infix_cons_iff.mp h with hprefix | hrest
      · have hplain' : (c :: text).flatMap (escape '"') ++ ['"'] =
            c :: (text.flatMap (escape '"') ++ ['"']) := by
          rw [List.flatMap_cons, hplain, List.append_assoc, List.singleton_append]
        exact (prefix_of_escape plain_of_mem_phrase (hplain' ▸ hprefix)).isInfix
      · exact (ih hrest).trans (List.suffix_cons c text).isInfix
    · rw [hescape, List.cons_append] at h
      exact (ih (hquiet _ (phrase_infix_of_cons (by decide) h))).trans
        (List.suffix_cons c text).isInfix

/-- A quoted text holds the phrase if and only if the text does. -/
theorem phrase_infix_ofText {text : String} :
    phrase <:+: (ofText text).toList ↔ phrase <:+: text.toList := by
  rw [ofText, String.toList_ofList]
  constructor
  · intro h
    exact phrase_infix_of_escape (phrase_infix_of_cons (by decide) h)
  · rintro ⟨before, after, htext⟩
    have hquoted : text.toList.flatMap (escape '"') =
        before.flatMap (escape '"') ++ phrase ++ after.flatMap (escape '"') := by
      rw [← htext, List.flatMap_append, List.flatMap_append, flatMap_escape_phrase]
    rw [hquoted]
    exact ⟨'"' :: before.flatMap (escape '"'), after.flatMap (escape '"') ++ ['"'], by
      simp only [List.cons_append, List.append_assoc]⟩

end Cdr.Text.Quoted

namespace Cdr.Declaration

/-- The text of the flaw speaks of an unknown variant: it names one, or it quotes the words. -/
def Suspect : Json.Flaw → Prop
  | .unknownVariant _ => True
  | .wrongString text => phrase <:+: text.toList
  | .malformed => False

instance : DecidablePred Suspect := fun flaw => by
  cases flaw <;> unfold Suspect <;> infer_instance

theorem toList_unknownVariant (name : String) :
    (Json.Flaw.unknownVariant name).message.toList =
      phrase ++ ([' ', '\''] ++ name.toList ++ ['\'']) := by
  have hfront : "unknown variant '".toList = phrase ++ [' ', '\''] := by decide
  have hback : "'".toList = ['\''] := by decide
  show ("unknown variant '" ++ name ++ "'").toList = _
  rw [String.toList_append, String.toList_append, hfront, hback]
  simp only [List.append_assoc]

theorem mentionsPhrase_message (flaw : Json.Flaw) :
    mentionsPhrase phrase flaw.message.toList = true ↔ Suspect flaw := by
  rw [mentionsPhrase_iff]
  cases flaw with
  | unknownVariant name =>
    rw [toList_unknownVariant]
    exact iff_of_true (List.prefix_append _ _).isInfix trivial
  | wrongString text =>
    have hfront : 'u' ∉ "invalid type: string ".toList := by decide
    show phrase <:+: ("invalid type: string " ++ Text.Quoted.ofText text).toList ↔ _
    rw [String.toList_append]
    exact ⟨fun h => Text.Quoted.phrase_infix_ofText.mp (phrase_infix_of_append hfront h),
      fun h => (Text.Quoted.phrase_infix_ofText.mpr h).trans (List.suffix_append _ _).isInfix⟩
  | malformed => exact iff_of_false (by decide) not_false

/-- A suspect flaw is a fault of the shape, and any other is one of the schema. -/
theorem faultOf_eq (flaw : Json.Flaw) :
    faultOf flaw =
      if Suspect flaw then (Cause.unencodable "<json>" flaw.message).fault
      else (Cause.invalidSchema "<json>" flaw.message).fault := by
  unfold faultOf
  simp only [← mentionsPhrase_message]
  rfl

end Cdr.Declaration
