import Fireweed.QueueSourceIndex.Keys
import Fireweed.Utf8

/-!
# Literals of source keys

Literals are read back without copying: the escaped bytes stay as they are, and
text is checked between the escaped zeros.
-/

namespace QueueSourceIndex

open Checked List Postcard QueueContract QueueIndex Std Utf8

def keyUnknown (reason : String) : QueueError := .outcomeUnknown ("source key: " ++ reason)

structure Literal where
  encoded : List UInt8
  decodedLen : Nat
deriving DecidableEq

namespace Literal

/-- The loop of `parse`, with the bytes and the length it has passed. -/
def parseFrom (encoded : List UInt8) (decodedLen : Nat) :
    List UInt8 → QueueResult (Literal × List UInt8)
  | [] => .error (keyUnknown "unterminated literal")
  | byte :: rest =>
    if byte ≠ 0 then parseFrom (encoded ++ [byte]) (decodedLen + 1) rest
    else
      match rest with
      | [] => .error (keyUnknown "invalid literal escape or terminator")
      | next :: rest =>
        if next = 255 then parseFrom (encoded ++ [0, 255]) (decodedLen + 1) rest
        else if next = 0 then .ok (⟨encoded, decodedLen⟩, rest)
        else .error (keyUnknown "invalid literal escape or terminator")

/-- Read one escaped literal and leave what follows it. -/
def parse (input : List UInt8) : QueueResult (Literal × List UInt8) := parseFrom [] 0 input

/-- A zero is followed by the byte that escapes it. -/
def unescaped : List UInt8 → List UInt8
  | [] => []
  | byte :: rest =>
    if byte = 0 then
      match rest with
      | [] => [byte]
      | _ :: rest => byte :: unescaped rest
    else byte :: unescaped rest

def bytes (self : Literal) : List UInt8 := unescaped self.encoded

def matches_ (self : Literal) (expected : List UInt8) : Bool := self.bytes == expected

def checkUtf8 (bytes : List UInt8) : QueueResult Unit :=
  rejectIf (fromUtf8 bytes).isNone (keyUnknown "invalid literal UTF-8")

/-- Check the segments between escaped zeros; `segment` is the part already passed. -/
def validateSegments (segment : List UInt8) : List UInt8 → QueueResult Unit
  | [] => checkUtf8 segment
  | byte :: rest =>
    if byte ≠ 0 then validateSegments (segment ++ [byte]) rest
    else do
      checkUtf8 segment
      match rest with
      -- a parsed literal does not end in the middle of an escape
      | [] => .ok ()
      | _ :: rest => validateSegments [] rest

def validateText (self : Literal) : QueueResult Unit := validateSegments [] self.encoded

def validateIdentifier (self : Literal) : QueueResult Unit := do
  self.validateText
  if self.encoded.contains 0 then .ok ()
  else
    match fromUtf8 self.encoded with
    | none => .error (keyUnknown "invalid literal UTF-8")
    | some text => rejectIf (blank text) (keyUnknown "blank record identifier")

def copyText (self : Literal) : QueueResult String := do
  self.validateText
  match fromUtf8 self.bytes with
  | none => .error (keyUnknown "invalid literal UTF-8")
  | some text => .ok text

end Literal

def textLiteral (input : List UInt8) : QueueResult String := do
  let (literal, rest) ← Literal.parse input
  rejectIf (!rest.isEmpty) (keyUnknown "trailing literal components")
  literal.copyText

/-! ## What is read -/

theorem escapedPrefix_cons_zero (word : List UInt8) :
    escapedPrefix (0 :: word) = 0 :: 255 :: escapedPrefix word := by
  simp [escapedPrefix]

variable {x : UInt8} {s : String} {input : List UInt8}

theorem escapedPrefix_cons (nonzero : x ≠ 0) (word : List UInt8) :
    escapedPrefix (x :: word) = x :: escapedPrefix word := by
  simp [escapedPrefix, nonzero]

theorem escapedPrefix_append (u v : List UInt8) :
    escapedPrefix (u ++ v) = escapedPrefix u ++ escapedPrefix v := by
  simp [escapedPrefix]

namespace Literal

theorem parseFrom_cons (seen : List UInt8) (n : Nat) (nonzero : x ≠ 0) (rest : List UInt8) :
    parseFrom seen n (x :: rest) = parseFrom (seen ++ [x]) (n + 1) rest := by
  rw [parseFrom.eq_def]
  simp [nonzero]

theorem unescaped_cons (nonzero : x ≠ 0) (rest : List UInt8) :
    unescaped (x :: rest) = x :: unescaped rest := by
  rw [unescaped.eq_def]
  simp [nonzero]

theorem validateSegments_cons (segment : List UInt8) (nonzero : x ≠ 0) (rest : List UInt8) :
    validateSegments segment (x :: rest) = validateSegments (segment ++ [x]) rest := by
  rw [validateSegments.eq_def]
  simp [nonzero]

def of (word : List UInt8) : Literal := ⟨escapedPrefix word, word.length⟩

theorem parseFrom_escaped (seen word rest : List UInt8) :
    parseFrom (escapedPrefix seen) seen.length (escaped word ++ rest) =
      .ok (of (seen ++ word), rest) := by
  induction word generalizing seen with
  | nil => simp [escaped, escapedPrefix, parseFrom, of]
  | cons x word ih =>
    have next := ih (seen ++ [x])
    rw [length_append, length_singleton, escapedPrefix_append] at next
    by_cases zero : x = 0
    · subst zero
      rw [escaped_cons_zero]
      simpa [parseFrom, escapedPrefix_cons_zero, escapedPrefix] using next
    · rw [escaped_cons zero, cons_append, parseFrom_cons _ _ zero]
      simpa [escapedPrefix, zero] using next

theorem of_parseFrom {rest seen : List UInt8} {n : Nat} {literal : Literal}
    (parsed : parseFrom seen n input = .ok (literal, rest)) :
    ∃ word, input = escaped word ++ rest := by
  fun_induction parseFrom seen n input with
  | case1 => cases parsed
  | case2 seen n byte rest' nonzero ih =>
    obtain ⟨word, rfl⟩ := ih parsed
    exact ⟨byte :: word, by rw [escaped_cons nonzero, cons_append]⟩
  | case3 => cases parsed
  | case4 seen n byte zero rest' ih =>
    obtain ⟨word, rfl⟩ := ih parsed
    obtain rfl : byte = 0 := not_not.mp zero
    exact ⟨0 :: word, by rw [escaped_cons_zero]; rfl⟩
  | case5 seen n byte zero rest' =>
    cases parsed
    obtain rfl : byte = 0 := not_not.mp zero
    exact ⟨[], rfl⟩
  | case6 => cases parsed

/-- Parsing reads back exactly the escaped literals. -/
theorem parse_eq_ok {rest : List UInt8} {literal : Literal} :
    parse input = .ok (literal, rest) ↔
      ∃ word, input = escaped word ++ rest ∧ literal = of word := by
  constructor
  · intro parsed
    obtain ⟨word, rfl⟩ := of_parseFrom parsed
    refine ⟨word, rfl, ?_⟩
    have whole := parseFrom_escaped [] word rest
    rw [parse] at parsed
    exact (Prod.mk.inj (Except.ok.inj (parsed.symm.trans whole))).1
  · rintro ⟨word, rfl, rfl⟩
    exact parseFrom_escaped [] word rest

theorem unescaped_escapedPrefix (word : List UInt8) : unescaped (escapedPrefix word) = word := by
  induction word with
  | nil => rfl
  | cons x word ih =>
    by_cases zero : x = 0
    · subst zero
      rw [escapedPrefix_cons_zero]
      simp [unescaped, ih]
    · rw [escapedPrefix_cons zero, unescaped_cons zero, ih]

theorem checkUtf8_eq_ok {bytes : List UInt8} : checkUtf8 bytes = .ok () ↔ Valid bytes := by
  rw [checkUtf8, rejectIf_eq_ok]
  rw [← not_iff_not, ← fromUtf8_eq_none]
  cases fromUtf8 bytes <;> simp

theorem validateSegments_eq_ok (segment word : List UInt8) :
    validateSegments segment (escapedPrefix word) = .ok () ↔ Valid (segment ++ word) := by
  induction word generalizing segment with
  | nil => simp [escapedPrefix, validateSegments, checkUtf8_eq_ok]
  | cons x word ih =>
    by_cases zero : x = 0
    · subst zero
      rw [escapedPrefix_cons_zero, valid_zero_iff]
      have next := ih []
      simp [validateSegments, check_bind_eq_ok, checkUtf8_eq_ok, next]
    · rw [escapedPrefix_cons zero, append_cons, validateSegments_cons segment zero]
      exact ih (segment ++ [x])

@[simp]
theorem bytes_of (word : List UInt8) : (of word).bytes = word := unescaped_escapedPrefix word

variable {word : List UInt8}

theorem validateText_eq_ok : (of word).validateText = .ok () ↔ Valid word :=
  validateSegments_eq_ok [] word

theorem matches_of {expected : List UInt8} :
    (of word).matches_ expected = true ↔ word = expected := by
  rw [matches_, bytes_of, beq_iff_eq]

theorem zero_mem_escapedPrefix : 0 ∈ escapedPrefix word ↔ 0 ∈ word := by
  rw [escapedPrefix, mem_flatMap]
  constructor
  · rintro ⟨x, member, inside⟩
    by_cases zero : x = 0
    · exact zero ▸ member
    · simp [zero, Ne.symm zero] at inside
  · intro member
    exact ⟨0, member, by simp⟩

theorem escapedPrefix_eq_self (clean : 0 ∉ word) : escapedPrefix word = word := by
  induction word with
  | nil => rfl
  | cons x word ih =>
    obtain ⟨first, rest⟩ := ne_and_not_mem_of_not_mem_cons clean
    rw [escapedPrefix_cons first.symm, ih rest]

theorem not_blank_of_zero (zero : 0 ∈ asBytes s) : blank s = false := by
  rw [asBytes, ← encode_toList, encode, mem_flatMap] at zero
  obtain ⟨c, member, inside⟩ := zero
  have single := (wellFormed_utf8EncodeChar c).zero inside
  have code : c.toNat = 0 := by
    rw [String.utf8EncodeChar, Char.toNat_val] at single
    split_ifs at single with small
    · have value := congrArg UInt8.toNat (cons.inj single).1
      rwa [toNat_small (by omega)] at value
    all_goals cases (cons.inj single).2
  rw [blank, all_eq_false]
  exact ⟨c, member, by simp [isWhitespace, code]⟩

/-- A record identifier is text that is not blank. -/
theorem validateIdentifier_eq_ok :
    (of word).validateIdentifier = .ok () ↔ ∃ s, asBytes s = word ∧ blank s = false := by
  rw [validateIdentifier, check_bind_eq_ok, validateText_eq_ok]
  have split : (of word).encoded.contains 0 = true ↔ 0 ∈ word := by
    rw [contains_iff_mem]
    exact zero_mem_escapedPrefix
  by_cases zero : 0 ∈ word
  · rw [if_pos (split.mpr zero)]
    constructor
    · rintro ⟨⟨chars, rfl⟩, -⟩
      have text : asBytes (String.ofList chars) = encode chars := by
        rw [asBytes, ← encode_toList, String.toList_ofList]
      exact ⟨String.ofList chars, text, not_blank_of_zero (text ▸ zero)⟩
    · rintro ⟨s, rfl, -⟩
      exact ⟨⟨s.toList, encode_toList s⟩, rfl⟩
  · rw [if_neg (mt split.mp zero)]
    have plain : (of word).encoded = word := escapedPrefix_eq_self zero
    rw [plain]
    constructor
    · rintro ⟨-, checked⟩
      split at checked
      · cases checked
      · next s found => exact ⟨s, (fromUtf8_eq_some.mp found).symm, rejectIf_eq_ok.mp checked⟩
    · rintro ⟨s, rfl, named⟩
      refine ⟨⟨s.toList, encode_toList s⟩, ?_⟩
      rw [fromUtf8_eq_some.mpr (rfl : asBytes s = _)]
      exact rejectIf_eq_ok.mpr named

theorem copyText_eq_ok : (of word).copyText = .ok s ↔ asBytes s = word := by
  rw [copyText, check_bind_eq_ok, validateText_eq_ok, bytes_of]
  constructor
  · rintro ⟨-, copied⟩
    split at copied
    · cases copied
    · next found =>
      cases copied
      exact (fromUtf8_eq_some.mp found).symm
  · rintro rfl
    refine ⟨⟨s.toList, encode_toList s⟩, ?_⟩
    rw [fromUtf8_eq_some.mpr (rfl : asBytes s = _)]

end Literal

/-- Text is read back exactly from its escaped bytes. -/
theorem textLiteral_eq_ok : textLiteral input = .ok s ↔ input = escaped (asBytes s) := by
  rw [textLiteral, bind_eq_ok]
  constructor
  · rintro ⟨⟨literal, rest⟩, parsed, final⟩
    obtain ⟨word, rfl, rfl⟩ := Literal.parse_eq_ok.mp parsed
    obtain ⟨ended, copied⟩ := check_bind_eq_ok.mp final
    obtain rfl : rest = [] := by simpa using rejectIf_eq_ok.mp ended
    rw [Literal.copyText_eq_ok.mp copied, append_nil]
  · rintro rfl
    refine ⟨(Literal.of (asBytes s), []), Literal.parse_eq_ok.mpr ⟨_, by simp, rfl⟩, ?_⟩
    exact check_bind_eq_ok.mpr ⟨rfl, Literal.copyText_eq_ok.mpr rfl⟩

end QueueSourceIndex
