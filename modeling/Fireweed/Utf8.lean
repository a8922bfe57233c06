import Mathlib

/-!
# Text and its bytes

Bytes are text when they are the encodings of a list of characters. A zero byte
occurs only as the encoding of the zero character, so text can be cut at its
zero bytes. The scan of the standard library tells text from bytes that end
inside a character and from bytes that no further byte can turn into text.
-/

namespace Utf8

open List

def encode (chars : List Char) : List UInt8 := chars.flatMap String.utf8EncodeChar

/-- Whether bytes are text. -/
def Valid (bytes : List UInt8) : Prop := ∃ chars, encode chars = bytes

/-- The text that bytes stand for. -/
def fromUtf8 (bytes : List UInt8) : Option String := String.fromUTF8? bytes.toByteArray

theorem utf8Encode_eq (chars : List Char) : chars.utf8Encode.data.toList = encode chars := by
  simp [utf8Encode, encode]

theorem encode_toList (s : String) : encode s.toList = s.toUTF8.data.toList := by
  rw [← utf8Encode_eq, String.utf8Encode_toList]
  rfl

@[simp]
theorem encode_nil : encode [] = [] := rfl

@[simp]
theorem encode_cons (c : Char) (chars : List Char) :
    encode (c :: chars) = String.utf8EncodeChar c ++ encode chars := rfl

@[simp]
theorem encode_append (u v : List Char) : encode (u ++ v) = encode u ++ encode v := by
  simp [encode]

theorem isValidUTF8_iff (bytes : List UInt8) : bytes.toByteArray.IsValidUTF8 ↔ Valid bytes := by
  constructor
  · rintro ⟨chars, whole⟩
    refine ⟨chars, ?_⟩
    rw [← utf8Encode_eq, ← whole]
    simp
  · rintro ⟨chars, rfl⟩
    exact ⟨chars, by simp [utf8Encode, encode]⟩

variable {bytes rest : List UInt8}

theorem fromUtf8_eq_some {s : String} : fromUtf8 bytes = some s ↔ bytes = s.toUTF8.data.toList := by
  rw [fromUtf8, String.fromUTF8?]
  constructor
  · intro found
    split at found
    · next valid =>
      rw [← Option.some.inj found]
      simp [String.fromUTF8]
    · cases found
  · rintro rfl
    have valid : s.toUTF8.data.toList.toByteArray.IsValidUTF8 :=
      (isValidUTF8_iff _).mpr ⟨s.toList, encode_toList s⟩
    rw [dif_pos valid, Option.some.injEq, ← String.toByteArray_inj]
    exact ByteArray.ext (by simp [String.fromUTF8])

theorem fromUtf8_eq_none : fromUtf8 bytes = none ↔ ¬Valid bytes := by
  rw [fromUtf8, String.fromUTF8?, ← isValidUTF8_iff]
  split <;> simp [*]

/-! ## The bytes of a character -/

/-- The number of bytes of a character, from its first byte. -/
def charWidth (a : UInt8) : Nat :=
  if a < 0x80 then 1
  else if 0xc2 ≤ a && a ≤ 0xdf then 2
  else if 0xe0 ≤ a && a ≤ 0xef then 3
  else if 0xf0 ≤ a && a ≤ 0xf4 then 4
  else 0

/-- The bytes after the first one. -/
def continuation (b : UInt8) : Bool := 0x80 ≤ b && b ≤ 0xbf

/-- The second of three bytes; the first one excludes overlong forms and surrogates. -/
def secondOfThree (a b : UInt8) : Bool :=
  if a = 0xe0 then 0xa0 ≤ b && b ≤ 0xbf
  else if a = 0xed then 0x80 ≤ b && b ≤ 0x9f
  else continuation b

def secondOfFour (a b : UInt8) : Bool :=
  if a = 0xf0 then 0x90 ≤ b && b ≤ 0xbf
  else if a = 0xf4 then 0x80 ≤ b && b ≤ 0x8f
  else continuation b

/-- The byte sequences of single characters. -/
inductive WellFormed : List UInt8 → Prop where
  | one {a : UInt8} : charWidth a = 1 → WellFormed [a]
  | two {a b : UInt8} : charWidth a = 2 → continuation b = true → WellFormed [a, b]
  | three {a b c : UInt8} : charWidth a = 3 → secondOfThree a b = true →
      continuation c = true → WellFormed [a, b, c]
  | four {a b c d : UInt8} : charWidth a = 4 → secondOfFour a b = true →
      continuation c = true → continuation d = true → WellFormed [a, b, c, d]

theorem charWidth_iff (a : UInt8) :
    (charWidth a = 1 ↔ a.toNat < 128) ∧ (charWidth a = 2 ↔ 194 ≤ a.toNat ∧ a.toNat ≤ 223) ∧
      (charWidth a = 3 ↔ 224 ≤ a.toNat ∧ a.toNat ≤ 239) ∧
      (charWidth a = 4 ↔ 240 ≤ a.toNat ∧ a.toNat ≤ 244) := by
  rw [charWidth]
  split_ifs with one two three four <;>
    simp [UInt8.le_iff_toNat_le, UInt8.lt_iff_toNat_lt] at * <;> omega

theorem continuation_iff (b : UInt8) : continuation b = true ↔ 128 ≤ b.toNat ∧ b.toNat ≤ 191 := by
  simp [continuation, UInt8.le_iff_toNat_le]

theorem secondOfThree_iff (a b : UInt8) : secondOfThree a b = true ↔
    (a.toNat = 224 → 160 ≤ b.toNat) ∧ (a.toNat = 237 → b.toNat ≤ 159) ∧
      128 ≤ b.toNat ∧ b.toNat ≤ 191 := by
  rw [secondOfThree]
  split_ifs with low high <;>
    simp [continuation, UInt8.le_iff_toNat_le, ← UInt8.toNat_inj] at * <;> omega

theorem secondOfFour_iff (a b : UInt8) : secondOfFour a b = true ↔
    (a.toNat = 240 → 144 ≤ b.toNat) ∧ (a.toNat = 244 → b.toNat ≤ 143) ∧
      128 ≤ b.toNat ∧ b.toNat ≤ 191 := by
  rw [secondOfFour]
  split_ifs with low high <;>
    simp [continuation, UInt8.le_iff_toNat_le, ← UInt8.toNat_inj] at * <;> omega

theorem toNat_small {n : Nat} (small : n < 256) : (UInt8.ofNat n).toNat = n :=
  UInt8.toNat_ofNat_of_lt' small

theorem wellFormed_utf8EncodeChar (c : Char) : WellFormed (String.utf8EncodeChar c) := by
  have valid : c.val.toNat.isValidChar := c.valid
  rw [String.utf8EncodeChar]
  generalize c.val.toNat = v at valid
  split_ifs with one two three
  · refine .one ((charWidth_iff _).1.mpr ?_)
    rw [toNat_small (by omega)]
    omega
  · refine .two ((charWidth_iff _).2.1.mpr ?_) ((continuation_iff _).mpr ?_)
    · rw [toNat_small (by omega)]
      omega
    · rw [toNat_small (by omega)]
      omega
  · refine .three ((charWidth_iff _).2.2.1.mpr ?_) ((secondOfThree_iff _ _).mpr ?_)
      ((continuation_iff _).mpr ?_)
    · rw [toNat_small (by omega)]
      omega
    · rw [toNat_small (by omega), toNat_small (by omega)]
      omega
    · rw [toNat_small (by omega)]
      omega
  · refine .four ((charWidth_iff _).2.2.2.mpr ?_) ((secondOfFour_iff _ _).mpr ?_)
      ((continuation_iff _).mpr ?_) ((continuation_iff _).mpr ?_)
    · rw [toNat_small (by omega)]
      omega
    · rw [toNat_small (by omega), toNat_small (by omega)]
      omega
    · rw [toNat_small (by omega)]
      omega
    · rw [toNat_small (by omega)]
      omega

theorem val_ofNat {n : Nat} (valid : n.isValidChar) : (Char.ofNat n).val.toNat = n := by
  rw [Char.toNat_val, Char.toNat_ofNat, if_pos valid]

theorem ofNat_eq {b : UInt8} {n : Nat} (same : n = b.toNat) : UInt8.ofNat n = b := by
  rw [same, UInt8.ofNat_toNat]

/-- Well-formed sequences are those of characters. -/
theorem WellFormed.exists_char (formed : WellFormed bytes) :
    ∃ c, String.utf8EncodeChar c = bytes := by
  cases formed with
  | @one a first =>
    rw [(charWidth_iff a).1] at first
    refine ⟨Char.ofNat a.toNat, ?_⟩
    rw [String.utf8EncodeChar, val_ofNat (.inl (by omega)), if_pos (by omega),
      ofNat_eq (b := a) rfl]
  | @two a b first second =>
    rw [(charWidth_iff a).2.1] at first
    rw [continuation_iff] at second
    refine ⟨Char.ofNat ((a.toNat - 192) * 64 + (b.toNat - 128)), ?_⟩
    rw [String.utf8EncodeChar, val_ofNat (.inl (by omega)), if_neg (by omega), if_pos (by omega),
      ofNat_eq (b := a) (by omega), ofNat_eq (b := b) (by omega)]
  | @three a b c first second third =>
    rw [(charWidth_iff a).2.2.1] at first
    rw [secondOfThree_iff] at second
    rw [continuation_iff] at third
    refine ⟨Char.ofNat ((a.toNat - 224) * 4096 + (b.toNat - 128) * 64 + (c.toNat - 128)), ?_⟩
    rw [String.utf8EncodeChar, val_ofNat (by unfold Nat.isValidChar; omega), if_neg (by omega),
      if_neg (by omega), if_pos (by omega), ofNat_eq (b := a) (by omega),
      ofNat_eq (b := b) (by omega), ofNat_eq (b := c) (by omega)]
  | @four a b c d first second third fourth =>
    rw [(charWidth_iff a).2.2.2] at first
    rw [secondOfFour_iff] at second
    rw [continuation_iff] at third fourth
    refine ⟨Char.ofNat ((a.toNat - 240) * 262144 + (b.toNat - 128) * 4096 +
      (c.toNat - 128) * 64 + (d.toNat - 128)), ?_⟩
    rw [String.utf8EncodeChar, val_ofNat (by unfold Nat.isValidChar; omega), if_neg (by omega),
      if_neg (by omega), if_neg (by omega), ofNat_eq (b := a) (by omega),
      ofNat_eq (b := b) (by omega), ofNat_eq (b := c) (by omega), ofNat_eq (b := d) (by omega)]

/-! ## Zero bytes -/

theorem WellFormed.zero (formed : WellFormed bytes) (zero : 0 ∈ bytes) : bytes = [0] := by
  cases formed with
  | one first =>
    rw [mem_singleton] at zero
    rw [← zero]
  | two first second =>
    rw [(charWidth_iff _).2.1] at first
    rw [continuation_iff] at second
    simp only [mem_cons, not_mem_nil, or_false] at zero
    rcases zero with rfl | rfl <;> simp at first second
  | three first second third =>
    rw [(charWidth_iff _).2.2.1] at first
    rw [secondOfThree_iff] at second
    rw [continuation_iff] at third
    simp only [mem_cons, not_mem_nil, or_false] at zero
    rcases zero with rfl | rfl | rfl <;> simp at first second third
  | four first second third fourth =>
    rw [(charWidth_iff _).2.2.2] at first
    rw [secondOfFour_iff] at second
    rw [continuation_iff] at third fourth
    simp only [mem_cons, not_mem_nil, or_false] at zero
    rcases zero with rfl | rfl | rfl | rfl <;> simp at first second third fourth

/-- Text is cut at a zero byte into two texts. -/
theorem valid_zero_iff (u v : List UInt8) : Valid (u ++ 0 :: v) ↔ Valid u ∧ Valid v := by
  constructor
  · rintro ⟨chars, whole⟩
    induction chars generalizing u with
    | nil => simp at whole
    | cons c chars ih =>
      rw [encode_cons] at whole
      rcases append_eq_append_iff.mp whole with ⟨rest, rfl, tail⟩ | ⟨rest, head, tail⟩
      · obtain ⟨⟨left, first⟩, right⟩ := ih rest tail
        exact ⟨⟨c :: left, by rw [encode_cons, first]⟩, right⟩
      · cases rest with
        | nil =>
          rw [append_nil] at head
          obtain ⟨⟨left, first⟩, right⟩ := ih [] (by simpa using tail.symm)
          exact ⟨⟨[c], by simp [head]⟩, right⟩
        | cons x rest =>
          obtain ⟨rfl, rest'⟩ := cons.inj tail
          have single := (wellFormed_utf8EncodeChar c).zero
            (head ▸ mem_append_right u mem_cons_self)
          rw [head] at single
          obtain ⟨rfl, rfl⟩ : u = [] ∧ rest = [] := by
            cases u with
            | nil => exact ⟨rfl, (cons.inj single).2⟩
            | cons x u => simp at single
          exact ⟨⟨[], rfl⟩, ⟨chars, by simpa using rest'.symm⟩⟩
  · rintro ⟨⟨left, rfl⟩, ⟨right, rfl⟩⟩
    obtain ⟨zero, encoded⟩ := (WellFormed.one (show charWidth 0 = 1 by decide)).exists_char
    exact ⟨left ++ zero :: right, by simp [encoded]⟩

/-! ## Scanning -/

/-- What a scan finds: text, bytes that end inside a character, or bytes that are neither. -/
inductive Outcome where
  | valid
  | truncated
  | invalid
deriving DecidableEq

def scan : List UInt8 → Outcome
  | [] => .valid
  | a :: rest =>
    if charWidth a = 1 then scan rest
    else if charWidth a = 2 then
      match rest with
      | [] => .truncated
      | b :: rest => if continuation b then scan rest else .invalid
    else if charWidth a = 3 then
      match rest with
      | [] => .truncated
      | b :: rest =>
        if secondOfThree a b then
          match rest with
          | [] => .truncated
          | c :: rest => if continuation c then scan rest else .invalid
        else .invalid
    else if charWidth a = 4 then
      match rest with
      | [] => .truncated
      | b :: rest =>
        if secondOfFour a b then
          match rest with
          | [] => .truncated
          | c :: rest =>
            if continuation c then
              match rest with
              | [] => .truncated
              | d :: rest => if continuation d then scan rest else .invalid
            else .invalid
        else .invalid
    else .invalid

/-- Bytes with which a character starts, but not all of it. -/
def Pending (bytes : List UInt8) : Prop :=
  ∃ c rest, rest ≠ [] ∧ String.utf8EncodeChar c = bytes ++ rest

theorem WellFormed.scan_append (formed : WellFormed bytes) (rest : List UInt8) :
    scan (bytes ++ rest) = scan rest := by
  cases formed with
  | @one a first =>
    change scan (a :: rest) = scan rest
    rw [scan.eq_def]
    simp [first]
  | @two a b first second =>
    change scan (a :: b :: rest) = scan rest
    rw [scan.eq_def]
    simp [first, second]
  | @three a b c first second third =>
    change scan (a :: b :: c :: rest) = scan rest
    rw [scan.eq_def]
    simp [first, second, third]
  | @four a b c d first second third fourth =>
    change scan (a :: b :: c :: d :: rest) = scan rest
    rw [scan.eq_def]
    simp [first, second, third, fourth]

theorem WellFormed.scan_proper (formed : WellFormed (bytes ++ rest)) (some : bytes ≠ [])
    (more : rest ≠ []) : scan bytes = .truncated := by
  generalize whole : bytes ++ rest = all at formed
  cases formed with
  | one first =>
    rcases bytes with - | ⟨x, bytes⟩
    · exact absurd rfl some
    · simp_all
  | two first second =>
    rcases bytes with - | ⟨x, - | ⟨y, bytes⟩⟩
    · exact absurd rfl some
    · obtain ⟨rfl, -⟩ := cons.inj whole
      rw [scan.eq_def]
      simp [first]
    · simp_all
  | three first second third =>
    rcases bytes with - | ⟨x, - | ⟨y, - | ⟨z, bytes⟩⟩⟩
    · exact absurd rfl some
    · obtain ⟨rfl, -⟩ := cons.inj whole
      rw [scan.eq_def]
      simp [first]
    · obtain ⟨rfl, rfl, -⟩ : x = _ ∧ y = _ ∧ rest = _ := by simpa using whole
      rw [scan.eq_def]
      simp [first, second]
    · simp_all
  | four first second third fourth =>
    rcases bytes with - | ⟨x, - | ⟨y, - | ⟨z, - | ⟨t, bytes⟩⟩⟩⟩
    · exact absurd rfl some
    · obtain ⟨rfl, -⟩ := cons.inj whole
      rw [scan.eq_def]
      simp [first]
    · obtain ⟨rfl, rfl, -⟩ : x = _ ∧ y = _ ∧ rest = _ := by simpa using whole
      rw [scan.eq_def]
      simp [first, second]
    · obtain ⟨rfl, rfl, rfl, -⟩ : x = _ ∧ y = _ ∧ z = _ ∧ rest = _ := by simpa using whole
      rw [scan.eq_def]
      simp [first, second, third]
    · simp_all

/-- What a scan finds, as a statement about characters. -/
def Found (bytes : List UInt8) : Outcome → Prop
  | .valid => Valid bytes
  | .truncated => ∃ chars rest, rest ≠ [] ∧ Pending rest ∧ bytes = encode chars ++ rest
  | .invalid => True

theorem Found.cons {word : List UInt8} (formed : WellFormed word) {o : Outcome}
    (found : Found bytes o) : Found (word ++ bytes) o := by
  obtain ⟨c, rfl⟩ := formed.exists_char
  cases o with
  | valid =>
    obtain ⟨chars, rfl⟩ := found
    exact ⟨c :: chars, rfl⟩
  | truncated =>
    obtain ⟨chars, rest, some, pending, rfl⟩ := found
    exact ⟨c :: chars, rest, some, pending, by simp⟩
  | invalid => trivial

theorem found_pending (some : bytes ≠ []) (more : rest ≠ []) (formed : WellFormed (bytes ++ rest)) :
    Found bytes .truncated := by
  obtain ⟨c, whole⟩ := formed.exists_char
  exact ⟨[], bytes, some, ⟨c, rest, more, whole⟩, rfl⟩

theorem exists_secondOfThree (a : UInt8) : ∃ b, secondOfThree a b = true := by
  by_cases low : a = 0xe0
  · exact ⟨0xa0, by simp [secondOfThree, low]⟩
  · by_cases high : a = 0xed
    · exact ⟨0x80, by simp [secondOfThree, high]⟩
    · exact ⟨0x80, by simp [secondOfThree, low, high, continuation]⟩

theorem exists_secondOfFour (a : UInt8) : ∃ b, secondOfFour a b = true := by
  by_cases low : a = 0xf0
  · exact ⟨0x90, by simp [secondOfFour, low]⟩
  · by_cases high : a = 0xf4
    · exact ⟨0x80, by simp [secondOfFour, high]⟩
    · exact ⟨0x80, by simp [secondOfFour, low, high, continuation]⟩

/-- The scan is right about what it finds. -/
theorem found_scan (bytes : List UInt8) : Found bytes (scan bytes) := by
  have more : continuation 0x80 = true := rfl
  fun_induction scan bytes with
  | case1 => exact ⟨[], rfl⟩
  | case2 a rest first ih => exact ih.cons (.one first)
  | case3 a _ first => exact found_pending (by simp) (cons_ne_nil _ _) (.two first more)
  | case4 a _ first b rest second ih => exact ih.cons (.two first second)
  | case6 a _ _ first =>
    obtain ⟨b, second⟩ := exists_secondOfThree a
    exact found_pending (by simp) (cons_ne_nil _ _) (.three first second more)
  | case7 a _ _ first b second =>
    exact found_pending (by simp) (cons_ne_nil _ _) (.three first second more)
  | case8 a _ _ first b second c rest third ih => exact ih.cons (.three first second third)
  | case11 a _ _ _ first =>
    obtain ⟨b, second⟩ := exists_secondOfFour a
    exact found_pending (by simp) (cons_ne_nil _ _) (.four first second more more)
  | case12 a _ _ _ first b second =>
    exact found_pending (by simp) (cons_ne_nil _ _) (.four first second more more)
  | case13 a _ _ _ first b second c third =>
    exact found_pending (by simp) (cons_ne_nil _ _) (.four first second third more)
  | case14 a _ _ _ first b second c third d rest fourth ih =>
    exact ih.cons (.four first second third fourth)
  | _ => trivial

theorem scan_encode_append (chars : List Char) (rest : List UInt8) :
    scan (encode chars ++ rest) = scan rest := by
  induction chars with
  | nil => rfl
  | cons c chars ih =>
    rw [encode_cons, append_assoc, (wellFormed_utf8EncodeChar c).scan_append, ih]

theorem scan_eq_valid : scan bytes = .valid ↔ Valid bytes := by
  constructor
  · intro valid
    have found := found_scan bytes
    rwa [valid] at found
  · rintro ⟨chars, rfl⟩
    have whole := scan_encode_append chars []
    rw [append_nil] at whole
    rw [whole, scan.eq_def]

/-- No character starts with another one. -/
theorem Pending.not_char (pending : Pending bytes) {c : Char}
    (whole : bytes = String.utf8EncodeChar c ++ rest) : False := by
  obtain ⟨d, tail, more, other⟩ := pending
  rw [whole, append_assoc] at other
  have formed := wellFormed_utf8EncodeChar d
  rw [other] at formed
  have truncated := formed.scan_proper String.utf8EncodeChar_ne_nil (by simp [more])
  have valid : scan (String.utf8EncodeChar c) = .valid :=
    scan_eq_valid.mpr ⟨[c], by simp⟩
  rw [valid] at truncated
  cases truncated

/-- One more byte after the start of a character completes it, continues it, or rules out text. -/
theorem Pending.scan_snoc (pending : Pending bytes) (b : UInt8) :
    match scan (bytes ++ [b]) with
    | .valid => ∃ c, String.utf8EncodeChar c = bytes ++ [b]
    | .truncated => Pending (bytes ++ [b])
    | .invalid => ∀ rest, ¬Valid (bytes ++ b :: rest) := by
  have found := found_scan (bytes ++ [b])
  -- a first character cannot end before the new byte
  have reach : ∀ {c : Char} {u v : List UInt8}, String.utf8EncodeChar c ++ u = bytes ++ v →
      ∃ w, String.utf8EncodeChar c = bytes ++ w ∧ w ++ u = v ∧ w ≠ [] := by
    intro c u v whole
    rcases append_eq_append_iff.mp whole with ⟨w, head, tail⟩ | ⟨w, head, tail⟩
    · exact (pending.not_char head).elim
    · refine ⟨w, head, tail.symm, ?_⟩
      rintro rfl
      have whole : bytes = String.utf8EncodeChar c ++ [] := by simpa using head.symm
      exact pending.not_char whole
  cases outcome : scan (bytes ++ [b]) with
  | valid =>
    rw [outcome] at found
    obtain ⟨chars, whole⟩ := found
    cases chars with
    | nil => simp at whole
    | cons c chars =>
      obtain ⟨w, head, tail, some⟩ := reach whole
      have single : w = [b] := by
        cases w with
        | nil => exact absurd rfl some
        | cons x w => simp_all
      exact ⟨c, single ▸ head⟩
  | truncated =>
    rw [outcome] at found
    obtain ⟨chars, rest, some, follows, whole⟩ := found
    cases chars with
    | nil => simpa [whole] using follows
    | cons c chars =>
      rw [encode_cons, append_assoc] at whole
      obtain ⟨w, -, tail, some'⟩ := reach whole.symm
      cases w with
      | nil => exact absurd rfl some'
      | cons x w => simp [some] at tail
  | invalid =>
    rintro rest ⟨chars, whole⟩
    cases chars with
    | nil => simp at whole
    | cons c chars =>
      obtain ⟨w, head, tail, some⟩ := reach whole
      have formed := wellFormed_utf8EncodeChar c
      cases w with
      | nil => exact absurd rfl some
      | cons x w =>
        obtain ⟨rfl, -⟩ := cons.inj tail
        cases w with
        | nil =>
          have valid : scan (bytes ++ [x]) = .valid :=
            scan_eq_valid.mpr ⟨[c], by rw [← head]; simp⟩
          rw [outcome] at valid
          cases valid
        | cons y w =>
          rw [head, append_cons] at formed
          have truncated := formed.scan_proper (by simp) (cons_ne_nil y w)
          rw [outcome] at truncated
          cases truncated

end Utf8
