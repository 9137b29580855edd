import CostAnalysis.Source.Decode
import Mathlib.Algebra.Group.Nat.Defs
import Mathlib.Data.List.Basic
import Mathlib.Tactic.Common

/-!
# Encodings of source files

A text that does not begin with a byte order mark is read back from a file in
each of the encodings that a file may have: UTF-8 without a mark and with one,
and UTF-16 in both byte orders (`decodeSource_bytes`).

## What is assumed and what is proved

How the encoding is chosen, how UTF-8 is read and that the mark is removed does
not depend on the decoders of the other encodings.  So the statement is proved
for any decoders of which one thing is known: behind the mark of a byte order, a
text in UTF-16 is decoded to itself (`Decoders.InvertsUtf16`,
`stripMark_decodeChars_bytes`).  Nothing is needed about Western bytes, since a
text in UTF-8 never reaches that decoder.  The standard decoders are then shown
to be such decoders (`Decoders.standard_invertsUtf16`).

## Why the encodings are inverted

**UTF-8.**  The bytes are those that a string is made of
(`Text.encodeUtf8_toList`).  Behind its first byte a character has up to three
others with six bits each, and the decoder waits for so many of them
(`Text.utf8From_utf8Tail`, by induction on their number).  No character starts
with a byte of which the marks of UTF-16 are made, so that no text in UTF-8 is
taken for UTF-16.

**UTF-16.**  A character is one unit or, beyond 16 bits, a pair of surrogates;
and no unit of the first kind is a surrogate.
-/

namespace CostAnalysis

namespace Text

/-- A valid number of a character is no surrogate and has 21 bits. -/
theorem toNat_valid (c : Char) : c.toNat < 0xD800 ∨ 0xDFFF < c.toNat ∧ c.toNat < 0x110000 :=
  c.valid

/-- Where every sequence was well-formed nothing is replaced. -/
theorem replaceMalformed_map_some (text : List Char) : replaceMalformed (text.map some) = text := by
  rw [replaceMalformed, List.map_map]
  exact List.map_id text

theorem wellFormed?_map_some (text : List Char) : wellFormed? (text.map some) = some text := by
  rw [wellFormed?, if_pos (by simp), replaceMalformed_map_some]

/-! ## UTF-8

A character is encoded in one to four bytes, and the first of them says in how
many.  The decoder keeps the bits that it has seen and the number of bytes that
are still to come. -/

/-- The bytes of a text in UTF-8. -/
def encodeUtf8 (text : List Char) : List UInt8 :=
  text.flatMap String.utf8EncodeChar

/-- The bytes of a text are those that its string is made of. -/
theorem encodeUtf8_toList (s : String) : encodeUtf8 s.toList = s.toUTF8.data.toList := by
  rw [String.toUTF8, ← String.utf8Encode_toList]
  simp [encodeUtf8, List.utf8Encode]

section Pending

variable {p : Utf8Pending} {b : UInt8} (hlow : p.low ≤ b.toNat) (hhigh : b.toNat ≤ p.high)
  (rest : List UInt8)
include hlow hhigh

/-- A byte in the range that is waited for, the last of its character, completes
it. -/
theorem utf8From_last (hleft : p.left = 1) : utf8From (some p) (b :: rest) =
    some (Char.ofNat (p.bits * 64 + (b.toNat - 0x80))) :: utf8From none rest := by
  rw [utf8From, utf8Next, if_pos ⟨hlow, hhigh⟩]
  simp only [hleft, if_true, List.singleton_append]

/-- If it is not the last one it adds its six bits, and from then on the range
is the full one. -/
theorem utf8From_more (hleft : p.left ≠ 1) : utf8From (some p) (b :: rest) =
    utf8From (some ⟨p.bits * 64 + (b.toNat - 0x80), p.left - 1, 0x80, 0xBF⟩) rest := by
  rw [utf8From, utf8Next, if_pos ⟨hlow, hhigh⟩]
  simp only [hleft, if_false, List.nil_append]

end Pending

/-- A number below 256 is the value of a byte. -/
theorem toNat_ofNat_of_lt {n : ℕ} (h : n < 256) : (UInt8.ofNat n).toNat = n := by
  rw [UInt8.toNat_ofNat']
  exact Nat.mod_eq_of_lt h

/-- The last bytes of a character, with six bits each. -/
def utf8Tail (v : ℕ) : ℕ → List UInt8
  | 0 => []
  | n + 1 => UInt8.ofNat (v / 64 ^ n % 64 + 0x80) :: utf8Tail v n

/-- **The bytes that are still to come** complete a character. -/
theorem utf8From_utf8Tail {v low high : ℕ} (n : ℕ) (hlow : low ≤ v / 64 ^ n % 64 + 0x80)
    (hhigh : v / 64 ^ n % 64 + 0x80 ≤ high) (rest : List UInt8) :
    utf8From (some ⟨v / 64 ^ (n + 1), n + 1, low, high⟩) (utf8Tail v (n + 1) ++ rest) =
      some (Char.ofNat v) :: utf8From none rest := by
  induction n generalizing low high with
  | zero =>
      have hbyte : (UInt8.ofNat (v / 64 ^ 0 % 64 + 0x80)).toNat = v / 64 ^ 0 % 64 + 0x80 :=
        toNat_ofNat_of_lt (by omega)
      have hbits : v / 64 ^ (0 + 1) * 64 + (v / 64 ^ 0 % 64 + 0x80 - 0x80) = v := by omega
      rw [utf8Tail, List.cons_append, utf8From_last (by rwa [hbyte]) (by rwa [hbyte]) _ rfl, hbyte,
        hbits]
      rfl
  | succ n ih =>
      have hbyte : (UInt8.ofNat (v / 64 ^ (n + 1) % 64 + 0x80)).toNat =
          v / 64 ^ (n + 1) % 64 + 0x80 := toNat_ofNat_of_lt (by omega)
      have hbits : v / 64 ^ (n + 1 + 1) * 64 + (v / 64 ^ (n + 1) % 64 + 0x80 - 0x80) =
          v / 64 ^ (n + 1) := by
        rw [Nat.pow_succ 64 (n + 1), ← Nat.div_div_eq_div_mul]
        omega
      rw [utf8Tail, List.cons_append,
        utf8From_more (by rwa [hbyte]) (by rwa [hbyte]) _ (Nat.succ_ne_zero n ∘ Nat.succ.inj),
        hbyte, hbits]
      exact ih (by omega) (by omega)

section Start

variable {v : ℕ}

/-- The first byte of a character of eleven bits, with its upper five. -/
theorem utf8Start_two (hlow : 0x80 ≤ v) (hhigh : v < 0x800) :
    utf8Start (v / 64 % 32 + 0xC0) = ([], some ⟨v / 64 ^ 1, 1, 0x80, 0xBF⟩) := by
  have hbits : v / 64 % 32 + 0xC0 - 0xC0 = v / 64 ^ 1 := by omega
  rw [utf8Start, if_neg (by omega), if_neg (by omega), if_pos (by omega), hbits]

/-- The first byte of a character of sixteen bits.  Behind the first and the
fourteenth value the next byte is restricted, to keep out longer forms of
shorter characters and surrogates. -/
theorem utf8Start_three (hlow : 0x800 ≤ v) (hhigh : v < 0x10000) :
    utf8Start (v / 4096 % 16 + 0xE0) = ([], some ⟨v / 64 ^ 2, 2,
      if v / 64 ^ 2 = 0 then 0xA0 else 0x80, if v / 64 ^ 2 = 13 then 0x9F else 0xBF⟩) := by
  have hbits : v / 4096 % 16 = v / 64 ^ 2 := by omega
  rw [utf8Start, if_neg (by omega), if_neg (by omega), if_neg (by omega), if_pos (by omega), hbits,
    Nat.add_sub_cancel]
  simp only [Nat.add_eq_right, Nat.reduceEqDiff]

/-- The first byte of a character beyond sixteen bits.  The next byte is
restricted at both ends of the range of characters. -/
theorem utf8Start_four (hlow : 0x10000 ≤ v) (hhigh : v < 0x110000) :
    utf8Start (v / 262144 % 8 + 0xF0) = ([], some ⟨v / 64 ^ 3, 3,
      if v / 64 ^ 3 = 0 then 0x90 else 0x80, if v / 64 ^ 3 = 4 then 0x8F else 0xBF⟩) := by
  have hbits : v / 262144 % 8 = v / 64 ^ 3 := by omega
  rw [utf8Start, if_neg (by omega), if_neg (by omega), if_neg (by omega), if_neg (by omega),
    if_pos (by omega), hbits, Nat.add_sub_cancel]
  simp only [Nat.add_eq_right, Nat.reduceEqDiff]

/-- A first byte and the bytes that it asks for. -/
theorem utf8From_start {lead n low high : ℕ} (hlead : lead < 256)
    (hstart : utf8Start lead = ([], some ⟨v / 64 ^ (n + 1), n + 1, low, high⟩))
    (hlow : low ≤ v / 64 ^ n % 64 + 0x80) (hhigh : v / 64 ^ n % 64 + 0x80 ≤ high)
    (rest : List UInt8) :
    utf8From none (UInt8.ofNat lead :: (utf8Tail v (n + 1) ++ rest)) =
      some (Char.ofNat v) :: utf8From none rest := by
  rw [utf8From, utf8Next, toNat_ofNat_of_lt hlead, hstart]
  exact utf8From_utf8Tail n hlow hhigh rest

end Start

/-- **One character** is decoded from its bytes. -/
theorem utf8From_utf8EncodeChar (c : Char) (rest : List UInt8) :
    utf8From none (String.utf8EncodeChar c ++ rest) = some c :: utf8From none rest := by
  have hvalid := toNat_valid c
  have hc : Char.ofNat c.toNat = c := Char.ofNat_toNat c
  rw [String.utf8EncodeChar]
  simp only [Char.toNat] at hvalid hc ⊢
  -- by the number of bytes that the scalar value takes
  generalize c.val.toNat = v at *
  split
  · next h =>
      rw [List.singleton_append, utf8From, utf8Next, toNat_ofNat_of_lt (by omega), utf8Start,
        if_pos (by omega), hc]
      rfl
  split
  · next h =>
      have hstart := utf8Start_two (v := v) (by omega) (by omega)
      have hlast : v / 64 ^ 0 = v := by rw [Nat.pow_zero, Nat.div_one]
      have hdecoded := utf8From_start (n := 0) (by omega) hstart (by rw [hlast]; omega)
        (by rw [hlast]; omega) rest
      simpa [utf8Tail, hc] using hdecoded
  split
  · next h =>
      have hstart := utf8Start_three (v := v) (by omega) (by omega)
      have hdecoded := utf8From_start (n := 1) (by omega) hstart (by split <;> omega)
        (by split <;> omega) rest
      simpa [utf8Tail, hc] using hdecoded
  · next h =>
      have hstart := utf8Start_four (v := v) (by omega) (by omega)
      have hdecoded := utf8From_start (n := 2) (by omega) hstart (by split <;> omega)
        (by split <;> omega) rest
      simpa [utf8Tail, hc] using hdecoded

/-- **A text in UTF-8** is decoded to itself. -/
theorem decodeUtf8_encodeUtf8 (text : List Char) :
    decodeUtf8 (encodeUtf8 text) = text.map some := by
  rw [decodeUtf8]
  induction text with
  | nil => rfl
  | cons c text ih =>
      rw [encodeUtf8, List.flatMap_cons, utf8From_utf8EncodeChar, List.map_cons]
      exact congrArg _ ih

/-- No text in UTF-8 starts with a byte of which the marks of UTF-16 are
made. -/
theorem toNat_lt_of_encodeUtf8_eq_cons {text : List Char} {b : UInt8} {rest : List UInt8}
    (h : encodeUtf8 text = b :: rest) : b.toNat < 0xF8 := by
  cases text with
  | nil => cases h
  | cons c text =>
      have hvalid := toNat_valid c
      rw [encodeUtf8, List.flatMap_cons, String.utf8EncodeChar] at h
      simp only [Char.toNat] at hvalid h
      generalize c.val.toNat = v at *
      split_ifs at h <;>
      · rw [← (List.cons.inj h).1, toNat_ofNat_of_lt (by omega)]
        omega

/-! ## UTF-16

A character outside of the basic plane is written as two surrogates.  The
decoder remembers a high one until it has seen the unit behind it. -/

/-- The units of a character. -/
def unitsOf (c : Char) : List ℕ :=
  if c.toNat < 0x10000 then [c.toNat]
  else [0xD800 + (c.toNat - 0x10000) / 0x400, 0xDC00 + (c.toNat - 0x10000) % 0x400]

/-- The two bytes of a unit. -/
def ByteOrder.bytes (order : ByteOrder) (unit : ℕ) : List UInt8 :=
  match order with
  | .littleEndian => [UInt8.ofNat (unit % 256), UInt8.ofNat (unit / 256)]
  | .bigEndian => [UInt8.ofNat (unit / 256), UInt8.ofNat (unit % 256)]

/-- The bytes of a text in UTF-16. -/
def encodeUtf16 (order : ByteOrder) (text : List Char) : List UInt8 :=
  (text.flatMap unitsOf).flatMap order.bytes

/-- A unit has sixteen bits, so that its two bytes hold it. -/
theorem lt_of_mem_unitsOf {c : Char} {u : ℕ} (hu : u ∈ unitsOf c) : u < 0x10000 := by
  have hvalid := toNat_valid c
  rw [unitsOf] at hu
  split at hu
  · next h =>
      rw [List.mem_singleton.mp hu]
      exact h
  · rcases List.mem_pair.mp hu with hu | hu <;> omega

/-- The units are found again in their bytes. -/
theorem units16_bytes (order : ByteOrder) {units : List ℕ} (h : ∀ u ∈ units, u < 0x10000) :
    units16 order (units.flatMap order.bytes) = (units, false) := by
  induction units with
  | nil => rfl
  | cons u units ih =>
      obtain ⟨hu, hunits⟩ := List.forall_mem_cons.mp h
      have hlow : (UInt8.ofNat (u % 256)).toNat = u % 256 := toNat_ofNat_of_lt (by omega)
      have hhigh : (UInt8.ofNat (u / 256)).toNat = u / 256 := toNat_ofNat_of_lt (by omega)
      cases order with
      | littleEndian =>
          rw [List.flatMap_cons, ByteOrder.bytes, List.cons_append, List.singleton_append, units16,
            ih hunits]
          simp only [hlow, hhigh, Nat.mod_add_div]
      | bigEndian =>
          rw [List.flatMap_cons, ByteOrder.bytes, List.cons_append, List.singleton_append, units16,
            ih hunits]
          simp only [hlow, hhigh, Nat.div_add_mod]

/-- A unit that is no surrogate is a character by itself. -/
theorem utf16From_single {u : ℕ} (hhigh : isHighSurrogate u = false)
    (hlow : isLowSurrogate u = false) (rest : List ℕ) :
    utf16From false none (u :: rest) = some (Char.ofNat u) :: utf16From false none rest := by
  rw [utf16From, utf16Next, utf16Start, hhigh, hlow]
  rfl

/-- A high surrogate with a low one behind it is one character. -/
theorem utf16From_pair {high low : ℕ} (hhigh : isHighSurrogate high = true)
    (hlow : isLowSurrogate low = true) (rest : List ℕ) :
    utf16From false none (high :: low :: rest) =
      some (Char.ofNat (0x10000 + (high - 0xD800) * 0x400 + (low - 0xDC00))) ::
        utf16From false none rest := by
  rw [utf16From, utf16Next, utf16Start, hhigh]
  show utf16From false (some high) (low :: rest) = _
  rw [utf16From, utf16Next, hlow]
  rfl

/-- **One character** is decoded from its units. -/
theorem utf16From_unitsOf (c : Char) (rest : List ℕ) :
    utf16From false none (unitsOf c ++ rest) = some c :: utf16From false none rest := by
  have hvalid := toNat_valid c
  rw [unitsOf]
  split
  · next h =>
      have hhigh : isHighSurrogate c.toNat = false := by
        simp only [isHighSurrogate, Bool.and_eq_false_iff, decide_eq_false_iff_not]
        omega
      have hlow : isLowSurrogate c.toNat = false := by
        simp only [isLowSurrogate, Bool.and_eq_false_iff, decide_eq_false_iff_not]
        omega
      rw [List.singleton_append, utf16From_single hhigh hlow, Char.ofNat_toNat]
  · next h =>
      have hhigh : isHighSurrogate (0xD800 + (c.toNat - 0x10000) / 0x400) = true := by
        simp only [isHighSurrogate, Bool.and_eq_true, decide_eq_true_eq]
        omega
      have hlow : isLowSurrogate (0xDC00 + (c.toNat - 0x10000) % 0x400) = true := by
        simp only [isLowSurrogate, Bool.and_eq_true, decide_eq_true_eq]
        omega
      -- the halves of the value come together again
      have hnumber : 0x10000 + (0xD800 + (c.toNat - 0x10000) / 0x400 - 0xD800) * 0x400 +
          (0xDC00 + (c.toNat - 0x10000) % 0x400 - 0xDC00) = c.toNat := by
        omega
      rw [List.cons_append, List.singleton_append, utf16From_pair hhigh hlow, hnumber,
        Char.ofNat_toNat]

/-- **A text in UTF-16** is decoded to itself. -/
theorem decodeUtf16_encodeUtf16 (order : ByteOrder) (text : List Char) :
    decodeUtf16 order (encodeUtf16 order text) = text.map some := by
  have hunits : ∀ u ∈ text.flatMap unitsOf, u < 0x10000 := by
    intro u hu
    obtain ⟨c, -, hu⟩ := List.mem_flatMap.mp hu
    exact lt_of_mem_unitsOf hu
  rw [decodeUtf16, encodeUtf16, units16_bytes order hunits]
  clear hunits
  simp only
  induction text with
  | nil => rfl
  | cons c text ih => rw [List.flatMap_cons, utf16From_unitsOf, ih, List.map_cons]

end Text

/-! ## Files -/

/-- The encodings that a file may have. -/
inductive FileEncoding where
  | utf8
  /-- UTF-8 behind a byte order mark. -/
  | markedUtf8
  /-- UTF-16 behind a byte order mark. -/
  | utf16 (order : Text.ByteOrder)

namespace FileEncoding

/-- The bytes of a file with a text. -/
def bytes (text : List Char) : FileEncoding → List UInt8
  | .utf8 => Text.encodeUtf8 text
  | .markedUtf8 => 0xEF :: 0xBB :: 0xBF :: Text.encodeUtf8 text
  | .utf16 .littleEndian => 0xFF :: 0xFE :: Text.encodeUtf16 .littleEndian text
  | .utf16 .bigEndian => 0xFE :: 0xFF :: Text.encodeUtf16 .bigEndian text

end FileEncoding

open Text

/-- **The assumption about decoders**: they drop the mark of UTF-16 and decode
well-formed UTF-16, pairs of surrogates included, to the text that was
encoded. -/
structure Decoders.InvertsUtf16 (decoders : Decoders) : Prop where
  utf16_bytes : ∀ (order : ByteOrder) (text : List Char),
    decoders.utf16 order ((FileEncoding.utf16 order).bytes text) = text

/-- The standard decoders are as assumed. -/
theorem Decoders.standard_invertsUtf16 : Decoders.standard.InvertsUtf16 where
  utf16_bytes order text := by
    cases order <;>
    · show replaceMalformed (decodeUtf16 _ (encodeUtf16 _ text)) = text
      rw [decodeUtf16_encodeUtf16, replaceMalformed_map_some]

section Decoders

variable {decoders : Decoders}

/-- UTF-8 is read without the help of any decoder. -/
theorem decodeChars_encodeUtf8 (text : List Char) :
    decodeChars decoders (encodeUtf8 text) = text := by
  have hdecoded : wellFormed? (decodeUtf8 (encodeUtf8 text)) = some text := by
    rw [decodeUtf8_encodeUtf8, wellFormed?_map_some]
  unfold decodeChars
  split
  · next rest h => exact absurd (toNat_lt_of_encodeUtf8_eq_cons h) (by decide)
  · next rest h => exact absurd (toNat_lt_of_encodeUtf8_eq_cons h) (by decide)
  · rw [hdecoded, Option.getD_some]

/-- The mark selects the decoder of its byte order. -/
theorem decodeChars_utf16 (h : decoders.InvertsUtf16) (order : ByteOrder) (text : List Char) :
    decodeChars decoders ((FileEncoding.utf16 order).bytes text) = text := by
  cases order with
  | littleEndian => exact h.utf16_bytes .littleEndian text
  | bigEndian => exact h.utf16_bytes .bigEndian text

end Decoders

/-- A text without a mark at its front is left as it is. -/
theorem stripMark_of_head? {text : List Char} (h : text.head? ≠ some '\ufeff') :
    stripMark text = text := by
  cases text with
  | nil => rfl
  | cons c rest =>
      refine if_neg fun hc => h ?_
      rw [List.head?_cons, ← Char.ofNat_toNat c, hc]

/-- What is read from a file is the text that it holds, with any decoders that
invert UTF-16. -/
theorem stripMark_decodeChars_bytes {decoders : Decoders} (hdecoders : decoders.InvertsUtf16)
    (encoding : FileEncoding) {text : List Char} (h : text.head? ≠ some '\ufeff') :
    stripMark (decodeChars decoders (encoding.bytes text)) = text := by
  cases encoding with
  | utf8 => rw [FileEncoding.bytes, decodeChars_encodeUtf8, stripMark_of_head? h]
  | markedUtf8 =>
      -- the mark is a character of the text that is read, and it is stripped
      -- there
      have hmarked : FileEncoding.bytes text .markedUtf8 = encodeUtf8 ('\ufeff' :: text) := rfl
      rw [hmarked, decodeChars_encodeUtf8]
      rfl
  | utf16 order => rw [decodeChars_utf16 hdecoders, stripMark_of_head? h]

/-- **Reading inverts writing**: a text that does not begin with a byte order
mark is what is read from a file that holds it, whatever the encoding of the
file is. -/
theorem decodeSource_bytes (encoding : FileEncoding) {s : String}
    (h : s.toList.head? ≠ some '\ufeff') : decodeSource (encoding.bytes s.toList) = s := by
  rw [decodeSource, stripMark_decodeChars_bytes Decoders.standard_invertsUtf16 encoding h,
    String.ofList_toList]

/-- Characters of one to four bytes, the last of which needs a pair of
surrogates. -/
theorem decodeSource_bytes_assignment :
    decodeSource (FileEncoding.markedUtf8.bytes "né 🡨 ⌈n⌉".toList) = "né 🡨 ⌈n⌉" ∧
      decodeSource [0xFE, 0xFF, 0xD8, 0x3E, 0xDC, 0x68] = "🡨" := by
  have hpair : [0xFE, 0xFF, 0xD8, 0x3E, 0xDC, 0x68] =
      (FileEncoding.utf16 .bigEndian).bytes "🡨".toList := by decide +kernel
  refine ⟨decodeSource_bytes _ (by decide +kernel), ?_⟩
  rw [hpair]
  exact decodeSource_bytes _ (by decide +kernel)

end CostAnalysis
