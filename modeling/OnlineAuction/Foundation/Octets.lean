import Mathlib.Data.List.GetD
import Mathlib.Data.UInt

/-!
# UTF-8 and base64

A text becomes octets in UTF-8, and octets become text in base64: three octets are written as four
digits of six bits, and the last one or two are padded. The base64 decoder is the one of Python's
`binascii`, which is not strict: it skips every octet that is no digit, and ends at a padding that
completes a group of four.

## What is proved

* `Utf8.decode_eq_some_iff` — UTF-8 decodes exactly what it encodes.
* `Base64.decode_encode` — what was encoded decodes to itself.
* `Base64.utf8_encode` — the encoding is ASCII, so its text is encoded as itself.
-/

namespace OnlineAuction.Foundation

/-! ### UTF-8 -/

namespace Utf8

/-- `str.encode`. -/
def encode (text : List Char) : List UInt8 := text.flatMap String.utf8EncodeChar

/-- `bytes.decode`; `none` is `UnicodeDecodeError`. -/
def decode (octets : List UInt8) : Option (List Char) :=
  (String.fromUTF8? octets.toByteArray).map String.toList

/-- The text of octets below 128. -/
def ascii (octets : List UInt8) : List Char := octets.map fun octet => Char.ofNat octet.toNat

theorem toByteArray_encode (s : String) : (encode s.toList).toByteArray = s.toByteArray :=
  String.utf8Encode_toList

/-- **UTF-8** decodes exactly what it encodes. -/
theorem decode_eq_some_iff {octets : List UInt8} {text : List Char} :
    decode octets = some text ↔ octets = encode text := by
  have hstring : ∀ s : String, String.fromUTF8? octets.toByteArray = some s ↔
      octets = encode s.toList := by
    intro s
    rw [← List.toByteArray_inj, toByteArray_encode]
    unfold String.fromUTF8?
    split_ifs with hvalid
    · rw [Option.some.injEq, ← String.toByteArray_inj]
      exact Iff.rfl
    · refine iff_of_false (by simp) ?_
      intro heq
      exact hvalid (heq ▸ s.isValidUTF8)
  rw [decode, Option.map_eq_some_iff]
  constructor
  · rintro ⟨s, hs, rfl⟩
    exact (hstring s).mp hs
  · intro h
    exact ⟨String.ofList text, (hstring _).mpr (by simpa using h), by simp⟩

/-- Octets below 128 are the encoding of their text. -/
theorem encode_ascii {octets : List UInt8} (h : ∀ octet ∈ octets, octet < 128) :
    encode (ascii octets) = octets := by
  have hone : ∀ octet : UInt8, octet < 128 →
      String.utf8EncodeChar (Char.ofNat octet.toNat) = [octet] := by
    intro octet hoctet
    have hall : ∀ n : Fin 128, String.utf8EncodeChar (Char.ofNat n) = [UInt8.ofNat n] := by
      decide +kernel
    have := hall ⟨octet.toNat, hoctet⟩
    rwa [UInt8.ofNat_toNat] at this
  induction octets with
  | nil => rfl
  | cons octet octets ih =>
    obtain ⟨hoctet, hoctets⟩ := List.forall_mem_cons.mp h
    have hrest := ih hoctets
    unfold encode ascii at hrest ⊢
    rw [List.map_cons, List.flatMap_cons, hone octet hoctet, hrest]
    rfl

end Utf8

/-! ### Base64 -/

namespace Base64

/-- The digits. -/
def alphabet : List UInt8 :=
  "ABCDEFGHIJKLMNOPQRSTUVWXYZabcdefghijklmnopqrstuvwxyz0123456789+/".toList.map Char.toUInt8

/-- The padding, `=`. -/
def pad : UInt8 := 61

/-- The digit of a number below 64. -/
def digit (n : ℕ) : UInt8 := alphabet.getD n pad

/-- The number of a digit. -/
def value (octet : UInt8) : Option ℕ := alphabet.idxOf? octet

/-- `b64encode`. -/
def encode : List UInt8 → List UInt8
  | [] => []
  | [a] => [digit (a.toNat / 4), digit (a.toNat % 4 * 16), pad, pad]
  | [a, b] =>
    [digit (a.toNat / 4), digit (a.toNat % 4 * 16 + b.toNat / 16), digit (b.toNat % 16 * 4), pad]
  | a :: b :: c :: octets =>
    digit (a.toNat / 4) :: digit (a.toNat % 4 * 16 + b.toNat / 16) ::
      digit (b.toNat % 16 * 4 + c.toNat / 64) :: digit (c.toNat % 64) :: encode octets

/-- The loop of `a2b_base64`: `quadPos` digits of a group were read, `leftchar` holds the bits that
are not written yet, and `pads` counts the paddings since the last digit. -/
def decodeFrom (quadPos leftchar pads : ℕ) : List UInt8 → Option (List UInt8)
  | [] => if quadPos = 0 then some [] else none
  | octet :: octets =>
    if octet = pad then
      if 2 ≤ quadPos then
        if 4 ≤ quadPos + (pads + 1) then some [] else decodeFrom quadPos leftchar (pads + 1) octets
      else decodeFrom quadPos leftchar pads octets
    else
      match value octet with
      | none => decodeFrom quadPos leftchar pads octets
      | some n =>
        match quadPos with
        | 0 => decodeFrom 1 n 0 octets
        | 1 => (decodeFrom 2 (n % 16) 0 octets).map (UInt8.ofNat (leftchar * 4 + n / 16) :: ·)
        | 2 => (decodeFrom 3 (n % 4) 0 octets).map (UInt8.ofNat (leftchar * 16 + n / 4) :: ·)
        | _ => (decodeFrom 0 0 0 octets).map (UInt8.ofNat (leftchar * 64 + n) :: ·)

/-- `b64decode`; `none` is `binascii.Error`. -/
def decode (octets : List UInt8) : Option (List UInt8) := decodeFrom 0 0 0 octets

/-! ### Digits -/

theorem value_digit {n : ℕ} (h : n < 64) : value (digit n) = some n := by
  have hall : ∀ n : Fin 64, value (digit n) = some n.val := by decide +kernel
  exact hall ⟨n, h⟩

theorem digit_ne_pad {n : ℕ} (h : n < 64) : digit n ≠ pad := by
  have hall : ∀ n : Fin 64, digit n ≠ pad := by decide +kernel
  exact hall ⟨n, h⟩

theorem digit_lt (n : ℕ) : digit n < 128 := by
  have hall : ∀ octet ∈ alphabet, octet < 128 := by decide +kernel
  unfold digit
  rcases lt_or_ge n alphabet.length with h | h
  · rw [List.getD_eq_getElem _ _ h]
    exact hall _ (List.getElem_mem h)
  · rw [List.getD_eq_default _ _ h]
    decide

section Groups

variable {n leftchar pads : ℕ} {octets : List UInt8}

theorem decodeFrom_zero (h : n < 64) :
    decodeFrom 0 leftchar pads (digit n :: octets) = decodeFrom 1 n 0 octets := by
  simp [decodeFrom, digit_ne_pad h, value_digit h]

theorem decodeFrom_one (h : n < 64) : decodeFrom 1 leftchar pads (digit n :: octets) =
    (decodeFrom 2 (n % 16) 0 octets).map (UInt8.ofNat (leftchar * 4 + n / 16) :: ·) := by
  simp [decodeFrom, digit_ne_pad h, value_digit h]

theorem decodeFrom_two (h : n < 64) : decodeFrom 2 leftchar pads (digit n :: octets) =
    (decodeFrom 3 (n % 4) 0 octets).map (UInt8.ofNat (leftchar * 16 + n / 4) :: ·) := by
  simp [decodeFrom, digit_ne_pad h, value_digit h]

theorem decodeFrom_three (h : n < 64) : decodeFrom 3 leftchar pads (digit n :: octets) =
    (decodeFrom 0 0 0 octets).map (UInt8.ofNat (leftchar * 64 + n) :: ·) := by
  simp [decodeFrom, digit_ne_pad h, value_digit h]

end Groups

/-! ### The round trip -/

theorem ofNat_eq (octet : UInt8) {n : ℕ} (h : n = octet.toNat) : UInt8.ofNat n = octet := by
  rw [h, UInt8.ofNat_toNat]

/-- **Decoding undoes encoding.** -/
theorem decode_encode (octets : List UInt8) : decode (encode octets) = some octets := by
  unfold decode
  induction octets using encode.induct with
  | case1 => rfl
  | case2 a =>
    have ha := a.toNat_lt
    rw [encode, decodeFrom_zero (by omega), decodeFrom_one (by omega), ofNat_eq a (by omega)]
    rfl
  | case3 a b =>
    have ha := a.toNat_lt
    have hb := b.toNat_lt
    rw [encode, decodeFrom_zero (by omega), decodeFrom_one (by omega), decodeFrom_two (by omega),
      ofNat_eq a (by omega), ofNat_eq b (by omega)]
    rfl
  | case4 a b c octets ih =>
    have ha := a.toNat_lt
    have hb := b.toNat_lt
    have hc := c.toNat_lt
    rw [encode, decodeFrom_zero (by omega), decodeFrom_one (by omega), decodeFrom_two (by omega),
      decodeFrom_three (by omega), ih, ofNat_eq a (by omega),
      ofNat_eq b (by omega), ofNat_eq c (by omega)]
    rfl

theorem encode_lt (octets : List UInt8) : ∀ octet ∈ encode octets, octet < 128 := by
  have hpad : pad < 128 := by decide
  induction octets using encode.induct with
  | case1 => simp [encode]
  | case2 a => simp [encode, digit_lt, hpad]
  | case3 a b => simp [encode, digit_lt, hpad]
  | case4 a b c octets ih => simpa [encode, digit_lt] using ih

/-- **The encoding is ASCII**: its text is encoded as itself. -/
theorem utf8_encode (octets : List UInt8) :
    Utf8.encode (Utf8.ascii (encode octets)) = encode octets := Utf8.encode_ascii (encode_lt octets)

end Base64

end OnlineAuction.Foundation
