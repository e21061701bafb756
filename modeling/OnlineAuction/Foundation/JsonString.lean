import OnlineAuction.Foundation.CodePoints
import OnlineAuction.Foundation.Parsing
import Mathlib.Data.List.GetD

/-!
# JSON strings

A JSON string literal writes each code point of a string as itself, as a short escape or as four
hexadecimal digits; a high surrogate and a low one behind it stand for one code point. `scanString`
is the scanner of Python's `json` in its strict mode, `quote` its writer, which escapes everything
but printable ASCII.

## What is proved

* `reads_string` — the scanner reads the literals of `StringText` exactly.
* `stringText_quote` — what is written of a text of scalar values is a literal of it.
-/

namespace OnlineAuction.Foundation.Json

open Parsing

/-! ### Surrogates -/

/-- `0xD800` to `0xDBFF`. -/
def isHigh (u : CodePoint) : Bool := 0xD800 ≤ u.val && u.val ≤ 0xDBFF

/-- `0xDC00` to `0xDFFF`. -/
def isLow (u : CodePoint) : Bool := 0xDC00 ≤ u.val && u.val ≤ 0xDFFF

/-- The code point of a surrogate pair. -/
def joinPair (h l : CodePoint) : CodePoint :=
  .ofNat 0x110000 (0x10000 + (h.val - 0xD800) * 0x400 + (l.val - 0xDC00))

/-- Every surrogate pair is joined. -/
def join : PyStr → PyStr
  | [] => []
  | [u] => [u]
  | h :: l :: us => if isHigh h && isLow l then joinPair h l :: join us else h :: join (l :: us)

/-! ### Literals -/

/-- The number of a hexadecimal digit. -/
def hexValue (c : Char) : Option ℕ :=
  if '0' ≤ c ∧ c ≤ '9' then some (c.toNat - 48)
  else if 'a' ≤ c ∧ c ≤ 'f' then some (c.toNat - 87)
  else if 'A' ≤ c ∧ c ≤ 'F' then some (c.toNat - 55)
  else none

/-- The code point of four hexadecimal digits. -/
def hexUnit (a b c d : Char) : Option CodePoint :=
  match hexValue a, hexValue b, hexValue c, hexValue d with
  | some a, some b, some c, some d =>
    some (.ofNat 0x110000 (a * 0x1000 + b * 0x100 + c * 0x10 + d))
  | _, _, _, _ => none

/-- The short escapes, with what they stand for. -/
def shortEscapes : List (Char × Char) :=
  [('"', '"'), ('\\', '\\'), ('/', '/'), ('b', '\x08'), ('f', '\x0C'), ('n', '\n'), ('r', '\r'),
    ('t', '\t')]

/-- What a short escape stands for. -/
def unescape (e : Char) : Option CodePoint := (shortEscapes.lookup e).map codePoint

/-- The code points of a literal, from after its opening quote on, before the pairs are joined. -/
def scanUnits : Scanner PyStr
  | [] => none
  | '"' :: rest => some ([], rest)
  | '\\' :: 'u' :: a :: b :: c :: d :: rest =>
    match hexUnit a b c d with
    | some u => (scanUnits rest).map fun out => (u :: out.1, out.2)
    | none => none
  | '\\' :: e :: rest =>
    match unescape e with
    | some u => (scanUnits rest).map fun out => (u :: out.1, out.2)
    | none => none
  | c :: rest =>
    if c = '\\' ∨ c < ' ' then none
    else (scanUnits rest).map fun out => (codePoint c :: out.1, out.2)

/-- `scanstring`, from the opening quote on. -/
def scanString : Scanner PyStr
  | '"' :: rest => mapScanner join scanUnits rest
  | _ => none

/-- What stands for one code point. -/
inductive UnitText : CodePoint → List Char → Prop
  /-- Itself. -/
  | plain {c : Char} (h : c ≠ '"' ∧ c ≠ '\\' ∧ ¬ c < ' ') : UnitText (codePoint c) [c]
  /-- A short escape. -/
  | short {e : Char} {u : CodePoint} (h : unescape e = some u) : UnitText u ['\\', e]
  /-- Four hexadecimal digits. -/
  | hex {a b c d : Char} {u : CodePoint} (h : hexUnit a b c d = some u) :
    UnitText u ['\\', 'u', a, b, c, d]

/-- What stands for some code points. -/
inductive UnitsText : PyStr → List Char → Prop
  /-- Nothing. -/
  | nil : UnitsText [] []
  /-- One more. -/
  | cons {u : CodePoint} {us : PyStr} {text texts : List Char} (hu : UnitText u text)
    (hus : UnitsText us texts) : UnitsText (u :: us) (text ++ texts)

/-- The string literals. -/
def StringText : Lang PyStr := fun s text =>
  ∃ units body, UnitsText units body ∧ s = join units ∧ text = '"' :: (body ++ ['"'])

theorem UnitsText.append {us us' : PyStr} {text text' : List Char} (h : UnitsText us text)
    (h' : UnitsText us' text') : UnitsText (us ++ us') (text ++ text') := by
  induction h with
  | nil => exact h'
  | cons hu _ ih =>
    rw [List.append_assoc]
    exact .cons hu ih

theorem unescape_ne {e : Char} {u : CodePoint} (h : unescape e = some u) : e ≠ 'u' := by
  rintro rfl
  cases h

/-- One code point is read off. -/
theorem scanUnits_append {u : CodePoint} {text : List Char} (h : UnitText u text)
    (input : List Char) :
    scanUnits (text ++ input) = (scanUnits input).map fun out => (u :: out.1, out.2) := by
  cases h with
  | plain h => simp [scanUnits, h]
  | short h => simp [scanUnits, unescape_ne h, h]
  | hex h => simp [scanUnits, h]

/-- **The code points of a literal** are read exactly. -/
theorem scanUnits_eq_some_iff {input rest : List Char} {us : PyStr} :
    scanUnits input = some (us, rest) ↔ ∃ body, UnitsText us body ∧ input = body ++ '"' :: rest := by
  constructor
  · intro hread
    fun_induction scanUnits input generalizing us rest with
    | case1 => cases hread
    | case2 rest' =>
      cases hread
      exact ⟨[], .nil, rfl⟩
    | case3 a b c d rest' u hu ih =>
      obtain ⟨⟨us', rest''⟩, hus, heq⟩ := Option.map_eq_some_iff.mp hread
      cases heq
      obtain ⟨body, hbody, rfl⟩ := ih hus
      exact ⟨_, .cons (.hex hu) hbody, by simp⟩
    | case4 => cases hread
    | case5 e rest' _ u hu ih =>
      obtain ⟨⟨us', rest''⟩, hus, heq⟩ := Option.map_eq_some_iff.mp hread
      cases heq
      obtain ⟨body, hbody, rfl⟩ := ih hus
      exact ⟨_, .cons (.short hu) hbody, by simp⟩
    | case6 => cases hread
    | case7 => cases hread
    | case8 c rest' hquote hhex hshort hplain ih =>
      obtain ⟨⟨us', rest''⟩, hus, heq⟩ := Option.map_eq_some_iff.mp hread
      cases heq
      obtain ⟨body, hbody, rfl⟩ := ih hus
      rw [not_or] at hplain
      exact ⟨_, .cons (.plain ⟨hquote, hplain.1, hplain.2⟩) hbody, by simp⟩
  · rintro ⟨body, hbody, rfl⟩
    induction hbody with
    | nil => rfl
    | cons hu _ ih => rw [List.append_assoc, scanUnits_append hu, ih, Option.map_some]

/-- **String literals** are read exactly, whatever follows them. -/
theorem reads_string : Reads (fun _ => True) scanString StringText where
  sound := by
    intro input s rest hread
    unfold scanString at hread
    split at hread
    · obtain ⟨units, rfl, hunits⟩ := mapScanner_eq_some_iff.mp hread
      obtain ⟨body, hbody, rfl⟩ := scanUnits_eq_some_iff.mp hunits
      exact ⟨_, ⟨units, body, hbody, rfl, rfl⟩, by simp⟩
    · cases hread
  complete := by
    rintro s text rest ⟨units, body, hbody, rfl, rfl⟩ -
    have hunits : scanUnits (body ++ '"' :: rest) = some (units, rest) :=
      scanUnits_eq_some_iff.mpr ⟨body, hbody, rfl⟩
    simp only [List.cons_append, List.append_assoc, List.nil_append, scanString]
    exact mapScanner_eq_some_iff.mpr ⟨units, rfl, hunits⟩

/-! ### Writing -/

/-- The hexadecimal digits. -/
def hexDigits : List Char := "0123456789abcdef".toList

/-- The digit of a number below 16. -/
def hexDigit (n : ℕ) : Char := hexDigits.getD n '0'

/-- The escape of a number of four hexadecimal digits. -/
def unicodeEscape (n : ℕ) : List Char :=
  ['\\', 'u', hexDigit (n / 0x1000), hexDigit (n / 0x100 % 0x10), hexDigit (n / 0x10 % 0x10),
    hexDigit (n % 0x10)]

/-- `ESCAPE_DCT`, with the letters of the escapes. -/
def escapeDct : List (Char × Char) :=
  [('\\', '\\'), ('"', '"'), ('\x08', 'b'), ('\x0C', 'f'), ('\n', 'n'), ('\r', 'r'), ('\t', 't')]

/-- One character of a literal. -/
def escapeChar (c : Char) : List Char :=
  match escapeDct.lookup c with
  | some e => ['\\', e]
  | none =>
    if ' ' ≤ c ∧ c ≤ '~' then [c]
    else if c.toNat < 0x10000 then unicodeEscape c.toNat
    else
      unicodeEscape (0xD800 + (c.toNat - 0x10000) / 0x400) ++
        unicodeEscape (0xDC00 + (c.toNat - 0x10000) % 0x400)

/-- `py_encode_basestring_ascii`. -/
def quote (text : List Char) : List Char := '"' :: (text.flatMap escapeChar ++ ['"'])

/-- The code points that the escapes of a character stand for. -/
def unitsOf (c : Char) : PyStr :=
  if c.toNat < 0x10000 then [codePoint c]
  else
    [.ofNat 0x110000 (0xD800 + (c.toNat - 0x10000) / 0x400),
      .ofNat 0x110000 (0xDC00 + (c.toNat - 0x10000) % 0x400)]

theorem hexValue_hexDigit {n : ℕ} (h : n < 16) : hexValue (hexDigit n) = some n := by
  have hall : ∀ n : Fin 16, hexValue (hexDigit n) = some n.val := by decide +kernel
  exact hall ⟨n, h⟩

theorem unitText_unicodeEscape {n : ℕ} (h : n < 0x10000) :
    UnitText (.ofNat 0x110000 n) (unicodeEscape n) := by
  refine .hex ?_
  have hsum : n / 0x1000 * 0x1000 + n / 0x100 % 0x10 * 0x100 + n / 0x10 % 0x10 * 0x10 + n % 0x10 =
      n := by omega
  simp only [hexUnit, hexValue_hexDigit (show n / 0x1000 < 16 by omega),
    hexValue_hexDigit (show n / 0x100 % 0x10 < 16 by omega),
    hexValue_hexDigit (show n / 0x10 % 0x10 < 16 by omega),
    hexValue_hexDigit (show n % 0x10 < 16 by omega), hsum]

theorem ofNat_toNat (c : Char) : Fin.ofNat 0x110000 c.toNat = codePoint c :=
  Fin.ext (Nat.mod_eq_of_lt (codePoint c).isLt)

theorem ofNat_val {n : ℕ} (h : n < 0x110000) : (Fin.ofNat 0x110000 n).val = n := Nat.mod_eq_of_lt h

/-- The scanner reads the letters that are written. -/
theorem unescape_of_lookup {c e : Char} (h : escapeDct.lookup c = some e) :
    unescape e = some (codePoint c) ∧ c.toNat < 0x10000 := by
  have hall : ∀ p ∈ escapeDct, unescape p.2 = some (codePoint p.1) ∧ p.1.toNat < 0x10000 := by
    decide +kernel
  obtain ⟨before, after, htable, -⟩ := List.lookup_eq_some_iff.mp h
  exact hall (c, e) (by rw [htable]; simp)

/-- One character is written as its code points. -/
theorem unitsText_escapeChar (c : Char) : UnitsText (unitsOf c) (escapeChar c) := by
  have hone : ∀ {u text}, UnitText u text → UnitsText [u] text := fun h => by
    simpa using UnitsText.cons h .nil
  unfold escapeChar unitsOf
  cases hletter : escapeDct.lookup c with
  | some e =>
    obtain ⟨hread, hlt⟩ := unescape_of_lookup hletter
    rw [if_pos hlt]
    exact hone (.short hread)
  | none =>
    simp only
    split_ifs with hlt hplain hplain
    · refine hone (.plain ⟨?_, ?_, Char.not_lt.mpr hplain.1⟩)
      · rintro rfl
        cases hletter
      · rintro rfl
        cases hletter
    · rw [← ofNat_toNat]
      exact hone (unitText_unicodeEscape hlt)
    · have htilde : c.toNat ≤ 126 := hplain.2
      omega
    · have hlt' : c.toNat < 0x110000 := (codePoint c).isLt
      exact (hone (unitText_unicodeEscape (by omega))).append
        (hone (unitText_unicodeEscape (by omega)))

theorem isHigh_codePoint (c : Char) : isHigh (codePoint c) = false := by
  have hval : (codePoint c).val = c.toNat := rfl
  rcases c.valid with h | ⟨h, -⟩
  · have : c.toNat < 0xD800 := h
    simp [isHigh, hval]
    omega
  · have : 0xDFFF < c.toNat := h
    simp [isHigh, hval]
    omega

theorem join_cons {u : CodePoint} (h : isHigh u = false) (us : PyStr) :
    join (u :: us) = u :: join us := by
  cases us with
  | nil => rfl
  | cons l us => simp [join, h]

/-- The pairs of what is written are joined again. -/
theorem join_unitsOf (c : Char) (us : PyStr) : join (unitsOf c ++ us) = codePoint c :: join us := by
  unfold unitsOf
  split_ifs with hlt
  · exact join_cons (isHigh_codePoint c) us
  · have hlt' : c.toNat < 0x110000 := (codePoint c).isLt
    have hhigh := ofNat_val (show 0xD800 + (c.toNat - 0x10000) / 0x400 < 0x110000 by omega)
    have hlow := ofNat_val (show 0xDC00 + (c.toNat - 0x10000) % 0x400 < 0x110000 by omega)
    have hpair : (isHigh (.ofNat 0x110000 (0xD800 + (c.toNat - 0x10000) / 0x400)) &&
        isLow (.ofNat 0x110000 (0xDC00 + (c.toNat - 0x10000) % 0x400))) = true := by
      simp only [isHigh, isLow, hhigh, hlow, Bool.and_eq_true, decide_eq_true_eq]
      omega
    have hsum : 0x10000 + (0xD800 + (c.toNat - 0x10000) / 0x400 - 0xD800) * 0x400 +
        (0xDC00 + (c.toNat - 0x10000) % 0x400 - 0xDC00) = c.toNat := by omega
    rw [List.cons_append, List.cons_append, List.nil_append, join, if_pos hpair, joinPair, hhigh,
      hlow, hsum, ofNat_toNat]

theorem join_flatMap_unitsOf (text : List Char) :
    join (text.flatMap unitsOf) = PyStr.ofText text := by
  induction text with
  | nil => rfl
  | cons c text ih => rw [List.flatMap_cons, join_unitsOf, ih]; rfl

/-- **What is written is a literal of it.** -/
theorem stringText_quote (text : List Char) : StringText (PyStr.ofText text) (quote text) := by
  refine ⟨text.flatMap unitsOf, text.flatMap escapeChar, ?_, (join_flatMap_unitsOf text).symm, rfl⟩
  induction text with
  | nil => exact .nil
  | cons c text ih =>
    rw [List.flatMap_cons, List.flatMap_cons]
    exact (unitsText_escapeChar c).append ih

theorem starts_string : Starts (fun c => c = '"') StringText := by
  rintro s text ⟨units, body, -, -, rfl⟩
  exact ⟨'"', _, rfl, rfl⟩

end OnlineAuction.Foundation.Json
