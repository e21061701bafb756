import OnlineAuction.Foundation.Json
import OnlineAuction.Foundation.Rounding
import Mathlib.Algebra.Order.Field.Power
import Mathlib.Tactic.IntervalCases

/-!
# Numerals

The texts of numbers, as programs print and read them. An integer is printed in the shortest way.
Reading is more liberal: `readInt` is what C and Redis take for an exact integer, `pyInt` is Python's
`int(text, base)`, and `readNumber` is what the `strtod` of C and the `float` of Python have in
common, a decimal numeral with a sign, a fraction and an exponent, or the name of an infinity or a
NaN, with blanks around it.

## What is proved

* `readInt_intText` and `readNumber_intText` — a printed integer is read back.
* `readNumber_decimal` — so is one with a fraction of any number of digits.
* `pyInt_intText` — a printed natural number is read by Python.
* `scanDigits_fixed` — digits of a fixed width are read back in any base up to sixteen.

## Honest scope

Only the digits of ASCII are digits. `readNumber` reads no hexadecimal numerals, which `strtod` does,
and no underscores between digits, which `float` does. `pyInt` has no limit on the number of digits.
-/

namespace OnlineAuction.Foundation

open Parsing Json

/-! ### Integers -/

/-- The shortest decimal numeral of an integer. -/
def intText : ℤ → List Char
  | .ofNat n => Nat.toDigits 10 n
  | .negSucc n => '-' :: Nat.toDigits 10 (n + 1)

/-- The shortest numerals of the natural numbers. -/
def readNat (text : List Char) : Option ℕ :=
  if text = ['0'] ∨ text ≠ [] ∧ text.all Char.isDigit ∧ text.head? ≠ some '0' then
    some (Nat.ofDigitChars 10 text 0)
  else none

/-- The shortest numerals, and no others. -/
def readInt : List Char → Option ℤ
  | '-' :: text => if text.head? = some '0' then none else (readNat text).map fun n => -n
  | text => (readNat text).map fun n => n

theorem isDigit_toDigits (n : ℕ) : ∀ c ∈ Nat.toDigits 10 n, c.isDigit = true := fun _ hc =>
  Nat.isDigit_of_mem_toDigits (by decide) (by decide) hc

/-- A shortest numeral begins with a zero when it is one. -/
theorem head_toDigits {n : ℕ} (hn : 0 < n) : (Nat.toDigits 10 n).head? ≠ some '0' := by
  induction n using Nat.strong_induction_on with
  | _ n ih =>
    by_cases hlt : n < 10
    · rw [Nat.toDigits_of_lt_base hlt]
      interval_cases n <;> decide
    · rw [Nat.toDigits_of_base_le (by decide) (not_lt.mp hlt),
        List.head?_append_of_ne_nil _ Nat.toDigits_ne_nil]
      exact ih (n / 10) (Nat.div_lt_self hn (by decide)) (Nat.div_pos (not_lt.mp hlt) (by decide))

theorem readNat_toDigits (n : ℕ) : readNat (Nat.toDigits 10 n) = some n := by
  rw [readNat, if_pos, Nat.ofDigitChars_toDigits (by decide) (by decide)]
  rcases Nat.eq_zero_or_pos n with rfl | hn
  · exact Or.inl (Nat.toDigits_zero 10)
  · exact Or.inr ⟨Nat.toDigits_ne_nil, List.all_eq_true.mpr (isDigit_toDigits n), head_toDigits hn⟩

/-- A numeral without a sign begins with a digit. -/
theorem toDigits_cons (n : ℕ) : ∃ c cs, Nat.toDigits 10 n = c :: cs ∧ c.isDigit = true := by
  obtain ⟨c, cs, h⟩ := List.exists_cons_of_ne_nil (Nat.toDigits_ne_nil (n := n) (b := 10))
  exact ⟨c, cs, h, isDigit_toDigits n c (h ▸ List.mem_cons_self)⟩

/-- **A printed integer is read back.** -/
theorem readInt_intText (n : ℤ) : readInt (intText n) = some n := by
  cases n with
  | ofNat n =>
    obtain ⟨c, cs, h, hc⟩ := toDigits_cons n
    have hread := readNat_toDigits n
    rw [intText, h] at *
    rw [readInt, hread]
    · rfl
    · exact fun text heq => ne_of_isDigit hc (by decide) (List.cons.inj heq).1.symm
  | negSucc n =>
    rw [intText, readInt, if_neg (head_toDigits n.succ_pos), readNat_toDigits]
    rfl

/-- Integers with the same text are the same. -/
theorem intText_injective : Function.Injective intText := fun m n h =>
  Option.some.inj ((readInt_intText m).symm.trans (h ▸ readInt_intText n))

/-! ### Digits of a fixed width -/

/-- The last `width` digits of a number in a base up to sixteen. -/
def fixedDigits (base : ℕ) : ℕ → ℕ → List Char
  | 0, _ => []
  | width + 1, n => fixedDigits base width (n / base) ++ [hexDigit (n % base)]

/-- The value of digits, single underscores between them; `seen` says that the last character was a
digit. -/
def scanDigits (base : ℕ) : ℕ → Bool → List Char → Option ℕ
  | n, seen, [] => if seen then some n else none
  | n, seen, c :: cs =>
    if c = '_' then if seen then scanDigits base n false cs else none
    else
      match hexValue c with
      | some d => if d < base then scanDigits base (base * n + d) true cs else none
      | none => none

theorem length_fixedDigits (base width n : ℕ) : (fixedDigits base width n).length = width := by
  induction width generalizing n with
  | zero => rfl
  | succ width ih => rw [fixedDigits, List.length_append, ih]; rfl

theorem hexDigit_ne {n : ℕ} (h : n < 16) {c : Char} (hc : hexValue c = none) : hexDigit n ≠ c := by
  rintro rfl
  cases hc.symm.trans (hexValue_hexDigit h)

theorem mem_fixedDigits {base : ℕ} (hpos : 0 < base) {width n : ℕ} {c : Char}
    (hc : c ∈ fixedDigits base width n) : ∃ d < base, c = hexDigit d := by
  induction width generalizing n with
  | zero => cases hc
  | succ width ih =>
    rcases List.mem_append.mp hc with hc | hc
    · exact ih hc
    · exact ⟨n % base, Nat.mod_lt n hpos, List.mem_singleton.mp hc⟩

/-- **Digits of a fixed width are read back.** -/
theorem scanDigits_fixed {base : ℕ} (hbase : base ≤ 16) (hpos : 0 < base) (width n acc : ℕ)
    (seen : Bool) (rest : List Char) :
    scanDigits base acc seen (fixedDigits base width n ++ rest) =
      scanDigits base (base ^ width * acc + n % base ^ width) (seen || 0 < width) rest := by
  induction width generalizing n rest with
  | zero => simp [fixedDigits, Nat.mod_one]
  | succ width ih =>
    have hlt : n % base < base := Nat.mod_lt n hpos
    have hvalue : base * (base ^ width * acc + n / base % base ^ width) + n % base =
        base ^ (width + 1) * acc + n % base ^ (width + 1) := by
      rw [pow_succ', Nat.mod_mul]
      ring
    rw [fixedDigits, List.append_assoc, List.singleton_append, ih, scanDigits,
      if_neg (hexDigit_ne (hlt.trans_le hbase) (by decide)), hexValue_hexDigit (hlt.trans_le hbase)]
    simp [hlt, hvalue]

/-- Numbers below the bound of a width with the same digits are the same. -/
theorem fixedDigits_inj {base : ℕ} (hbase : base ≤ 16) (hpos : 0 < base) {width m n : ℕ}
    (hwidth : 0 < width) (hm : m < base ^ width) (hn : n < base ^ width)
    (h : fixedDigits base width m = fixedDigits base width n) : m = n := by
  have hread : ∀ k, k < base ^ width → scanDigits base 0 false (fixedDigits base width k) = some k := by
    intro k hk
    have := scanDigits_fixed hbase hpos width k 0 false []
    simpa [scanDigits, hwidth, Nat.mod_eq_of_lt hk] using this
  exact Option.some.inj ((hread m hm).symm.trans (h ▸ hread n hn))

/-! ### Blanks around a numeral -/

/-- The text without the blanks at its ends. -/
def strip (blank : Char → Bool) (text : List Char) : List Char :=
  ((text.dropWhile blank).reverse.dropWhile blank).reverse

theorem dropWhile_of_all_not {blank : Char → Bool} {text : List Char}
    (h : ∀ c ∈ text, blank c = false) : text.dropWhile blank = text := by
  cases text with
  | nil => rfl
  | cons c cs => rw [List.dropWhile_cons_of_neg (by simp [h c List.mem_cons_self])]

theorem strip_of_all_not {blank : Char → Bool} {text : List Char} (h : ∀ c ∈ text, blank c = false) :
    strip blank text = text := by
  rw [strip, dropWhile_of_all_not h, dropWhile_of_all_not (by simpa using h), List.reverse_reverse]

/-! ### Python's integers -/

/-- After `0x`, and an underscore, the digits of base sixteen. -/
def dropHexPrefix : List Char → List Char
  | '0' :: x :: rest =>
    if x = 'x' ∨ x = 'X' then
      match rest with
      | '_' :: rest => rest
      | rest => rest
    else '0' :: x :: rest
  | text => text

/-- A sign, and what follows it. -/
def pySigned (read : List Char → Option ℕ) : List Char → Option ℤ
  | '-' :: rest => (read rest).map fun n => -n
  | '+' :: rest => (read rest).map fun n => n
  | rest => (read rest).map fun n => n

/-- Python's `int(text, base)`. -/
def pyInt (blank : Char → Bool) (base : ℕ) (text : List Char) : Option ℤ :=
  pySigned (fun rest => scanDigits base 0 false (if base = 16 then dropHexPrefix rest else rest))
    (strip blank text)

/-- A decimal digit is a hexadecimal one. -/
theorem hexValue_of_isDigit {c : Char} (hc : c.isDigit = true) :
    hexValue c = some (c.toNat - 48) ∧ c.toNat - 48 < 10 := by
  simp only [Char.isDigit, Bool.and_eq_true, decide_eq_true_eq] at hc
  have hle : '0' ≤ c ∧ c ≤ '9' := hc
  have hlt : c.toNat ≤ 57 := hc.2
  exact ⟨by rw [hexValue, if_pos hle], by omega⟩

theorem scanDigits_digits {text : List Char} (htext : ∀ c ∈ text, c.isDigit = true) (n : ℕ) :
    scanDigits 10 n true text = some (Nat.ofDigitChars 10 text n) := by
  induction text generalizing n with
  | nil => simp [scanDigits]
  | cons c cs ih =>
    have hc := htext c List.mem_cons_self
    obtain ⟨hvalue, hlt⟩ := hexValue_of_isDigit hc
    rw [scanDigits, if_neg (ne_of_isDigit hc (by decide)).symm, hvalue, Nat.ofDigitChars_cons]
    simp only [hlt, if_true]
    exact ih (fun d hd => htext d (List.mem_cons_of_mem _ hd)) _

/-- **A printed natural number is read by Python.** -/
theorem pyInt_intText {blank : Char → Bool} (hblank : ∀ c : Char, c.isDigit = true → blank c = false)
    (n : ℕ) : pyInt blank 10 (intText n) = some (n : ℤ) := by
  obtain ⟨c, cs, heq, hc⟩ := toDigits_cons n
  have hdigits := isDigit_toDigits n
  have hstrip : strip blank (intText n) = Nat.toDigits 10 n :=
    strip_of_all_not fun d hd => hblank d (hdigits d hd)
  obtain ⟨hvalue, hlt⟩ := hexValue_of_isDigit hc
  have hscan : scanDigits 10 0 false (c :: cs) = some n := by
    rw [scanDigits, if_neg (ne_of_isDigit hc (by decide)).symm, hvalue]
    simp only [hlt, if_true]
    rw [scanDigits_digits fun d hd => hdigits d (heq ▸ List.mem_cons_of_mem _ hd),
      show 10 * 0 + (c.toNat - 48) = 10 * 0 + (c.toNat - '0'.toNat) from rfl, ← Nat.ofDigitChars_cons,
      ← heq, Nat.ofDigitChars_toDigits (by decide) (by decide)]
  rw [pyInt, hstrip, heq, pySigned]
  · simp [hscan]
  · exact fun rest h => ne_of_isDigit hc (by decide) (List.cons.inj h).1.symm
  · exact fun rest h => ne_of_isDigit hc (by decide) (List.cons.inj h).1.symm

/-! ### Numbers -/

/-- The same number with the other sign. -/
def Number.neg : Number → Number
  | .nan => .nan
  | .negInf => .posInf
  | .posInf => .negInf
  | .fin q => .fin (-q)

/-- An exponent, or nothing. -/
def readExponent : List Char → Option ℤ
  | [] => some 0
  | c :: cs =>
    let out := scanSign cs
    if (c = 'e' ∨ c = 'E') ∧ out.2 ≠ [] ∧ out.2.all Char.isDigit then
      some (if out.1 = ['-'] then -(Nat.ofDigitChars 10 out.2 0 : ℤ) else Nat.ofDigitChars 10 out.2 0)
    else none

/-- The digits after a point, if there is one, and the rest. -/
def readFraction : List Char → List Char × List Char
  | '.' :: rest => (rest.takeWhile Char.isDigit, rest.dropWhile Char.isDigit)
  | rest => ([], rest)

/-- A decimal numeral without a sign: digits before or after the point, and an exponent. -/
def readDecimal (text : List Char) : Option ℚ :=
  let int := text.takeWhile Char.isDigit
  let frac := readFraction (text.dropWhile Char.isDigit)
  if int = [] ∧ frac.1 = [] then none
  else (readExponent frac.2).map fun e : ℤ =>
    (Nat.ofDigitChars 10 (int ++ frac.1) 0 : ℚ) * 10 ^ (e - frac.1.length)

/-- The names of the numbers that are not finite. -/
def numberNames : List (List Char × Number) :=
  [("inf".toList, .posInf), ("infinity".toList, .posInf), ("nan".toList, .nan)]

/-- A number without a sign. -/
def readUnsigned (text : List Char) : Option Number :=
  match numberNames.lookup (text.map Char.toLower) with
  | some x => some x
  | none => (readDecimal text).map .fin

/-- A number, with blanks around it. -/
def readNumber (blank : Char → Bool) (text : List Char) : Option Number :=
  match strip blank text with
  | '-' :: rest => (readUnsigned rest).map .neg
  | '+' :: rest => readUnsigned rest
  | rest => readUnsigned rest

/-- The digits of a numeral are no blanks. -/
def KeepsNumerals (blank : Char → Bool) : Prop :=
  ∀ c : Char, c.isDigit = true ∨ c ∈ ['-', '.', 'n', 'a', 'i', 'f'] → blank c = false

/-- A numeral with a fraction: its value. -/
theorem readDecimal_point {int frac : List Char} (hint : int ≠ [])
    (hdigits : ∀ c ∈ int ++ frac, c.isDigit = true) :
    readDecimal (int ++ '.' :: frac) =
      some (Nat.ofDigitChars 10 (int ++ frac) 0 / (10 : ℚ) ^ frac.length) := by
  have hd := @digits_append int ('.' :: frac)
    (fun c hc => hdigits c (List.mem_append_left _ hc)) (by simp)
  have hf := @digits_append frac []
    (fun c hc => hdigits c (List.mem_append_right _ hc)) (by simp)
  rw [List.append_nil] at hf
  simp only [readDecimal, hd.1, hd.2, readFraction, hf.1, hf.2, hint, false_and, if_false,
    readExponent, Option.map_some, zero_sub, zpow_neg, zpow_natCast, div_eq_mul_inv]

/-- A numeral without a fraction: its value. -/
theorem readDecimal_digits {int : List Char} (hint : int ≠ []) (hdigits : ∀ c ∈ int, c.isDigit = true) :
    readDecimal int = some (Nat.ofDigitChars 10 int 0 : ℚ) := by
  have hd := @digits_append int [] hdigits (by simp)
  rw [List.append_nil] at hd
  simp [readDecimal, hd.1, hd.2, readFraction, hint, readExponent]

/-- A digit has no other case. -/
theorem toLower_of_isDigit {c : Char} (hc : c.isDigit = true) : c.toLower = c := by
  simp only [Char.isDigit, Bool.and_eq_true, decide_eq_true_eq] at hc
  have hle : c.val ≤ '9'.val := hc.2
  refine dif_neg ?_
  rintro ⟨hge, -⟩
  exact absurd (UInt32.le_trans hge hle) (by decide)

/-- What begins with a digit is no name. -/
theorem readUnsigned_of_isDigit {c : Char} (hc : c.isDigit = true) (cs : List Char) :
    readUnsigned (c :: cs) = (readDecimal (c :: cs)).map .fin := by
  have hne : ∀ d : Char, d.isDigit = false → (c == d) = false := fun d hd =>
    beq_false_of_ne (ne_of_isDigit hc hd).symm
  have hlookup : numberNames.lookup ((c :: cs).map Char.toLower) = none := by
    simp [numberNames, List.lookup_cons, toLower_of_isDigit hc, hne 'i' (by decide),
      hne 'n' (by decide)]
  simp only [readUnsigned, hlookup]

/-- A numeral is stripped of nothing. -/
theorem KeepsNumerals.strip {blank : Char → Bool} (h : KeepsNumerals blank) {text : List Char}
    (htext : ∀ c ∈ text, c.isDigit = true ∨ c ∈ ['-', '.', 'n', 'a', 'i', 'f']) :
    strip blank text = text := strip_of_all_not fun c hc => h c (htext c hc)

/-- A numeral that begins with a digit, with a minus or without a sign. -/
theorem readNumber_signed {blank : Char → Bool} (hblank : KeepsNumerals blank) {c : Char}
    {cs : List Char} (hc : c.isDigit = true)
    (hcs : ∀ d ∈ cs, d.isDigit = true ∨ d ∈ ['-', '.', 'n', 'a', 'i', 'f']) {q : ℚ}
    (hread : readDecimal (c :: cs) = some q) :
    readNumber blank (c :: cs) = some (.fin q) ∧
      readNumber blank ('-' :: c :: cs) = some (.fin (-q)) := by
  have hunsigned : readUnsigned (c :: cs) = some (.fin q) := by
    rw [readUnsigned_of_isDigit hc, hread]
    rfl
  have hmem : ∀ d ∈ c :: cs, d.isDigit = true ∨ d ∈ ['-', '.', 'n', 'a', 'i', 'f'] := by
    intro d hd
    rcases List.mem_cons.mp hd with rfl | hd
    · exact Or.inl hc
    · exact hcs d hd
  constructor
  · rw [readNumber, hblank.strip hmem]
    split
    · rename_i h
      exact absurd (List.cons.inj h).1 (ne_of_isDigit hc (by decide)).symm
    · rename_i h
      exact absurd (List.cons.inj h).1 (ne_of_isDigit hc (by decide)).symm
    · exact hunsigned
  · have hstrip := @KeepsNumerals.strip blank hblank ('-' :: c :: cs) fun d hd => by
      rcases List.mem_cons.mp hd with rfl | hd
      · exact Or.inr (by simp)
      · exact hmem d hd
    rw [readNumber, hstrip]
    simp only [hunsigned, Option.map_some, Number.neg]

/-- **A decimal numeral with a fraction is read back.** -/
theorem readNumber_decimal {blank : Char → Bool} (hblank : KeepsNumerals blank) {int frac : List Char}
    (hint : int ≠ []) (hdigits : ∀ c ∈ int ++ frac, c.isDigit = true) :
    readNumber blank (int ++ '.' :: frac) =
        some (.fin (Nat.ofDigitChars 10 (int ++ frac) 0 / (10 : ℚ) ^ frac.length)) ∧
      readNumber blank ('-' :: (int ++ '.' :: frac)) =
        some (.fin (-(Nat.ofDigitChars 10 (int ++ frac) 0 / (10 : ℚ) ^ frac.length))) := by
  have hread := readDecimal_point hint hdigits
  obtain ⟨c, cs, rfl⟩ := List.exists_cons_of_ne_nil hint
  refine readNumber_signed hblank (hdigits c (by simp)) ?_ hread
  intro d hd
  rcases List.mem_append.mp hd with hd | hd
  · exact Or.inl (hdigits d (by simp [hd]))
  · rcases List.mem_cons.mp hd with rfl | hd
    · exact Or.inr (by simp)
    · exact Or.inl (hdigits d (by simp [hd]))

/-- **A printed integer is read back as a number.** -/
theorem readNumber_intText {blank : Char → Bool} (hblank : KeepsNumerals blank) (n : ℤ) :
    readNumber blank (intText n) = some (.fin n) := by
  have hnat : ∀ k : ℕ, readNumber blank (Nat.toDigits 10 k) = some (.fin k) ∧
      readNumber blank ('-' :: Nat.toDigits 10 k) = some (.fin (-k)) := by
    intro k
    have hread := readDecimal_digits Nat.toDigits_ne_nil (isDigit_toDigits k)
    rw [Nat.ofDigitChars_toDigits (by decide) (by decide)] at hread
    obtain ⟨c, cs, heq, hc⟩ := toDigits_cons k
    have hdigits := isDigit_toDigits k
    rw [heq] at hread hdigits ⊢
    exact readNumber_signed hblank hc (fun d hd => Or.inl (hdigits d (by simp [hd]))) hread
  cases n with
  | ofNat k => simpa [intText] using (hnat k).1
  | negSucc k => simpa [intText, Int.negSucc_eq] using (hnat (k + 1)).2

end OnlineAuction.Foundation
