import OnlineAuction.Foundation.Parsing

/-!
# JSON numbers

A number is an integer with an optional sign, an optional fraction and an optional exponent.
`scanNumber` is `_match_number_unicode` of Python's `json`, and a number is kept as its literal.
Python converts an integer only up to `intMaxStrDigits` digits.

## What is proved

* `reads_number` — the scanner reads the literals of `NumberText` exactly where no character of a
  number follows.
-/

namespace OnlineAuction.Foundation.Json

open Parsing

/-- How many digits `int` takes. -/
def intMaxStrDigits : ℕ := 4300

/-- The digits of an integer: a zero, or digits that do not begin with one. -/
def scanInteger : Scanner (List Char)
  | [] => none
  | c :: rest =>
    if c = '0' then some (['0'], rest)
    else if c.isDigit then some (c :: rest.takeWhile Char.isDigit, rest.dropWhile Char.isDigit)
    else none

/-- A fraction, if there is one. -/
def scanFraction : List Char → List Char × List Char
  | c :: d :: rest =>
    if c = '.' ∧ d.isDigit = true then
      (c :: d :: rest.takeWhile Char.isDigit, rest.dropWhile Char.isDigit)
    else ([], c :: d :: rest)
  | input => ([], input)

/-- The sign of an exponent, if there is one. -/
def scanSign : List Char → List Char × List Char
  | c :: rest => if c = '+' ∨ c = '-' then ([c], rest) else ([], c :: rest)
  | [] => ([], [])

/-- An exponent, if there is one. -/
def scanExponent : List Char → List Char × List Char
  | c :: rest =>
    let out := scanSign rest
    if (c = 'e' ∨ c = 'E') ∧ out.2.takeWhile Char.isDigit ≠ [] then
      (c :: (out.1 ++ out.2.takeWhile Char.isDigit), out.2.dropWhile Char.isDigit)
    else ([], c :: rest)
  | [] => ([], [])

/-- A number without its sign. -/
def scanUnsigned : Scanner (List Char) := fun input =>
  match scanInteger input with
  | none => none
  | some (int, rest) =>
    let frac := scanFraction rest
    let exp := scanExponent frac.2
    if frac.1 = [] ∧ exp.1 = [] ∧ intMaxStrDigits < int.length then none
    else some (int ++ (frac.1 ++ exp.1), exp.2)

/-- `_match_number_unicode`. -/
def scanNumber : Scanner (List Char)
  | [] => none
  | c :: rest => if c = '-' then mapScanner (c :: ·) scanUnsigned rest else scanUnsigned (c :: rest)

/-! ### Literals -/

/-- One digit or more. -/
def Digits (ds : List Char) : Prop := ds ≠ [] ∧ ∀ d ∈ ds, d.isDigit = true

/-- The integers. -/
def IntegerText (int : List Char) : Prop :=
  int = ['0'] ∨ ∃ c cs, int = c :: cs ∧ c ≠ '0' ∧ c.isDigit = true ∧ ∀ d ∈ cs, d.isDigit = true

/-- The fractions, and nothing. -/
def FractionText (frac : List Char) : Prop := frac = [] ∨ ∃ ds, frac = '.' :: ds ∧ Digits ds

/-- The exponents, and nothing. -/
def ExponentText (exp : List Char) : Prop :=
  exp = [] ∨ ∃ c sign ds, (c = 'e' ∨ c = 'E') ∧ (sign = [] ∨ sign = ['+'] ∨ sign = ['-']) ∧
    Digits ds ∧ exp = c :: (sign ++ ds)

/-- The numbers without a sign. -/
def UnsignedText (text : List Char) : Prop :=
  ∃ int frac exp, IntegerText int ∧ FractionText frac ∧ ExponentText exp ∧
    (frac = [] → exp = [] → int.length ≤ intMaxStrDigits) ∧ text = int ++ (frac ++ exp)

/-- The numbers, each standing for its literal. -/
def NumberText : Lang (List Char) := fun literal text => literal = text ∧
  (UnsignedText text ∨ ∃ unsigned, UnsignedText unsigned ∧ text = '-' :: unsigned)

/-- A character that is in no number. -/
def endsNumber (c : Char) : Prop := c.isDigit = false ∧ c ≠ '.' ∧ c ≠ 'e' ∧ c ≠ 'E'

instance (c : Char) : Decidable (endsNumber c) := inferInstanceAs (Decidable (_ ∧ _ ∧ _ ∧ _))

theorem digits_append {ds rest : List Char} (hds : ∀ d ∈ ds, d.isDigit = true)
    (hrest : Before (fun c => c.isDigit = false) rest) :
    (ds ++ rest).takeWhile Char.isDigit = ds ∧ (ds ++ rest).dropWhile Char.isDigit = rest := by
  refine ⟨?_, skip_append hds hrest⟩
  rw [List.takeWhile_append_of_pos hds]
  cases rest with
  | nil => simp
  | cons c rest => simp [before_cons.mp hrest]

theorem mem_takeWhile_isDigit (text : List Char) :
    ∀ d ∈ text.takeWhile Char.isDigit, d.isDigit = true := fun _ hd => List.mem_takeWhile_imp hd

/-! ### The integer -/

theorem scanInteger_sound {input int rest : List Char} (h : scanInteger input = some (int, rest)) :
    IntegerText int ∧ input = int ++ rest := by
  cases input with
  | nil => cases h
  | cons c input =>
    rw [scanInteger] at h
    split_ifs at h with hzero hdigit
    · cases h
      exact ⟨Or.inl rfl, by simp [hzero]⟩
    · cases h
      exact ⟨Or.inr ⟨c, _, rfl, hzero, hdigit, mem_takeWhile_isDigit input⟩, by simp⟩

theorem scanInteger_complete {int rest : List Char} (h : IntegerText int)
    (hrest : Before (fun c => c.isDigit = false) rest) :
    scanInteger (int ++ rest) = some (int, rest) := by
  rcases h with rfl | ⟨c, cs, rfl, hzero, hdigit, hcs⟩
  · rfl
  · obtain ⟨htake, hdrop⟩ := digits_append hcs hrest
    rw [List.cons_append, scanInteger, if_neg hzero, if_pos hdigit, htake, hdrop]

/-! ### The fraction -/

theorem scanFraction_sound (input : List Char) :
    FractionText (scanFraction input).1 ∧
      input = (scanFraction input).1 ++ (scanFraction input).2 := by
  unfold scanFraction
  split
  · rename_i c d rest
    split_ifs with h
    · refine ⟨Or.inr ⟨d :: rest.takeWhile Char.isDigit, by rw [h.1], by simp, ?_⟩, by simp⟩
      rintro x hx
      rcases List.mem_cons.mp hx with rfl | hx
      · exact h.2
      · exact mem_takeWhile_isDigit rest x hx
    · exact ⟨Or.inl rfl, rfl⟩
  · exact ⟨Or.inl rfl, rfl⟩

theorem scanFraction_complete {frac rest : List Char} (h : FractionText frac)
    (hrest : Before (fun c => c.isDigit = false ∧ c ≠ '.') rest) :
    scanFraction (frac ++ rest) = (frac, rest) := by
  rcases h with rfl | ⟨ds, rfl, hne, hds⟩
  · rw [List.nil_append]
    unfold scanFraction
    split
    · rename_i c d rest
      rw [if_neg fun h => (before_cons.mp hrest).2 h.1]
    · rfl
  · cases ds with
    | nil => exact absurd rfl hne
    | cons d ds =>
      obtain ⟨hd, hds⟩ := List.forall_mem_cons.mp hds
      obtain ⟨htake, hdrop⟩ := digits_append hds (fun c hc => (hrest c hc).1)
      simp only [List.cons_append, scanFraction, hd, htake, hdrop, and_self, if_true]

/-! ### The exponent -/

theorem scanSign_sound (input : List Char) :
    ((scanSign input).1 = [] ∨ (scanSign input).1 = ['+'] ∨ (scanSign input).1 = ['-']) ∧
      input = (scanSign input).1 ++ (scanSign input).2 := by
  unfold scanSign
  split
  · split_ifs with h
    · rcases h with rfl | rfl
      · exact ⟨Or.inr (Or.inl rfl), rfl⟩
      · exact ⟨Or.inr (Or.inr rfl), rfl⟩
    · exact ⟨Or.inl rfl, rfl⟩
  · exact ⟨Or.inl rfl, rfl⟩

theorem scanSign_complete {sign ds rest : List Char}
    (h : sign = [] ∨ sign = ['+'] ∨ sign = ['-']) (hds : Digits ds) :
    scanSign (sign ++ (ds ++ rest)) = (sign, ds ++ rest) := by
  rcases h with rfl | rfl | rfl
  · cases ds with
    | nil => exact absurd rfl hds.1
    | cons d ds =>
      have hdigit := hds.2 d (by simp)
      have hsign : ¬ (d = '+' ∨ d = '-') := by
        rintro (rfl | rfl)
        · cases hdigit
        · cases hdigit
      simp only [List.nil_append, List.cons_append, scanSign, hsign, if_false]
  · rfl
  · rfl

theorem scanExponent_sound (input : List Char) :
    ExponentText (scanExponent input).1 ∧
      input = (scanExponent input).1 ++ (scanExponent input).2 := by
  unfold scanExponent
  split
  · rename_i c rest
    simp only
    split_ifs with h
    · obtain ⟨hsign, hrest⟩ := scanSign_sound rest
      refine ⟨Or.inr ⟨c, _, _, h.1, hsign, ⟨h.2, mem_takeWhile_isDigit _⟩, rfl⟩, ?_⟩
      rw [List.cons_append, List.append_assoc, List.takeWhile_append_dropWhile, ← hrest]
    · exact ⟨Or.inl rfl, rfl⟩
  · exact ⟨Or.inl rfl, rfl⟩

theorem scanExponent_complete {exp rest : List Char} (h : ExponentText exp)
    (hrest : Before (fun c => c.isDigit = false ∧ c ≠ 'e' ∧ c ≠ 'E') rest) :
    scanExponent (exp ++ rest) = (exp, rest) := by
  rcases h with rfl | ⟨c, sign, ds, hc, hsign, hds, rfl⟩
  · rw [List.nil_append]
    unfold scanExponent
    split
    · rename_i c rest
      obtain ⟨-, he, hE⟩ := before_cons.mp hrest
      simp [he, hE]
    · rfl
  · obtain ⟨htake, hdrop⟩ := digits_append hds.2 (fun c hc => (hrest c hc).1)
    have hscan : scanSign (sign ++ (ds ++ rest)) = (sign, ds ++ rest) :=
      scanSign_complete hsign hds
    rw [List.cons_append, List.append_assoc]
    simp only [scanExponent, hscan, htake, hdrop]
    rw [if_pos ⟨hc, hds.1⟩]

/-! ### The number -/

theorem IntegerText.starts {int : List Char} (h : IntegerText int) :
    ∃ c cs, int = c :: cs ∧ c.isDigit = true := by
  rcases h with rfl | ⟨c, cs, rfl, -, hdigit, -⟩
  · exact ⟨'0', [], rfl, rfl⟩
  · exact ⟨c, cs, rfl, hdigit⟩

theorem UnsignedText.starts {text : List Char} (h : UnsignedText text) :
    ∃ c cs, text = c :: cs ∧ c.isDigit = true := by
  obtain ⟨int, frac, exp, hint, -, -, -, rfl⟩ := h
  obtain ⟨c, cs, rfl, hc⟩ := hint.starts
  exact ⟨c, _, rfl, hc⟩

/-- What follows an integer begins with no digit, and what follows a fraction does not either. -/
theorem ExponentText.before {exp rest : List Char} (h : ExponentText exp)
    (hrest : Before endsNumber rest) :
    Before (fun c => c.isDigit = false ∧ c ≠ '.') (exp ++ rest) := by
  rcases h with rfl | ⟨c, sign, ds, hc, -, -, rfl⟩
  · exact fun c hc => ⟨(hrest c hc).1, (hrest c hc).2.1⟩
  · rw [List.cons_append, before_cons]
    rcases hc with rfl | rfl <;> decide

theorem FractionText.before {frac exp rest : List Char} (h : FractionText frac)
    (hexp : ExponentText exp) (hrest : Before endsNumber rest) :
    Before (fun c => c.isDigit = false) (frac ++ (exp ++ rest)) := by
  rcases h with rfl | ⟨ds, rfl, -⟩
  · exact fun c hc => (hexp.before hrest c hc).1
  · rw [List.cons_append, before_cons]
    decide

theorem scanUnsigned_sound {input text rest : List Char}
    (h : scanUnsigned input = some (text, rest)) : UnsignedText text ∧ input = text ++ rest := by
  rw [scanUnsigned] at h
  split at h
  · cases h
  · rename_i int after hscan
    obtain ⟨hint, rfl⟩ := scanInteger_sound hscan
    obtain ⟨hfrac, hafter⟩ := scanFraction_sound after
    obtain ⟨hexp, hafter'⟩ := scanExponent_sound (scanFraction after).2
    simp only at h
    split_ifs at h with hlong
    cases h
    refine ⟨⟨int, _, _, hint, hfrac, hexp, ?_, rfl⟩, ?_⟩
    · exact fun hf he => not_lt.mp fun hlt => hlong ⟨hf, he, hlt⟩
    · rw [List.append_assoc, List.append_assoc, ← hafter', ← hafter]

theorem scanUnsigned_complete {text rest : List Char} (h : UnsignedText text)
    (hrest : Before endsNumber rest) : scanUnsigned (text ++ rest) = some (text, rest) := by
  obtain ⟨int, frac, exp, hint, hfrac, hexp, hlen, rfl⟩ := h
  have hscanInt := scanInteger_complete hint (hfrac.before hexp hrest)
  have hscanFrac := scanFraction_complete hfrac (hexp.before hrest)
  have hscanExp : scanExponent (exp ++ rest) = (exp, rest) :=
    scanExponent_complete hexp fun c hc => ⟨(hrest c hc).1, (hrest c hc).2.2⟩
  have hshort : ¬ (frac = [] ∧ exp = [] ∧ intMaxStrDigits < int.length) :=
    fun ⟨hf, he, hlt⟩ => absurd (hlen hf he) (not_le.mpr hlt)
  simp only [List.append_assoc, scanUnsigned, hscanInt, hscanFrac, hscanExp, hshort, if_false]

/-- **Numbers** are read exactly where no character of a number follows. -/
theorem reads_number : Reads endsNumber scanNumber NumberText where
  sound := by
    intro input literal rest hread
    cases input with
    | nil => cases hread
    | cons c input =>
      rw [scanNumber] at hread
      split_ifs at hread with hminus
      · obtain ⟨text, rfl, htext⟩ := mapScanner_eq_some_iff.mp hread
        obtain ⟨hunsigned, rfl⟩ := scanUnsigned_sound htext
        exact ⟨c :: text, ⟨rfl, Or.inr ⟨text, hunsigned, by rw [hminus]⟩⟩, rfl⟩
      · obtain ⟨hunsigned, heq⟩ := scanUnsigned_sound hread
        exact ⟨literal, ⟨rfl, Or.inl hunsigned⟩, heq⟩
  complete := by
    rintro literal text rest ⟨rfl, hunsigned | ⟨unsigned, hunsigned, rfl⟩⟩ hrest
    · obtain ⟨c, cs, rfl, hc⟩ := hunsigned.starts
      have hminus : c ≠ '-' := by
        rintro rfl
        cases hc
      rw [List.cons_append, scanNumber, if_neg hminus]
      exact scanUnsigned_complete hunsigned hrest
    · rw [List.cons_append, scanNumber, if_pos rfl]
      exact mapScanner_eq_some_iff.mpr ⟨unsigned, rfl, scanUnsigned_complete hunsigned hrest⟩

end OnlineAuction.Foundation.Json
