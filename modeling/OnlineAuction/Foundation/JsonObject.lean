import OnlineAuction.Foundation.Numerals

/-!
# Objects of strings and integers

Python writes a dictionary of strings and integers as a JSON object. How it does depends on the
separators and on whether it escapes what is not ASCII (`Style`); what it stands for does not.

## What is proved

* `loads_dumpObject` — whatever the style, reading undoes writing.
* `redump_dumpObject` — what was written in one style, read and written again in another is as if it
  had been written in the other at once.

## Honest scope

The keys of a dictionary are distinct; nothing here depends on it. Other values are not written.
-/

namespace OnlineAuction.Foundation.Json

open Parsing

/-! ### Values -/

/-- An integer or a string. -/
inductive Scalar where
  /-- An integer. -/
  | int (n : ℤ)
  /-- A string. -/
  | str (text : List Char)
  deriving DecidableEq

/-- The members of a dictionary. -/
abbrev Members := List (List Char × Scalar)

/-- What is read of a scalar. -/
def Scalar.json : Scalar → Json
  | .int n => .number (intText n)
  | .str text => .str (PyStr.ofText text)

/-- What is read of a dictionary. -/
def objectOf (members : Members) : Json :=
  .object (members.map fun m => (PyStr.ofText m.1, m.2.json))

/-- The text of a string, if it has one. -/
def textOf (s : PyStr) : Option (List Char) := if s.isText then some s.text.toList else none

/-- The scalar that was read, if it is one. -/
def scalarOf : Json → Option Scalar
  | .number literal => (readInt literal).map .int
  | .str s => (textOf s).map .str
  | _ => none

/-- The dictionary of scalars that was read, if it is one. -/
def membersOf : Json → Option Members
  | .object members => members.mapM fun m =>
    (textOf m.1).bind fun key => (scalarOf m.2).map fun value => (key, value)
  | _ => none

theorem textOf_ofText (text : List Char) : textOf (PyStr.ofText text) = some text := by
  rw [textOf, if_pos ((PyStr.isText_iff _).mpr ⟨text, rfl⟩), PyStr.text_ofText, String.toList_ofList]

theorem scalarOf_json (v : Scalar) : scalarOf v.json = some v := by
  cases v with
  | int n => simp [Scalar.json, scalarOf, readInt_intText]
  | str text => simp [Scalar.json, scalarOf, textOf_ofText]

/-- **A dictionary is what is read of it.** -/
theorem membersOf_objectOf (members : Members) : membersOf (objectOf members) = some members := by
  rw [objectOf, membersOf, List.mapM_map]
  induction members with
  | nil => rfl
  | cons m members ih => simp [List.mapM_cons, textOf_ofText, scalarOf_json, ih]

/-! ### Writing -/

/-- How a dictionary is written. -/
structure Style where
  /-- What follows a comma. -/
  afterComma : List Char
  /-- What follows a colon. -/
  afterColon : List Char
  /-- How a string is written. -/
  quote : List Char → List Char
  /-- Only blanks follow a comma. -/
  blankComma : Blanks isBlank afterComma
  /-- Only blanks follow a colon. -/
  blankColon : Blanks isBlank afterColon
  /-- A string is written as a literal of it. -/
  quotes : ∀ text, StringText (PyStr.ofText text) (quote text)

/-- A scalar. -/
def dumpScalar (S : Style) : Scalar → List Char
  | .int n => intText n
  | .str text => S.quote text

/-- The members, between the braces. -/
def dumpMembers (S : Style) : Members → List Char
  | [] => []
  | [m] => S.quote m.1 ++ ':' :: (S.afterColon ++ dumpScalar S m.2)
  | m :: m' :: members => S.quote m.1 ++ ':' :: (S.afterColon ++ dumpScalar S m.2) ++
      ',' :: (S.afterComma ++ dumpMembers S (m' :: members))

/-- `json.dumps`. -/
def dumpObject (S : Style) (members : Members) : List Char := '{' :: (dumpMembers S members ++ ['}'])

/-- `json.loads`, then `json.dumps`; `none` when a dictionary of scalars was not read. -/
def redump (S : Style) (limit : ℕ) (text : List Char) : Option (List Char) :=
  (loads limit text).bind fun v => (membersOf v).map (dumpObject S)

/-! ### The styles -/

/-- The style of `json.dumps`. -/
def Style.default : Style where
  afterComma := [' ']
  afterColon := [' ']
  quote := Json.quote
  blankComma := by simp [Blanks, isBlank]
  blankColon := by simp [Blanks, isBlank]
  quotes := stringText_quote

/-- One character of a literal that may have others than those of ASCII. -/
def escapeRaw (c : Char) : List Char :=
  match escapeDct.lookup c with
  | some e => ['\\', e]
  | none => if ' ' ≤ c then [c] else unicodeEscape c.toNat

/-- `py_encode_basestring`. -/
def quoteRaw (text : List Char) : List Char := '"' :: (text.flatMap escapeRaw ++ ['"'])

theorem unitText_escapeRaw (c : Char) : UnitText (codePoint c) (escapeRaw c) := by
  unfold escapeRaw
  cases hletter : escapeDct.lookup c with
  | some e => exact .short (unescape_of_lookup hletter).1
  | none =>
    simp only
    split_ifs with hplain
    · refine .plain ⟨?_, ?_, Char.not_lt.mpr hplain⟩
      · rintro rfl
        cases hletter
      · rintro rfl
        cases hletter
    · have hlt : c.toNat < 32 := Char.not_le.mp hplain
      rw [← ofNat_toNat]
      exact unitText_unicodeEscape (by omega)

/-- **What is written raw is a literal of it**, too. -/
theorem stringText_quoteRaw (text : List Char) : StringText (PyStr.ofText text) (quoteRaw text) := by
  refine ⟨PyStr.ofText text, text.flatMap escapeRaw, ?_, ?_, rfl⟩
  · induction text with
    | nil => exact .nil
    | cons c text ih => exact .cons (unitText_escapeRaw c) ih
  · induction text with
    | nil => rfl
    | cons c text ih =>
      show PyStr.ofText (c :: text) = join (codePoint c :: PyStr.ofText text)
      rw [join_cons (isHigh_codePoint c), ← ih]
      rfl

/-- Without blanks, and without escapes that are not needed. -/
def Style.compact : Style where
  afterComma := []
  afterColon := []
  quote := quoteRaw
  blankComma := blanks_nil
  blankColon := blanks_nil
  quotes := stringText_quoteRaw

/-! ### Reading undoes writing -/

/-- The integers are not too long for Python. -/
def Fits (members : Members) : Prop :=
  ∀ m ∈ members, ∀ n, m.2 = .int n → (intText n).length ≤ intMaxStrDigits

/-- A number of no more than so many digits. -/
theorem length_intText {n : ℕ} (h : n < 10 ^ intMaxStrDigits) :
    (intText n).length ≤ intMaxStrDigits :=
  (Nat.length_toDigits_le_iff (by decide) (by decide)).mpr h

theorem integerText_toDigits (n : ℕ) : IntegerText (Nat.toDigits 10 n) := by
  rcases n.eq_zero_or_pos with rfl | hpos
  · exact Or.inl (Nat.toDigits_zero 10)
  · obtain ⟨c, cs, heq, hc⟩ := toDigits_cons n
    refine Or.inr ⟨c, cs, heq, ?_, hc, fun d hd => isDigit_toDigits n d (heq ▸ List.mem_cons_of_mem c hd)⟩
    rintro rfl
    exact head_toDigits hpos (by rw [heq]; rfl)

theorem unsignedText_toDigits {n : ℕ} (h : (Nat.toDigits 10 n).length ≤ intMaxStrDigits) :
    UnsignedText (Nat.toDigits 10 n) :=
  ⟨_, [], [], integerText_toDigits n, Or.inl rfl, Or.inl rfl, fun _ _ => h, by simp⟩

/-- A printed integer is a literal. -/
theorem numberText_intText {n : ℤ} (h : (intText n).length ≤ intMaxStrDigits) :
    NumberText (intText n) (intText n) := by
  refine ⟨rfl, ?_⟩
  cases n with
  | ofNat n => exact Or.inl (unsignedText_toDigits h)
  | negSucc n =>
    refine Or.inr ⟨_, unsignedText_toDigits (Nat.le_of_succ_le h), rfl⟩

section Write

variable (S : Style)

theorem valueText_dumpScalar (limit : ℕ) {v : Scalar}
    (h : ∀ n, v = .int n → (intText n).length ≤ intMaxStrDigits) :
    ValueText limit v.json (dumpScalar S v) := by
  cases v with
  | int n => cases limit <;> exact .number (numberText_intText (h n rfl))
  | str text => cases limit <;> exact .str (S.quotes text)

theorem pairText_dump (limit : ℕ) {m : List Char × Scalar}
    (h : ∀ n, m.2 = .int n → (intText n).length ≤ intMaxStrDigits) :
    PairText isBlank ':' StringText (ValueText limit) (PyStr.ofText m.1, m.2.json)
      (S.quote m.1 ++ ':' :: (S.afterColon ++ dumpScalar S m.2)) :=
  ⟨S.quote m.1, [], S.afterColon, dumpScalar S m.2, S.quotes m.1, blanks_nil, S.blankColon,
    valueText_dumpScalar S limit h, rfl⟩

theorem itemsText_dumpMembers (limit : ℕ) (m : List Char × Scalar) (members : Members)
    (h : Fits (m :: members)) :
    ItemsText isBlank ',' (PairText isBlank ':' StringText (ValueText limit))
      ((m :: members).map fun m => (PyStr.ofText m.1, m.2.json)) (dumpMembers S (m :: members)) := by
  have hpair := pairText_dump S limit (h m List.mem_cons_self)
  induction members generalizing m with
  | nil => simpa [dumpMembers] using ItemsText.last hpair blanks_nil
  | cons m' members ih =>
    have hrest : Fits (m' :: members) := fun e he => h e (List.mem_cons_of_mem m he)
    have hitems := ih m' hrest (pairText_dump S limit (hrest m' List.mem_cons_self))
    exact .more hpair blanks_nil S.blankComma hitems

/-- **Reading undoes writing.** -/
theorem loads_dumpObject {limit : ℕ} (hlimit : 0 < limit) {members : Members} (h : Fits members) :
    loads limit (dumpObject S members) = some (objectOf members) := by
  obtain ⟨limit, rfl⟩ := Nat.exists_eq_succ_of_ne_zero hlimit.ne'
  refine loads_eq_some_iff.mpr ⟨[], dumpObject S members, [], blanks_nil, ?_, blanks_nil, by simp⟩
  refine .object ⟨_, rfl, [], dumpMembers S members, blanks_nil, rfl, ?_⟩
  cases members with
  | nil => exact Or.inl ⟨rfl, rfl⟩
  | cons m members => exact Or.inr (itemsText_dumpMembers S limit m members h)

/-- **Reading and writing again** changes the style. -/
theorem redump_dumpObject (T : Style) {limit : ℕ} (hlimit : 0 < limit) {members : Members}
    (h : Fits members) : redump T limit (dumpObject S members) = some (dumpObject T members) := by
  rw [redump, loads_dumpObject S hlimit h, Option.bind_some, membersOf_objectOf, Option.map_some]

end Write

end OnlineAuction.Foundation.Json
