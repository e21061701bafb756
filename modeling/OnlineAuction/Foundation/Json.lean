import OnlineAuction.Foundation.JsonNumber
import OnlineAuction.Foundation.JsonString

/-!
# JSON

The values that Python's `json` makes of a text, and the texts of each value. `loads` is the scanner
of its C extension; `limit` is how deep lists and objects may nest before the interpreter stops the
recursion, so `ValueText limit` are the texts of values that nest no deeper.

## What is proved

* `reads_scanOnce` — values are read exactly, by induction on the depth.
* `loads_eq_some_iff` — `loads` accepts the texts of the grammar, and gives each its value.
* `loads_dumps` — a list of strings that was written is read back.

## Honest scope

A number is kept as its literal, and the members of an object as they are written, repeated keys
among them.
-/

namespace OnlineAuction.Foundation

open Parsing

/-- A JSON value. -/
inductive Json where
  /-- `None`. -/
  | null
  /-- A truth value. -/
  | bool (b : Bool)
  /-- A number, by its literal. -/
  | number (literal : List Char)
  /-- A string. -/
  | str (s : PyStr)
  /-- A list. -/
  | array (elements : List Json)
  /-- An object. -/
  | object (members : List (PyStr × Json))

namespace Json

/-- The constants, with their values. -/
def constants : List (List Char × Json) :=
  [(['n', 'u', 'l', 'l'], .null), (['t', 'r', 'u', 'e'], .bool true),
    (['f', 'a', 'l', 's', 'e'], .bool false), (['N', 'a', 'N'], .number ['N', 'a', 'N']),
    (['I', 'n', 'f', 'i', 'n', 'i', 't', 'y'], .number ['I', 'n', 'f', 'i', 'n', 'i', 't', 'y']),
    (['-', 'I', 'n', 'f', 'i', 'n', 'i', 't', 'y'],
      .number ['-', 'I', 'n', 'f', 'i', 'n', 'i', 't', 'y'])]

/-- A constant. -/
def scanConstant : Scanner Json := fun input =>
  constants.findSome? fun entry =>
    if entry.1.isPrefixOf input then some (entry.2, input.drop entry.1.length) else none

/-- `_scan_once_unicode`, from the scanners of what follows an opening bracket or brace. -/
def scanValue (array object : Scanner Json) : Scanner Json
  | [] => none
  | c :: rest =>
    if c = '"' then mapScanner .str scanString (c :: rest)
    else if c = '{' then object rest
    else if c = '[' then array rest
    else (scanConstant (c :: rest)).or (mapScanner .number scanNumber (c :: rest))

/-- `IS_WHITESPACE`. -/
def isBlank (c : Char) : Bool := c == ' ' || c == '\t' || c == '\n' || c == '\r'

/-- `scan_once`. -/
def scanOnce : ℕ → Scanner Json
  | 0 => scanValue (fun _ => none) (fun _ => none)
  | limit + 1 =>
    scanValue (mapScanner .array (scanSeq isBlank ',' ']' (scanOnce limit)))
      (mapScanner .object
        (scanSeq isBlank ',' '}' (scanPair isBlank ':' scanString (scanOnce limit))))

/-- `json.loads`; `none` is an exception. -/
def loads (limit : ℕ) (text : List Char) : Option Json := scanWhole isBlank (scanOnce limit) text

/-! ### The grammar -/

/-- The texts of the values, from the texts that may follow an opening bracket or brace. -/
inductive ValueOf (A O : Lang Json) : Lang Json
  /-- A constant. -/
  | constant {name : List Char} {v : Json} (h : (name, v) ∈ constants) : ValueOf A O v name
  /-- A number. -/
  | number {literal text : List Char} (h : NumberText literal text) :
    ValueOf A O (.number literal) text
  /-- A string. -/
  | str {s : PyStr} {text : List Char} (h : StringText s text) : ValueOf A O (.str s) text
  /-- A list. -/
  | array {v : Json} {text : List Char} (h : A v text) : ValueOf A O v ('[' :: text)
  /-- An object. -/
  | object {v : Json} {text : List Char} (h : O v text) : ValueOf A O v ('{' :: text)

/-- The texts of the lists of values. -/
def ArrayText (V : Lang Json) : Lang Json := MapLang .array (SeqText isBlank ',' ']' V)

/-- The texts of the objects with such values. -/
def ObjectText (V : Lang Json) : Lang Json :=
  MapLang .object (SeqText isBlank ',' '}' (PairText isBlank ':' StringText V))

/-- The texts of the values that nest at most `limit` deep. -/
def ValueText : ℕ → Lang Json
  | 0 => ValueOf (fun _ _ => False) (fun _ _ => False)
  | limit + 1 => ValueOf (ArrayText (ValueText limit)) (ObjectText (ValueText limit))

/-- The texts that are one such value, with blanks around it. -/
def DocumentText (limit : ℕ) : Lang Json := WholeText isBlank (ValueText limit)

/-! ### The scanner reads the grammar -/

/-- What may follow a value. -/
def isStop (c : Char) : Bool := isBlank c || c == ',' || c == ']' || c == '}'

theorem endsNumber_of_isStop {c : Char} (h : isStop c = true) : endsNumber c := by
  have hcases : c = ' ' ∨ c = '\t' ∨ c = '\n' ∨ c = '\r' ∨ c = ',' ∨ c = ']' ∨ c = '}' := by
    simpa [isStop, isBlank, or_assoc] using h
  rcases hcases with rfl | rfl | rfl | rfl | rfl | rfl | rfl <;> decide

theorem scanConstant_sound {input rest : List Char} {v : Json}
    (h : scanConstant input = some (v, rest)) :
    ∃ name, (name, v) ∈ constants ∧ input = name ++ rest := by
  obtain ⟨⟨name, v'⟩, hmem, hentry⟩ := List.exists_of_findSome?_eq_some h
  split_ifs at hentry with hprefix
  cases hentry
  obtain ⟨rest, rfl⟩ := List.isPrefixOf_iff_prefix.mp hprefix
  exact ⟨name, hmem, by simp⟩

theorem scanConstant_complete {name : List Char} {v : Json} (h : (name, v) ∈ constants)
    (rest : List Char) : scanConstant (name ++ rest) = some (v, rest) := by
  simp only [constants, List.mem_cons, Prod.mk.injEq, List.not_mem_nil, or_false] at h
  rcases h with ⟨rfl, rfl⟩ | ⟨rfl, rfl⟩ | ⟨rfl, rfl⟩ | ⟨rfl, rfl⟩ | ⟨rfl, rfl⟩ | ⟨rfl, rfl⟩ <;> rfl

/-- A digit is no other character. -/
theorem ne_of_isDigit {c d : Char} (hc : c.isDigit = true) (hd : d.isDigit = false) : d ≠ c := by
  rintro rfl
  rw [hc] at hd
  cases hd

/-- No constant begins as a number does. -/
theorem scanConstant_number {literal text : List Char} (h : NumberText literal text)
    (rest : List Char) : scanConstant (text ++ rest) = none := by
  obtain ⟨-, hunsigned | ⟨unsigned, hunsigned, rfl⟩⟩ := h
  all_goals
    obtain ⟨c, cs, rfl, hc⟩ := hunsigned.starts
    simp [scanConstant, constants, ne_of_isDigit hc]

/-- What a constant or a number begins with. -/
def startsPlain (c : Char) : Prop := c ∈ ['n', 't', 'f', 'N', 'I', '-'] ∨ c.isDigit = true

theorem startsPlain.ne {c d : Char} (h : startsPlain c)
    (hd : d ∉ ['n', 't', 'f', 'N', 'I', '-'] ∧ d.isDigit = false) : c ≠ d := by
  rintro rfl
  rcases h with h | h
  · exact hd.1 h
  · exact ne_of_isDigit h hd.2 rfl

theorem starts_constant {name : List Char} {v : Json} (h : (name, v) ∈ constants) :
    ∃ c cs, name = c :: cs ∧ startsPlain c := by
  simp only [constants, List.mem_cons, Prod.mk.injEq, List.not_mem_nil, or_false] at h
  rcases h with ⟨rfl, -⟩ | ⟨rfl, -⟩ | ⟨rfl, -⟩ | ⟨rfl, -⟩ | ⟨rfl, -⟩ | ⟨rfl, -⟩ <;>
  exact ⟨_, _, rfl, Or.inl (by decide)⟩

theorem starts_number : Starts startsPlain NumberText := by
  rintro literal text ⟨-, hunsigned | ⟨unsigned, -, rfl⟩⟩
  · obtain ⟨c, cs, rfl, hc⟩ := hunsigned.starts
    exact ⟨c, cs, rfl, Or.inr hc⟩
  · exact ⟨'-', unsigned, rfl, Or.inl (by decide)⟩

/-- What a value begins with. -/
def startsValue (c : Char) : Prop := isBlank c = false ∧ c ≠ ']' ∧ c ≠ '}'

theorem startsPlain.value {c : Char} (h : startsPlain c) : startsValue c := by
  have hspace := h.ne (d := ' ') (by decide)
  have htab := h.ne (d := '\t') (by decide)
  have hline := h.ne (d := '\n') (by decide)
  have hreturn := h.ne (d := '\r') (by decide)
  refine ⟨?_, h.ne (by decide), h.ne (by decide)⟩
  simp [isBlank, hspace, htab, hline, hreturn]

theorem starts_valueOf (A O : Lang Json) : Starts startsValue (ValueOf A O) := by
  intro v text h
  cases h with
  | constant h =>
    obtain ⟨c, cs, rfl, hc⟩ := starts_constant h
    exact ⟨c, cs, rfl, hc.value⟩
  | number h =>
    obtain ⟨c, cs, rfl, hc⟩ := starts_number h
    exact ⟨c, cs, rfl, hc.value⟩
  | str h =>
    obtain ⟨c, cs, rfl, rfl⟩ := starts_string h
    exact ⟨'"', cs, rfl, by unfold startsValue; decide⟩
  | array => exact ⟨'[', _, rfl, by unfold startsValue; decide⟩
  | object => exact ⟨'{', _, rfl, by unfold startsValue; decide⟩

theorem scanValue_plain {array object : Scanner Json} {c : Char} (h : startsPlain c)
    (rest : List Char) : scanValue array object (c :: rest) =
      (scanConstant (c :: rest)).or (mapScanner .number scanNumber (c :: rest)) := by
  rw [scanValue, if_neg (h.ne (by decide)), if_neg (h.ne (by decide)), if_neg (h.ne (by decide))]

/-- **A value** is read exactly where a blank, a comma or a closing character follows. -/
theorem reads_scanValue {array object : Scanner Json} {A O : Lang Json}
    (harray : Reads (fun _ => True) array A) (hobject : Reads (fun _ => True) object O) :
    Reads (fun c => isStop c = true) (scanValue array object) (ValueOf A O) where
  sound := by
    intro input v rest hread
    cases input with
    | nil => cases hread
    | cons c input =>
      rw [scanValue] at hread
      split_ifs at hread with hquote hbrace hbracket
      · obtain ⟨s, rfl, hs⟩ := mapScanner_eq_some_iff.mp hread
        obtain ⟨text, htext, heq⟩ := reads_string.sound hs
        exact ⟨text, .str htext, heq⟩
      · obtain ⟨text, htext, rfl⟩ := hobject.sound hread
        exact ⟨c :: text, hbrace ▸ .object htext, rfl⟩
      · obtain ⟨text, htext, rfl⟩ := harray.sound hread
        exact ⟨c :: text, hbracket ▸ .array htext, rfl⟩
      · rcases Option.or_eq_some_iff.mp hread with hconstant | ⟨-, hnumber⟩
        · obtain ⟨name, hname, heq⟩ := scanConstant_sound hconstant
          exact ⟨name, .constant hname, heq⟩
        · obtain ⟨literal, rfl, hliteral⟩ := mapScanner_eq_some_iff.mp hnumber
          obtain ⟨text, htext, heq⟩ := reads_number.sound hliteral
          exact ⟨text, .number htext, heq⟩
  complete := by
    intro v text rest h hstop
    cases h with
    | constant h =>
      have hscan := scanConstant_complete h rest
      obtain ⟨c, cs, rfl, hc⟩ := starts_constant h
      rw [List.cons_append] at hscan ⊢
      rw [scanValue_plain hc, hscan, Option.some_or]
    | number h =>
      have hscan := scanConstant_number h rest
      have hread := reads_number.complete h fun c hc => endsNumber_of_isStop (hstop c hc)
      obtain ⟨c, cs, rfl, hc⟩ := starts_number h
      rw [List.cons_append] at hscan hread ⊢
      rw [scanValue_plain hc, hscan, Option.none_or]
      exact mapScanner_eq_some_iff.mpr ⟨_, rfl, hread⟩
    | @str s text h =>
      have hread : scanString (text ++ rest) = some (s, rest) :=
        reads_string.complete h fun _ _ => trivial
      obtain ⟨c, cs, rfl, rfl⟩ := starts_string h
      exact mapScanner_eq_some_iff.mpr ⟨_, rfl, hread⟩
    | array h => exact harray.complete h fun _ _ => trivial
    | object h => exact hobject.complete h fun _ _ => trivial

theorem starts_valueText (limit : ℕ) : Starts startsValue (ValueText limit) := by
  cases limit <;> exact starts_valueOf _ _

/-- A scanner that always fails reads the empty language. -/
theorem reads_none : Reads (fun _ => True) (fun _ => none : Scanner Json) fun _ _ => False where
  sound := fun h => by cases h
  complete := fun h => h.elim

theorem punctuation {close : Char} (h : close = ']' ∨ close = '}') :
    Punctuation isBlank ',' close fun c => isStop c = true where
  stopBlank := fun c hc => by simp [isStop, hc]
  stopSep := by decide
  stopClose := by rcases h with rfl | rfl <;> decide
  ne := by rcases h with rfl | rfl <;> decide

/-- **Values of any depth** are read exactly: the lists and objects of one level more are made of
the values of the level below. -/
theorem reads_scanOnce (limit : ℕ) :
    Reads (fun c => isStop c = true) (scanOnce limit) (ValueText limit) := by
  induction limit with
  | zero => exact reads_scanValue reads_none reads_none
  | succ limit ih =>
    have hvalue : Starts (fun c => isBlank c = false ∧ c ≠ ']') (ValueText limit) := fun hv => by
      obtain ⟨c, cs, rfl, hc⟩ := starts_valueText limit hv
      exact ⟨c, cs, rfl, hc.1, hc.2.1⟩
    have hblank : Starts (fun c => isBlank c = false) (ValueText limit) := fun hv => by
      obtain ⟨c, cs, rfl, hc⟩ := starts_valueText limit hv
      exact ⟨c, cs, rfl, hc.1⟩
    have hkey : Starts (fun c => isBlank c = false ∧ c ≠ '}') StringText := fun hs => by
      obtain ⟨c, cs, rfl, rfl⟩ := starts_string hs
      exact ⟨_, cs, rfl, by decide⟩
    have hmember := reads_pair reads_string ih hblank (show isBlank ':' = false by decide)
    exact reads_scanValue ((reads_seq ih hvalue (punctuation (Or.inl rfl))).map Json.array)
      ((reads_seq hmember hkey.pair (punctuation (Or.inr rfl))).map Json.object)

/-- **The scanner and the grammar**: a text is accepted exactly when it stands for a value, and that
value is returned. -/
theorem loads_eq_some_iff {limit : ℕ} {text : List Char} {v : Json} :
    loads limit text = some v ↔ DocumentText limit v text := by
  refine scanWhole_eq_some_iff (reads_scanOnce limit) ?_ fun c hc => by simp [isStop, hc]
  intro v text hv
  obtain ⟨c, cs, rfl, hc⟩ := starts_valueText limit hv
  exact ⟨c, cs, rfl, hc.1⟩

/-! ### Writing -/

/-- Literals, separated by a comma and a blank. -/
def dumpItems : List (List Char) → List Char
  | [] => []
  | [text] => quote text
  | text :: texts => quote text ++ (',' :: ' ' :: dumpItems texts)

/-- `json.dumps` of a list of strings. -/
def dumps (texts : List (List Char)) : List Char := '[' :: (dumpItems texts ++ [']'])

/-- The strings of some texts. -/
def strings (texts : List (List Char)) : List Json := texts.map fun text => .str (PyStr.ofText text)

theorem valueText_quote (limit : ℕ) (text : List Char) :
    ValueText limit (.str (PyStr.ofText text)) (quote text) := by
  cases limit <;> exact .str (stringText_quote text)

theorem itemsText_dumpItems (limit : ℕ) (text : List Char) (texts : List (List Char)) :
    ItemsText isBlank ',' (ValueText limit) (strings (text :: texts))
      (dumpItems (text :: texts)) := by
  induction texts generalizing text with
  | nil => simpa [dumpItems, strings] using ItemsText.last (valueText_quote limit text) blanks_nil
  | cons text' texts ih =>
    have hblank : Blanks isBlank [' '] := by simp [Blanks, isBlank]
    exact .more (valueText_quote limit text) blanks_nil hblank (ih text')

/-- What is written is a text of the list. -/
theorem documentText_dumps (limit : ℕ) (texts : List (List Char)) :
    DocumentText (limit + 1) (.array (strings texts)) (dumps texts) := by
  refine ⟨[], dumps texts, [], blanks_nil, ?_, blanks_nil, by simp⟩
  refine .array ⟨strings texts, rfl, [], dumpItems texts, blanks_nil, rfl, ?_⟩
  cases texts with
  | nil => exact Or.inl ⟨rfl, rfl⟩
  | cons text texts => exact Or.inr (itemsText_dumpItems limit text texts)

/-- **Reading undoes writing.** -/
theorem loads_dumps {limit : ℕ} (h : 0 < limit) (texts : List (List Char)) :
    loads limit (dumps texts) = some (.array (strings texts)) := by
  obtain ⟨limit, rfl⟩ := Nat.exists_eq_succ_of_ne_zero h.ne'
  exact loads_eq_some_iff.mpr (documentText_dumps limit texts)

end Json

end OnlineAuction.Foundation
