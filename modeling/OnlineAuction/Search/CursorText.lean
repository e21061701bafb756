import OnlineAuction.Foundation.Json
import OnlineAuction.Foundation.Octets
import OnlineAuction.Search.SearchPages
import Mathlib.Data.List.Dedup

/-!
# The text of a search cursor

A cursor goes to the client as text: `_encode_cursor` writes two strings as a JSON list in base64,
and `_decode_cursor` reads whatever text comes back. It asks only for a length of two, so a list of
two other values, or a string of two characters, is taken for a pair.

## What is proved

* `decodeCursor_of_payload` — what is decoded is the pair of the value that the payload stands for.
* `decodeCursor_strings_iff` — the round trip, and the texts that decode to something else than two
  strings.
* `buildWhere_text` — a text acts on a search as the cursors of `SearchPages` do.

## Honest scope

`limit` is how deep the interpreter lets `json` recurse. An exception is one of `CursorError`; the
handler takes every one.
-/

namespace OnlineAuction.Search.CursorText

open OnlineAuction.Foundation OnlineAuction.Foundation.Json OnlineAuction.Store

/-- What the body of `_decode_cursor` may raise. -/
inductive CursorError where
  /-- `binascii.Error`. -/
  | binasciiError
  /-- `UnicodeDecodeError`. -/
  | unicodeDecodeError
  /-- `json` refuses the payload. -/
  | jsonError
  /-- `TypeError`: the value has no length or no items. -/
  | typeError
  /-- `KeyError`. -/
  | keyError
  /-- `IndexError`. -/
  | indexError
  deriving DecidableEq

/-- `_encode_cursor`. -/
def encodeCursor (createdAt auctionId : String) : String :=
  let payload := dumps [createdAt.toList, auctionId.toList]
  String.ofList (Utf8.ascii (Base64.encode (Utf8.encode payload)))

/-- `len(v)`; an object has one item for each of its keys. -/
def len : Json → Except CursorError ℕ
  | .str s => .ok s.length
  | .array elements => .ok elements.length
  | .object members => .ok (members.map Prod.fst).dedup.length
  | _ => .error .typeError

/-- `v[i]`; the keys of an object are strings, so no number is one of them. -/
def getItem (v : Json) (i : ℕ) : Except CursorError Json :=
  match v with
  | .str s =>
    match s[i]? with
    | some u => .ok (.str [u])
    | none => .error .indexError
  | .array elements =>
    match elements[i]? with
    | some element => .ok element
    | none => .error .indexError
  | .object _ => .error .keyError
  | _ => .error .typeError

/-- A value, or an exception. -/
def orRaise {α : Type} (e : CursorError) : Option α → Except CursorError α
  | some a => .ok a
  | none => .error e

/-- The pair of a value that has two items. -/
def pairOfParts (parts : Json) : Except CursorError (Option (Json × Json)) := do
  if (← len parts) = 2 then
    return some (← getItem parts 0, ← getItem parts 1)
  return none

section Decoding

-- how deep the interpreter lets `json` recurse
variable (limit : ℕ)

/-- The body of `_decode_cursor`. -/
def tryDecode (cursor : String) : Except CursorError (Option (Json × Json)) := do
  let octets ← orRaise .binasciiError (Base64.decode (Utf8.encode cursor.toList))
  let payload ← orRaise .unicodeDecodeError (Utf8.decode octets)
  let parts ← orRaise .jsonError (loads limit payload)
  pairOfParts parts

/-- `_decode_cursor`. -/
def decodeCursor (cursor : String) : Except CursorError (Option (Json × Json)) :=
  tryCatch (tryDecode limit cursor) fun _ => return none

/-- The cursor of `_build_where`: `bindparams` is called on a clause that does not have it. -/
def buildWhere (filters : Filters) (cursor : Option String) :
    Except SearchError (List Condition) :=
  match cursor with
  | none => .ok filters.conditions
  | some cursor =>
    if cursor = "" then .ok filters.conditions
    else
      match decodeCursor limit cursor with
      | .ok (some _) => .error .attributeError
      | _ => .ok filters.conditions

/-! ### What is decoded -/

/-- The cursor is base64 of the text. -/
def Payload (cursor : String) (text : List Char) : Prop :=
  Base64.decode (Utf8.encode cursor.toList) = some (Utf8.encode text)

instance (cursor : String) (text : List Char) : Decidable (Payload cursor text) :=
  inferInstanceAs (Decidable (_ = _))

/-- The pair of a list or string of two. -/
def pairOf : Json → Option (Json × Json)
  | .str [u, v] => some (.str [u], .str [v])
  | .array [v, w] => some (v, w)
  | _ => none

variable {limit}

theorem payload_encodeCursor (createdAt auctionId : String) :
    Payload (encodeCursor createdAt auctionId) (dumps [createdAt.toList, auctionId.toList]) := by
  rw [Payload, encodeCursor, String.toList_ofList, Base64.utf8_encode, Base64.decode_encode]

/-- The items of a value, behind the handler. -/
theorem tryCatch_pairOfParts (parts : Json) :
    tryCatch (pairOfParts parts) (fun _ => return none) = .ok (pairOf parts) := by
  cases parts with
  | null => rfl
  | bool b => rfl
  | number literal => rfl
  | str s => rcases s with _ | ⟨u, _ | ⟨v, _ | ⟨w, s⟩⟩⟩ <;> rfl
  | array vs => rcases vs with _ | ⟨u, _ | ⟨v, _ | ⟨w, vs⟩⟩⟩ <;> rfl
  | object members =>
    -- two keys or not, there is no item `0`
    simp only [pairOfParts, len, getItem, bind, Except.bind, pairOf]
    split_ifs <;> rfl

/-- **What is decoded**: the pair of the value that the payload stands for, if it stands for one. -/
theorem decodeCursor_of_payload {cursor : String} {text : List Char} (h : Payload cursor text) :
    decodeCursor limit cursor = .ok ((loads limit text).bind pairOf) := by
  have hutf8 : Utf8.decode (Utf8.encode text) = some text := Utf8.decode_eq_some_iff.mpr rfl
  unfold decodeCursor tryDecode
  rw [show Base64.decode (Utf8.encode cursor.toList) = some (Utf8.encode text) from h]
  simp only [orRaise, bind, Except.bind, hutf8]
  cases loads limit text with
  | none => rfl
  | some parts => exact tryCatch_pairOfParts parts

/-- A cursor without a payload decodes to nothing. -/
theorem decodeCursor_of_not_payload {cursor : String} (h : ∀ text, ¬ Payload cursor text) :
    decodeCursor limit cursor = .ok none := by
  unfold decodeCursor tryDecode
  cases hoctets : Base64.decode (Utf8.encode cursor.toList) with
  | none => rfl
  | some octets =>
    cases hpayload : Utf8.decode octets with
    | none => simp only [orRaise, bind, Except.bind, hpayload]; rfl
    | some text =>
      rw [Utf8.decode_eq_some_iff.mp hpayload] at hoctets
      exact absurd hoctets (h text)

/-! ### Pairs of strings -/

/-- A string. -/
def IsStr (v : Json) : Prop := ∃ s, v = .str s

/-- Nothing is raised, and the result is nothing or two strings. -/
def DecodesToStrings (result : Except CursorError (Option (Json × Json))) : Prop :=
  result = .ok none ∨ ∃ v w, result = .ok (some (v, w)) ∧ IsStr v ∧ IsStr w

/-- The cursor is base64 of the JSON text of a list of two values, not both of them strings. -/
def EncodesOtherPair (limit : ℕ) (cursor : String) : Prop :=
  ∃ text v w, Payload cursor text ∧ DocumentText limit (.array [v, w]) text ∧ ¬ (IsStr v ∧ IsStr w)

/-- The pair of a value is no list of two, or the list itself. -/
theorem pairOf_cases (parts : Json) :
    pairOf parts = none ∨ (∃ u v, pairOf parts = some (.str [u], .str [v])) ∨
      ∃ v w, parts = .array [v, w] ∧ pairOf parts = some (v, w) := by
  cases parts with
  | null => exact Or.inl rfl
  | bool b => exact Or.inl rfl
  | number literal => exact Or.inl rfl
  | str s =>
    rcases s with _ | ⟨u, _ | ⟨v, _ | ⟨w, s⟩⟩⟩
    · exact Or.inl rfl
    · exact Or.inl rfl
    · exact Or.inr (Or.inl ⟨u, v, rfl⟩)
    · exact Or.inl rfl
  | array vs =>
    rcases vs with _ | ⟨u, _ | ⟨v, _ | ⟨w, vs⟩⟩⟩
    · exact Or.inl rfl
    · exact Or.inl rfl
    · exact Or.inr (Or.inr ⟨u, v, rfl, rfl⟩)
    · exact Or.inl rfl
  | object members => exact Or.inl rfl

/-- **Strings or nothing**: what is decoded is something else exactly for the cursors of other
pairs. -/
theorem decodesToStrings_iff (cursor : String) :
    DecodesToStrings (decodeCursor limit cursor) ↔ ¬ EncodesOtherPair limit cursor := by
  constructor
  · rintro hresult ⟨text, v, w, hpayload, htext, hother⟩
    rw [decodeCursor_of_payload hpayload, loads_eq_some_iff.mpr htext] at hresult
    rcases hresult with hnone | ⟨v', w', heq, hv, hw⟩
    · cases hnone
    · cases heq
      exact hother ⟨hv, hw⟩
  · intro hother
    by_cases hpayload : ∃ text, Payload cursor text
    · obtain ⟨text, hpayload⟩ := hpayload
      rw [decodeCursor_of_payload hpayload]
      cases hloads : loads limit text with
      | none => exact Or.inl rfl
      | some parts =>
        rw [Option.bind_some]
        rcases pairOf_cases parts with hnone | ⟨u, v, hpair⟩ | ⟨v, w, rfl, hpair⟩
        · exact Or.inl (by rw [hnone])
        · exact Or.inr ⟨_, _, by rw [hpair], ⟨_, rfl⟩, ⟨_, rfl⟩⟩
        · right
          refine ⟨v, w, by rw [hpair], ?_⟩
          by_contra hne
          exact hother ⟨text, v, w, hpayload, loads_eq_some_iff.mp hloads, hne⟩
    · rw [decodeCursor_of_not_payload (not_exists.mp hpayload)]
      exact Or.inl rfl

/-- **The round trip.** -/
theorem decodeCursor_encodeCursor (h : 0 < limit) (createdAt auctionId : String) :
    decodeCursor limit (encodeCursor createdAt auctionId) =
      .ok (some (.str (PyStr.ofText createdAt.toList), .str (PyStr.ofText auctionId.toList))) := by
  rw [decodeCursor_of_payload (payload_encodeCursor createdAt auctionId), loads_dumps h]
  rfl

/-- **The cursor as a text**: two strings come back as they were encoded, and a text of a client
decodes to nothing or to two strings exactly when it does not encode a list of two other values. -/
theorem decodeCursor_strings_iff (h : 0 < limit) :
    (∀ createdAt auctionId : String, decodeCursor limit (encodeCursor createdAt auctionId) =
      .ok (some (.str (PyStr.ofText createdAt.toList), .str (PyStr.ofText auctionId.toList)))) ∧
    ∀ cursor : String,
      DecodesToStrings (decodeCursor limit cursor) ↔ ¬ EncodesOtherPair limit cursor :=
  ⟨decodeCursor_encodeCursor h, decodesToStrings_iff⟩

/-! ### The search -/

/-- Nothing is raised. -/
theorem exists_decodeCursor (limit : ℕ) (cursor : String) :
    ∃ result, decodeCursor limit cursor = .ok result := by
  by_cases hpayload : ∃ text, Payload cursor text
  · obtain ⟨text, hpayload⟩ := hpayload
    exact ⟨_, decodeCursor_of_payload hpayload⟩
  · exact ⟨_, decodeCursor_of_not_payload (not_exists.mp hpayload)⟩

theorem decodeCursor_empty (limit : ℕ) : decodeCursor limit "" = .ok none := by
  have hloads : loads limit [] = none := by cases limit <;> rfl
  have hpayload : Payload "" [] := by decide +kernel
  rw [decodeCursor_of_payload hpayload, hloads]
  rfl

/-- A text and a cursor of `SearchPages` that both decode or both do not. -/
def Alike (limit : ℕ) (text : String) (cursor : Cursor) : Prop :=
  decodeCursor limit text = .ok none ↔ Search.decodeCursor cursor = none

theorem alike_encodeCursor (h : 0 < limit) (createdAt auctionId : String) (createdTs : ℤ)
    (key : Uuid) :
    Alike limit (encodeCursor createdAt auctionId) (Search.encodeCursor createdTs key) := by
  rw [Alike, decodeCursor_encodeCursor h]
  simp

/-- **A text acts as a cursor does**: what a search makes of it depends only on whether it
decodes. -/
theorem buildWhere_text {text : String} {cursor : Cursor} (h : Alike limit text cursor)
    (filters : Filters) :
    buildWhere limit filters (some text) = Search.buildWhere filters (some cursor) := by
  obtain ⟨result, hresult⟩ := exists_decodeCursor limit text
  rw [Alike, hresult] at h
  unfold buildWhere Search.buildWhere
  simp only [Option.bind_some, hresult]
  cases result with
  | none =>
    rw [h.mp rfl]
    simp
  | some pair =>
    obtain ⟨decoded, hdecoded⟩ := Option.ne_none_iff_exists'.mp (mt h.mpr (by simp))
    rw [hdecoded]
    split_ifs with hempty
    · -- the empty text does not decode
      rw [hempty, decodeCursor_empty] at hresult
      cases hresult
    · rfl

/-- **No part of a cursor reaches the statement**: it is refused or left out. -/
theorem buildWhere_eq_ok {filters : Filters} {cursor : Option String} {stmt : List Condition}
    (h : buildWhere limit filters cursor = .ok stmt) : stmt = filters.conditions := by
  unfold buildWhere at h
  split at h
  · cases h
    rfl
  · split_ifs at h
    · cases h
      rfl
    · split at h
      · cases h
      · cases h
        rfl

end Decoding

/-! ### Runs -/

/-- The text of `[1, 2]` decodes to two numbers. -/
theorem numbers_decoded :
    decodeCursor 1000 "WzEsIDJd" = .ok (some (.number ['1'], .number ['2'])) ∧
      ¬ DecodesToStrings (decodeCursor 1000 "WzEsIDJd") := by
  have hpayload : Payload "WzEsIDJd" "[1, 2]".toList := by decide +kernel
  have hloads : loads 1000 "[1, 2]".toList = some (.array [.number ['1'], .number ['2']]) := rfl
  have hresult : decodeCursor 1000 "WzEsIDJd" = .ok (some (.number ['1'], .number ['2'])) := by
    rw [decodeCursor_of_payload hpayload, hloads]
    rfl
  refine ⟨hresult, ?_⟩
  rw [hresult]
  rintro (hnone | ⟨v, w, heq, ⟨s, rfl⟩, -⟩)
  · cases hnone
  · cases heq

/-- The cursor of an auction decodes to its strings. -/
theorem cursor_strings :
    decodeCursor 1000 (encodeCursor "2026-07-02T12:00:00+00:00" "5") =
        .ok (some (.str (PyStr.ofText "2026-07-02T12:00:00+00:00".toList),
          .str (PyStr.ofText "5".toList))) ∧
      ¬ EncodesOtherPair 1000 (encodeCursor "2026-07-02T12:00:00+00:00" "5") := by
  obtain ⟨hround, hstrings⟩ := decodeCursor_strings_iff (show 0 < 1000 by decide)
  have hdecoded := hround "2026-07-02T12:00:00+00:00" "5"
  exact ⟨hdecoded, (hstrings _).mp (Or.inr ⟨_, _, hdecoded, ⟨_, rfl⟩, ⟨_, rfl⟩⟩)⟩

end OnlineAuction.Search.CursorText
