import Mathlib.Data.List.Basic
import Mathlib.Tactic.SplitIfs

/-!
# Strings of code points

A string of Python is a list of code points, and a surrogate is one: JSON can write it alone. Such a
string has no encoding; the others are the texts, of scalar values.

## What is proved

* `PyStr.isText_iff` — the strings that have an encoding are those of texts.
-/

namespace OnlineAuction.Foundation

/-- A code point. -/
abbrev CodePoint := Fin 0x110000

/-- The code point of a scalar value. -/
def codePoint (c : Char) : CodePoint :=
  ⟨c.toNat, by
    rcases c.valid with h | ⟨-, h⟩
    · exact Nat.lt_trans h (by decide)
    · exact h⟩

/-- The scalar value of a code point that is no surrogate. -/
def toChar? (u : CodePoint) : Option Char :=
  if u.val.isValidChar then some (Char.ofNat u.val) else none

/-- A string of Python. -/
abbrev PyStr := List CodePoint

namespace PyStr

/-- The string of a text. -/
def ofText (text : List Char) : PyStr := text.map codePoint

/-- The string has an encoding: no surrogate is in it. -/
def isText (s : PyStr) : Bool := s.all fun u => (toChar? u).isSome

/-- The text of a string that has an encoding. -/
def text (s : PyStr) : String := String.ofList (s.filterMap toChar?)

theorem toChar?_eq_some_iff {u : CodePoint} {c : Char} : toChar? u = some c ↔ u = codePoint c := by
  unfold toChar?
  constructor
  · intro h
    split_ifs at h with hvalid
    cases h
    refine Fin.ext ?_
    show u.val = (Char.ofNat u.val).toNat
    rw [Char.ofNat, dif_pos hvalid]
    rfl
  · rintro rfl
    have hval : (codePoint c).val = c.toNat := rfl
    have hvalid : c.toNat.isValidChar := c.valid
    rw [hval, if_pos hvalid, Char.ofNat_toNat]

theorem text_ofText (text : List Char) : (ofText text).text = String.ofList text := by
  have hchar : ∀ c, toChar? (codePoint c) = some c := fun c => toChar?_eq_some_iff.mpr rfl
  simp [PyStr.text, ofText, List.filterMap_map, hchar]

/-- **The strings with an encoding** are those of texts. -/
theorem isText_iff (s : PyStr) : s.isText = true ↔ ∃ text, s = ofText text := by
  unfold isText
  constructor
  · intro h
    induction s with
    | nil => exact ⟨[], rfl⟩
    | cons u s ih =>
      rw [List.all_cons, Bool.and_eq_true] at h
      obtain ⟨c, hc⟩ := Option.isSome_iff_exists.mp h.1
      obtain ⟨text, rfl⟩ := ih h.2
      exact ⟨c :: text, by rw [toChar?_eq_some_iff.mp hc]; rfl⟩
  · rintro ⟨text, rfl⟩
    have hchar : ∀ c, toChar? (codePoint c) = some c := fun c => toChar?_eq_some_iff.mpr rfl
    simp [ofText, hchar]

end PyStr

end OnlineAuction.Foundation
