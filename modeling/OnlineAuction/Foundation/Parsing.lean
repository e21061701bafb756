import Mathlib.Data.List.TakeWhile

/-!
# Scanners and the languages they read

A `Scanner` reads a value off the front of a text and returns the rest; a `Lang` says which texts
stand for which values. `Reads stop p P` says that `p` reads `P` exactly: what it reads is a text of
`P`, and it reads every text of `P` that is followed by nothing or by a character that stops it. The
scanners of lists, of pairs and of whole texts are made from the scanners of their parts, with blanks
in between.

## What is proved

* `reads_seq` — a closed list of items, read by a loop whose fuel is the length of the text.
* `reads_pair` — a key, a colon and a value.
* `scanWhole_eq_some_iff` — a whole text.

## Honest scope

A text is a list of characters. Values are not required to have one text, or texts one value.
-/

namespace OnlineAuction.Foundation.Parsing

universe u v

variable {α : Type u} {β : Type v}

/-- A scanner. -/
abbrev Scanner (α : Type u) := List Char → Option (α × List Char)

/-- Which texts stand for which values. -/
abbrev Lang (α : Type u) := α → List Char → Prop

/-- A text is empty or begins with a character that satisfies `ok`. -/
def Before (ok : Char → Prop) (text : List Char) : Prop := ∀ c ∈ text.head?, ok c

@[simp] theorem before_nil (ok : Char → Prop) : Before ok [] := by simp [Before]

@[simp] theorem before_cons {ok : Char → Prop} {c : Char} {text : List Char} :
    Before ok (c :: text) ↔ ok c := by simp [Before]

/-- Every text of a language is not empty and begins with a character that satisfies `ok`. -/
def Starts (ok : Char → Prop) (P : Lang α) : Prop :=
  ∀ {v text}, P v text → ∃ c cs, text = c :: cs ∧ ok c

theorem Starts.before {ok : Char → Prop} {P : Lang α} (h : Starts ok P) {v : α}
    {text : List Char} (hv : P v text) (rest : List Char) : Before ok (text ++ rest) := by
  obtain ⟨c, cs, rfl, hc⟩ := h hv
  simpa using hc

/-- `p` reads `P` where `stop` says what may follow. -/
structure Reads (stop : Char → Prop) (p : Scanner α) (P : Lang α) : Prop where
  /-- What is read is a text of the language. -/
  sound : ∀ {input v rest}, p input = some (v, rest) → ∃ text, P v text ∧ input = text ++ rest
  /-- A text of the language is read. -/
  complete : ∀ {v text rest}, P v text → Before stop rest → p (text ++ rest) = some (v, rest)

/-- A scanner of values made from the values of another. -/
def mapScanner (f : α → β) (p : Scanner α) : Scanner β := fun input =>
  (p input).map fun out => (f out.1, out.2)

/-- The texts of the values made from other values. -/
def MapLang (f : α → β) (P : Lang α) : Lang β := fun w text => ∃ v, w = f v ∧ P v text

theorem mapScanner_eq_some_iff {f : α → β} {p : Scanner α} {input : List Char} {w : β}
    {rest : List Char} :
    mapScanner f p input = some (w, rest) ↔ ∃ v, w = f v ∧ p input = some (v, rest) := by
  simp only [mapScanner, Option.map_eq_some_iff, Prod.mk.injEq, Prod.exists]
  constructor
  · rintro ⟨v, rest', hv, rfl, rfl⟩
    exact ⟨v, rfl, hv⟩
  · rintro ⟨v, rfl, hv⟩
    exact ⟨v, rest, hv, rfl, rfl⟩

theorem Reads.map {stop : Char → Prop} {p : Scanner α} {P : Lang α} (h : Reads stop p P)
    (f : α → β) : Reads stop (mapScanner f p) (MapLang f P) where
  sound := by
    intro input w rest hread
    obtain ⟨v, rfl, hv⟩ := mapScanner_eq_some_iff.mp hread
    obtain ⟨text, htext, rfl⟩ := h.sound hv
    exact ⟨text, ⟨v, rfl, htext⟩, rfl⟩
  complete := by
    rintro w text rest ⟨v, rfl, htext⟩ hstop
    exact mapScanner_eq_some_iff.mpr ⟨v, rfl, h.complete htext hstop⟩

section Blanks

variable (blank : Char → Bool)

/-- The text from its first character on that is not blank. -/
def skip (input : List Char) : List Char := input.dropWhile blank

/-- Only blanks. -/
def Blanks (text : List Char) : Prop := ∀ c ∈ text, blank c = true

variable {blank}

theorem blanks_nil : Blanks blank [] := by simp [Blanks]

theorem skip_append {w : List Char} (hw : Blanks blank w) {rest : List Char}
    (hrest : Before (fun c => blank c = false) rest) : skip blank (w ++ rest) = rest := by
  have hskip : skip blank rest = rest := by
    cases rest with
    | nil => rfl
    | cons c rest => simp [skip, before_cons.mp hrest]
  unfold skip at hskip ⊢
  rw [List.dropWhile_append_of_pos hw, hskip]

theorem exists_skip (blank : Char → Bool) (input : List Char) :
    ∃ w, Blanks blank w ∧ input = w ++ skip blank input :=
  ⟨input.takeWhile blank, fun _ hc => List.mem_takeWhile_imp hc,
    (List.takeWhile_append_dropWhile).symm⟩

/-- What follows an item is a blank or the character after the blanks. -/
theorem before_blanks {stop : Char → Prop} (hstop : ∀ c, blank c = true → stop c) {w : List Char}
    (hw : Blanks blank w) {c : Char} (hc : stop c) (rest : List Char) :
    Before stop (w ++ c :: rest) := by
  cases w with
  | nil => simpa using hc
  | cons b w => simpa using hstop b (hw b (by simp))

end Blanks

/-! ### Lists -/

section Items

variable (blank : Char → Bool) (sep close : Char) (item : Scanner α)

/-- Items up to the closing character, separated by `sep`. -/
def scanItems : ℕ → Scanner (List α)
  | 0, _ => none
  | fuel + 1, input =>
    match item input with
    | none => none
    | some (v, rest) =>
      match skip blank rest with
      | [] => none
      | c :: rest =>
        if c = close then some ([v], rest)
        else if c = sep then mapScanner (v :: ·) (scanItems fuel) (skip blank rest)
        else none

/-- A list of items, from after its opening character on. -/
def scanSeq : Scanner (List α) := fun input =>
  match skip blank input with
  | [] => none
  | c :: rest =>
    if c = close then some ([], rest)
    else scanItems blank sep close item (rest.length + 1) (c :: rest)

/-- Items, separated by `sep`, with blanks around the separators. -/
inductive ItemsText (P : Lang α) : Lang (List α)
  /-- The last item. -/
  | last {v : α} {text w : List Char} (hv : P v text) (hw : Blanks blank w) :
    ItemsText P [v] (text ++ w)
  /-- An item and those after it. -/
  | more {v : α} {vs : List α} {text w w' texts : List Char} (hv : P v text) (hw : Blanks blank w)
    (hw' : Blanks blank w') (hvs : ItemsText P vs texts) :
    ItemsText P (v :: vs) (text ++ (w ++ sep :: (w' ++ texts)))

/-- A list of items, from after its opening character on. -/
def SeqText (P : Lang α) : Lang (List α) := fun vs text =>
  ∃ w body, Blanks blank w ∧ text = w ++ (body ++ [close]) ∧
    (vs = [] ∧ body = [] ∨ ItemsText blank sep P vs body)

variable {blank sep close item} {P : Lang α}

theorem scanItems_sound {stop : Char → Prop} (h : Reads stop item P) {fuel : ℕ} {input : List Char}
    {vs : List α} {rest : List Char}
    (hread : scanItems blank sep close item fuel input = some (vs, rest)) :
    ∃ body, ItemsText blank sep P vs body ∧ input = body ++ close :: rest := by
  induction fuel generalizing input vs rest with
  | zero => cases hread
  | succ fuel ih =>
    rw [scanItems] at hread
    split at hread
    · cases hread
    · rename_i v after hv
      obtain ⟨text, htext, rfl⟩ := h.sound hv
      obtain ⟨w, hw, hafter⟩ := exists_skip blank after
      split at hread
      · cases hread
      · rename_i c after' hskip
        rw [hskip] at hafter
        subst hafter
        split_ifs at hread with hclose hsep
        · cases hread
          exact ⟨text ++ w, .last htext hw, by simp [hclose]⟩
        · obtain ⟨vs', rfl, hvs⟩ := mapScanner_eq_some_iff.mp hread
          obtain ⟨texts, htexts, heq⟩ := ih hvs
          obtain ⟨w', hw', hafter'⟩ := exists_skip blank after'
          rw [heq] at hafter'
          exact ⟨_, .more htext hw hw' htexts, by simp [hafter', hsep]⟩

/-- Blanks, separator and closing character stop an item and are told apart. -/
structure Punctuation (blank : Char → Bool) (sep close : Char) (stop : Char → Prop) : Prop where
  /-- A blank stops an item. -/
  stopBlank : ∀ c, blank c = true → stop c
  /-- So does the separator, which is no blank. -/
  stopSep : stop sep ∧ blank sep = false
  /-- So does the closing character. -/
  stopClose : stop close ∧ blank close = false
  /-- They are not the same. -/
  ne : sep ≠ close

theorem ItemsText.before {ok : Char → Prop} (h : Starts ok P) {vs : List α} {body : List Char}
    (hbody : ItemsText blank sep P vs body) (rest : List Char) : Before ok (body ++ rest) := by
  cases hbody with
  | last hv => rw [List.append_assoc]; exact h.before hv _
  | more hv => rw [List.append_assoc]; exact h.before hv _

/-- The fuel does not run out: each item but the last is followed by a separator. -/
theorem scanItems_complete {stop : Char → Prop} (h : Reads stop item P)
    (hstarts : Starts (fun c => blank c = false) P) (hpunct : Punctuation blank sep close stop)
    {vs : List α} {body : List Char} (hbody : ItemsText blank sep P vs body) {rest : List Char}
    {fuel : ℕ} (hfuel : body.length < fuel) :
    scanItems blank sep close item fuel (body ++ close :: rest) = some (vs, rest) := by
  induction hbody generalizing fuel with
  | @last v text w hv hw =>
    cases fuel with
    | zero => cases hfuel
    | succ fuel =>
      have hread := h.complete hv (before_blanks hpunct.stopBlank hw hpunct.stopClose.1 rest)
      have hskip : skip blank (w ++ close :: rest) = close :: rest :=
        skip_append hw (before_cons.mpr hpunct.stopClose.2)
      simp only [List.append_assoc, scanItems, hread, hskip, if_true]
  | @more v vs text w w' texts hv hw hw' hvs ih =>
    cases fuel with
    | zero => cases hfuel
    | succ fuel =>
      have hread := h.complete hv
        (before_blanks hpunct.stopBlank hw hpunct.stopSep.1 (w' ++ (texts ++ close :: rest)))
      have hskip : skip blank (w ++ sep :: (w' ++ (texts ++ close :: rest))) =
          sep :: (w' ++ (texts ++ close :: rest)) := skip_append hw (before_cons.mpr hpunct.stopSep.2)
      have hskip' : skip blank (w' ++ (texts ++ close :: rest)) = texts ++ close :: rest :=
        skip_append hw' (hvs.before hstarts _)
      have hrest : scanItems blank sep close item fuel (texts ++ close :: rest) = some (vs, rest) :=
        ih (by simp at hfuel; omega)
      simp only [List.append_assoc, List.cons_append, scanItems, hread, hskip, hpunct.ne, if_false,
        if_true, hskip']
      exact mapScanner_eq_some_iff.mpr ⟨vs, rfl, hrest⟩

/-- **A list** is read exactly, whatever follows it. -/
theorem reads_seq {stop : Char → Prop} (h : Reads stop item P)
    (hstarts : Starts (fun c => blank c = false ∧ c ≠ close) P)
    (hpunct : Punctuation blank sep close stop) :
    Reads (fun _ => True) (scanSeq blank sep close item) (SeqText blank sep close P) where
  sound := by
    intro input vs rest hread
    obtain ⟨w, hw, hinput⟩ := exists_skip blank input
    rw [scanSeq] at hread
    split at hread
    · cases hread
    · rename_i c after hskip
      rw [hskip] at hinput
      split_ifs at hread with hclose
      · cases hread
        exact ⟨w ++ [close], ⟨w, [], hw, rfl, Or.inl ⟨rfl, rfl⟩⟩, by simp [hinput, hclose]⟩
      · obtain ⟨body, hbody, heq⟩ := scanItems_sound h hread
        exact ⟨w ++ (body ++ [close]), ⟨w, body, hw, rfl, Or.inr hbody⟩, by simp [hinput, heq]⟩
  complete := by
    rintro vs text rest ⟨w, body, hw, rfl, hbody⟩ -
    rcases hbody with ⟨rfl, rfl⟩ | hbody
    · have hskip : skip blank (w ++ close :: rest) = close :: rest :=
        skip_append hw (before_cons.mpr hpunct.stopClose.2)
      simp only [List.nil_append, List.append_assoc, List.cons_append, scanSeq, hskip, if_true]
    · have hblank : Starts (fun c => blank c = false) P := fun hv => by
        obtain ⟨c, cs, htext, hc, -⟩ := hstarts hv
        exact ⟨c, cs, htext, hc⟩
      have hskip : skip blank (w ++ (body ++ close :: rest)) = body ++ close :: rest :=
        skip_append hw (hbody.before hblank _)
      have hfirst := hbody.before hstarts (close :: rest)
      obtain ⟨c, cs, hall⟩ : ∃ c cs, body ++ close :: rest = c :: cs :=
        List.exists_cons_of_ne_nil (by simp)
      have hfuel : body.length < cs.length + 1 := by
        have := congrArg List.length hall
        simp only [List.length_append, List.length_cons] at this
        omega
      have hitems : scanItems blank sep close item (cs.length + 1) (body ++ close :: rest) =
          some (vs, rest) := scanItems_complete h hblank hpunct hbody hfuel
      rw [hall] at hskip hfirst hitems
      simp only [List.append_assoc, List.cons_append, List.nil_append, scanSeq, hall, hskip]
      rw [if_neg (before_cons.mp hfirst).2]
      exact hitems

end Items

/-! ### Pairs -/

section Pairs

variable (blank : Char → Bool) (colon : Char) (key : Scanner α) (value : Scanner β)

/-- A key, a colon and a value. -/
def scanPair : Scanner (α × β) := fun input =>
  match key input with
  | none => none
  | some (k, rest) =>
    match skip blank rest with
    | [] => none
    | c :: rest => if c = colon then mapScanner (k, ·) value (skip blank rest) else none

/-- A key, a colon and a value, with blanks around the colon. -/
def PairText (K : Lang α) (V : Lang β) : Lang (α × β) := fun kv text =>
  ∃ k w w' v, K kv.1 k ∧ Blanks blank w ∧ Blanks blank w' ∧ V kv.2 v ∧
    text = k ++ (w ++ colon :: (w' ++ v))

variable {blank colon key value} {K : Lang α} {V : Lang β}

theorem Starts.pair {ok : Char → Prop} (h : Starts ok K) : Starts ok (PairText blank colon K V) := by
  rintro ⟨k, v⟩ text ⟨kt, w, w', vt, hk, -, -, -, rfl⟩
  obtain ⟨c, cs, rfl, hc⟩ := h hk
  exact ⟨c, _, rfl, hc⟩

/-- **A pair** is read exactly. -/
theorem reads_pair {stop : Char → Prop} (hkey : Reads (fun _ => True) key K)
    (hvalue : Reads stop value V) (hstarts : Starts (fun c => blank c = false) V)
    (hcolon : blank colon = false) :
    Reads stop (scanPair blank colon key value) (PairText blank colon K V) where
  sound := by
    rintro input ⟨k, v⟩ rest hread
    rw [scanPair] at hread
    split at hread
    · cases hread
    · rename_i k' after hk
      obtain ⟨kt, hkt, rfl⟩ := hkey.sound hk
      obtain ⟨w, hw, hafter⟩ := exists_skip blank after
      split at hread
      · cases hread
      · rename_i c after' hskip
        rw [hskip] at hafter
        split_ifs at hread with hc
        obtain ⟨v', heq, hv⟩ := mapScanner_eq_some_iff.mp hread
        obtain ⟨vt, hvt, hrest⟩ := hvalue.sound hv
        obtain ⟨w', hw', hafter'⟩ := exists_skip blank after'
        cases heq
        exact ⟨kt ++ (w ++ colon :: (w' ++ vt)), ⟨kt, w, w', vt, hkt, hw, hw', hvt, rfl⟩, by
          rw [hafter, hafter', hrest, hc]; simp⟩
  complete := by
    rintro ⟨k, v⟩ text rest ⟨kt, w, w', vt, hk, hw, hw', hv, rfl⟩ hstop
    have hread : key (kt ++ (w ++ colon :: (w' ++ (vt ++ rest)))) =
        some (k, w ++ colon :: (w' ++ (vt ++ rest))) := hkey.complete hk fun _ _ => trivial
    have hskip : skip blank (w ++ colon :: (w' ++ (vt ++ rest))) = colon :: (w' ++ (vt ++ rest)) :=
      skip_append hw (before_cons.mpr hcolon)
    have hskip' : skip blank (w' ++ (vt ++ rest)) = vt ++ rest :=
      skip_append hw' (hstarts.before hv _)
    simp only [List.append_assoc, List.cons_append, scanPair, hread, hskip, if_true, hskip']
    exact mapScanner_eq_some_iff.mpr ⟨v, rfl, hvalue.complete hv hstop⟩

end Pairs

/-! ### Whole texts -/

section Whole

variable (blank : Char → Bool) (p : Scanner α)

/-- A value and nothing else. -/
def scanWhole (input : List Char) : Option α :=
  match p (skip blank input) with
  | some (v, rest) => if skip blank rest = [] then some v else none
  | none => none

/-- A value with blanks around it. -/
def WholeText (P : Lang α) : Lang α := fun v input =>
  ∃ w text w', Blanks blank w ∧ P v text ∧ Blanks blank w' ∧ input = w ++ (text ++ w')

variable {blank p} {P : Lang α}

/-- **A whole text** is read exactly. -/
theorem scanWhole_eq_some_iff {stop : Char → Prop} (h : Reads stop p P)
    (hstarts : Starts (fun c => blank c = false) P) (hstop : ∀ c, blank c = true → stop c)
    {input : List Char} {v : α} :
    scanWhole blank p input = some v ↔ WholeText blank P v input := by
  constructor
  · intro hread
    obtain ⟨w, hw, hinput⟩ := exists_skip blank input
    rw [scanWhole] at hread
    split at hread
    · rename_i v' rest hv
      obtain ⟨text, htext, heq⟩ := h.sound hv
      obtain ⟨w', hw', hrest⟩ := exists_skip blank rest
      split_ifs at hread with hend
      cases hread
      rw [hend, List.append_nil] at hrest
      exact ⟨w, text, w', hw, htext, hw', by rw [hinput, heq, hrest]⟩
    · cases hread
  · rintro ⟨w, text, w', hw, hv, hw', rfl⟩
    have hskip : skip blank (w ++ (text ++ w')) = text ++ w' :=
      skip_append hw (hstarts.before hv _)
    have hread : p (text ++ w') = some (v, w') := by
      refine h.complete hv ?_
      intro c hc
      exact hstop c (hw' c (List.mem_of_mem_head? hc))
    have hend : skip blank w' = [] := by
      have := skip_append hw' (before_nil fun c => blank c = false)
      rwa [List.append_nil] at this
    simp only [scanWhole, hskip, hread, hend, if_true]

end Whole

end OnlineAuction.Foundation.Parsing
