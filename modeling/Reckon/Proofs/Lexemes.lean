import Mathlib.Data.List.TakeWhile
import Reckon.Infix.Lexeme

/-! # Texts written as lexemes

    `Lexeme.chars` writes a lexeme, and `Written lexemes text` says that a text is written as the
    given lexemes, with blanks at will between them but none between a called name and its bracket.
    Cutting a text finds lexemes that the text is written as. A text can be written as other
    lexemes too (`12` is also `1` and `2`), but not if every operand lexeme is followed by a sign or
    a closing bracket: `lexemes_of_written` says that such a text is cut at the places where its
    lexemes were put together.

        lexemes:  number name sign call [ number ]
        apart:    no: nothing between `number` and `name` -/

namespace Reckon

/-! ### Kinds of characters -/

theorem isDigit_iff (c : Char) : c.isDigit = true ↔ 48 ≤ c.toNat ∧ c.toNat ≤ 57 :=
  Char.isDigit_iff_toNat

theorem isAlpha_iff (c : Char) :
    c.isAlpha = true ↔ 65 ≤ c.toNat ∧ c.toNat ≤ 90 ∨ 97 ≤ c.toNat ∧ c.toNat ≤ 122 := by
  show (decide (65 ≤ c.val ∧ c.val ≤ 90) || decide (97 ≤ c.val) && decide (c.val ≤ 122)) = true ↔ _
  simp only [Bool.or_eq_true, Bool.and_eq_true, decide_eq_true_eq, UInt32.le_iff_toNat_le]
  exact Iff.rfl

theorem isBlank_iff (c : Char) :
    Text.isBlank c = true ↔ 9 ≤ c.toNat ∧ c.toNat ≤ 13 ∨ 8192 ≤ c.toNat ∧ c.toNat ≤ 8202
      ∨ c.toNat ∈ Text.whiteSpaceCodes ∨ 28 ≤ c.toNat ∧ c.toNat ≤ 31 := by
  simp [Text.isBlank, Text.isWhiteSpace, or_assoc]

theorem isDigit_of_isBlank {c : Char} (h : Text.isBlank c = true) : c.isDigit = false := by
  rw [isBlank_iff] at h
  simp only [Text.whiteSpaceCodes, List.mem_cons, List.not_mem_nil, or_false] at h
  rw [← Bool.not_eq_true, isDigit_iff]
  omega

theorem isAlpha_of_isBlank {c : Char} (h : Text.isBlank c = true) : c.isAlpha = false := by
  rw [isBlank_iff] at h
  simp only [Text.whiteSpaceCodes, List.mem_cons, List.not_mem_nil, or_false] at h
  rw [← Bool.not_eq_true, isAlpha_iff]
  omega

theorem isBlank_of_isDigit {c : Char} (h : c.isDigit = true) : Text.isBlank c = false := by
  rw [← Bool.not_eq_true]
  intro hb
  rw [isDigit_of_isBlank hb] at h
  cases h

theorem isBlank_of_isAlpha {c : Char} (h : c.isAlpha = true) : Text.isBlank c = false := by
  rw [← Bool.not_eq_true]
  intro hb
  rw [isAlpha_of_isBlank hb] at h
  cases h

theorem isDigit_of_isAlpha {c : Char} (h : c.isAlpha = true) : c.isDigit = false := by
  rw [isAlpha_iff] at h
  rw [← Bool.not_eq_true, isDigit_iff]
  omega

/-! ### The first items that pass a test -/

/-- Items that pass a test, in front of one that does not, are all that is taken. -/
theorem takeWhile_append_of_stop {α : Type} {p : α → Bool} {taken rest : List α}
    (h : ∀ a ∈ taken, p a = true) (hs : ∀ a ∈ rest.head?, p a = false) :
    (taken ++ rest).takeWhile p = taken := by
  rw [List.takeWhile_append_of_pos h]
  cases rest with
  | nil => rw [List.takeWhile_nil, List.append_nil]
  | cons a rest =>
    have ha : ¬ p a = true := by rw [hs a rfl]; exact Bool.false_ne_true
    rw [List.takeWhile_cons_of_neg ha, List.append_nil]

/-- What stays after them begins with the item that does not pass. -/
theorem dropWhile_append_of_stop {α : Type} {p : α → Bool} {taken rest : List α}
    (h : ∀ a ∈ taken, p a = true) (hs : ∀ a ∈ rest.head?, p a = false) :
    (taken ++ rest).dropWhile p = rest := by
  rw [List.dropWhile_append_of_pos h]
  cases rest with
  | nil => rfl
  | cons a rest =>
    have ha : ¬ p a = true := by rw [hs a rfl]; exact Bool.false_ne_true
    rw [List.dropWhile_cons_of_neg ha]

namespace Lexeme

/-! ### Writing one lexeme -/

/-- How a lexeme is written. -/
def chars : Lexeme → List Char
  | number whole none => whole
  | number whole (some fraction) => whole ++ '.' :: fraction
  | name letters => letters
  | call letters => letters
  | sign op => [op.char]
  | opening bracket => [bracket.opening]
  | closing bracket => [bracket.closing]
  | stray c => [c]

/-- A lexeme made of the characters that it should be made of. -/
def Formed : Lexeme → Prop
  | number whole fraction =>
    whole ≠ [] ∧ (∀ c ∈ whole, c.isDigit = true) ∧ ∀ ds ∈ fraction, ∀ c ∈ ds, c.isDigit = true
  | name letters => letters ≠ [] ∧ ∀ c ∈ letters, c.isAlpha = true
  | call letters => letters ≠ [] ∧ ∀ c ∈ letters, c.isAlpha = true
  | sign _ => True
  | opening _ => True
  | closing _ => True
  | stray c =>
    Text.isBlank c = false ∧ c.isDigit = false ∧ c.isAlpha = false ∧ single c = stray c

/-- Texts that may come directly after a lexeme: none that the lexeme would take more of, and after
    a called name its bracket. -/
def Precedes : Lexeme → List Char → Prop
  | number _ none, text => ∀ c ∈ text.head?, c.isDigit = false ∧ c ≠ '.'
  | number _ (some _), text => ∀ c ∈ text.head?, c.isDigit = false
  | name _, text => ∀ c ∈ text.head?, c.isAlpha = false ∧ c ≠ '('
  | call _, text => text.head? = some '('
  | _, _ => True

/-- A lexeme that is an operand by itself. -/
def isOperand : Lexeme → Bool
  | number _ _ | name _ => true
  | _ => false

/-- A lexeme with which an operand begins. -/
def beginsOperand : Lexeme → Bool
  | number _ _ | name _ | call _ | opening _ => true
  | _ => false

/-- A lexeme with which an operand ends. -/
def endsOperand : Lexeme → Bool
  | number _ _ | name _ | closing _ => true
  | _ => false

/-- A closing bracket of either family. -/
def isClosing : Lexeme → Bool
  | closing _ => true
  | _ => false

/-- A lexeme that can come next after an operand. -/
def followsOperand : Lexeme → Bool
  | sign _ | closing _ => true
  | _ => false

end Lexeme

/-- Texts that are written as the given lexemes. -/
inductive Written : List Lexeme → List Char → Prop
  | nil : Written [] []
  | blank {c : Char} {lexemes : List Lexeme} {text : List Char} (hc : Text.isBlank c = true)
      (h : Written lexemes text) : Written lexemes (c :: text)
  | lexeme {l : Lexeme} {lexemes : List Lexeme} {text : List Char} (hl : l.Formed)
      (hcall : ∀ letters, l = .call letters → text.head? = some '(')
      (h : Written lexemes text) : Written (l :: lexemes) (l.chars ++ text)

namespace Lexeme

/-! ### The next lexeme of a text -/

theorem head?_drop_takeWhile (p : Char → Bool) :
    ∀ (text : List Char) (c : Char), c ∈ (text.drop (text.takeWhile p).length).head? → p c = false
  | [], _, h => by cases h
  | a :: rest, c, h => by
    by_cases ha : p a = true
    · rw [List.takeWhile_cons_of_pos ha] at h
      exact head?_drop_takeWhile p rest c h
    · rw [List.takeWhile_cons_of_neg ha] at h
      cases h
      exact Bool.eq_false_iff.mpr ha

theorem forall_mem_cons_takeWhile {p : Char → Bool} {c : Char} (text : List Char)
    (hc : p c = true) : ∀ d ∈ c :: text.takeWhile p, p d = true := by
  intro d hd
  rcases List.mem_cons.mp hd with rfl | hd
  · exact hc
  · exact List.mem_takeWhile_imp hd

theorem take_length_takeWhile (p : Char → Bool) (text : List Char) :
    text.take (text.takeWhile p).length = text.takeWhile p :=
  (List.prefix_iff_eq_take.mp (List.takeWhile_prefix p)).symm

theorem numeral_chars {c : Char} {whole text : List Char} {fraction : Option (List Char)}
    (hl : (number (c :: whole) fraction).Formed)
    (hp : (number (c :: whole) fraction).Precedes text) :
    ∃ rest, (number (c :: whole) fraction).chars = c :: rest
      ∧ numeral c (rest ++ text) = (number (c :: whole) fraction, rest.length) := by
  obtain ⟨-, hw, hf⟩ := hl
  have hw' : ∀ d ∈ whole, d.isDigit = true := fun d hd => hw d (List.mem_cons_of_mem _ hd)
  cases fraction with
  | none =>
    have ht : (whole ++ text).takeWhile Char.isDigit = whole :=
      takeWhile_append_of_stop hw' fun d hd => (hp d hd).1
    refine ⟨whole, rfl, ?_⟩
    simp only [numeral, ht, List.drop_left]
    split
    · next more => exact absurd rfl (hp '.' rfl).2
    · rfl
  | some ds =>
    have ht : (whole ++ '.' :: ds ++ text).takeWhile Char.isDigit = whole := by
      rw [List.append_assoc]
      refine takeWhile_append_of_stop hw' ?_
      rintro d ⟨⟩
      rfl
    have hd : (ds ++ text).takeWhile Char.isDigit = ds :=
      takeWhile_append_of_stop (hf ds rfl) hp
    refine ⟨whole ++ '.' :: ds, rfl, ?_⟩
    simp only [numeral, ht]
    rw [List.append_assoc, List.drop_left, List.cons_append]
    simp only [hd, List.length_append, List.length_cons]
    congr 1
    omega

theorem word_chars {c : Char} {letters text : List Char} (hl : (name (c :: letters)).Formed)
    (hs : ∀ d ∈ text.head?, d.isAlpha = false) :
    word c (letters ++ text)
      = (if text.head? = some '(' then call (c :: letters) else name (c :: letters),
          letters.length) := by
  have ht : (letters ++ text).takeWhile Char.isAlpha = letters :=
    takeWhile_append_of_stop (fun d hd => hl.2 d (List.mem_cons_of_mem _ hd)) hs
  simp only [word, ht, List.drop_left]
  split
  · rfl
  · next h =>
    rw [if_neg]
    intro hh
    obtain ⟨rest, rfl⟩ := List.head?_eq_some_iff.mp hh
    exact h rest rfl

theorem single_char (op : Binary) : single op.char = sign op := by cases op <;> rfl

theorem single_opening (bracket : Bracket) : single bracket.opening = opening bracket := by
  cases bracket <;> rfl

theorem single_closing (bracket : Bracket) : single bracket.closing = closing bracket := by
  cases bracket <;> rfl

/-- A character that is a lexeme by itself is found as that lexeme. -/
theorem next_single {c : Char} (text : List Char) (hb : Text.isBlank c = false)
    (hd : c.isDigit = false) (ha : c.isAlpha = false) : next c text = (some (single c), 0) := by
  rw [next, if_neg (Bool.eq_false_iff.mp hb), if_neg (Bool.eq_false_iff.mp hd),
    if_neg (Bool.eq_false_iff.mp ha)]

theorem next_of_isDigit {c : Char} (text : List Char) (h : c.isDigit = true) :
    next c text = (some (numeral c text).1, (numeral c text).2) := by
  rw [next, if_neg (Bool.eq_false_iff.mp (isBlank_of_isDigit h)), if_pos h]
  rfl

theorem next_of_isAlpha {c : Char} (text : List Char) (h : c.isAlpha = true) :
    next c text = (some (word c text).1, (word c text).2) := by
  rw [next, if_neg (Bool.eq_false_iff.mp (isBlank_of_isAlpha h)),
    if_neg (Bool.eq_false_iff.mp (isDigit_of_isAlpha h)), if_pos h]
  rfl

/-- A lexeme that is written in front of a text that it takes nothing of is the next one. -/
theorem next_chars {l : Lexeme} {text : List Char} (hl : l.Formed) (hp : l.Precedes text) :
    ∃ c rest, l.chars = c :: rest ∧ next c (rest ++ text) = (some l, rest.length) := by
  cases l with
  | number whole fraction =>
    obtain ⟨c, whole, rfl⟩ := List.exists_cons_of_ne_nil hl.1
    obtain ⟨rest, hr, hn⟩ := numeral_chars hl hp
    refine ⟨c, rest, hr, ?_⟩
    rw [next_of_isDigit _ (hl.2.1 c List.mem_cons_self), hn]
  | name letters =>
    obtain ⟨c, letters, rfl⟩ := List.exists_cons_of_ne_nil hl.1
    have hn : ¬ text.head? = some '(' := fun hh => (hp '(' hh).2 rfl
    refine ⟨c, letters, rfl, ?_⟩
    rw [next_of_isAlpha _ (hl.2 c List.mem_cons_self), word_chars hl fun d hd => (hp d hd).1,
      if_neg hn]
  | call letters =>
    obtain ⟨c, letters, rfl⟩ := List.exists_cons_of_ne_nil hl.1
    have hh : text.head? = some '(' := hp
    refine ⟨c, letters, rfl, ?_⟩
    rw [next_of_isAlpha _ (hl.2 c List.mem_cons_self), word_chars hl, if_pos hh]
    intro d hd
    rw [hh] at hd
    cases hd
    rfl
  | sign op =>
    refine ⟨op.char, [], rfl, ?_⟩
    rw [next_single _ (by cases op <;> rfl) (by cases op <;> rfl) (by cases op <;> rfl),
      single_char]
    rfl
  | opening bracket =>
    refine ⟨bracket.opening, [], rfl, ?_⟩
    rw [next_single _ (by cases bracket <;> rfl) (by cases bracket <;> rfl)
      (by cases bracket <;> rfl), single_opening]
    rfl
  | closing bracket =>
    refine ⟨bracket.closing, [], rfl, ?_⟩
    rw [next_single _ (by cases bracket <;> rfl) (by cases bracket <;> rfl)
      (by cases bracket <;> rfl), single_closing]
    rfl
  | stray c =>
    obtain ⟨hb, hd, ha, hs⟩ := hl
    refine ⟨c, [], rfl, ?_⟩
    rw [next_single _ hb hd ha, hs]
    rfl

/-- The numeral that is found is written where it is found, and takes nothing more. -/
theorem numeral_spec {c : Char} (rest : List Char) (hc : c.isDigit = true) :
    (numeral c rest).1.Formed
      ∧ (numeral c rest).1.chars = c :: rest.take (numeral c rest).2
      ∧ (numeral c rest).1.Precedes (rest.drop (numeral c rest).2) := by
  have hall := forall_mem_cons_takeWhile rest hc
  have hstop := head?_drop_takeWhile Char.isDigit rest
  have htake := take_length_takeWhile Char.isDigit rest
  unfold numeral
  simp only
  split
  · next more hdrop =>
    have hlen : (rest.takeWhile Char.isDigit).length + 1 + (more.takeWhile Char.isDigit).length
        = (rest.takeWhile Char.isDigit).length + (1 + (more.takeWhile Char.isDigit).length) := by
      omega
    refine ⟨⟨List.cons_ne_nil _ _, hall, ?_⟩, ?_, ?_⟩
    · rintro ds ⟨⟩ d hd
      exact List.mem_takeWhile_imp hd
    · rw [hlen, List.take_add, htake, hdrop, Nat.add_comm 1, List.take_succ_cons,
        take_length_takeWhile]
      rfl
    · rw [hlen, ← List.drop_drop, hdrop, Nat.add_comm 1, List.drop_succ_cons]
      exact head?_drop_takeWhile Char.isDigit more
  · next hdrop =>
    refine ⟨⟨List.cons_ne_nil _ _, hall, ?_⟩, ?_, ?_⟩
    · rintro ds ⟨⟩
    · rw [htake]
      rfl
    · intro d hd
      refine ⟨hstop d hd, ?_⟩
      rintro rfl
      obtain ⟨more, hm⟩ := List.head?_eq_some_iff.mp hd
      exact hdrop more hm

/-- The word that is found is written where it is found, and takes nothing more. -/
theorem word_spec {c : Char} (rest : List Char) (hc : c.isAlpha = true) :
    (word c rest).1.Formed
      ∧ (word c rest).1.chars = c :: rest.take (word c rest).2
      ∧ (word c rest).1.Precedes (rest.drop (word c rest).2) := by
  have hall := forall_mem_cons_takeWhile rest hc
  have htake := take_length_takeWhile Char.isAlpha rest
  unfold word
  simp only
  split
  · next more hdrop =>
    refine ⟨⟨List.cons_ne_nil _ _, hall⟩, ?_, ?_⟩
    · rw [htake]
      rfl
    · rw [hdrop]
      rfl
  · next hdrop =>
    refine ⟨⟨List.cons_ne_nil _ _, hall⟩, ?_, ?_⟩
    · rw [htake]
      rfl
    · intro d hd
      refine ⟨head?_drop_takeWhile Char.isAlpha rest d hd, ?_⟩
      rintro rfl
      obtain ⟨more, hm⟩ := List.head?_eq_some_iff.mp hd
      exact hdrop more hm

/-- A lexeme by itself is written as its character. -/
theorem single_spec {c : Char} (rest : List Char) (hb : Text.isBlank c = false)
    (hd : c.isDigit = false) (ha : c.isAlpha = false) :
    (single c).Formed ∧ (single c).chars = [c] ∧ (single c).Precedes rest := by
  have hs : ∀ l, single c = l → l.Formed ∧ l.chars = [c] ∧ l.Precedes rest := by
    intro l hl
    unfold single at hl
    split at hl
    · next op hop =>
      subst hl
      exact ⟨trivial, by rw [chars, Binary.char_of_ofChar? hop], trivial⟩
    · next bracket _ hop =>
      subst hl
      exact ⟨trivial, by rw [chars, Bracket.opening_of_ofOpening? hop], trivial⟩
    · next bracket _ _ hop =>
      subst hl
      exact ⟨trivial, by rw [chars, Bracket.closing_of_ofClosing? hop], trivial⟩
    · next hop hopen hclose =>
      subst hl
      refine ⟨⟨hb, hd, ha, ?_⟩, rfl, trivial⟩
      rw [single, hop, hopen, hclose]
  exact hs _ rfl

/-- What `next` finds is written where it is found, and takes nothing more. -/
theorem next_eq_some {c : Char} {rest : List Char} {l : Lexeme} {more : Nat}
    (h : next c rest = (some l, more)) :
    l.Formed ∧ l.chars = c :: rest.take more ∧ l.Precedes (rest.drop more) := by
  unfold next at h
  split at h
  · cases h
  split at h
  · next hc =>
    cases h
    exact numeral_spec rest hc
  split at h
  · next hc =>
    cases h
    exact word_spec rest hc
  · next hb hd ha =>
    cases h
    exact single_spec rest (Bool.eq_false_iff.mpr hb) (Bool.eq_false_iff.mpr hd)
      (Bool.eq_false_iff.mpr ha)

/-- Only blanks are passed over, one at a time. -/
theorem next_eq_none {c : Char} {rest : List Char} {more : Nat}
    (h : next c rest = (none, more)) : Text.isBlank c = true ∧ more = 0 := by
  unfold next at h
  split at h
  · next hc =>
    cases h
    exact ⟨hc, rfl⟩
  split at h
  · cases h
  split at h
  · cases h
  · cases h

/-! ### All lexemes of a text -/

theorem scan_blank {c : Char} (position : Nat) (text : List Char) (h : Text.isBlank c = true) :
    scan 0 position (c :: text) = scan 0 (position + 1) text := by
  have hn : next c text = (none, 0) := by rw [next, if_pos h]
  rw [scan, hn]

/-- A lexeme in front of a text that it takes nothing of is cut off as a whole. -/
theorem scan_chars_append {l : Lexeme} {text : List Char} (position : Nat) (hl : l.Formed)
    (hp : l.Precedes text) :
    scan 0 position (l.chars ++ text)
      = ⟨position, l⟩ :: scan 0 (position + l.chars.length) text := by
  obtain ⟨c, rest, hc, hn⟩ := next_chars hl hp
  rw [hc, List.cons_append, scan, hn]
  simp only
  rw [scan_skip, List.drop_left, List.length_cons]
  congr 2
  omega

/-- A text is written as the lexemes that it is cut into. -/
theorem written_scan (position : Nat) (text : List Char) :
    Written ((scan 0 position text).map (·.lexeme)) text := by
  -- by length, because a lexeme may take several characters at once
  induction hn : text.length using Nat.strongRecOn generalizing position text with
  | _ n ih =>
    cases text with
    | nil =>
      rw [scan_nil]
      exact .nil
    | cons c rest =>
      rw [scan]
      cases hnext : next c rest with
      | mk found more =>
        cases found with
        | none =>
          obtain ⟨hc, rfl⟩ := next_eq_none hnext
          exact .blank hc (ih rest.length (by rw [← hn, List.length_cons]; omega) _ rest rfl)
        | some l =>
          obtain ⟨hl, hchars, hp⟩ := next_eq_some hnext
          have htext : c :: rest = l.chars ++ rest.drop more := by
            rw [hchars, List.cons_append, List.take_append_drop]
          simp only [List.map_cons]
          rw [htext, scan_skip]
          refine .lexeme hl ?_ (ih (rest.drop more).length ?_ _ _ rfl)
          · rintro letters rfl
            exact hp
          · rw [← hn, List.length_drop, List.length_cons]
            omega

theorem written_lexemes (text : List Char) :
    Written ((lexemes text).map (·.lexeme)) text :=
  written_scan 0 text

end Lexeme

/-! ### Lexemes that stay apart without blanks -/

/-- Lexemes of which every operand comes last or is followed by a sign or a closing bracket. -/
def Apart : List Lexeme → Prop
  | [] => True
  | l :: rest => (l.isOperand = true → ∀ m ∈ rest.head?, m.followsOperand = true) ∧ Apart rest

/-- A character that ends every operand. -/
def EndsOperand (c : Char) : Prop :=
  c.isDigit = false ∧ c.isAlpha = false ∧ c ≠ '.' ∧ c ≠ '('

theorem endsOperand_of_isBlank {c : Char} (h : Text.isBlank c = true) : EndsOperand c := by
  refine ⟨isDigit_of_isBlank h, isAlpha_of_isBlank h, ?_, ?_⟩
  · rintro rfl
    revert h
    decide
  · rintro rfl
    revert h
    decide

/-- A text written as lexemes that can follow an operand begins with a character that ends it. -/
theorem endsOperand_of_written {lexemes : List Lexeme} {text : List Char}
    (h : Written lexemes text) (hf : ∀ m ∈ lexemes.head?, m.followsOperand = true) :
    ∀ c ∈ text.head?, EndsOperand c := by
  intro c hc
  cases h with
  | nil => cases hc
  | blank hb _ =>
    cases hc
    exact endsOperand_of_isBlank hb
  | @lexeme l _ _ hl _ _ =>
    have hfl := hf l rfl
    cases l with
    | sign op =>
      cases hc
      cases op <;> refine ⟨rfl, rfl, ?_, ?_⟩ <;> decide
    | closing bracket =>
      cases hc
      cases bracket <;> refine ⟨rfl, rfl, ?_, ?_⟩ <;> decide
    | _ => cases hfl

/-- Lexemes that stay apart are found again in every text that is written as them. -/
theorem scan_of_written {lexemes : List Lexeme} {text : List Char} (h : Written lexemes text)
    (ha : Apart lexemes) (position : Nat) :
    (Lexeme.scan 0 position text).map (·.lexeme) = lexemes := by
  induction h generalizing position with
  | nil => rfl
  | blank hc _ ih =>
    rw [Lexeme.scan_blank position _ hc]
    exact ih ha _
  | @lexeme l rest text hl hcall hw ih =>
    have hp : l.Precedes text := by
      cases l with
      | number whole fraction =>
        have he := endsOperand_of_written hw (ha.1 rfl)
        cases fraction with
        | none => exact fun c hc => ⟨(he c hc).1, (he c hc).2.2.1⟩
        | some ds => exact fun c hc => (he c hc).1
      | name letters =>
        have he := endsOperand_of_written hw (ha.1 rfl)
        exact fun c hc => ⟨(he c hc).2.1, (he c hc).2.2.2⟩
      | call letters => exact hcall letters rfl
      | sign op => trivial
      | opening bracket => trivial
      | closing bracket => trivial
      | stray c => trivial
    rw [Lexeme.scan_chars_append position hl hp, List.map_cons, ih ha.2]

/-- Lexemes of which every called name is followed by its bracket. -/
def CallsOpen : List Lexeme → Prop
  | [] => True
  | l :: rest =>
    (∀ letters, l = .call letters → rest.head? = some (.opening .round)) ∧ CallsOpen rest

/-- Only a round opening bracket is written with that character in front. -/
theorem head?_of_written {lexemes : List Lexeme} {text : List Char} (h : Written lexemes text)
    (ht : text.head? = some '(') : lexemes.head? = some (.opening .round) := by
  cases h with
  | nil => cases ht
  | blank hc _ =>
    cases ht
    cases hc
  | @lexeme l _ rest hl _ _ =>
    cases l with
    | number whole fraction =>
      obtain ⟨c, whole, rfl⟩ := List.exists_cons_of_ne_nil hl.1
      have hd := hl.2.1 c List.mem_cons_self
      cases fraction <;> cases ht <;> cases hd
    | name letters =>
      obtain ⟨c, letters, rfl⟩ := List.exists_cons_of_ne_nil hl.1
      have ha := hl.2 c List.mem_cons_self
      cases ht
      cases ha
    | call letters =>
      obtain ⟨c, letters, rfl⟩ := List.exists_cons_of_ne_nil hl.1
      have ha := hl.2 c List.mem_cons_self
      cases ht
      cases ha
    | sign op => cases op <;> cases ht
    | opening bracket =>
      cases bracket with
      | round => rfl
      | square => cases ht
    | closing bracket => cases bracket <;> cases ht
    | stray c =>
      cases ht
      cases hl.2.2.2

theorem callsOpen_of_written {lexemes : List Lexeme} {text : List Char} (h : Written lexemes text) :
    CallsOpen lexemes := by
  induction h with
  | nil => trivial
  | blank _ _ ih => exact ih
  | lexeme _ hcall hw ih => exact ⟨fun letters hl => head?_of_written hw (hcall letters hl), ih⟩

theorem formed_of_written {lexemes : List Lexeme} {text : List Char} (h : Written lexemes text) :
    ∀ l ∈ lexemes, l.Formed := by
  induction h with
  | nil => exact List.forall_mem_nil _
  | blank _ _ ih => exact ih
  | lexeme hl _ _ ih => exact List.forall_mem_cons.mpr ⟨hl, ih⟩

theorem lexemes_of_written {lexemes : List Lexeme} {text : List Char} (h : Written lexemes text)
    (ha : Apart lexemes) : (Lexeme.lexemes text).map (·.lexeme) = lexemes :=
  scan_of_written h ha 0

end Reckon
