import Reckon.Proofs.Offence

/-! # Places in a text

    What a text is cut into can be told without cutting it, place by place. A numeral begins at a
    digit that goes on with no other numeral, and is as long as it can be (`NumberAt`); that holds
    of texts without stray points, in which every point belongs to a numeral. Whether an operand was
    read last shows on the last visible character (`endsWithOperand`), since the lexemes before it
    make no difference. `places` counts the places of a text that pass a test.

        text:       2 . 5 *   - s i n ( x 7 )
        numerals:   ^                     ^
        operand before:   y n n             y -/

namespace Reckon

open Lexeme

/-! ### Numerals where they stand -/

namespace Lexeme

/-- A lexeme that is a numeral. -/
def isNumber : Lexeme → Bool
  | number _ _ => true
  | _ => false

/-- A character that numerals are written with. -/
def inNumber (c : Char) : Bool := c.isDigit || c == '.'

theorem inNumber_eq_false_iff {c : Char} :
    inNumber c = false ↔ c.isDigit = false ∧ c ≠ '.' := by
  simp [inNumber]

theorem isDigit_head?_chars {whole : List Char} {fraction : Option (List Char)}
    (hl : (number whole fraction).Formed) :
    ∃ c rest, (number whole fraction).chars = c :: rest ∧ c.isDigit = true := by
  obtain ⟨c, digits, rfl⟩ := List.exists_cons_of_ne_nil hl.1
  have hc := hl.2.1 c List.mem_cons_self
  cases fraction with
  | none => exact ⟨c, digits, rfl, hc⟩
  | some ds => exact ⟨c, digits ++ '.' :: ds, rfl, hc⟩

theorem family_number : Family isNumber inNumber where
  blank c hc := by
    have he := endsOperand_of_isBlank hc
    exact inNumber_eq_false_iff.mpr ⟨he.1, he.2.2.1⟩
  inside l hl hn c hc := by
    cases l with
    | number whole fraction => rcases isDigit_or_eq_point hl hc with h | rfl <;> simp [inNumber, *]
    | _ => cases hn
  apart l m after hl hn hmn hp := by
    cases l with
    | number whole fraction =>
      obtain ⟨c, rest, hchars, hc⟩ := isDigit_head?_chars hl
      rw [hchars] at hp
      cases m with
      | number whole' fraction' =>
        cases fraction' with
        | none => exact Bool.eq_false_iff.mp (hp c rfl).1 hc
        | some ds => exact Bool.eq_false_iff.mp (hp c rfl) hc
      | _ => cases hmn
    | _ => cases hn

/-- Apart from a stray point, only numerals are written with digits and points. -/
theorem inNumber_of_mem_chars {l : Lexeme} (hl : l.Formed) (hn : l.isNumber = false)
    (hpoint : l ≠ .stray '.') {c : Char} (hc : c ∈ l.chars) : inNumber c = false := by
  rw [inNumber_eq_false_iff]
  cases l with
  | number => cases hn
  | name letters | call letters =>
    have ha := hl.2 c hc
    refine ⟨isDigit_of_isAlpha ha, ?_⟩
    rintro rfl
    cases ha
  | sign op =>
    obtain rfl := List.mem_singleton.mp hc
    cases op <;> decide
  | opening bracket | closing bracket =>
    obtain rfl := List.mem_singleton.mp hc
    cases bracket <;> decide
  | stray d =>
    obtain rfl := List.mem_singleton.mp hc
    refine ⟨hl.2.1, ?_⟩
    rintro rfl
    exact hpoint rfl

end Lexeme

/-- Digits, or digits around a point, as long a run as it can be. -/
def NumberAt (text : List Char) (position : Nat) (whole : List Char)
    (fraction : Option (List Char)) : Prop :=
  ∃ before after, text = before ++ ((number whole fraction).chars ++ after)
    ∧ before.length = position ∧ (number whole fraction).Formed
    ∧ (∀ c ∈ before.getLast?, c.isDigit = false ∧ c ≠ '.') ∧ (number whole fraction).Precedes after

theorem NumberAt.formed {text whole : List Char} {fraction : Option (List Char)} {position : Nat}
    (h : NumberAt text position whole fraction) : (number whole fraction).Formed := by
  obtain ⟨before, after, -, -, hl, -, -⟩ := h
  exact hl

/-- The numerals that a text without stray points is cut into are those that stand in it. -/
theorem mem_lexemes_number_iff {text whole : List Char} {fraction : Option (List Char)}
    {position : Nat} (hpoint : ∀ p ∈ lexemes text, p.lexeme ≠ .stray '.') :
    ⟨position, .number whole fraction⟩ ∈ lexemes text ↔ NumberAt text position whole fraction := by
  have hcut := cut_lexemes text
  rw [hcut.mem_iff_of_family family_number
    (fun p hp hn c hc => inNumber_of_mem_chars (hcut.formed p hp) hn (hpoint p hp) hc) rfl]
  simp only [inNumber_eq_false_iff]
  constructor
  · rintro ⟨before, after, htext, rfl, hbefore, hl, hp⟩
    exact ⟨before, after, htext, (Nat.zero_add _).symm, hl, hbefore, hp⟩
  · rintro ⟨before, after, htext, rfl, hl, hbefore, hp⟩
    exact ⟨before, after, htext, (Nat.zero_add _).symm, hbefore, hl, hp⟩

/-! ### The last visible character -/

/-- A character with which an operand can end: of a numeral or a name, or a closing bracket. -/
def closesOperand (c : Char) : Bool :=
  c.isDigit || c.isAlpha || c == '.' || (Bracket.ofClosing? c).isSome

theorem closesOperand_eq_false {c : Char}
    (h : (Binary.ofChar? c).isSome = true ∨ (Bracket.ofOpening? c).isSome = true) :
    closesOperand c = false := by
  rcases h with hop | hopen
  · obtain ⟨op, hop⟩ := Option.isSome_iff_exists.mp hop
    obtain rfl := Binary.char_of_ofChar? hop
    cases op <;> rfl
  · obtain ⟨bracket, hb⟩ := Option.isSome_iff_exists.mp hopen
    obtain rfl := Bracket.opening_of_ofOpening? hb
    cases bracket <;> rfl

/-- Whether the last visible character of a text ends an operand. -/
def endsWithOperand (text : List Char) : Bool := (lastVisible text).any closesOperand

theorem lastVisible_concat_blank (text : List Char) {c : Char} (hc : Text.isBlank c = true) :
    lastVisible (text ++ [c]) = lastVisible text := by
  rw [lastVisible, List.filter_append, List.filter_cons_of_neg (by simpa using hc),
    List.filter_nil, List.append_nil]
  rfl

theorem lastVisible_concat (text : List Char) {c : Char} (hc : Text.isBlank c = false) :
    lastVisible (text ++ [c]) = some c := by
  rw [lastVisible, List.filter_append, List.filter_cons_of_pos (by simpa using hc), List.filter_nil,
    List.getLast?_concat]

theorem lastVisible_append_chars (text : List Char) {l : Lexeme} (hl : l.Formed) :
    lastVisible (text ++ l.chars) = l.chars.getLast? := by
  have hvisible : l.chars.filter (fun c => !Text.isBlank c) = l.chars :=
    List.filter_eq_self.mpr fun c hc => by simpa using isBlank_of_mem_chars hl hc
  have hne := List.length_pos_iff.mp (Cut.length_chars_pos hl)
  rw [lastVisible, List.filter_append, hvisible, List.getLast?_append,
    List.getLast?_eq_some_getLast hne]
  rfl

/-- A lexeme that ends an operand ends with a character that does, and no other lexeme does, stray
    characters and called names apart. -/
theorem closesOperand_getLast? {l : Lexeme} (hl : l.Formed) (hstray : ∀ c, l ≠ .stray c)
    (hcall : ∀ letters, l ≠ .call letters) {c : Char} (hc : c ∈ l.chars.getLast?) :
    closesOperand c = l.endsOperand := by
  have hmem := List.mem_of_getLast? hc
  cases l with
  | number whole fraction =>
    rcases isDigit_or_eq_point hl hmem with hd | rfl
    · simp [closesOperand, endsOperand, hd]
    · rfl
  | name letters => simp [closesOperand, endsOperand, hl.2 c hmem]
  | call letters => exact absurd rfl (hcall letters)
  | sign op =>
    obtain rfl := List.mem_singleton.mp hmem
    cases op <;> rfl
  | opening bracket | closing bracket =>
    obtain rfl := List.mem_singleton.mp hmem
    cases bracket <;> rfl
  | stray d => exact absurd rfl (hstray d)

theorem endsWithOperand_append_chars (text : List Char) {l : Lexeme} (hl : l.Formed)
    (hstray : ∀ c, l ≠ .stray c) (hcall : ∀ letters, l ≠ .call letters) :
    endsWithOperand (text ++ l.chars) = l.endsOperand := by
  have hne := List.length_pos_iff.mp (Cut.length_chars_pos hl)
  have hlast := List.getLast?_eq_some_getLast hne
  rw [endsWithOperand, lastVisible_append_chars text hl, hlast, Option.any_some]
  exact closesOperand_getLast? hl hstray hcall hlast

namespace Infix

variable {allow : Bool} {s final : State} {placed : List Placed} {out : List Token}

/-- No stray character is read. -/
theorem Reaches.ne_stray (h : Reaches allow s placed out final) :
    ∀ p ∈ placed, ∀ c, p.lexeme ≠ .stray c := by
  intro p hp c hc
  obtain ⟨s, next, out, hm⟩ := h.moves_of_mem hp
  cases hm <;> cases hc

/-- Whether an operand was read last shows on the last visible character. -/
theorem Reaches.endsWithOperand {text : List Char} (hcut : Cut 0 text placed)
    (h : Reaches allow .start placed out final) :
    final.operandRead = Reckon.endsWithOperand text := by
  rw [h.operandRead_eq, Reckon.endsWithOperand, hcut.lastVisible_eq]
  cases hp : placed.getLast? with
  | none => rfl
  | some p =>
    have hmem := List.mem_of_getLast? hp
    have hl := hcut.formed p hmem
    have hlast := List.getLast?_eq_some_getLast (List.length_pos_iff.mp (Cut.length_chars_pos hl))
    have hends :=
      closesOperand_getLast? hl (h.ne_stray p hmem) (hcut.ne_call_of_getLast? hp) hlast
    rw [Option.bind_some, hlast, Option.any_some, hends]
    rfl

end Infix

/-! ### Counting places -/

/-- How many places of a text pass a test, each told by what is before it and what begins there;
    `before` is what comes before the text. -/
def places (test : List Char → List Char → Bool) (before : List Char) : List Char → Nat
  | [] => 0
  | c :: rest => (if test before (c :: rest) then 1 else 0) + places test (before ++ [c]) rest

/-- Characters at which no place passes are passed over. -/
theorem places_append_of_none {test : List Char → List Char → Bool} {before chars text : List Char}
    (h : ∀ first c rest, chars = first ++ c :: rest →
      test (before ++ first) (c :: rest ++ text) = false) :
    places test before (chars ++ text) = places test (before ++ chars) text := by
  induction chars generalizing before with
  | nil => rw [List.append_nil, List.nil_append]
  | cons c rest ih =>
    have hfirst := h [] c rest rfl
    rw [List.append_nil] at hfirst
    rw [List.cons_append, places, ← List.cons_append, hfirst, ih, List.append_assoc]
    · simp
    · intro first d more hmore
      rw [List.append_assoc]
      exact h (c :: first) d more (by rw [hmore, List.cons_append])

end Reckon
