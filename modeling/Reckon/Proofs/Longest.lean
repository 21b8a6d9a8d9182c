import Reckon.Proofs.Outcomes
import Reckon.Proofs.Places
import Reckon.Proofs.Turns

/-! # Numerals as long as they can be

    A numeral is written in decimal form: digits, and perhaps a point with digits or none after it
    (`DecimalForm`). At a digit of a text a reading takes the longest text in decimal form that
    begins there, whole, as one number; its text is always a number text. What is left then begins
    with no digit, and with a point only if the numeral has one already. Such a second point begins
    no lexeme and is refused at its place, so no text is accepted in which two points have only
    digits between them (`numerals_longest`).

        text:       x + 1 2 . 5 . 3
        numeral:        1 2 . 5          refused at 6 -/

namespace Reckon

open Lexeme

/-! ### Decimal form -/

/-- Digits, or digits and a point with digits or none after it. -/
inductive DecimalForm : List Char → Prop
  | digits {whole : List Char} (hne : whole ≠ []) (hw : ∀ d ∈ whole, d.isDigit = true) :
      DecimalForm whole
  | point {whole fraction : List Char} (hne : whole ≠ []) (hw : ∀ d ∈ whole, d.isDigit = true)
      (hf : ∀ d ∈ fraction, d.isDigit = true) : DecimalForm (whole ++ '.' :: fraction)

variable {whole text after : List Char} {fraction : Option (List Char)}

/-- What is in decimal form are the texts of numerals. -/
theorem decimalForm_iff :
    DecimalForm text ↔
      ∃ whole fraction, (number whole fraction).Formed ∧ text = (number whole fraction).chars := by
  constructor
  · rintro (⟨hne, hw⟩ | @⟨whole, fraction, hne, hw, hf⟩)
    · exact ⟨text, none, ⟨hne, hw, nofun⟩, rfl⟩
    · refine ⟨whole, some fraction, ⟨hne, hw, ?_⟩, rfl⟩
      rintro ds ⟨⟩
      exact hf
  · rintro ⟨whole, fraction, hl, rfl⟩
    cases fraction with
    | none => exact .digits hl.1 hl.2.1
    | some ds => exact .point hl.1 hl.2.1 (hl.2.2 ds rfl)

theorem decimalForm_chars (hl : (number whole fraction).Formed) :
    DecimalForm (number whole fraction).chars :=
  decimalForm_iff.mpr ⟨whole, fraction, hl, rfl⟩

theorem count_point_of_digits {ds : List Char} (h : ∀ d ∈ ds, d.isDigit = true) :
    ds.count '.' = 0 := by
  rw [List.count_eq_zero]
  intro hmem
  cases h '.' hmem

namespace DecimalForm

theorem length_pos (h : DecimalForm text) : 0 < text.length := by
  obtain ⟨whole, fraction, hl, rfl⟩ := decimalForm_iff.mp h
  exact Cut.length_chars_pos hl

theorem isDigit_or_eq_point (h : DecimalForm text) {c : Char} (hc : c ∈ text) :
    c.isDigit = true ∨ c = '.' := by
  obtain ⟨whole, fraction, hl, rfl⟩ := decimalForm_iff.mp h
  exact Lexeme.isDigit_or_eq_point hl hc

/-- There is one point at most. -/
theorem count_point_le (h : DecimalForm text) : text.count '.' ≤ 1 := by
  cases h with
  | digits _ hw =>
    rw [count_point_of_digits hw]
    omega
  | point _ hw hf =>
    rw [List.count_append, List.count_cons_self, count_point_of_digits hw, count_point_of_digits hf]

end DecimalForm

/-- The longest beginning of a text that is in decimal form. -/
structure LongestForm (found text : List Char) : Prop where
  begins : found <+: text
  form : DecimalForm found
  longest : ∀ other, DecimalForm other → other <+: text → other.length ≤ found.length

theorem exists_number_eq_numeral (c : Char) (rest : List Char) :
    ∃ whole fraction, (numeral c rest).1 = number whole fraction := by
  unfold numeral
  simp only
  split
  · exact ⟨_, _, rfl⟩
  · exact ⟨_, _, rfl⟩

/-- Nothing in decimal form goes on with a character that a numeral stops at. -/
theorem not_decimalForm_of_precedes {d : Char} (more : List Char) {tail : List Char}
    (hp : (number whole fraction).Precedes (d :: tail)) :
    ¬ DecimalForm ((number whole fraction).chars ++ d :: more) := by
  intro h
  have hd := h.isDigit_or_eq_point (List.mem_append_right _ List.mem_cons_self)
  cases fraction with
  | none =>
    obtain ⟨hdigit, hpoint⟩ := hp d rfl
    simp [hdigit, hpoint] at hd
  | some ds =>
    have hdigit : d.isDigit = false := hp d rfl
    obtain rfl : d = '.' := by simpa [hdigit] using hd
    have hcount := h.count_point_le
    simp only [chars, List.count_append, List.count_cons_self] at hcount
    omega

/-- A numeral in front of a text that it takes nothing of is as long as it can be. -/
theorem longestForm_chars (hl : (number whole fraction).Formed)
    (hp : (number whole fraction).Precedes after) :
    LongestForm (number whole fraction).chars ((number whole fraction).chars ++ after) := by
  refine ⟨List.prefix_append _ _, decimalForm_chars hl, ?_⟩
  rintro other ho ⟨tail, htail⟩
  rcases List.append_eq_append_iff.mp htail with ⟨more, hchars, -⟩ | ⟨more, rfl, rfl⟩
  · rw [hchars, List.length_append]
    omega
  · cases more with
    | nil => rw [List.append_nil]
    | cons d more => exact absurd ho (not_decimalForm_of_precedes more hp)

/-! ### Two points -/

/-- Two points stand in a text with only digits between them, or nothing. -/
def TwoPoints (text : List Char) : Prop :=
  ∃ first between last, text = first ++ '.' :: (between ++ '.' :: last)
    ∧ ∀ d ∈ between, d.isDigit = true

/-- A point belongs to a numeral or is a lexeme by itself. -/
theorem eq_stray_or_number_of_point_mem {l : Lexeme} (hl : l.Formed) (h : '.' ∈ l.chars) :
    l = .stray '.' ∨ ∃ whole ds, l = .number whole (some ds) := by
  by_cases hpoint : l = .stray '.'
  · exact .inl hpoint
  · refine .inr ?_
    cases hn : l.isNumber with
    | false => cases inNumber_of_mem_chars hl hn hpoint h
    | true =>
      cases l with
      | number whole fraction =>
        cases fraction with
        | none => cases hl.2.1 '.' h
        | some ds => exact ⟨whole, ds, rfl⟩
      | _ => cases hn

/-- No lexeme but the point itself begins with a point. -/
theorem Cut.stray_point_mem {position : Nat} {placed : List Placed}
    (h : Cut position ('.' :: text) placed) : ⟨position, .stray '.'⟩ ∈ placed := by
  have hnext : next '.' text = (some (.stray '.'), 0) := next_single text rfl rfl rfl
  rw [h.eq_scan, scan, hnext]
  exact List.mem_cons_self

/-- After a numeral with a point, a second point that only digits separate from the first is what
    comes next. -/
theorem second_point_ends {ds : List Char} (hl : (number whole (some ds)).Formed)
    (hp : (number whole (some ds)).Precedes text) {first inside between last : List Char}
    (hchars : (number whole (some ds)).chars = first ++ '.' :: inside)
    (hb : ∀ d ∈ between, d.isDigit = true) (h : inside ++ text = between ++ '.' :: last) :
    text = '.' :: last := by
  have hinside : '.' ∉ inside := by
    have hcount := (decimalForm_chars hl).count_point_le
    rw [hchars, List.count_append, List.count_cons_self] at hcount
    exact List.count_eq_zero.mp (by omega)
  rcases List.append_eq_append_iff.mp h with ⟨more, rfl, htext⟩ | ⟨more, rfl, htext⟩
  · cases more with
    | nil => exact htext
    | cons d more =>
      have hdigit : d.isDigit = false := hp d (by rw [htext]; rfl)
      rw [hb d (by simp)] at hdigit
      cases hdigit
  · cases more with
    | nil => exact htext.symm
    | cons d more =>
      obtain ⟨rfl, -⟩ := List.cons.inj htext
      simp at hinside

/-- Of two points with only digits between them, one is a lexeme by itself. -/
theorem Cut.exists_stray_point {position : Nat} {placed : List Placed}
    (h : Cut position text placed) (ht : TwoPoints text) : ∃ i, ⟨i, .stray '.'⟩ ∈ placed := by
  obtain ⟨first, between, last, htext, hb⟩ := ht
  induction h generalizing first with
  | nil => simp at htext
  | blank hc _ ih =>
    cases first with
    | nil =>
      obtain ⟨rfl, -⟩ := List.cons.inj htext
      cases hc
    | cons d first => exact ih first (List.cons.inj htext).2
  | @lexeme position l text placed hl hp h ih =>
    -- the first point stands after the lexeme, or is one of its characters
    rcases List.append_eq_append_iff.mp htext with ⟨more, -, hmore⟩ | ⟨more, hchars, hmore⟩
    · obtain ⟨i, hi⟩ := ih more hmore
      exact ⟨i, List.mem_cons_of_mem _ hi⟩
    · rcases List.cons_eq_append_iff.mp hmore with ⟨-, hmore⟩ | ⟨inside, rfl, hinside⟩
      · obtain ⟨i, hi⟩ := ih [] hmore
        exact ⟨i, List.mem_cons_of_mem _ hi⟩
      · rcases eq_stray_or_number_of_point_mem hl (by simp [hchars]) with rfl | ⟨whole, ds, rfl⟩
        · exact ⟨position, List.mem_cons_self⟩
        · obtain rfl := second_point_ends hl hp hchars hb hinside.symm
          exact ⟨_, List.mem_cons_of_mem _ h.stray_point_mem⟩

namespace Infix

/-- No text with two points that only digits separate is accepted. -/
theorem convert_ne_ok_of_twoPoints {allow : Bool} {text : String} (h : TwoPoints text.toList)
    (tokens : List Token) : convert allow text ≠ .ok tokens := by
  intro hok
  obtain ⟨out, final, last, hreach, -⟩ := reaches_of_run hok
  obtain ⟨i, hi⟩ := (cut_lexemes text.toList).exists_stray_point h
  exact hreach.ne_stray _ hi '.' rfl

/-! ### Reading a numeral -/

/-- What is done at the digit `c` of a text with `before` before it and `rest` after it: `found` is
    read, as a numeral worth `x`, and `after` is left. -/
structure ReadsNumeral (allow : Bool) (text : String) (before : List Char) (c : Char)
    (rest found after : List Char) (x : Float) : Prop where
  parts : text.toList = before ++ (found ++ after)
  longest : LongestForm found (c :: rest)
  /-- `numeral` says where it ends, which is inside the text -/
  length_eq : (numeral c rest).2 + 1 = found.length
  nonempty : before.length < before.length + found.length
  inside : before.length + found.length ≤ text.length
  value : Number.ofText? found = some x
  /-- the lexeme gives one token, whatever the state, -/
  token : ∀ s, step allow s ⟨before.length, (numeral c rest).1⟩
    = .ok (⟨true, s.waiting⟩, [.number x])
  /-- and the next turn begins after it -/
  turn : ∀ s out, Turn allow text.toList before (c :: rest) s out →
    Turn allow text.toList (before ++ found) after ⟨true, s.waiting⟩ (out ++ [.number x])
  /-- where a point is refused -/
  second_point : after.head? = some '.' → ∀ s out,
    Turn allow text.toList (before ++ found) after s out →
      ∃ r, convert allow text = .error r ∧ r.kind = .unknownSymbol
        ∧ r.position = some ((before.length + found.length : Nat) : Int)

/-- A point where a lexeme should begin is refused at its place. -/
theorem Turn.convert_of_point {allow : Bool} {text : String} {before : List Char} {s : State}
    {out : List Token} (h : Turn allow text.toList before after s out)
    (ha : after.head? = some '.') :
    convert allow text = .error (.strayCharacter '.' before.length) := by
  obtain ⟨rest, rfl⟩ := List.head?_eq_some_iff.mp ha
  exact h.convert_eq_error (next_single rest rfl rfl rfl) rfl

/-- At every digit the longest numeral is read. -/
theorem readsNumeral (allow : Bool) {text : String} {before rest : List Char} {c : Char}
    (htext : text.toList = before ++ c :: rest) (hc : c.isDigit = true) :
    ∃ found after x, ReadsNumeral allow text before c rest found after x := by
  obtain ⟨hl, hchars, hp⟩ := numeral_spec rest hc
  have hnext := next_of_isDigit rest hc
  have htake := length_take_of_next hnext
  have hsplit : c :: rest
      = (c :: rest.take (numeral c rest).2) ++ rest.drop (numeral c rest).2 := by
    rw [List.cons_append, List.take_append_drop]
  obtain ⟨whole, fraction, hnumber⟩ := exists_number_eq_numeral c rest
  rw [hnumber] at hl hchars hp
  have hlongest := longestForm_chars hl hp
  rw [hchars, ← hsplit] at hlongest
  have hvalue := Number.ofText?_chars hl
  rw [hchars] at hvalue
  have htoken : ∀ s, step allow s ⟨before.length, (numeral c rest).1⟩
      = .ok (⟨true, s.waiting⟩, [.number (value whole fraction)]) := by
    intro s
    rw [hnumber]
    rfl
  refine ⟨c :: rest.take (numeral c rest).2, rest.drop (numeral c rest).2, value whole fraction, ?_⟩
  constructor
  case parts => rw [htext, ← hsplit]
  case longest => exact hlongest
  case length_eq => rw [List.length_cons, htake]
  case nonempty => exact Nat.lt_add_of_pos_right hlongest.form.length_pos
  case inside =>
    rw [← String.length_toList, htext, List.length_append]
    exact Nat.add_le_add_left hlongest.begins.length_le _
  case value => exact hvalue
  case token => exact htoken
  case turn => exact fun s out h => h.lexeme hnext (htoken s)
  case second_point =>
    intro ha s out h
    refine ⟨_, h.convert_of_point ha, rfl, ?_⟩
    rw [List.length_append]
    rfl

/-- Numerals are as long as they can be, and no text with two points that only digits separate is
    accepted. -/
theorem numerals_longest (allow : Bool) (text : String) :
    (∀ before c rest, text.toList = before ++ c :: rest → c.isDigit = true →
        ∃ found after x, ReadsNumeral allow text before c rest found after x)
      ∧ (TwoPoints text.toList → ∀ tokens, convert allow text ≠ .ok tokens) := by
  constructor
  · intro before c rest htext hc
    exact readsNumeral allow htext hc
  · intro h tokens
    exact convert_ne_ok_of_twoPoints h tokens

/-- In `x+12.5.3` the longest numeral at the digit after the sign is `12.5`, and the point after it
    is refused. -/
theorem second_point_refused :
    ∃ found after x, ReadsNumeral true "x+12.5.3" ['x', '+'] '1' ['2', '.', '5', '.', '3'] found
        after x
      ∧ found = ['1', '2', '.', '5']
      ∧ (∃ r, convert true "x+12.5.3" = .error r ∧ r.kind = .unknownSymbol ∧ r.position = some 6)
      ∧ TwoPoints "x+12.5.3".toList ∧ ∀ tokens, convert true "x+12.5.3" ≠ .ok tokens := by
  obtain ⟨hnumerals, hpoints⟩ := numerals_longest true "x+12.5.3"
  obtain ⟨found, after, x, hreads⟩ := hnumerals ['x', '+'] '1' ['2', '.', '5', '.', '3'] rfl rfl
  have hlength : found.length = 4 := hreads.length_eq.symm
  have hfound : found = ['1', '2', '.', '5'] := by
    rw [List.prefix_iff_eq_take.mp hreads.longest.begins, hlength]
    rfl
  subst hfound
  have hparts : ['x', '+', '1', '2', '.', '5'] ++ ['.', '3']
      = ['x', '+', '1', '2', '.', '5'] ++ after := hreads.parts
  obtain rfl := List.append_cancel_left hparts
  have hname : next 'x' ['+', '1', '2', '.', '5', '.', '3'] = (some (.name ['x']), 0) := by
    decide +kernel
  have hplus : next '+' ['1', '2', '.', '5', '.', '3'] = (some (.sign .add), 0) := by
    decide +kernel
  have hturn : Turn true "x+12.5.3".toList ['x', '+'] ['1', '2', '.', '5', '.', '3'] _ _ :=
    (Turn.start.lexeme hname rfl).lexeme hplus rfl
  have htwo : TwoPoints "x+12.5.3".toList :=
    ⟨['x', '+', '1', '2'], ['5'], ['3'], rfl, by simp⟩
  have hend := hreads.turn _ _ hturn
  obtain ⟨r, hr, hkind, hposition⟩ := hreads.second_point rfl _ _ hend
  exact ⟨_, _, x, hreads, rfl, ⟨r, hr, hkind, hposition⟩, htwo, hpoints htwo⟩

end Infix

end Reckon
