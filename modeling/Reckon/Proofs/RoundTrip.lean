import Reckon.Infix.Conversion
import Reckon.Postfix.Words
import Reckon.Proofs.Numerals
import Reckon.Proofs.Reach

/-! # Postfix text and back

    Every written token is one word, and no word belongs to two classes: the words of operators and
    constants are no number words, and nothing else begins with the mark of a variable. So a
    sequence is read as it was written, provided that the names of its variables consist of
    letters. Sequences that come from an expression or from a text always fulfil this.

        tokens:  number(-0.5) var(x) negate function(sin)
        words:   -0.5         $x     ~      sin -/

namespace Reckon

/-! ### Words -/

namespace Text

/-- A text without blanks. -/
def NoBlank (text : List Char) : Prop :=
  ∀ c ∈ text, isBlank c = false

instance (text : List Char) : Decidable (NoBlank text) :=
  List.decidableBAll (fun c => isBlank c = false) text

/-- A text that makes up one word: it is not empty, and no character is a blank. -/
def IsWord (word : List Char) : Prop :=
  word ≠ [] ∧ NoBlank word

theorem noBlank_cons {c : Char} {text : List Char} :
    NoBlank (c :: text) ↔ isBlank c = false ∧ NoBlank text :=
  List.forall_mem_cons

theorem noBlank_append {text more : List Char} :
    NoBlank (text ++ more) ↔ NoBlank text ∧ NoBlank more :=
  List.forall_mem_append

theorem noBlank_of_allDigits {text : List Char} (h : AllDigits text) : NoBlank text :=
  fun c hc => isBlank_of_isDigit (h c hc)

theorem words_cons_of_isBlank {c : Char} (h : isBlank c = true) (rest : List Char) :
    words (c :: rest) = words rest := by
  rw [words, if_pos h]

theorem joinWord_of_stop (c : Char) {rest : List Char} (ws : List (List Char))
    (hs : ∀ d ∈ rest.head?, isBlank d = true) : joinWord c rest ws = [c] :: ws := by
  rcases rest with _ | ⟨d, rest⟩
  · rfl
  · rcases ws with _ | ⟨w, ws⟩
    · rfl
    · exact if_pos (hs d rfl)

theorem joinWord_of_not_isBlank (c : Char) {d : Char} (h : isBlank d = false)
    (rest word : List Char) (ws : List (List Char)) :
    joinWord c (d :: rest) (word :: ws) = (c :: word) :: ws :=
  if_neg (Bool.eq_false_iff.mp h)

/-- A word in front of the end or of a blank is the first of the words. -/
theorem words_append {word rest : List Char} (h : IsWord word)
    (hs : ∀ c ∈ rest.head?, isBlank c = true) : words (word ++ rest) = word :: words rest := by
  obtain ⟨hne, hword⟩ := h
  induction word with
  | nil => exact absurd rfl hne
  | cons c word ih =>
    obtain ⟨hc, hword⟩ := List.forall_mem_cons.mp hword
    rw [List.cons_append, words, if_neg (Bool.eq_false_iff.mp hc)]
    cases word with
    | nil => exact joinWord_of_stop c _ hs
    | cons d word =>
      have hd := (List.forall_mem_cons.mp hword).1
      rw [ih (List.cons_ne_nil _ _) hword]
      exact joinWord_of_not_isBlank c hd _ _ _

/-- Words with one space between them are found again. -/
theorem words_intercalate {ws : List (List Char)} (h : ∀ w ∈ ws, IsWord w) :
    words ([' '].intercalate ws) = ws := by
  induction ws with
  | nil => rfl
  | cons w ws ih =>
    obtain ⟨hw, hws⟩ := List.forall_mem_cons.mp h
    cases ws with
    | nil =>
      have hlast : words (w ++ []) = [w] := words_append hw (by rintro c ⟨⟩)
      exact hlast
    | cons v ws =>
      have hfirst : words (w ++ ' ' :: [' '].intercalate (v :: ws)) = _ :=
        words_append hw (by rintro c ⟨⟩; rfl)
      rw [words_cons_of_isBlank rfl, ih hws] at hfirst
      exact hfirst

end Text

namespace Spelling

open Text

/-! ### Written doubles are words -/

theorem noBlank_positional {digits : List Char} (hd : AllDigits digits) (point : Int) :
    NoBlank (positional digits point) := by
  have hpoint : isBlank '.' = false := rfl
  rw [positional]
  split
  · have hzeros := allDigits_append.mpr ⟨allDigits_replicate (-point).toNat, hd⟩
    exact noBlank_cons.mpr ⟨rfl, noBlank_cons.mpr ⟨hpoint, noBlank_of_allDigits hzeros⟩⟩
  · split
    · rw [← List.take_append_drop point.toNat digits] at hd
      obtain ⟨htake, hdrop⟩ := allDigits_append.mp hd
      exact noBlank_append.mpr ⟨noBlank_of_allDigits htake,
        noBlank_cons.mpr ⟨hpoint, noBlank_of_allDigits hdrop⟩⟩
    · have hzeros := allDigits_append.mpr
        ⟨hd, allDigits_replicate (point.toNat - digits.length)⟩
      exact noBlank_append.mpr ⟨noBlank_of_allDigits hzeros,
        noBlank_cons.mpr ⟨hpoint, noBlank_of_allDigits (allDigits_replicate 1)⟩⟩

theorem noBlank_power (e : Int) : NoBlank (power e) := by
  have hdigits := noBlank_of_allDigits (allDigits_toDigits e.natAbs)
  rw [power]
  refine noBlank_cons.mpr ⟨?_, ?_⟩
  · split <;> rfl
  · split
    · exact noBlank_cons.mpr ⟨rfl, hdigits⟩
    · exact hdigits

theorem noBlank_scientific {digits : List Char} (hd : AllDigits digits) (e : Int) :
    NoBlank (scientific digits e) := by
  rw [← List.take_append_drop 1 digits] at hd
  obtain ⟨hfirst, hmore⟩ := allDigits_append.mp hd
  rw [scientific]
  refine noBlank_append.mpr ⟨noBlank_append.mpr ⟨noBlank_of_allDigits hfirst, ?_⟩,
    noBlank_cons.mpr ⟨rfl, noBlank_power e⟩⟩
  split
  · exact List.forall_mem_nil _
  · exact noBlank_cons.mpr ⟨rfl, noBlank_of_allDigits hmore⟩

theorem noBlank_decimal (d : Decimal) : NoBlank (decimal d) := by
  have hd := allDigits_toDigits d.mantissa
  simp only [decimal]
  split
  · exact noBlank_positional hd _
  · exact noBlank_scientific hd _

theorem noBlank_magnitude (c : Nat) : NoBlank (magnitude c) := by
  rw [magnitude]
  split
  · decide
  · split
    · exact noBlank_decimal _
    · decide

theorem isWord_chars (x : Float) : IsWord (chars x) := by
  refine ⟨?_, ?_⟩
  · intro hnil
    have hread := Number.ofWord?_chars x
    rw [hnil] at hread
    cases hread
  · rw [chars]
    split
    · decide
    · split
      · exact noBlank_cons.mpr ⟨rfl, noBlank_magnitude _⟩
      · exact noBlank_magnitude _

end Spelling

namespace Postfix

/-! ### The classes of words -/

theorem operator?_symbol (op : Operator) : operator? op.symbol = some op := by
  cases op with
  | binary op => cases op <;> decide
  | negate => decide
  | function f => cases f <;> decide

theorem symbol_of_operator? {word : List Char} {op : Operator} (h : operator? word = some op) :
    op.symbol = word := by
  unfold operator? at h
  split at h
  · next c =>
    split at h
    · next hc =>
      cases h
      rw [hc]
      rfl
    · obtain ⟨binary, hb, rfl⟩ := Option.map_eq_some_iff.mp h
      exact congrArg (fun c => [c]) (Binary.char_of_ofChar? hb)
  · obtain ⟨f, hf, rfl⟩ := Option.map_eq_some_iff.mp h
    exact Function.ofName?_eq_some_iff.mp hf

/-- The words of operators are no number words. -/
theorem ofWord?_symbol (op : Operator) : Number.ofWord? op.symbol = none := by
  cases op with
  | binary op => cases op <;> rfl
  | negate => rfl
  | function f => cases f <;> rfl

theorem operator?_eq_none_of_number {word : List Char} {x : Float}
    (h : Number.ofWord? word = some x) : operator? word = none := by
  cases hop : operator? word with
  | none => rfl
  | some op =>
    rw [← symbol_of_operator? hop, ofWord?_symbol] at h
    cases h

theorem mem_of_constant? {word : List Char} {x : Float} (h : constant? word = some x) :
    ∃ name, (name, x) ∈ constants ∧ word = name.toList := by
  obtain ⟨⟨name, y⟩, hentry, rfl⟩ := Option.map_eq_some_iff.mp h
  have hfound := List.find?_some hentry
  exact ⟨name, List.mem_of_find?_eq_some hentry, (of_decide_eq_true hfound).symm⟩

theorem name_of_constant? {word : List Char} {x : Float} (h : constant? word = some x) :
    word = ['p', 'i'] ∨ word = ['P', 'I'] ∨ word = ['e'] := by
  obtain ⟨name, hmem, rfl⟩ := mem_of_constant? h
  simp only [constants, List.mem_cons, List.not_mem_nil, or_false] at hmem
  rcases hmem with heq | heq | heq <;> cases heq
  · exact .inl rfl
  · exact .inr (.inl rfl)
  · exact .inr (.inr rfl)

/-- The names of constants are no number words. -/
theorem constant?_eq_none_of_number {word : List Char} {x : Float}
    (h : Number.ofWord? word = some x) : constant? word = none := by
  cases hc : constant? word with
  | none => rfl
  | some y =>
    rcases name_of_constant? hc with rfl | rfl | rfl <;> cases h

/-- A word with the mark of a variable is no operator, -/
theorem operator?_marked (name : List Char) :
    operator? (Token.variableMark :: name) = none := by
  cases hop : operator? (Token.variableMark :: name) with
  | none => rfl
  | some op =>
    have hhead : op.symbol.head? = some Token.variableMark := by
      rw [symbol_of_operator? hop]
      rfl
    revert hhead
    cases op with
    | binary op => cases op <;> decide
    | negate => decide
    | function f => cases f <;> decide

/-- and no number. -/
theorem number?_marked (name : List Char) : number? (Token.variableMark :: name) = none := by
  rw [number?]
  cases hc : constant? (Token.variableMark :: name) with
  | none => rfl
  | some x => rcases name_of_constant? hc with h | h | h <;> cases h

/-- Letters behind the mark are read as a variable, -/
theorem var?_mark_cons {letters : List Char} (hne : letters ≠ [])
    (h : ∀ c ∈ letters, c.isAlpha = true) :
    var? (Token.variableMark :: letters) = some (String.ofList letters) := by
  have hempty : letters.isEmpty = false := List.isEmpty_eq_false_iff.mpr hne
  have hall : letters.all Char.isAlpha = true := List.all_eq_true.mpr h
  simp only [var?, hempty, hall, Bool.not_false, Bool.and_true, decide_true, if_true]

/-- and nothing else is. -/
theorem letters_of_var? {word : List Char} {name : String} (h : var? word = some name) :
    ∃ letters, letters ≠ [] ∧ (∀ c ∈ letters, c.isAlpha = true)
      ∧ word = Token.variableMark :: letters ∧ name = String.ofList letters := by
  unfold var? at h
  split at h
  · cases h
  · next mark letters =>
    split at h
    · next hmark =>
      cases h
      simp only [Bool.and_eq_true, decide_eq_true_eq, Bool.not_eq_true',
        List.isEmpty_eq_false_iff, List.all_eq_true] at hmark
      obtain ⟨⟨rfl, hne⟩, hletters⟩ := hmark
      exact ⟨letters, hne, hletters, rfl, rfl⟩
    · cases h

/-! ### Tokens and their words -/

/-- A token that can be written and read again: the name of a variable consists of letters, and
    variables have to be allowed. -/
def Writable (allow : Bool) : Token → Prop
  | .var name => allow = true ∧ name.toList ≠ [] ∧ ∀ c ∈ name.toList, c.isAlpha = true
  | _ => True

instance (allow : Bool) : DecidablePred (Writable allow)
  | .number _ => isTrue trivial
  | .var name => decidable_of_iff
      (allow = true ∧ name.toList ≠ [] ∧ name.toList.all Char.isAlpha = true)
      (and_congr_right' (and_congr_right' List.all_eq_true))
  | .operator _ => isTrue trivial

variable {allow : Bool}

/-- The word of a token is read as the token. -/
theorem token?_chars {t : Token} (h : Writable allow t) : token? allow t.chars = some t := by
  cases t with
  | number x =>
    have hread := Number.ofWord?_chars x
    rw [Token.chars, token?, operator?_eq_none_of_number hread, number?,
      constant?_eq_none_of_number hread, hread]
  | var name =>
    obtain ⟨rfl, hne, hletters⟩ := h
    rw [Token.chars, token?, operator?_marked, number?_marked]
    simp only [if_true, var?_mark_cons hne hletters, String.ofList_toList, Option.map_some]
  | operator op => rw [Token.chars, token?, operator?_symbol]

theorem isWord_chars {t : Token} (h : Writable allow t) : Text.IsWord t.chars := by
  cases t with
  | number x => exact Spelling.isWord_chars x
  | var name =>
    obtain ⟨-, -, hletters⟩ := h
    exact ⟨List.cons_ne_nil _ _,
      Text.noBlank_cons.mpr ⟨rfl, fun c hc => isBlank_of_isAlpha (hletters c hc)⟩⟩
  | operator op =>
    cases op with
    | binary op => cases op <;> exact ⟨List.cons_ne_nil _ _, by decide⟩
    | negate => exact ⟨List.cons_ne_nil _ _, by decide⟩
    | function f => cases f <;> exact ⟨List.cons_ne_nil _ _, by decide⟩

theorem tokens_chars {ts : List Token} (h : ∀ t ∈ ts, Writable allow t) :
    tokens allow (ts.map Token.chars) = .ok ts := by
  induction ts with
  | nil => rfl
  | cons t ts ih =>
    obtain ⟨ht, hts⟩ := List.forall_mem_cons.mp h
    rw [List.map_cons, tokens, token?_chars ht]
    simp only [ih hts]
    rfl

/-- A written sequence is read again. -/
theorem parse_format {ts : List Token} (h : ∀ t ∈ ts, Writable allow t) :
    parse allow (format ts) = .ok ts := by
  have hwords : ∀ w ∈ ts.map Token.chars, Text.IsWord w :=
    List.forall_mem_map.mpr fun t ht => isWord_chars (h t ht)
  rw [parse, format, String.toList_ofList, formatChars, Text.words_intercalate hwords]
  exact tokens_chars h

/-! ### Sequences that can be written -/

/-- Words are read as tokens that can be written. -/
theorem writable_of_token? {word : List Char} {t : Token} (h : token? allow word = some t) :
    Writable allow t := by
  unfold token? at h
  split at h
  · cases h
    trivial
  · split at h
    · cases h
      trivial
    · split at h
      · next hallow =>
        obtain ⟨name, hname, rfl⟩ := Option.map_eq_some_iff.mp h
        obtain ⟨letters, hne, hletters, -, rfl⟩ := letters_of_var? hname
        rw [Writable, String.toList_ofList]
        exact ⟨hallow, hne, hletters⟩
      · cases h

theorem writable_of_tokens {words : List (List Char)} {ts : List Token}
    (h : tokens allow words = .ok ts) : ∀ t ∈ ts, Writable allow t := by
  induction words generalizing ts with
  | nil =>
    cases h
    exact List.forall_mem_nil _
  | cons word words ih =>
    rw [tokens] at h
    split at h
    · cases h
    · next t ht =>
      cases hmore : tokens allow words with
      | error r =>
        rw [hmore] at h
        cases h
      | ok more =>
        rw [hmore] at h
        cases h
        exact List.forall_mem_cons.mpr ⟨writable_of_token? ht, ih hmore⟩

/-- Names stand for tokens that can be written. -/
theorem writable_of_gives {text : String} {placed : Placed} {t : Token}
    (hp : placed ∈ Lexeme.lexemes text.toList) (h : Infix.Gives allow placed t) :
    Writable allow t := by
  cases h with
  | number => trivial
  | @name position letters _ h =>
    have hformed : (Lexeme.name letters).Formed :=
      formed_of_written (Lexeme.written_lexemes text.toList) _ (List.mem_map_of_mem hp)
    unfold Infix.identifier at h
    split at h
    · cases h
      trivial
    · split at h
      · next hallow =>
        cases h
        rw [Writable, String.toList_ofList]
        exact ⟨hallow, hformed⟩
      · cases h

/-- Sequences converted from an expression can be written. -/
theorem writable_of_convert {text : String} {ts : List Token}
    (h : Infix.convert allow text = .ok ts) : ∀ t ∈ ts, Writable allow t := by
  intro t ht
  rcases Infix.mem_of_run h ht with ⟨op, rfl⟩ | ⟨placed, hp, hgives⟩
  · trivial
  · exact writable_of_gives hp hgives

/-- Sequences that can be written are read again as they were, and the sequences that come from an
    expression or from a postfix text are among them. -/
theorem parse_format_and_writable (allow : Bool) :
    (∀ ts, (∀ t ∈ ts, Writable allow t) → parse allow (format ts) = .ok ts)
      ∧ ∀ text ts, Infix.convert allow text = .ok ts ∨ parse allow text = .ok ts →
          (∀ t ∈ ts, Writable allow t) ∧ parse allow (format ts) = .ok ts := by
  constructor
  · intro ts h
    exact parse_format h
  · intro text ts h
    have hw : ∀ t ∈ ts, Writable allow t := by
      rcases h with hconvert | hparse
      · exact writable_of_convert hconvert
      · exact writable_of_tokens hparse
    exact ⟨hw, parse_format hw⟩

/-- A negative zero, an infinity, what is no number, a variable with the name of a function, and a
    converted expression. -/
theorem parse_format_special_numbers :
    parse true (format [.number (Double.ofCode true 0), .number (Double.infinity true),
        .number Double.nan, .var "sin"])
      = .ok [.number (Double.ofCode true 0), .number (Double.infinity true), .number Double.nan,
          .var "sin"]
      ∧ Infix.convert true "-sin" = .ok [.var "sin", .operator .negate]
      ∧ parse true (format [.var "sin", .operator .negate])
        = .ok [.var "sin", .operator .negate] := by
  have hcut : Lexeme.lexemes "-sin".toList = [⟨0, .sign .sub⟩, ⟨1, .name ['s', 'i', 'n']⟩] := by
    decide +kernel
  have hconvert : Infix.convert true "-sin" = .ok [.var "sin", .operator .negate] := by
    rw [Infix.convert, hcut]
    rfl
  refine ⟨(parse_format_and_writable true).1 _ ?_, hconvert,
    ((parse_format_and_writable true).2 _ _ (.inl hconvert)).2⟩
  decide +kernel

end Postfix

end Reckon
