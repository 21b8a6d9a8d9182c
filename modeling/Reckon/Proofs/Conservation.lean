import Reckon.Proofs.Numerals
import Reckon.Proofs.Places

/-! # What becomes of the characters of a text

    Operators wait on the stack and are released at four places, but none is lost there and none
    comes twice: at every lexeme, what goes out and what waits afterwards are, up to their order,
    what the lexeme brings and what waited before (`Moves.perm`). Operands never wait, so they keep
    their order. Told by the text itself (`conserves_of_convert`): its numerals and names are the
    operands of the sequence, from left to right, and every operator comes as often as it is
    written, where the last visible character before a sign tells what the sign means.

        text:    a - ( - 2 . 5 ) + + s i n ( b )
        tokens:  a 2.5 ~ - b sin +                 nothing for the brackets and the second plus -/

namespace Reckon

open Lexeme

namespace Token

/-- Whether a token is a number or a variable. -/
def isOperand : Token → Bool
  | operator _ => false
  | _ => true

end Token

/-- What letters stand for as an operand: a constant, or else a variable. -/
def named (letters : List Char) : Token :=
  match constant? letters with
  | some x => .number x
  | none => .var (String.ofList letters)

theorem Function.name_formed (f : Function) : (Lexeme.call f.name.toList).Formed := by
  have hne : f.name.toList ≠ [] := by cases f <;> decide
  have hall : f.name.toList.all Char.isAlpha = true := by cases f <;> decide
  exact ⟨hne, List.all_eq_true.mp hall⟩

namespace Infix

open scoped List

variable {allow : Bool}

/-! ### Nothing is lost on the stack -/

/-- The token that a lexeme brings into a reading, at once or later. -/
def brings (operandRead : Bool) : Lexeme → Option Token
  | .number whole fraction => some (.number (Lexeme.value whole fraction))
  | .name letters => some (named letters)
  | .call letters => (Function.ofName? letters).map fun f => .operator (.function f)
  | .sign op =>
    if operandRead then some (.operator (.binary op))
    else if op = .sub then some (.operator .negate) else none
  | _ => none

/-- The tokens that lexemes bring, one after another. -/
def brought (operandRead : Bool) : List Lexeme → List Token
  | [] => []
  | l :: rest => (brings operandRead l).toList ++ brought l.endsOperand rest

theorem named_of_identifier {letters : List Char} {position : Nat} {t : Token}
    (h : identifier allow letters position = .ok t) : t = named letters := by
  unfold identifier at h
  unfold named
  cases hc : constant? letters with
  | some x =>
    simp only [hc] at h
    cases h
    rfl
  | none =>
    simp only [hc] at h
    split at h
    · cases h
      rfl
    · cases h

/-- The function that a closing bracket sends out leaves the stack. -/
theorem calledFunction_append_sent (below : List Waiting) :
    (calledFunction below).1 ++ sent (calledFunction below).2 = sent below := by
  unfold calledFunction
  split <;> rfl

/-- At every lexeme, what goes out and what waits then is what the lexeme brings and what waited
    before. -/
theorem Moves.perm {s next : State} {placed : Placed} {out : List Token}
    (h : Moves allow s placed next out) :
    (out ++ sent next.waiting).Perm
      ((brings s.operandRead placed.lexeme).toList ++ sent s.waiting) := by
  cases h with
  | number | opening => exact .refl _
  | name h =>
    rw [named_of_identifier h]
    exact .refl _
  | call position hf =>
    simp only [brings, hf]
    exact .refl _
  | between position hread hw =>
    simp only [brings, hread, hw, if_true, sent_append]
    exact List.perm_middle
  | minus position hread | plus position hread =>
    simp only [brings, hread]
    exact .refl _
  | closing position opened bracket hw =>
    rw [hw, sent_append, List.append_assoc, calledFunction_append_sent]
    exact .refl _

/-- Over a stretch, what goes out and what waits then is what its lexemes bring and what waited
    before. -/
theorem Reaches.perm {s final : State} {placed : List Placed} {out : List Token}
    (h : Reaches allow s placed out final) :
    (out ++ sent final.waiting).Perm
      (brought s.operandRead (placed.map (·.lexeme)) ++ sent s.waiting) := by
  induction h with
  | nil s => exact .refl _
  | @cons s next final p rest out more hs _ ih =>
    have hm := step_eq_ok_iff.mp hs
    rw [hm.operandRead_eq] at ih
    -- the rest is put in front of what waits, and then the lexeme in front of the rest
    calc (out ++ more) ++ sent final.waiting
        _ = out ++ (more ++ sent final.waiting) := List.append_assoc _ _ _
        _ ~ out ++ (brought p.lexeme.endsOperand (rest.map (·.lexeme)) ++ sent next.waiting) :=
          ih.append_left out
        _ ~ brought p.lexeme.endsOperand (rest.map (·.lexeme)) ++ (out ++ sent next.waiting) :=
          List.perm_append_comm_assoc _ _ _
        _ ~ brought p.lexeme.endsOperand (rest.map (·.lexeme))
              ++ ((brings s.operandRead p.lexeme).toList ++ sent s.waiting) :=
          hm.perm.append_left _
        _ ~ (brings s.operandRead p.lexeme).toList
              ++ (brought p.lexeme.endsOperand (rest.map (·.lexeme)) ++ sent s.waiting) :=
          List.perm_append_comm_assoc _ _ _
        _ = brought s.operandRead ((p :: rest).map (·.lexeme)) ++ sent s.waiting :=
          (List.append_assoc _ _ _).symm

/-- The tokens of a whole reading are those that its lexemes bring. -/
theorem perm_of_run {placed : List Placed} {tokens : List Token}
    (h : run allow .start placed = .ok tokens) :
    tokens.Perm (brought false (placed.map (·.lexeme))) := by
  obtain ⟨out, final, last, hr, hfinish, rfl⟩ := reaches_of_run h
  obtain rfl := eq_sent_of_finish hfinish
  have hperm := hr.perm
  rwa [show sent State.start.waiting = [] from rfl, List.append_nil] at hperm

/-! ### Operands do not wait -/

/-- What is an operand by itself, as a token. -/
def operand? : Lexeme → Option Token
  | .number whole fraction => some (.number (Lexeme.value whole fraction))
  | .name letters => some (named letters)
  | _ => none

theorem isOperand_named (letters : List Char) : (named letters).isOperand = true := by
  unfold named
  split <;> rfl

theorem ne_operator_named (letters : List Char) (op : Operator) : named letters ≠ .operator op := by
  intro h
  have hoperand := isOperand_named letters
  rw [h] at hoperand
  cases hoperand

theorem filter_isOperand_sent (entries : List Waiting) :
    (sent entries).filter Token.isOperand = [] := by
  rw [List.filter_eq_nil_iff]
  intro t ht
  obtain ⟨op, rfl⟩ := operator_of_mem_sent ht
  exact Bool.false_ne_true

theorem filter_isOperand_calledFunction (below : List Waiting) :
    (calledFunction below).1.filter Token.isOperand = [] := by
  unfold calledFunction
  split <;> rfl

/-- The operand among what goes out at a lexeme is the lexeme's. -/
theorem Moves.filter_isOperand {s next : State} {placed : Placed} {out : List Token}
    (h : Moves allow s placed next out) :
    out.filter Token.isOperand = (operand? placed.lexeme).toList := by
  cases h with
  | number | call | minus | plus | opening => rfl
  | name h =>
    rw [named_of_identifier h, List.filter_cons_of_pos (isOperand_named _)]
    rfl
  | between => exact filter_isOperand_sent _
  | closing =>
    rw [List.filter_append, filter_isOperand_sent, filter_isOperand_calledFunction]
    rfl

/-- The operands of a sequence are those of the lexemes, in their order. -/
theorem filter_isOperand_of_run {s : State} {placed : List Placed} {tokens : List Token}
    (h : run allow s placed = .ok tokens) :
    tokens.filter Token.isOperand = placed.filterMap fun p => operand? p.lexeme := by
  obtain ⟨out, final, last, hr, hfinish, rfl⟩ := reaches_of_run h
  obtain rfl := eq_sent_of_finish hfinish
  rw [List.filter_append, filter_isOperand_sent, List.append_nil]
  clear h hfinish
  induction hr with
  | nil s => rfl
  | @cons _ _ _ p _ _ _ hs _ ih =>
    rw [List.filter_append, (step_eq_ok_iff.mp hs).filter_isOperand, ih, List.filterMap_cons]
    cases operand? p.lexeme <;> rfl

/-! ### Operators where they are written -/

/-- Whether an operator is written where a text goes on with `after`. What comes `before` tells a
    sign between operands from a sign of one operand, and where a word begins from where it goes
    on. -/
def writes : Operator → List Char → List Char → Bool
  | .binary op, before, after => after.head? == some op.char && endsWithOperand before
  | .negate, before, after => after.head? == some Binary.sub.char && !endsWithOperand before
  | .function f, before, after =>
    (f.name.toList ++ ['(']).isPrefixOf after && !before.getLast?.any Char.isAlpha

section Writes

variable {l : Lexeme} {before text : List Char}

theorem head?_eq_char_iff (hl : l.Formed) (hp : l.Precedes text) {op : Binary} :
    (l.chars ++ text).head? = some op.char ↔ l = .sign op := by
  constructor
  · intro h
    obtain ⟨rest, hrest⟩ := List.head?_eq_some_iff.mp h
    exact (eq_of_chars_append (m := .sign op) hl trivial hp trivial hrest).1
  · rintro rfl
    rfl

theorem isPrefixOf_call_iff (hl : l.Formed) (hp : l.Precedes text) {f : Function} :
    (f.name.toList ++ ['(']).isPrefixOf (l.chars ++ text) = true ↔ l = .call f.name.toList := by
  rw [List.isPrefixOf_iff_prefix]
  constructor
  · rintro ⟨rest, hrest⟩
    rw [List.append_assoc] at hrest
    have hcall : (Lexeme.call f.name.toList).Precedes ('(' :: rest) := rfl
    exact (eq_of_chars_append hl f.name_formed hp hcall hrest.symm).1
  · rintro rfl
    obtain ⟨rest, rfl⟩ := List.head?_eq_some_iff.mp (show text.head? = some '(' from hp)
    exact ⟨rest, List.append_assoc _ _ _⟩

theorem brings_eq_binary_iff {operandRead : Bool} {op : Binary} :
    brings operandRead l = some (.operator (.binary op)) ↔ l = .sign op ∧ operandRead = true := by
  cases l with
  | sign other => cases operandRead <;> cases other <;> simp [brings]
  | call letters => simp [brings]
  | name letters => simp [brings, ne_operator_named]
  | _ => simp [brings]

theorem brings_eq_negate_iff {operandRead : Bool} :
    brings operandRead l = some (.operator .negate) ↔ l = .sign .sub ∧ operandRead = false := by
  cases l with
  | sign other => cases operandRead <;> cases other <;> simp [brings]
  | call letters => simp [brings]
  | name letters => simp [brings, ne_operator_named]
  | _ => simp [brings]

theorem brings_eq_function_iff {operandRead : Bool} {f : Function} :
    brings operandRead l = some (.operator (.function f)) ↔ l = .call f.name.toList := by
  cases l with
  | sign other => cases operandRead <;> cases other <;> simp [brings]
  | call letters => simp [brings, Function.ofName?_eq_some_iff, @eq_comm _ letters]
  | name letters => simp [brings, ne_operator_named]
  | _ => simp [brings]

/-- An operator is written where a lexeme begins exactly if the lexeme brings it. -/
theorem writes_iff_brings {operandRead : Bool} (hl : l.Formed) (hp : l.Precedes text)
    (hread : (∀ bracket, l ≠ .opening bracket) → operandRead = endsWithOperand before)
    (hword : l.isWord = true → before.getLast?.any Char.isAlpha = false) (op : Operator) :
    writes op before (l.chars ++ text) = true ↔ brings operandRead l = some (.operator op) := by
  have hsign : ∀ op, l = .sign op → operandRead = endsWithOperand before := by
    rintro op rfl
    exact hread (by rintro bracket ⟨⟩)
  cases op with
  | binary op =>
    simp only [writes, Bool.and_eq_true, beq_iff_eq, head?_eq_char_iff hl hp, brings_eq_binary_iff]
    exact and_congr_right fun h => by rw [hsign op h]
  | negate =>
    simp only [writes, Bool.and_eq_true, beq_iff_eq, head?_eq_char_iff hl hp, Bool.not_eq_true',
      brings_eq_negate_iff]
    exact and_congr_right fun h => by rw [hsign .sub h]
  | function f =>
    simp only [writes, Bool.and_eq_true, isPrefixOf_call_iff hl hp, Bool.not_eq_true',
      brings_eq_function_iff]
    exact and_iff_left_of_imp fun h => hword (by rw [h]; rfl)

/-- No operator is written at a character that is no sign and begins no word. -/
theorem writes_cons_eq_false {c : Char} (hc : ∀ op : Binary, c ≠ op.char)
    (hword : c.isAlpha = true → before.getLast?.any Char.isAlpha = true) (op : Operator) :
    writes op before (c :: text) = false := by
  cases op with
  | binary op => simp [writes, hc op]
  | negate => simp [writes, hc .sub]
  | function f =>
    rw [← Bool.not_eq_true, writes, Bool.and_eq_true, List.isPrefixOf_iff_prefix]
    rintro ⟨⟨rest, hrest⟩, hbefore⟩
    have hc : c.isAlpha = true := by cases f <;> cases hrest <;> rfl
    simp [hword hc] at hbefore

/-- Only words and numerals have more than one character. -/
theorem isWord_or_isNumber {first rest : List Char} {c : Char}
    (hchars : l.chars = first ++ c :: rest) (hfirst : first ≠ []) :
    l.isWord = true ∨ l.isNumber = true := by
  have hlength : 1 < l.chars.length := by
    have hpos := List.length_pos_iff.mpr hfirst
    rw [hchars, List.length_append, List.length_cons]
    omega
  cases l with
  | number => exact .inr rfl
  | name | call => exact .inl rfl
  | sign | opening | closing | stray => cases hlength with | step h => cases h

theorem ne_char_of_mem_chars (hl : l.Formed) (h : l.isWord = true ∨ l.isNumber = true) {c : Char}
    (hc : c ∈ l.chars) (op : Binary) : c ≠ op.char := by
  rintro rfl
  rcases h with hw | hn
  · have ha := (letters_of_isWord hw hl).2 _ hc
    cases op <;> exact absurd ha (by decide)
  · have hi := family_number.inside l hl hn _ hc
    cases op <;> exact absurd hi (by decide)

/-- Inside a lexeme no operator is written. -/
theorem writes_inside_eq_false {first rest : List Char} {c : Char} (hl : l.Formed)
    (hchars : l.chars = first ++ c :: rest) (hfirst : first ≠ []) (op : Operator) :
    writes op (before ++ first) (c :: rest ++ text) = false := by
  have hmem : c ∈ l.chars := hchars ▸ List.mem_append_right _ List.mem_cons_self
  have hlong := isWord_or_isNumber hchars hfirst
  refine writes_cons_eq_false (ne_char_of_mem_chars hl hlong hmem) (fun ha => ?_) op
  have hw : l.isWord = true := by
    rw [← Bool.not_eq_false]
    intro hw
    rw [isAlpha_of_mem_chars hw hl hmem] at ha
    cases ha
  have hlast := List.getLast?_eq_some_getLast hfirst
  rw [List.getLast?_append, hlast]
  exact (letters_of_isWord hw hl).2 _ (hchars ▸ List.mem_append_left _ (List.getLast_mem hfirst))

/-- The places of a lexeme count where it begins only. -/
theorem places_chars_append (hl : l.Formed) (op : Operator) :
    places (writes op) before (l.chars ++ text)
      = (if writes op before (l.chars ++ text) = true then 1 else 0)
        + places (writes op) (before ++ l.chars) text := by
  obtain ⟨c, rest, hc⟩ := List.exists_cons_of_length_pos (Cut.length_chars_pos hl)
  rw [hc, List.cons_append, places, places_append_of_none, List.append_assoc]
  · rfl
  · intro first d more hmore
    have hchars : l.chars = (c :: first) ++ d :: more := by rw [hc, hmore, List.cons_append]
    rw [List.append_assoc]
    exact writes_inside_eq_false hl hchars (List.cons_ne_nil _ _) op

end Writes

theorem count_toList (t : Token) (found : Option Token) :
    found.toList.count t = if found = some t then 1 else 0 := by
  cases found with
  | none => rfl
  | some other => simp [List.count_singleton]

/-- The operators that the lexemes of a text bring are those that are written in it. -/
theorem count_brought {position : Nat} {text : List Char} {placed : List Placed}
    (h : Cut position text placed) (hstray : ∀ p ∈ placed, ∀ c, p.lexeme ≠ .stray c)
    (op : Operator) {operandRead : Bool} {before : List Char}
    (hread : ∀ p ∈ placed.head?, (∀ bracket, p.lexeme ≠ .opening bracket) →
      operandRead = endsWithOperand before)
    (hword : ∀ c ∈ text.head?, c.isAlpha = true → before.getLast?.any Char.isAlpha = false) :
    (brought operandRead (placed.map (·.lexeme))).count (.operator op)
      = places (writes op) before text := by
  induction h generalizing operandRead before with
  | nil => rfl
  | @blank position c text placed hc _ ih =>
    have hsign : ∀ op : Binary, c ≠ op.char := by
      rintro op rfl
      cases op <;> exact absurd hc (by decide)
    have hnone : writes op before (c :: text) = false :=
      writes_cons_eq_false hsign (fun ha => absurd ha (by simp [isAlpha_of_isBlank hc])) op
    have hread' : ∀ p ∈ placed.head?, (∀ bracket, p.lexeme ≠ .opening bracket) →
        operandRead = endsWithOperand (before ++ [c]) := by
      intro p hp hopen
      rw [hread p hp hopen, endsWithOperand, endsWithOperand, lastVisible_concat_blank _ hc]
    have hword' : ∀ d ∈ text.head?, d.isAlpha = true →
        (before ++ [c]).getLast?.any Char.isAlpha = false := by
      intro d _ _
      rw [List.getLast?_concat, Option.any_some, isAlpha_of_isBlank hc]
    rw [places, hnone, ih hstray hread' hword']
    exact (Nat.zero_add _).symm
  | @lexeme position l text placed hl hp h ih =>
    obtain ⟨hlstray, hstray⟩ := List.forall_mem_cons.mp hstray
    have hwrites : writes op before (l.chars ++ text) = true
        ↔ brings operandRead l = some (.operator op) := by
      refine writes_iff_brings hl hp (hread _ rfl) (fun hw => ?_) op
      obtain ⟨c, rest, hc⟩ := List.exists_cons_of_ne_nil (letters_of_isWord hw hl).1
      refine hword c (by rw [hc]; rfl) ?_
      exact (letters_of_isWord hw hl).2 c (hc ▸ List.mem_cons_self)
    have hread' : ∀ p ∈ placed.head?, (∀ bracket, p.lexeme ≠ .opening bracket) →
        l.endsOperand = endsWithOperand (before ++ l.chars) := by
      intro p hplaced hopen
      refine (endsWithOperand_append_chars before hl hlstray ?_).symm
      -- after a called name comes its bracket
      rintro letters rfl
      have hhead := head?_of_written h.written hp
      rw [List.head?_map, Option.mem_def.mp hplaced] at hhead
      exact hopen .round (Option.some.inj hhead)
    have hword' : ∀ c ∈ text.head?, c.isAlpha = true →
        (before ++ l.chars).getLast?.any Char.isAlpha = false := by
      intro c hc ha
      have hw : l.isWord = false := by
        rw [← Bool.not_eq_true]
        intro hw
        rw [isAlpha_head?_of_precedes hw hp c hc] at ha
        cases ha
      have hlast := List.getLast?_eq_some_getLast (List.length_pos_iff.mp (Cut.length_chars_pos hl))
      rw [List.getLast?_append, hlast]
      exact isAlpha_of_mem_chars hw hl (List.getLast_mem _)
    rw [List.map_cons, brought, List.count_append, count_toList, places_chars_append hl,
      ih hstray hread' hword']
    simp only [hwrites]

end Infix

/-! ### A text and its sequence -/

/-- A token that stands in a text as an operand, and the position where it begins. The number of a
    numeral is what its characters are worth as a number text. -/
inductive OperandAt (text : List Char) : Nat → Token → Prop
  | number {position : Nat} {whole : List Char} {fraction : Option (List Char)} {x : Float}
      (h : NumberAt text position whole fraction)
      (hx : Number.ofText? (Lexeme.number whole fraction).chars = some x) :
      OperandAt text position (.number x)
  | name {position : Nat} {letters : List Char} (h : NameAt text position letters) :
      OperandAt text position (named letters)

/-- A sequence has the operands of a text in their order, and every operator as often as the
    text. -/
structure Conserves (text : List Char) (tokens : List Token) : Prop where
  operands : ∃ found : List (Nat × Token), found.Pairwise (fun a b => a.1 < b.1)
    ∧ (∀ position t, (position, t) ∈ found ↔ OperandAt text position t)
    ∧ tokens.filter Token.isOperand = found.map (·.2)
  operators : ∀ op, tokens.count (.operator op) = places (Infix.writes op) [] text

namespace Infix

variable {allow : Bool}

/-- The operands that a text is cut into are those that stand in it. -/
theorem operand?_eq_some_iff {text : List Char}
    (hstray : ∀ p ∈ lexemes text, ∀ c, p.lexeme ≠ .stray c) {position : Nat} {t : Token} :
    (∃ p ∈ lexemes text, (operand? p.lexeme).map (p.position, ·) = some (position, t))
      ↔ OperandAt text position t := by
  have hpoint : ∀ p ∈ lexemes text, p.lexeme ≠ .stray '.' := fun p hp => hstray p hp '.'
  constructor
  · rintro ⟨⟨i, l⟩, hp, hmap⟩
    cases l with
    | number whole fraction =>
      cases hmap
      have hat := (mem_lexemes_number_iff hpoint).mp hp
      exact .number hat (Number.ofText?_chars hat.formed)
    | name letters =>
      cases hmap
      exact .name (mem_lexemes_name_iff.mp hp)
    | _ => cases hmap
  · intro h
    cases h with
    | number h hx =>
      -- a numeral has one value, so the token is the one that the lexeme brings
      obtain rfl := Option.some.inj ((Number.ofText?_chars h.formed).symm.trans hx)
      exact ⟨_, (mem_lexemes_number_iff hpoint).mpr h, rfl⟩
    | name h => exact ⟨_, mem_lexemes_name_iff.mpr h, rfl⟩

/-- No token is lost, invented or duplicated, and operands keep their order: the operands of a
    sequence are the numerals of the text and its names that are not called, from left to right, and
    every operator comes as often as it is written. -/
theorem conserves_of_convert {text : String} {tokens : List Token}
    (h : convert allow text = .ok tokens) : Conserves text.toList tokens := by
  obtain ⟨out, final, last, hreach, -, -⟩ := reaches_of_run h
  have hstray := hreach.ne_stray
  have hcut := cut_lexemes text.toList
  constructor
  · refine ⟨(lexemes text.toList).filterMap fun p => (operand? p.lexeme).map (p.position, ·),
      ?_, ?_, ?_⟩
    · refine hcut.increasing.filterMap _ ?_
      intro p q hpq a ha b hb
      obtain ⟨_, -, rfl⟩ := Option.map_eq_some_iff.mp ha
      obtain ⟨_, -, rfl⟩ := Option.map_eq_some_iff.mp hb
      exact hpq
    · intro position t
      rw [List.mem_filterMap]
      exact operand?_eq_some_iff hstray
    · rw [filter_isOperand_of_run h, List.map_filterMap]
      refine congrArg (fun f => List.filterMap f _) (funext fun p => ?_)
      cases operand? p.lexeme <;> rfl
  · intro op
    rw [(perm_of_run h).count_eq]
    exact count_brought hcut hstray op (fun _ _ _ => rfl) fun _ _ _ => rfl

/-- The brackets, the second plus and the blanks of ` a-(-2.5)+ +sin(pi) 7` leave no token, and the
    operand too many stays. -/
theorem conserves_operand_too_many :
    convert true " a-(-2.5)+ +sin(pi) 7"
        = .ok [.var "a", .number 2.5, .operator .negate, .operator (.binary .sub),
            .number 3.141592653589793, .operator (.function .sin), .number 7,
            .operator (.binary .add)]
      ∧ Conserves " a-(-2.5)+ +sin(pi) 7".toList
          [.var "a", .number 2.5, .operator .negate, .operator (.binary .sub),
            .number 3.141592653589793, .operator (.function .sin), .number 7,
            .operator (.binary .add)] := by
  have hcut : lexemes " a-(-2.5)+ +sin(pi) 7".toList
      = [⟨1, .name ['a']⟩, ⟨2, .sign .sub⟩, ⟨3, .opening .round⟩, ⟨4, .sign .sub⟩,
          ⟨5, .number ['2'] (some ['5'])⟩, ⟨8, .closing .round⟩, ⟨9, .sign .add⟩,
          ⟨11, .sign .add⟩, ⟨12, .call ['s', 'i', 'n']⟩, ⟨15, .opening .round⟩,
          ⟨16, .name ['p', 'i']⟩, ⟨18, .closing .round⟩, ⟨20, .number ['7'] none⟩] := by
    decide +kernel
  have hhalf : Lexeme.value ['2'] (some ['5']) = 2.5 := by decide +kernel
  have hseven : Lexeme.value ['7'] none = 7 := by decide +kernel
  have hpi : circleRatio = 3.141592653589793 := by decide +kernel
  have hok : convert true " a-(-2.5)+ +sin(pi) 7"
      = .ok [.var "a", .number 2.5, .operator .negate, .operator (.binary .sub),
          .number 3.141592653589793, .operator (.function .sin), .number 7,
          .operator (.binary .add)] := by
    rw [convert, hcut, ← hhalf, ← hseven, ← hpi]
    rfl
  exact ⟨hok, conserves_of_convert hok⟩

end Infix

end Reckon
