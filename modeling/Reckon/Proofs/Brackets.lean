import Reckon.Proofs.Cut
import Reckon.Proofs.Nesting
import Reckon.Proofs.Stops

/-! # The brackets of a text

    Brackets share the stack of a reading with operators and functions. Still the brackets on it are
    at any time those that are open after the brackets read so far, whatever else was read: one
    lexeme does to them what its own bracket does (`Moves.openAfter?_eq`), and a closing bracket is
    refused exactly where no opening one of its family is open (`Stops.openAfter?_eq_none`). So a
    text whose only possible fault are its brackets is accepted exactly if they are well nested, and
    otherwise refused at the first bracket that cannot be right or, if there is none, at the
    innermost one that is left open (`convert_iff_brackets`).

        text:       - [ s i n ( 2 ] * 3 )
        brackets:     [ 1     ( 5   ] 7   ) 10        refused at 7 -/

namespace Reckon

namespace Mark

/-- The character of a mark. -/
def char : Mark → Char
  | opens bracket => bracket.opening
  | closes bracket => bracket.closing

/-- The mark that a character is, if it is a bracket. -/
def ofChar? (c : Char) : Option Mark :=
  match Bracket.ofOpening? c with
  | some bracket => some (opens bracket)
  | none => (Bracket.ofClosing? c).map closes

theorem char_of_ofChar? {c : Char} {m : Mark} (h : ofChar? c = some m) : m.char = c := by
  unfold ofChar? at h
  split at h
  · next bracket hb =>
    cases h
    exact Bracket.opening_of_ofOpening? hb
  · obtain ⟨bracket, hb, rfl⟩ := Option.map_eq_some_iff.mp h
    exact Bracket.closing_of_ofClosing? hb

/-- No character of a kind without brackets is a mark. -/
theorem ofChar?_eq_none {c : Char} {p : Char → Bool} (hc : p c = true)
    (hp : ∀ m : Mark, p m.char = false) : ofChar? c = none := by
  rw [Option.eq_none_iff_forall_ne_some]
  intro m hm
  rw [← char_of_ofChar? hm, hp m] at hc
  cases hc

end Mark

/-- The brackets of a text that begins at a position, with their positions. -/
def bracketWord (position : Nat) (text : List Char) : BracketWord :=
  (text.zipIdx position).filterMap fun entry => (Mark.ofChar? entry.1).map fun m => (entry.2, m)

namespace Placed

/-- The mark of a lexeme, if it is a bracket. -/
def mark? (p : Placed) : Option (Nat × Mark) :=
  match p.lexeme with
  | .opening bracket => some (p.position, .opens bracket)
  | .closing bracket => some (p.position, .closes bracket)
  | _ => none

end Placed

/-! ### Brackets as lexemes -/

theorem bracketWord_append (position : Nat) (u v : List Char) :
    bracketWord position (u ++ v)
      = bracketWord position u ++ bracketWord (position + u.length) v := by
  simp [bracketWord, List.zipIdx_append]

theorem bracketWord_of_forall {position : Nat} {text : List Char}
    (h : ∀ c ∈ text, Mark.ofChar? c = none) : bracketWord position text = [] := by
  rw [bracketWord, List.filterMap_eq_nil_iff]
  rintro ⟨c, i⟩ hc
  simp [h c (List.fst_mem_of_mem_zipIdx hc)]

theorem ofChar?_of_isBlank {c : Char} (h : Text.isBlank c = true) : Mark.ofChar? c = none :=
  Mark.ofChar?_eq_none h (by rintro (⟨_ | _⟩ | ⟨_ | _⟩) <;> rfl)

theorem ofChar?_of_isDigit {c : Char} (h : c.isDigit = true) : Mark.ofChar? c = none :=
  Mark.ofChar?_eq_none h (by rintro (⟨_ | _⟩ | ⟨_ | _⟩) <;> rfl)

theorem ofChar?_of_isAlpha {c : Char} (h : c.isAlpha = true) : Mark.ofChar? c = none :=
  Mark.ofChar?_eq_none h (by rintro (⟨_ | _⟩ | ⟨_ | _⟩) <;> rfl)

theorem ofChar?_of_stray {c : Char} (h : Lexeme.single c = .stray c) : Mark.ofChar? c = none := by
  rw [Option.eq_none_iff_forall_ne_some]
  rintro m hm
  rw [← Mark.char_of_ofChar? hm] at h
  obtain ⟨_ | _⟩ | ⟨_ | _⟩ := m <;> cases h

/-- A lexeme is written with a bracket exactly if it is one. -/
theorem bracketWord_chars (position : Nat) {l : Lexeme} (hl : l.Formed) :
    bracketWord position l.chars = (Placed.mark? ⟨position, l⟩).toList := by
  cases l with
  | number whole fraction =>
    refine bracketWord_of_forall fun c hc => ?_
    rcases Lexeme.isDigit_or_eq_point hl hc with hd | rfl
    · exact ofChar?_of_isDigit hd
    · rfl
  | name letters | call letters =>
    exact bracketWord_of_forall fun c hc => ofChar?_of_isAlpha (hl.2 c hc)
  | sign op => cases op <;> rfl
  | opening bracket | closing bracket => cases bracket <;> rfl
  | stray c =>
    refine bracketWord_of_forall fun d hd => ?_
    rw [List.mem_singleton.mp hd]
    exact ofChar?_of_stray hl.2.2.2

/-- The brackets of a text are its lexemes that are brackets. -/
theorem Cut.bracketWord_eq {position : Nat} {text : List Char} {placed : List Placed}
    (h : Cut position text placed) : bracketWord position text = placed.filterMap Placed.mark? := by
  induction h with
  | nil => rfl
  | @blank position c text placed hc _ ih =>
    have hnone : bracketWord position [c] = [] :=
      bracketWord_of_forall (by simpa using ofChar?_of_isBlank hc)
    rw [← List.singleton_append, bracketWord_append, hnone]
    exact ih
  | @lexeme position l text placed hl _ _ ih =>
    rw [bracketWord_append, bracketWord_chars position hl, ih, List.filterMap_cons]
    cases Placed.mark? ⟨position, l⟩ <;> rfl

theorem Cut.increasing_bracketWord {position : Nat} {text : List Char} {placed : List Placed}
    (h : Cut position text placed) : Increasing (bracketWord position text) := by
  have hposition : ∀ (p : Placed) a, p.mark? = some a → a.1 = p.position := by
    rintro ⟨i, l⟩ a ha
    cases l <;> cases ha <;> rfl
  rw [h.bracketWord_eq, Increasing, List.pairwise_filterMap]
  refine h.increasing.imp ?_
  intro p q hlt a ha b hb
  rwa [hposition p a ha, hposition q b hb]

namespace Infix

/-- The bracket that waits, with its position, if it is one. -/
def Waiting.bracket? : Waiting → Option (Nat × Bracket)
  | .operator _ => none
  | .bracket opened position => some (position, opened)

/-- The brackets that wait, the innermost first. -/
def openBrackets (waiting : List Waiting) : List (Nat × Bracket) :=
  waiting.filterMap Waiting.bracket?

variable {allow : Bool} {s next : State} {placed : Placed} {out : List Token}

/-! ### The brackets on the stack -/

theorem openBrackets_append (above below : List Waiting) :
    openBrackets (above ++ below) = openBrackets above ++ openBrackets below :=
  List.filterMap_append

theorem openBrackets_of_allOperators {entries : List Waiting} (h : AllOperators entries) :
    openBrackets entries = [] := by
  rw [openBrackets, List.filterMap_eq_nil_iff]
  intro e he
  have hop := h e he
  cases e with
  | operator op => rfl
  | bracket => cases hop

theorem allOperators_of_yieldsTo {op : Binary} {entries : List Waiting}
    (h : ∀ e ∈ entries, e.yieldsTo op = true) : AllOperators entries := by
  intro e he
  have hy := h e he
  cases e with
  | operator op => rfl
  | bracket => cases hy

theorem openBrackets_calledFunction (below : List Waiting) :
    openBrackets (calledFunction below).2 = openBrackets below := by
  unfold calledFunction
  split <;> rfl

/-- One lexeme does to the open brackets what its own bracket does, if it is one. -/
theorem Moves.openAfter?_eq (h : Moves allow s placed next out) :
    openAfter? (openBrackets s.waiting) placed.mark?.toList = some (openBrackets next.waiting) := by
  cases h with
  | number | name | call | minus | plus | opening => rfl
  | between position hread hw ha hb =>
    -- what yields to a sign is no bracket
    have hnone := openBrackets_of_allOperators (allOperators_of_yieldsTo ha)
    rw [hw, openBrackets_append, hnone]
    rfl
  | @closing position opened bracket above below hw ha =>
    rw [hw, openBrackets_append, openBrackets_of_allOperators ha, openBrackets_calledFunction]
    exact if_pos rfl

theorem Reaches.openAfter?_eq {placed : List Placed} (h : Reaches allow s placed out next) :
    openAfter? (openBrackets s.waiting) (placed.filterMap Placed.mark?)
      = some (openBrackets next.waiting) := by
  induction h with
  | nil => rfl
  | @cons s next final p rest out more hs _ ih =>
    have hsplit : (p :: rest).filterMap Placed.mark?
        = p.mark?.toList ++ rest.filterMap Placed.mark? := by
      rw [List.filterMap_cons]
      cases p.mark? <;> rfl
    rw [hsplit, openAfter?_append, (step_eq_ok_iff.mp hs).openAfter?_eq]
    exact ih

/-- A closing bracket is refused if it meets no opening one of its family. -/
theorem Stops.openAfter?_eq_none {r : Refusal} (h : Stops allow s placed r)
    (hk : r.kind = .unbalancedParens) :
    ∃ position bracket, placed.mark? = some (position, .closes bracket)
      ∧ r.position = some (position : Int)
      ∧ openAfter? (openBrackets s.waiting) [(position, .closes bracket)] = none := by
  cases h with
  | unopened position bracket hw =>
    refine ⟨position, bracket, rfl, rfl, ?_⟩
    rw [openBrackets_of_allOperators hw]
    rfl
  | @mismatched position openedAt opened bracket above below hw ha hne =>
    refine ⟨position, bracket, rfl, rfl, ?_⟩
    rw [hw, openBrackets_append, openBrackets_of_allOperators ha]
    exact if_neg hne
  | _ => cases hk

/-! ### The brackets of a whole text -/

/-- The three ways in which a text can end whose only possible fault are its brackets. -/
inductive BracketsDecide (allow : Bool) (text : String) : Prop
  | accepted (tokens : List Token) (h : convert allow text = .ok tokens)
      (hw : WellNested (bracketWord 0 text.toList))
  | broken (r : Refusal) (i : Nat) (bracket : Bracket) (h : convert allow text = .error r)
      (hr : r.position = some (i : Int)) (hi : (i, .closes bracket) ∈ bracketWord 0 text.toList)
      (hw : BreaksAt (bracketWord 0 text.toList) i)
  | leftOpen (r : Refusal) (i : Nat) (bracket : Bracket) (h : convert allow text = .error r)
      (hr : r.position = some (i : Int)) (hi : (i, .opens bracket) ∈ bracketWord 0 text.toList)
      (hw : LeftOpenAt (bracketWord 0 text.toList) i)

theorem wellNested_of_convert {text : String} {tokens : List Token}
    (h : convert allow text = .ok tokens) : WellNested (bracketWord 0 text.toList) := by
  obtain ⟨out, final, last, hreach, hfinish, -⟩ := reaches_of_run h
  have hopen := hreach.openAfter?_eq
  rw [openBrackets_of_allOperators (allOperators_of_finish hfinish)] at hopen
  rw [wellNested_iff, (cut_lexemes _).bracketWord_eq]
  exact hopen

/-- A refused closing bracket is the first that cannot be right. -/
theorem breaksAt_of_stops {text : String} {first last : List Placed} {r : Refusal}
    (hcut : Lexeme.lexemes text.toList = first ++ placed :: last)
    (hreach : Reaches allow .start first out s) (hstop : Stops allow s placed r)
    (hk : r.kind = .unbalancedParens) :
    ∃ (i : Nat) (bracket : Bracket), r.position = some (i : Int)
      ∧ (i, .closes bracket) ∈ bracketWord 0 text.toList
      ∧ BreaksAt (bracketWord 0 text.toList) i := by
  obtain ⟨i, bracket, hmark, hr, hnone⟩ := hstop.openAfter?_eq_none hk
  have hopen : openAfter? [] (first.filterMap Placed.mark?) = some (openBrackets s.waiting) :=
    hreach.openAfter?_eq
  have hw : bracketWord 0 text.toList = first.filterMap Placed.mark?
      ++ (i, .closes bracket) :: last.filterMap Placed.mark? := by
    rw [(cut_lexemes _).bracketWord_eq, hcut, List.filterMap_append,
      List.filterMap_cons_some hmark]
  refine ⟨i, bracket, hr, by simp [hw], _, bracket, _, hw, completable_iff.mpr ⟨_, hopen⟩, ?_⟩
  rw [completable_iff, openAfter?_append, hopen]
  rintro ⟨stack, hstack⟩
  cases hnone.symm.trans hstack

/-- A bracket that the end leaves open is the innermost one. -/
theorem leftOpenAt_of_finish {text : String} {r : Refusal}
    (hreach : Reaches allow .start (Lexeme.lexemes text.toList) out s)
    (hfinish : finish s.waiting = .error r) :
    ∃ (i : Nat) (bracket : Bracket), r.position = some (i : Int)
      ∧ (i, .opens bracket) ∈ bracketWord 0 text.toList
      ∧ LeftOpenAt (bracketWord 0 text.toList) i := by
  obtain ⟨above, bracket, i, below, hw, ha, rfl⟩ := finish_eq_error_iff.mp hfinish
  have hcut := cut_lexemes text.toList
  have hopen := hreach.openAfter?_eq
  rw [← hcut.bracketWord_eq, hw, openBrackets_append, openBrackets_of_allOperators ha] at hopen
  refine ⟨i, bracket, rfl, ?_, leftOpenAt_of_openAfter? hcut.increasing_bracketWord hopen⟩
  generalize bracketWord 0 text.toList = w at hopen
  cases leaves_iff.mpr hopen with
  | opened => exact List.mem_append_right _ List.mem_cons_self

theorem bracketsDecide (text : String)
    (h : ∀ r, convert allow text = .error r → r.kind = .unbalancedParens) :
    BracketsDecide allow text := by
  cases hconvert : convert allow text with
  | ok tokens => exact .accepted tokens hconvert (wellNested_of_convert hconvert)
  | error r =>
    rcases stops_of_run hconvert with
      ⟨first, p, last, out, s, hcut, hreach, hstop⟩ | ⟨out, s, hreach, hfinish⟩
    · obtain ⟨i, bracket, hr, hi, hw⟩ := breaksAt_of_stops hcut hreach hstop (h r hconvert)
      exact .broken r i bracket hconvert hr hi hw
    · obtain ⟨i, bracket, hr, hi, hw⟩ := leftOpenAt_of_finish hreach hfinish
      exact .leftOpen r i bracket hconvert hr hi hw

namespace BracketsDecide

variable {text : String}

theorem accepted_iff (h : BracketsDecide allow text) :
    (∃ tokens, convert allow text = .ok tokens) ↔ WellNested (bracketWord 0 text.toList) := by
  cases h with
  | accepted tokens hok hw => exact ⟨fun _ => hw, fun _ => ⟨tokens, hok⟩⟩
  | broken r i bracket herr hr hi hw =>
    refine ⟨?_, fun hn => absurd hn.completable hw.not_completable⟩
    rintro ⟨tokens, hok⟩
    cases herr.symm.trans hok
  | leftOpen r i bracket herr hr hi hw =>
    refine ⟨?_, fun hn => absurd hn hw.not_wellNested⟩
    rintro ⟨tokens, hok⟩
    cases herr.symm.trans hok

/-- The refusal at a closing bracket is one at the place where the word goes wrong. -/
theorem closing_iff (h : BracketsDecide allow text) (i : Nat) :
    (∃ r bracket, convert allow text = .error r ∧ r.position = some (i : Int)
        ∧ (i, .closes bracket) ∈ bracketWord 0 text.toList)
      ↔ BreaksAt (bracketWord 0 text.toList) i := by
  have hinc := (cut_lexemes text.toList).increasing_bracketWord
  cases h with
  | accepted tokens hok hw =>
    refine ⟨?_, fun hi => absurd hw.completable hi.not_completable⟩
    rintro ⟨r, bracket, herr, -⟩
    cases hok.symm.trans herr
  | broken r j bracket herr hr hj hw =>
    constructor
    · rintro ⟨r', -, herr', hi, -⟩
      cases herr.symm.trans herr'
      cases hr.symm.trans hi
      exact hw
    · intro hi
      cases hi.eq hw
      exact ⟨r, bracket, herr, hr, hj⟩
  | leftOpen r j bracket herr hr hj hw =>
    refine ⟨?_, fun hi => absurd (hw.completable hinc) hi.not_completable⟩
    rintro ⟨r', closed, herr', hi, hmem⟩
    cases herr.symm.trans herr'
    cases hr.symm.trans hi
    cases hinc.mark_eq hj hmem

/-- The refusal at an opening bracket is one at the innermost bracket that stays open. -/
theorem opening_iff (h : BracketsDecide allow text) (i : Nat) :
    (∃ r bracket, convert allow text = .error r ∧ r.position = some (i : Int)
        ∧ (i, .opens bracket) ∈ bracketWord 0 text.toList)
      ↔ LeftOpenAt (bracketWord 0 text.toList) i := by
  have hinc := (cut_lexemes text.toList).increasing_bracketWord
  cases h with
  | accepted tokens hok hw =>
    refine ⟨?_, fun hi => absurd hw hi.not_wellNested⟩
    rintro ⟨r, bracket, herr, -⟩
    cases hok.symm.trans herr
  | broken r j bracket herr hr hj hw =>
    refine ⟨?_, fun hi => absurd (hi.completable hinc) hw.not_completable⟩
    rintro ⟨r', opened, herr', hi, hmem⟩
    cases herr.symm.trans herr'
    cases hr.symm.trans hi
    cases hinc.mark_eq hj hmem
  | leftOpen r j bracket herr hr hj hw =>
    constructor
    · rintro ⟨r', -, herr', hi, -⟩
      cases herr.symm.trans herr'
      cases hr.symm.trans hi
      exact hw
    · intro hi
      cases hi.eq hw
      exact ⟨r, bracket, herr, hr, hj⟩

end BracketsDecide

/-- Let a text be refused for nothing but its brackets, or not at all. It is accepted exactly if
    they are well nested. It is refused at a closing bracket exactly if the brackets before that one
    can still be completed to a well nested word, but not together with it. And it is refused at an
    opening bracket exactly if every closing bracket has a partner and that one is the last opening
    bracket that has none. -/
theorem convert_iff_brackets {text : String}
    (h : ∀ r, convert allow text = .error r → r.kind = .unbalancedParens) :
    ((∃ tokens, convert allow text = .ok tokens) ↔ WellNested (bracketWord 0 text.toList))
      ∧ (∀ i : Nat, (∃ r bracket, convert allow text = .error r ∧ r.position = some (i : Int)
            ∧ (i, .closes bracket) ∈ bracketWord 0 text.toList)
          ↔ BreaksAt (bracketWord 0 text.toList) i)
      ∧ ∀ i : Nat, (∃ r bracket, convert allow text = .error r ∧ r.position = some (i : Int)
            ∧ (i, .opens bracket) ∈ bracketWord 0 text.toList)
          ↔ LeftOpenAt (bracketWord 0 text.toList) i := by
  have hdecide := bracketsDecide text h
  exact ⟨hdecide.accepted_iff, hdecide.closing_iff, hdecide.opening_iff⟩

/-- In `-[sin(2]*3)` the brackets go wrong at the square one at 7, which meets the round one of the
    function. -/
theorem breaksAt_square_in_call :
    (∀ r, convert false "-[sin(2]*3)" = .error r → r.kind = .unbalancedParens)
      ∧ BreaksAt (bracketWord 0 "-[sin(2]*3)".toList) 7 := by
  have hcut : Lexeme.lexemes "-[sin(2]*3)".toList
      = [⟨0, .sign .sub⟩, ⟨1, .opening .square⟩, ⟨2, .call ['s', 'i', 'n']⟩, ⟨5, .opening .round⟩,
          ⟨6, .number ['2'] none⟩, ⟨7, .closing .square⟩, ⟨8, .sign .mul⟩, ⟨9, .number ['3'] none⟩,
          ⟨10, .closing .round⟩] := by decide +kernel
  have herr : convert false "-[sin(2]*3)" = .error (.mismatched .round 5 .square 7) := by
    rw [convert, hcut]
    rfl
  have honly : ∀ r, convert false "-[sin(2]*3)" = .error r → r.kind = .unbalancedParens := by
    intro r hr
    cases herr.symm.trans hr
    rfl
  exact ⟨honly, ((convert_iff_brackets honly).2.1 7).mp ⟨_, .square, herr, rfl, by decide +kernel⟩⟩

end Infix

end Reckon
