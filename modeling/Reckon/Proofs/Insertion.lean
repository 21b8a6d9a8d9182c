import Reckon.Proofs.Outcomes
import Reckon.Proofs.Places

/-! # Characters that make no difference

    A blank may be put wherever no numeral and no run of letters goes on, though not between a
    called name and its bracket, and a plus wherever an operand is expected. Neither changes what
    comes of a text (`convert_insert`): it is converted to the same tokens, or refused for the same
    reason, only that the positions from there on are one greater. The blank leaves the lexemes of
    the text as they are, and the plus leaves the state of the reading as it is.

        text:   2 * ( x ^ * 3          refused at 5
        text:   2 * + ( x ^ * 3        refused at 6 -/

namespace Reckon

open Lexeme

/-! ### Where a text can be parted -/

/-- A character beside which lexemes end: a blank, an operator or a bracket. -/
def Separates (c : Char) : Prop :=
  Text.isBlank c = true ∨ (Binary.ofChar? c).isSome = true ∨ (Mark.ofChar? c).isSome = true

/-- A place at an end of a text or beside a character that separates, but not between a letter and
    a round opening bracket. -/
structure Boundary (before after : List Char) : Prop where
  separated : before = [] ∨ after = [] ∨ (∃ c ∈ before.getLast?, Separates c)
    ∨ ∃ c ∈ after.head?, Separates c
  uncalled : ∀ c ∈ before.getLast?, c.isAlpha = true → after.head? ≠ some '('

/-- A character that may stand between two parts of a text: a blank at a boundary, or a plus after
    nothing, an operator or an opening bracket. -/
inductive Insignificant (before : List Char) : Char → List Char → Prop
  | blank {c : Char} {after : List Char} (hc : Text.isBlank c = true)
      (h : Boundary before after) : Insignificant before c after
  | plus (after : List Char)
      (h : ∀ c ∈ lastVisible before,
        (Binary.ofChar? c).isSome = true ∨ (Bracket.ofOpening? c).isSome = true) :
      Insignificant before '+' after

/-- Where a character of a text stands after one character is put in at `n`. -/
def moved (n i : Nat) : Nat := if i < n then i else i + 1

/-- Two texts are converted to the same tokens, or refused for the same reason, the second at the
    position where the first one's character stands in it. -/
inductive EndAlike (g : Nat → Nat) :
    Except Refusal (List Token) → Except Refusal (List Token) → Prop
  | accepted (tokens : List Token) : EndAlike g (.ok tokens) (.ok tokens)
  | refused {r r' : Refusal} {i : Nat} (hkind : r'.kind = r.kind)
      (hat : r.position = some (i : Int)) (hat' : r'.position = some (g i : Int)) :
      EndAlike g (.error r) (.error r')

namespace Separates

variable {c : Char}

theorem of_operator_or_opening
    (h : (Binary.ofChar? c).isSome = true ∨ (Bracket.ofOpening? c).isSome = true) :
    Separates c := by
  rcases h with hop | hopen
  · exact .inr (.inl hop)
  · obtain ⟨bracket, hb⟩ := Option.isSome_iff_exists.mp hopen
    exact .inr (.inr (by simp [Mark.ofChar?, hb]))

/-- No numeral and no word is written with a character that separates. -/
theorem spec (h : Separates c) : inNumber c = false ∧ c.isAlpha = false := by
  rcases h with hblank | hop | hmark
  · exact ⟨family_number.blank c hblank, family_word.blank c hblank⟩
  · obtain ⟨op, hop⟩ := Option.isSome_iff_exists.mp hop
    obtain rfl := Binary.char_of_ofChar? hop
    cases op <;> exact ⟨rfl, rfl⟩
  · obtain ⟨m, hm⟩ := Option.isSome_iff_exists.mp hmark
    obtain rfl := Mark.char_of_ofChar? hm
    rcases m with ⟨_ | _⟩ | ⟨_ | _⟩ <;> exact ⟨rfl, rfl⟩

end Separates

variable {before after : List Char} {c : Char}

namespace Boundary

theorem separates_head? (h : Boundary before after) {d : Char} (hd : d ∈ before.getLast?)
    (hn : ¬ Separates d) : ∀ c ∈ after.head?, Separates c := by
  intro c hc
  rcases h.separated with rfl | rfl | ⟨e, he, hsep⟩ | ⟨e, he, hsep⟩
  · cases hd
  · cases hc
  · exact absurd (Option.mem_unique he hd ▸ hsep) hn
  · exact Option.mem_unique he hc ▸ hsep

/-- A lexeme at the end of the first part takes nothing of the second. -/
theorem precedes (h : Boundary before after) {l : Lexeme} (hl : l.Formed) (hp : l.Precedes [])
    (hs : l.chars <:+ before) : l.Precedes after := by
  have hne := List.length_pos_iff.mp (Cut.length_chars_pos hl)
  have hmem := List.getLast_mem hne
  have hlast : l.chars.getLast hne ∈ before.getLast? := by
    obtain ⟨init, rfl⟩ := hs
    rw [List.getLast?_append, List.getLast?_eq_some_getLast hne]
    rfl
  cases l with
  | number whole fraction =>
    have hn : ¬ Separates _ := fun hsep => by
      have hin := family_number.inside _ hl rfl _ hmem
      rw [hsep.spec.1] at hin
      cases hin
    have hhead := h.separates_head? hlast hn
    cases fraction with
    | none => exact fun c hc => inNumber_eq_false_iff.mp (hhead c hc).spec.1
    | some ds => exact fun c hc => (inNumber_eq_false_iff.mp (hhead c hc).spec.1).1
  | name letters =>
    have ha := hl.2 _ hmem
    have hn : ¬ Separates _ := fun hsep => by
      rw [hsep.spec.2] at ha
      cases ha
    refine fun c hc => ⟨(h.separates_head? hlast hn c hc).spec.2, ?_⟩
    rintro rfl
    exact h.uncalled _ hlast ha hc
  | call => cases hp
  | sign | opening | closing | stray => trivial

theorem cut_append (h : Boundary before after) {first last : List Placed} (hb : Cut 0 before first)
    (ha : Cut before.length after last) : Cut 0 (before ++ after) (first ++ last) :=
  hb.append_of_last (fun _ hl hp hs => h.precedes hl hp hs) (by rwa [Nat.zero_add])

end Boundary

namespace Insignificant

theorem boundary (h : Insignificant before c after) : Boundary before after := by
  cases h with
  | blank _ h => exact h
  | plus after h =>
    -- the last character is a blank or the last visible one
    have hsep : ∀ d ∈ before.getLast?, Separates d := by
      intro d hd
      obtain ⟨init, rfl⟩ := List.getLast?_eq_some_iff.mp hd
      cases hblank : Text.isBlank d with
      | true => exact .inl hblank
      | false => exact .of_operator_or_opening (h d (lastVisible_concat init hblank))
    constructor
    · cases hlast : before.getLast? with
      | none => exact .inl (List.getLast?_eq_none_iff.mp hlast)
      | some d => exact .inr (.inr (.inl ⟨d, rfl, hsep d hlast⟩))
    · intro d hd ha
      rw [(hsep d hd).spec.2] at ha
      cases ha

theorem endsOperand (h : Insignificant before c after) : EndsOperand c := by
  cases h with
  | blank hc _ => exact endsOperand_of_isBlank hc
  | plus => exact ⟨rfl, rfl, by decide, by decide⟩

end Insignificant

/-! ### Positions after an insertion -/

theorem map_relocate_moved {first last : List Placed} (hb : Cut 0 before first)
    (ha : Cut before.length after last) :
    (first ++ last).map (Placed.relocate (moved before.length))
      = first ++ last.map (Placed.relocate (· + 1)) := by
  have hfirst : ∀ p ∈ first, p.relocate (moved before.length) = p := by
    intro p hp
    have hlt := hb.position_lt p hp
    rw [Nat.zero_add] at hlt
    rw [Placed.relocate, moved, if_pos hlt]
  have hlast : ∀ p ∈ last, p.relocate (moved before.length) = p.relocate (· + 1) := by
    intro p hp
    have hle := ha.position_le p hp
    rw [Placed.relocate, moved, if_neg (Nat.not_lt.mpr hle)]
    rfl
  rw [List.map_append, List.map_congr_left hlast, List.map_congr_left hfirst, List.map_id']

namespace Infix

variable {allow : Bool}

/-! ### A plus where an operand is expected -/

theorem run_plus {s : State} (hread : s.operandRead = false) (position : Nat)
    (rest : List Placed) : run allow s (⟨position, .sign .add⟩ :: rest) = run allow s rest := by
  have hm : Moves allow s ⟨position, .sign .add⟩ ⟨false, s.waiting⟩ [] := .plus position hread
  rw [← hread] at hm
  rw [run, step_of_moves hm]
  simp only
  cases run allow s rest <;> rfl

/-- No operand was read last where an insignificant plus stands. -/
theorem operandRead_eq_false {s : State} {first : List Placed} {out : List Token}
    (hcut : Cut 0 before first) (hr : Reaches allow .start first out s)
    (h : ∀ c ∈ lastVisible before,
      (Binary.ofChar? c).isSome = true ∨ (Bracket.ofOpening? c).isSome = true) :
    s.operandRead = false := by
  rw [hr.endsWithOperand hcut, endsWithOperand, ← Bool.not_eq_true, Option.any_eq_true]
  rintro ⟨c, hc, hcloses⟩
  rw [closesOperand_eq_false (h c hc)] at hcloses
  cases hcloses

/-! ### Two readings -/

/-- The text with the character put in is read as the text is, at the places where its lexemes stand
    now. -/
theorem run_insert (h : Insignificant before c after) :
    run allow .start (lexemes (before ++ c :: after))
      = run allow .start
          ((lexemes (before ++ after)).map (Placed.relocate (moved before.length))) := by
  have hb := cut_lexemes before
  have ha := cut_scan before.length after
  have hshift := ha.shift 1
  have htail : ∀ {last}, Cut before.length (c :: after) last →
      lexemes (before ++ c :: after) = lexemes before ++ last := by
    intro last hlast
    have hends : ∀ d ∈ (c :: after).head?, EndsOperand d := by
      rintro d ⟨⟩
      exact h.endsOperand
    exact (hb.append hends (by rwa [Nat.zero_add])).eq_scan.symm
  rw [show lexemes (before ++ after) = _ from (h.boundary.cut_append hb ha).eq_scan.symm,
    map_relocate_moved hb ha]
  cases h with
  | blank hc _ => rw [htail (.blank hc hshift)]
  | plus after h =>
    have hsign : Cut before.length ('+' :: after) _ :=
      .lexeme (l := .sign .add) trivial trivial hshift
    rw [htail hsign]
    refine run_append_congr fun out next hr => ?_
    exact run_plus (operandRead_eq_false hb hr h) _ _

/-- A text with an insignificant character put in is converted to the same tokens, or refused for
    the same reason, at the position where the character at fault stands then. -/
theorem convert_insert (h : Insignificant before c after) :
    EndAlike (moved before.length) (convert allow (String.ofList (before ++ after)))
      (convert allow (String.ofList (before ++ c :: after))) := by
  have hrun : convert allow (String.ofList (before ++ c :: after))
      = (convert allow (String.ofList (before ++ after))).mapError
          (Refusal.relocate (moved before.length)) := by
    simp only [convert, String.toList_ofList]
    rw [run_insert h]
    exact run_relocate _ .start _
  rw [hrun]
  cases hc : convert allow (String.ofList (before ++ after)) with
  | ok tokens => exact .accepted tokens
  | error r =>
    obtain ⟨-, i, -, hi⟩ := refusedAt_of_convert hc
    exact .refused (r.kind_relocate _) hi (Refusal.position_relocate _ hi)

/-- In `2*  (x^*3` the sign at fault moves on by one when a plus is put between the blanks. -/
theorem endAlike_plus_between_blanks :
    Insignificant ['2', '*', ' '] '+' [' ', '(', 'x', '^', '*', '3']
      ∧ convert true "2*  (x^*3" = .error (.notUnary .mul 7)
      ∧ EndAlike (moved 3) (convert true "2*  (x^*3") (convert true "2* + (x^*3") := by
  have hlast : lastVisible ['2', '*', ' '] = some '*' := by decide +kernel
  have hplus : Insignificant ['2', '*', ' '] '+' [' ', '(', 'x', '^', '*', '3'] := by
    refine .plus _ ?_
    rw [hlast]
    rintro c ⟨⟩
    exact .inl rfl
  have hcut : lexemes "2*  (x^*3".toList
      = [⟨0, .number ['2'] none⟩, ⟨1, .sign .mul⟩, ⟨4, .opening .round⟩, ⟨5, .name ['x']⟩,
          ⟨6, .sign .pow⟩, ⟨7, .sign .mul⟩, ⟨8, .number ['3'] none⟩] := by
    decide +kernel
  refine ⟨hplus, ?_, convert_insert hplus⟩
  rw [convert, hcut]
  rfl

end Infix

end Reckon
