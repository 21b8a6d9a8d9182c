import Reckon.Proofs.Cut
import Reckon.Proofs.Stops

/-! # Moving lexemes to other positions

    A reading stores positions on the stack and shows them in refusals, but no decision looks at
    one. So a reading of the same lexemes at other positions goes the same way, and its refusal
    shows the other positions (`run_relocate`). What a text is converted to depends on nothing but
    `Lexeme.cut`, its lexemes without their positions (`convert_eq_ok_iff`).

        text:     2 x + 1          2 x   +   1
        cut:      number name sign number       for both -/

namespace Reckon

namespace Placed

/-- A lexeme at another position. -/
def relocate (g : Nat → Nat) (p : Placed) : Placed := ⟨g p.position, p.lexeme⟩

end Placed

namespace Refusal

/-- A refusal of the same fault at other positions. -/
def relocate (g : Nat → Nat) : Refusal → Refusal
  | strayCharacter c position => strayCharacter c (g position)
  | notUnary op position => notUnary op (g position)
  | unknownFunction name position => unknownFunction name (g position)
  | unknownConstant name position => unknownConstant name (g position)
  | unopened bracket position => unopened bracket (g position)
  | mismatched opened openedAt closed position =>
    mismatched opened (g openedAt) closed (g position)
  | unclosed bracket position => unclosed bracket (g position)
  | r => r

theorem kind_relocate (g : Nat → Nat) (r : Refusal) : (r.relocate g).kind = r.kind := by
  cases r <;> rfl

theorem position_relocate (g : Nat → Nat) {r : Refusal} {i : Nat}
    (h : r.position = some (i : Int)) :
    (r.relocate g).position = some (g i : Int) := by
  cases r with
  | strayCharacter | notUnary | unknownFunction | unknownConstant | unopened | mismatched
  | unclosed =>
    obtain rfl := Int.ofNat.inj (Option.some.inj h)
    rfl
  | stray item => cases item <;> cases h
  | _ => cases h

end Refusal

namespace Infix

namespace Waiting

/-- A waiting entry whose bracket, if it is one, stands at another position. -/
def relocate (g : Nat → Nat) : Waiting → Waiting
  | operator op => operator op
  | bracket opened position => bracket opened (g position)

variable (g : Nat → Nat)

@[simp] theorem operator?_relocate (e : Waiting) : (e.relocate g).operator? = e.operator? := by
  cases e <;> rfl

@[simp] theorem yieldsTo_relocate (op : Binary) (e : Waiting) :
    (e.relocate g).yieldsTo op = e.yieldsTo op := by
  cases e with
  | operator other => cases other <;> rfl
  | bracket => rfl

end Waiting

namespace State

/-- A state whose brackets stand at other positions. -/
def relocate (g : Nat → Nat) (s : State) : State :=
  ⟨s.operandRead, s.waiting.map (Waiting.relocate g)⟩

end State

variable {allow : Bool} (g : Nat → Nat)

/-! ### One lexeme -/

theorem sent_relocate (entries : List Waiting) :
    sent (entries.map (Waiting.relocate g)) = sent entries := by
  simp only [sent, List.filterMap_map, Function.comp_def, Waiting.operator?_relocate]

theorem calledFunction_relocate (waiting : List Waiting) :
    calledFunction (waiting.map (Waiting.relocate g))
      = ((calledFunction waiting).1, (calledFunction waiting).2.map (Waiting.relocate g)) := by
  cases waiting with
  | nil => rfl
  | cons e below =>
    cases e with
    | operator op => cases op <;> rfl
    | bracket => rfl

theorem allOperators_relocate {entries : List Waiting} (h : AllOperators entries) :
    AllOperators (entries.map (Waiting.relocate g)) := by
  intro e he
  obtain ⟨d, hd, rfl⟩ := List.mem_map.mp he
  rw [Waiting.operator?_relocate]
  exact h d hd

theorem identifier_relocate {letters : List Char} {position : Nat} {t : Token}
    (h : identifier allow letters position = .ok t) :
    identifier allow letters (g position) = .ok t := by
  unfold identifier at h ⊢
  split at h
  · exact h
  · split at h
    · next hallow =>
      rw [if_pos hallow]
      exact h
    · cases h

theorem Moves.relocate {s next : State} {placed : Placed} {out : List Token}
    (h : Moves allow s placed next out) :
    Moves allow (s.relocate g) (placed.relocate g) (next.relocate g) out := by
  cases h with
  | number => exact .number _ _ _ _
  | name h => exact .name _ (identifier_relocate g h)
  | call _ hf => exact .call _ _ hf
  | between position hread hw ha hb =>
    have hw' := congrArg (List.map (Waiting.relocate g)) hw
    rw [List.map_append] at hw'
    rw [← sent_relocate g]
    refine .between _ hread hw' ?_ ?_
    · intro e he
      obtain ⟨d, hd, rfl⟩ := List.mem_map.mp he
      rw [Waiting.yieldsTo_relocate]
      exact ha d hd
    · intro e he
      rw [List.head?_map] at he
      obtain ⟨d, hd, rfl⟩ := Option.map_eq_some_iff.mp he
      rw [Waiting.yieldsTo_relocate]
      exact hb d hd
  | minus position hread => exact .minus _ hread
  | plus position hread => exact .plus _ hread
  | opening => exact .opening _ _ _
  | @closing position opened bracket above below hw ha =>
    have hw' := congrArg (List.map (Waiting.relocate g)) hw
    rw [List.map_append] at hw'
    have hm : Moves allow (s.relocate g) ⟨g position, .closing bracket⟩ _ _ :=
      .closing (g position) (g opened) bracket hw' (allOperators_relocate g ha)
    rwa [calledFunction_relocate, sent_relocate] at hm

theorem Stops.relocate {s : State} {placed : Placed} {r : Refusal} (h : Stops allow s placed r) :
    Stops allow (s.relocate g) (placed.relocate g) (r.relocate g) := by
  cases h with
  | unknownConstant position hallow hc => exact .unknownConstant _ _ hallow hc
  | unknownFunction position hf => exact .unknownFunction _ _ hf
  | notUnary position hread hadd hsub => exact .notUnary _ hread hadd hsub
  | unopened position bracket hw => exact .unopened _ _ (allOperators_relocate g hw)
  | mismatched position openedAt hw ha hne =>
    have hw' := congrArg (List.map (Waiting.relocate g)) hw
    rw [List.map_append] at hw'
    exact .mismatched _ _ hw' (allOperators_relocate g ha) hne
  | stray position c => exact .stray _ _ _

/-! ### All lexemes -/

theorem finish_relocate (waiting : List Waiting) :
    finish (waiting.map (Waiting.relocate g)) = (finish waiting).mapError (Refusal.relocate g) := by
  induction waiting with
  | nil => rfl
  | cons e below ih =>
    cases e with
    | bracket => rfl
    | operator op =>
      rw [List.map_cons, finish, Waiting.relocate, finish, ih]
      cases finish below <;> rfl

/-- The same lexemes at other positions give the same tokens, or the same fault there. -/
theorem run_relocate (s : State) (placed : List Placed) :
    run allow (s.relocate g) (placed.map (Placed.relocate g))
      = (run allow s placed).mapError (Refusal.relocate g) := by
  induction placed generalizing s with
  | nil => exact finish_relocate g s.waiting
  | cons p rest ih =>
    rw [List.map_cons, run, run]
    cases hs : step allow s p with
    | error r =>
      rw [step_of_stops ((step_eq_error_iff.mp hs).relocate g)]
      rfl
    | ok result =>
      obtain ⟨next, out⟩ := result
      rw [step_of_moves ((step_eq_ok_iff.mp hs).relocate g)]
      simp only [ih]
      cases run allow next rest <;> rfl

theorem mapError_eq_ok {α : Type} {x : Except Refusal α} {f : Refusal → Refusal} {a : α} :
    x.mapError f = .ok a ↔ x = .ok a := by
  cases x <;> simp [Except.mapError]

/-- Equal lexemes give equal tokens. -/
theorem run_eq_ok_iff_of_lexemes_eq {placed placed' : List Placed} {tokens : List Token}
    (h : placed.map (·.lexeme) = placed'.map (·.lexeme)) :
    run allow .start placed = .ok tokens ↔ run allow .start placed' = .ok tokens := by
  -- both readings are moved to the same positions
  have hzero : ∀ ps : List Placed,
      ps.map (Placed.relocate fun _ => 0) = (ps.map (·.lexeme)).map (Placed.mk 0) := by
    intro ps
    rw [List.map_map]
    rfl
  have hrun := @run_relocate allow (fun _ => 0) .start placed
  have hrun' := @run_relocate allow (fun _ => 0) .start placed'
  rw [hzero, h, ← hzero, hrun'] at hrun
  rw [← mapError_eq_ok, ← hrun, mapError_eq_ok]

end Infix

/-! ### Cutting at other positions -/

theorem Cut.shift {position : Nat} {text : List Char} {placed : List Placed} (n : Nat)
    (h : Cut position text placed) :
    Cut (position + n) text (placed.map (Placed.relocate (· + n))) := by
  induction h with
  | nil position => exact .nil _
  | blank hc _ ih =>
    rw [Nat.add_right_comm] at ih
    exact .blank hc ih
  | lexeme hl hp _ ih =>
    rw [Nat.add_right_comm] at ih
    exact .lexeme hl hp ih

namespace Lexeme

/-- The lexemes that a text is cut into, without their positions. -/
def cut (text : List Char) : List Lexeme := (lexemes text).map (·.lexeme)

theorem cut_of_cut {position : Nat} {text : List Char} {placed : List Placed}
    (h : Cut position text placed) : cut text = placed.map (·.lexeme) := by
  have hshift := (cut_lexemes text).shift position
  rw [Nat.zero_add] at hshift
  rw [h.eq_scan, ← hshift.eq_scan, List.map_map]
  rfl

theorem cut_blank {c : Char} (text : List Char) (hc : Text.isBlank c = true) :
    cut (c :: text) = cut text := by
  have h : Cut 0 (c :: text) _ := .blank hc (cut_scan 1 text)
  rw [cut_of_cut h, cut_of_cut (cut_scan 1 text)]

/-- A lexeme in front of a text that it takes nothing of is cut off. -/
theorem cut_chars_append {l : Lexeme} {text : List Char} (hl : l.Formed) (hp : l.Precedes text) :
    cut (l.chars ++ text) = l :: cut text := by
  have h : Cut 0 (l.chars ++ text) _ := .lexeme hl hp (cut_scan _ text)
  rw [cut_of_cut h, cut_of_cut (cut_scan _ text)]
  rfl

/-- Two texts are cut one after the other if the second begins with a character that ends every
    operand. -/
theorem cut_append {text tail : List Char} (ht : ∀ c ∈ tail.head?, EndsOperand c) :
    cut (text ++ tail) = cut text ++ cut tail := by
  have h := (cut_lexemes text).append ht (cut_scan _ tail)
  rw [cut_of_cut h, cut_of_cut (cut_scan _ tail), List.map_append]
  rfl

theorem callsOpen_cut (text : List Char) : CallsOpen (cut text) :=
  callsOpen_of_written (written_lexemes text)

end Lexeme

/-- What a text is converted to depends on its lexemes only. -/
theorem Infix.convert_eq_ok_iff {allow : Bool} {text : String} {placed : List Placed}
    {tokens : List Token} (h : placed.map (·.lexeme) = Lexeme.cut text.toList) :
    convert allow text = .ok tokens ↔ run allow .start placed = .ok tokens :=
  run_eq_ok_iff_of_lexemes_eq h.symm

end Reckon
