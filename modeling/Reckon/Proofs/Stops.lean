import Reckon.Proofs.Reach

/-! # Where a reading stops

    `Stops` lists what can be wrong with one lexeme, one case for each kind of refusal;
    `step_eq_error_iff` says that the list is complete. A reading that is refused stops at such a
    lexeme, after a stretch that is accepted, or at the end of the expression, where a bracket is
    still open. -/

namespace Reckon.Infix

/-- One lexeme is refused in a state. -/
inductive Stops (allow : Bool) : State → Placed → Refusal → Prop
  | unknownConstant (s : State) (position : Nat) {letters : List Char} (hallow : allow = false)
      (hc : constant? letters = none) :
      Stops allow s ⟨position, .name letters⟩ (.unknownConstant letters position)
  | unknownFunction (s : State) (position : Nat) {letters : List Char}
      (hf : Function.ofName? letters = none) :
      Stops allow s ⟨position, .call letters⟩ (.unknownFunction letters position)
  | notUnary {s : State} (position : Nat) {op : Binary} (hread : s.operandRead = false)
      (hadd : op ≠ .add) (hsub : op ≠ .sub) :
      Stops allow s ⟨position, .sign op⟩ (.notUnary op position)
  | unopened {s : State} (position : Nat) (bracket : Bracket) (hw : AllOperators s.waiting) :
      Stops allow s ⟨position, .closing bracket⟩ (.unopened bracket position)
  | mismatched {s : State} (position openedAt : Nat) {opened bracket : Bracket}
      {above below : List Waiting} (hw : s.waiting = above ++ .bracket opened openedAt :: below)
      (ha : AllOperators above) (hne : opened ≠ bracket) :
      Stops allow s ⟨position, .closing bracket⟩ (.mismatched opened openedAt bracket position)
  | stray (s : State) (position : Nat) (c : Char) :
      Stops allow s ⟨position, .stray c⟩ (.strayCharacter c position)

variable {allow : Bool} {s : State} {placed : Placed} {r : Refusal}

theorem step_of_stops (h : Stops allow s placed r) : step allow s placed = .error r := by
  cases h with
  | unknownConstant position hallow hc =>
    subst hallow
    simp only [step, identifier, hc]
    rfl
  | unknownFunction position hf => simp only [step, hf]
  | @notUnary position op hread hadd hsub =>
    simp only [step, hread]
    cases op with
    | add => exact absurd rfl hadd
    | sub => exact absurd rfl hsub
    | mul | div | pow => rfl
  | unopened position bracket hw =>
    have hdrop : s.waiting.dropWhile (fun e => e.operator?.isSome) = [] := by
      rw [← List.append_nil s.waiting]
      exact dropWhile_append_of_stop hw (by rintro e ⟨⟩)
    simp only [step, close, hdrop]
  | @mismatched position openedAt opened bracket above below hw ha hne =>
    have hdrop : s.waiting.dropWhile (fun e => e.operator?.isSome)
        = .bracket opened openedAt :: below := by
      rw [hw]
      exact dropWhile_append_of_stop ha (by rintro e ⟨⟩; rfl)
    simp only [step, close, hdrop, if_neg hne]
  | stray => rfl

/-- A closing bracket that is refused meets no bracket, or one of the other family. -/
theorem stops_closing {bracket : Bracket} {position : Nat}
    (h : close bracket position s.waiting = .error r) :
    Stops allow s ⟨position, .closing bracket⟩ r := by
  have hsplit :=
    List.takeWhile_append_dropWhile (p := fun e => e.operator?.isSome) (l := s.waiting)
  have hall : AllOperators (s.waiting.takeWhile fun e => e.operator?.isSome) :=
    fun _ he => List.mem_takeWhile_imp (p := fun e : Waiting => e.operator?.isSome) he
  simp only [close] at h
  split at h
  · next opened openedAt below hd =>
    split at h
    · cases h
    · next hne =>
      cases h
      rw [hd] at hsplit
      exact .mismatched position openedAt hsplit.symm hall hne
  · next hd =>
    cases h
    refine .unopened position bracket ?_
    -- the first entry that is no operator would be a bracket
    cases hdrop : s.waiting.dropWhile (fun e => e.operator?.isSome) with
    | nil =>
      rw [hdrop, List.append_nil] at hsplit
      exact hsplit ▸ hall
    | cons e below =>
      cases e with
      | operator op =>
        have hn := List.head?_dropWhile_not (fun e : Waiting => e.operator?.isSome) s.waiting
        rw [hdrop] at hn
        cases hn
      | bracket opened openedAt => exact absurd hdrop (hd opened openedAt below)

/-- What is wrong with a lexeme, if it is refused, is one of the faults. -/
theorem step_eq_error_iff : step allow s placed = .error r ↔ Stops allow s placed r := by
  refine ⟨?_, step_of_stops⟩
  intro h
  obtain ⟨position, l⟩ := placed
  cases l with
  | number | opening => cases h
  | name letters =>
    simp only [step, identifier] at h
    cases hc : constant? letters with
    | some x => rw [hc] at h; cases h
    | none =>
      rw [hc] at h
      cases allow with
      | true => cases h
      | false => cases h; exact .unknownConstant s position rfl hc
  | call letters =>
    simp only [step] at h
    split at h
    · cases h
    · next hf => cases h; exact .unknownFunction s position hf
  | sign op =>
    cases hread : s.operandRead with
    | true => simp only [step, hread] at h; cases h
    | false =>
      simp only [step, hread] at h
      cases op with
      | add | sub => cases h
      | mul | div | pow => cases h; exact .notUnary position hread (by rintro ⟨⟩) (by rintro ⟨⟩)
  | closing bracket => exact stops_closing h
  | stray c => cases h; exact .stray s position c

theorem Stops.position_eq (h : Stops allow s placed r) :
    r.position = some (placed.position : Int) := by
  cases h <;> rfl

/-- The end of an expression is refused exactly if a bracket is still open, the innermost one. -/
theorem finish_eq_error_iff {waiting : List Waiting} :
    finish waiting = .error r
      ↔ ∃ above bracket position below, waiting = above ++ .bracket bracket position :: below
        ∧ AllOperators above ∧ r = .unclosed bracket position := by
  induction waiting with
  | nil =>
    refine ⟨(by rintro ⟨⟩), ?_⟩
    rintro ⟨above, bracket, position, below, hw, -⟩
    cases above <;> cases hw
  | cons e rest ih =>
    cases e with
    | bracket bracket position =>
      constructor
      · intro h
        cases h
        exact ⟨[], bracket, position, rest, rfl, List.forall_mem_nil _, rfl⟩
      · rintro ⟨above, opened, openedAt, below, hw, ha, rfl⟩
        cases above with
        | nil => cases hw; rfl
        | cons e above =>
          cases hw
          cases ha _ List.mem_cons_self
    | operator op =>
      have hfinish : finish (.operator op :: rest) = .error r ↔ finish rest = .error r := by
        rw [finish]
        cases finish rest <;> simp [Except.map]
      rw [hfinish, ih]
      constructor
      · rintro ⟨above, bracket, position, below, rfl, ha, rfl⟩
        exact ⟨.operator op :: above, bracket, position, below, rfl,
          List.forall_mem_cons.mpr ⟨rfl, ha⟩, rfl⟩
      · rintro ⟨above, bracket, position, below, hw, ha, rfl⟩
        cases above with
        | nil => cases hw
        | cons e above =>
          cases hw
          exact ⟨above, bracket, position, below, rfl, (List.forall_mem_cons.mp ha).2, rfl⟩

/-- A reading that is refused stops at a lexeme, or at the end. -/
theorem stops_of_run {placed : List Placed} (h : run allow s placed = .error r) :
    (∃ first p last out mid, placed = first ++ p :: last ∧ Reaches allow s first out mid
        ∧ Stops allow mid p r)
      ∨ ∃ out final, Reaches allow s placed out final ∧ finish final.waiting = .error r := by
  induction placed generalizing s with
  | nil => exact .inr ⟨[], s, .nil s, h⟩
  | cons p rest ih =>
    rw [run] at h
    cases hs : step allow s p with
    | error r' =>
      rw [hs] at h
      cases h
      exact .inl ⟨[], p, rest, [], s, rfl, .nil s, step_eq_error_iff.mp hs⟩
    | ok result =>
      obtain ⟨next, out⟩ := result
      simp only [hs] at h
      cases hr : run allow next rest with
      | ok more => rw [hr] at h; cases h
      | error r' =>
        rw [hr] at h
        cases h
        rcases ih hr with
          ⟨first, q, last, more, mid, rfl, hreach, hstop⟩ | ⟨more, final, hreach, hf⟩
        · exact .inl ⟨p :: first, q, last, out ++ more, mid, rfl, .cons hs hreach, hstop⟩
        · exact .inr ⟨out ++ more, final, .cons hs hreach, hf⟩

end Reckon.Infix
