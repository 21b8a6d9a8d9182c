import Reckon.Proofs.Cut
import Reckon.Proofs.Stops

/-! # Allowing variables

    Whether variables are allowed makes a difference at one kind of lexeme only: a name that is no
    constant. Up to the first one the two readings of a text are the same; there the stricter one
    ends and the other one sends out a variable. So allowing variables changes neither the tokens of
    a text that is accepted without nor any refusal but that of an unknown constant.

        2 * pi + r        the same up to `r`; then a variable, or a refusal at 9 -/

namespace Reckon

/-- A name that is no constant. -/
def Lexeme.isVariable : Lexeme → Bool
  | name letters => (constant? letters).isNone
  | _ => false

theorem Lexeme.isVariable_iff {l : Lexeme} :
    l.isVariable = true ↔ ∃ letters, l = .name letters ∧ constant? letters = none := by
  cases l with
  | name letters =>
    rw [isVariable, Option.isNone_iff_eq_none]
    refine ⟨fun h => ⟨letters, rfl, h⟩, ?_⟩
    rintro ⟨_, ⟨⟩, h⟩
    exact h
  | _ =>
    refine ⟨(by rintro ⟨⟩), ?_⟩
    rintro ⟨_, ⟨⟩, -⟩

namespace Infix

/-! ### The two readings of one lexeme -/

/-- All lexemes but variables are read alike. -/
theorem step_eq_of_not_isVariable {s : State} {placed : Placed}
    (h : placed.lexeme.isVariable = false) : step false s placed = step true s placed := by
  obtain ⟨position, l⟩ := placed
  cases l with
  | name letters =>
    have hc : constant? letters ≠ none :=
      fun hn => Bool.eq_false_iff.mp h (Option.isNone_iff_eq_none.mpr hn)
    obtain ⟨x, hx⟩ := Option.ne_none_iff_exists'.mp hc
    simp only [step, identifier, hx]
  | _ => rfl

/-- A variable is sent out where variables are allowed, and refused elsewhere. -/
theorem step_variable (s : State) (position : Nat) {letters : List Char}
    (h : constant? letters = none) :
    step true s ⟨position, .name letters⟩ = .ok (⟨true, s.waiting⟩, [.var (String.ofList letters)])
      ∧ step false s ⟨position, .name letters⟩ = .error (.unknownConstant letters position) := by
  simp only [step, identifier, h]
  exact ⟨rfl, rfl⟩

/-! ### The two readings of an expression -/

/-- A reading that allows variables never meets an unknown constant. -/
theorem kind_of_run_error {s : State} {placed : List Placed} {r : Refusal}
    (h : run true s placed = .error r) : r.kind ≠ .unknownConstant := by
  rcases stops_of_run h with ⟨first, p, last, out, mid, -, -, hstop⟩ | ⟨out, final, -, hfinish⟩
  · cases hstop with
    | unknownConstant position hallow => cases hallow
    | _ => rintro ⟨⟩
  · obtain ⟨above, bracket, position, below, -, -, rfl⟩ := finish_eq_error_iff.mp hfinish
    rintro ⟨⟩

/-- Either the two readings are the same, or the one that allows no variables ends at the first
    variable, which the other one sends out if it gets through. -/
theorem run_false_cases (s : State) (placed : List Placed) :
    run false s placed = run true s placed
      ∨ ∃ position letters,
          placed.find? (fun p => p.lexeme.isVariable) = some ⟨position, .name letters⟩
          ∧ run false s placed = .error (.unknownConstant letters position)
          ∧ ∀ tokens, run true s placed = .ok tokens → .var (String.ofList letters) ∈ tokens := by
  induction placed generalizing s with
  | nil => exact .inl rfl
  | cons p rest ih =>
    cases hv : p.lexeme.isVariable with
    | true =>
      obtain ⟨position, l⟩ := p
      obtain ⟨letters, rfl, hc⟩ := Lexeme.isVariable_iff.mp hv
      obtain ⟨hallowed, hrefused⟩ := step_variable s position hc
      refine .inr ⟨position, letters, List.find?_cons_of_pos hv, ?_, ?_⟩
      · rw [run, hrefused]
      · intro tokens h
        simp only [run, hallowed] at h
        cases hr : run true ⟨true, s.waiting⟩ rest with
        | error r => rw [hr] at h; cases h
        | ok more =>
          rw [hr] at h
          cases h
          exact List.mem_cons_self
    | false =>
      rw [run, run, step_eq_of_not_isVariable hv, List.find?_cons_of_neg (by simp [hv])]
      cases hs : step true s p with
      | error r => exact .inl rfl
      | ok result =>
        obtain ⟨next, out⟩ := result
        simp only
        rcases ih next with heq | ⟨position, letters, hfind, hrefused, hsent⟩
        · exact .inl (by rw [heq])
        · refine .inr ⟨position, letters, hfind, by rw [hrefused]; rfl, ?_⟩
          intro tokens h
          cases hr : run true next rest with
          | error r => rw [hr] at h; cases h
          | ok more =>
            rw [hr] at h
            cases h
            exact List.mem_append_right out (hsent more hr)

/-- A reading that allows no variables sends out none. -/
theorem var_not_mem_of_run {s : State} {placed : List Placed} {tokens : List Token}
    (h : run false s placed = .ok tokens) (name : String) : .var name ∉ tokens := by
  intro hname
  cases (exists_name_of_var_mem h hname).1

/-- The first variable among the lexemes of a text is the leftmost one of the text. -/
theorem nameAt_of_find? {text letters : List Char} {position : Nat}
    (h : (Lexeme.lexemes text).find? (fun p => p.lexeme.isVariable)
      = some ⟨position, .name letters⟩) :
    NameAt text position letters ∧ constant? letters = none
      ∧ ∀ other name, NameAt text other name → constant? name = none → position ≤ other := by
  obtain ⟨hv, first, last, happend, hfirst⟩ := List.find?_eq_some_iff_append.mp h
  obtain ⟨_, ⟨⟩, hc⟩ := Lexeme.isVariable_iff.mp hv
  refine ⟨mem_lexemes_name_iff.mp (happend ▸ List.mem_append_right _ List.mem_cons_self), hc, ?_⟩
  intro other name hname hn
  have hmem := mem_lexemes_name_iff.mpr hname
  have hincreasing := (cut_lexemes text).increasing
  rw [happend] at hmem hincreasing
  rcases List.mem_append.mp hmem with hf | hl
  · have hnot := hfirst _ hf
    rw [Lexeme.isVariable_iff.mpr ⟨name, rfl, hn⟩] at hnot
    cases hnot
  · rcases List.mem_cons.mp hl with heq | hl
    · cases heq
      exact Nat.le_refl _
    · have hpairs := List.pairwise_cons.mp (List.pairwise_append.mp hincreasing).2.1
      exact Nat.le_of_lt (hpairs.1 _ hl)

/-- Allowing variables extends conversion conservatively. A text that is converted without variables
    is converted to the same tokens with them, and a text that is refused for anything but an
    unknown constant is refused for the same thing at the same place. Tokens without a variable are
    also those of the stricter reading; if there is a variable in them, the stricter reading refuses
    the leftmost name of the text that is no constant, at its position. With variables allowed, no
    constant is ever unknown. -/
theorem allowing_variables_is_conservative (text : String) :
    (∀ tokens, convert false text = .ok tokens → convert true text = .ok tokens)
      ∧ (∀ r, convert false text = .error r → r.kind ≠ .unknownConstant →
          convert true text = .error r)
      ∧ (∀ tokens, convert true text = .ok tokens → (∀ name, .var name ∉ tokens) →
          convert false text = .ok tokens)
      ∧ (∀ tokens name, convert true text = .ok tokens → .var name ∈ tokens →
          ∃ position letters,
            NameAt text.toList position letters ∧ .var (String.ofList letters) ∈ tokens
            ∧ constant? letters = none
            ∧ (∀ other name, NameAt text.toList other name → constant? name = none →
                position ≤ other)
            ∧ convert false text = .error (.unknownConstant letters position))
      ∧ ∀ r, convert true text = .error r → r.kind ≠ .unknownConstant := by
  refine ⟨?_, ?_, ?_, ?_, fun r h => kind_of_run_error h⟩
  all_goals
    rcases run_false_cases .start (Lexeme.lexemes text.toList) with
      heq | ⟨position, letters, hfind, hrefused, hsent⟩
  · exact fun tokens h => heq.symm.trans h
  · intro tokens h
    cases hrefused.symm.trans h
  · exact fun r h _ => heq.symm.trans h
  · intro r h hkind
    cases hrefused.symm.trans h
    exact absurd rfl hkind
  · exact fun tokens h _ => heq.trans h
  · exact fun tokens h hnone => absurd (hsent tokens h) (hnone _)
  · exact fun tokens name h hname => absurd hname (var_not_mem_of_run (heq.trans h) name)
  · intro tokens name h _
    obtain ⟨hname, hc, hleast⟩ := nameAt_of_find? hfind
    exact ⟨position, letters, hname, hsent tokens h, hc, hleast, hrefused⟩

/-- The text `e*sin(y)` is accepted with variables; without, the name `y` is refused where it
    stands, and neither the constant before it nor the function. -/
theorem convert_name_after_constant :
    (∃ tokens, convert true "e*sin(y)" = .ok tokens ∧ .var "y" ∈ tokens)
      ∧ ∃ position letters, NameAt "e*sin(y)".toList position letters
        ∧ convert false "e*sin(y)" = .error (.unknownConstant letters position) := by
  have hcut : Lexeme.lexemes "e*sin(y)".toList
      = [⟨0, .name ['e']⟩, ⟨1, .sign .mul⟩, ⟨2, .call ['s', 'i', 'n']⟩, ⟨5, .opening .round⟩,
          ⟨6, .name ['y']⟩, ⟨7, .closing .round⟩] := by decide +kernel
  have htokens : convert true "e*sin(y)"
      = .ok [.number logarithmBase, .var "y", .operator (.function .sin),
          .operator (.binary .mul)] := by
    rw [convert, hcut]
    rfl
  have hmem : Token.var "y" ∈ [Token.number logarithmBase, .var "y", .operator (.function .sin),
      .operator (.binary .mul)] := List.mem_cons_of_mem _ List.mem_cons_self
  refine ⟨⟨_, htokens, hmem⟩, ?_⟩
  obtain ⟨position, letters, hname, -, -, -, hrefused⟩ :=
    (allowing_variables_is_conservative "e*sin(y)").2.2.2.1 _ _ htokens hmem
  exact ⟨position, letters, hname, hrefused⟩

end Infix

end Reckon
