import Reckon.Proofs.Barriers
import Reckon.Proofs.Brackets
import Reckon.Proofs.Turns

/-! # How the stack is arranged

    Operators, functions and opening brackets wait on one stack. At every turn of a reading it is
    arranged in the same way (`Arranged`): a function lies directly below its round bracket, unless
    the bracket is what comes next; a binary operator lies above operators that bind less tightly,
    or is a power above a power; and the brackets are those of the text read so far that have no
    partner yet. Precedences need not increase from entry to entry, since a negation waits above
    whatever was there.

    So whatever goes out from above the innermost bracket, when a group is closed or the text ends,
    is an operator and no function, and the only function that goes out is the one below a bracket
    that is closed (`waiting_arranged`).

        read        s i n ( 2 * - 3 ^ x
        stack       ^ ~ * ( sin           top first; a closing bracket sends ^ ~ * and then sin -/

namespace Reckon.Infix

variable {allow : Bool} {s next : State} {placed : Placed} {out : List Token}
  {waiting : List Waiting} {before after : List Char}

/-! ### Neighbours -/

/-- An entry may lie directly above another: a binary operator only above an operator that binds
    less tightly, and a power above a power. -/
def BindsOver (above below : Waiting) : Prop :=
  ∀ op other, above = .operator (.binary op) → below = .operator other →
    other.precedence < op.precedence ∨ op = .pow ∧ other = .binary .pow

/-- What does not yield to a sign binds less tightly, or both are powers. -/
theorem precedence_of_not_yieldsTo {op : Binary} {other : Operator}
    (h : (Waiting.operator other).yieldsTo op = false) :
    other.precedence < op.precedence ∨ op = .pow ∧ other = .binary .pow := by
  cases other with
  | function f => exact .inl (by cases op <;> simp [Operator.precedence, Binary.precedence])
  | negate => cases op <;> simp_all [Waiting.yieldsTo, Operator.precedence, Binary.precedence,
      Binary.groupsRight]
  | binary other => cases op <;> cases other <;> simp_all [Waiting.yieldsTo, Operator.precedence,
      Binary.precedence, Binary.groupsRight]

theorem bindsOver_of_ne_binary {above below : Waiting}
    (h : ∀ op, above ≠ .operator (.binary op)) : BindsOver above below :=
  fun op _ habove _ => absurd habove (h op)

/-- What waits below a group that is closed is a part of the stack. -/
theorem calledFunction_suffix (below : List Waiting) : (calledFunction below).2 <:+ below := by
  unfold calledFunction
  split
  · exact List.suffix_cons _ _
  · exact List.suffix_rfl

/-- Every lexeme keeps the binary operators above operators that bind less tightly. -/
theorem Moves.isChain_bindsOver (hm : Moves allow s placed next out)
    (hc : s.waiting.IsChain BindsOver) : next.waiting.IsChain BindsOver := by
  cases hm with
  | number | name | plus => exact hc
  | call | minus | opening =>
    exact List.isChain_cons.mpr ⟨fun _ _ => bindsOver_of_ne_binary (by rintro op ⟨⟩), hc⟩
  | between position hread hw ha hb =>
    rw [hw] at hc
    refine List.isChain_cons.mpr ⟨?_, hc.right_of_append⟩
    rintro e he _ other ⟨⟩ rfl
    exact precedence_of_not_yieldsTo (hb _ he)
  | closing position opened bracket hw ha =>
    rw [hw] at hc
    exact (List.isChain_cons.mp hc.right_of_append).2.suffix (calledFunction_suffix _)

/-! ### What every turn keeps -/

/-- The round bracket that comes next, if it does. -/
def bracketAhead (after : List Char) : List Lexeme :=
  if after.head? = some '(' then [.opening .round] else []

/-- The arrangement of the stack in terms of its neighbours and of the brackets read. -/
structure Stacked (before after : List Char) (waiting : List Waiting) : Prop where
  guards : Guards waiting (bracketAhead after)
  binds : waiting.IsChain BindsOver
  opened : openAfter? [] (bracketWord 0 before) = some (openBrackets waiting)

theorem callsOpen_bracketAhead (after : List Char) : CallsOpen (bracketAhead after) := by
  unfold bracketAhead
  split
  · exact ⟨by rintro letters ⟨⟩, trivial⟩
  · trivial

/-- A blank is passed over with no function on top. -/
theorem Guards.blank {c : Char} {rest : List Char} (hg : Guards waiting (bracketAhead (c :: rest)))
    (hc : Text.isBlank c = true) (next : List Lexeme) : Guards waiting next := by
  refine ⟨hg.covered, .inl (hg.top.resolve_right ?_)⟩
  have hne : c ≠ '(' := by
    rintro rfl
    cases hc
  simp [bracketAhead, hne]

/-- A lexeme keeps the functions below their brackets, as far as the next character can tell. -/
theorem Guards.lexeme {c : Char} {rest : List Char} {l : Lexeme} {more position : Nat}
    (hg : Guards s.waiting (bracketAhead (c :: rest))) (hn : Lexeme.next c rest = (some l, more))
    (hm : Moves allow s ⟨position, l⟩ next out) :
    Guards next.waiting (bracketAhead (rest.drop more)) := by
  refine Guards.moves ⟨hg.covered, hg.top.imp_right ?_⟩ ⟨?_, callsOpen_bracketAhead _⟩ hm
  · intro hhead
    by_cases hc : c = '('
    · subst hc
      cases hn
      rfl
    · simp [bracketAhead, hc] at hhead
  · rintro letters rfl
    have hp : (rest.drop more).head? = some '(' := (Lexeme.next_eq_some hn).2.2
    simp [bracketAhead, hp]

theorem Turn.stacked {text : List Char} (h : Turn allow text before after s out) :
    Stacked before after s.waiting := by
  induction h with
  | start => exact ⟨guards_nil _, .nil, rfl⟩
  | @blank before rest c s out more h hn ih =>
    obtain ⟨hc, rfl⟩ := Lexeme.next_eq_none hn
    refine ⟨ih.guards.blank hc _, ih.binds, ?_⟩
    have hnone : bracketWord (0 + before.length) [c] = [] :=
      bracketWord_of_forall (by simpa using ofChar?_of_isBlank hc)
    rw [List.take_zero, bracketWord_append, hnone, List.append_nil]
    exact ih.opened
  | @lexeme before rest c s next out sent l more h hn hs ih =>
    obtain ⟨hl, hchars, -⟩ := Lexeme.next_eq_some hn
    have hm := step_eq_ok_iff.mp hs
    refine ⟨ih.guards.lexeme hn hm, hm.isChain_bindsOver ih.binds, ?_⟩
    rw [← hchars, bracketWord_append, openAfter?_append, ih.opened, Option.bind_some, Nat.zero_add,
      bracketWord_chars before.length hl]
    exact hm.openAfter?_eq

/-! ### The arrangement -/

/-- What waits while a text is read, the latest first, when `before` is read and `after` is left. -/
structure Arranged (before after : List Char) (waiting : List Waiting) : Prop where
  /-- a function lies directly below a round bracket, or on top if its bracket comes next -/
  function_below_bracket : ∀ above f below, waiting = above ++ .operator (.function f) :: below →
    (∃ inside position, above = inside ++ [.bracket .round position])
      ∨ above = [] ∧ after.head? = some '('
  /-- a binary operator lies above an operator that binds less tightly, or a power above a power -/
  binary_binds_tighter : ∀ above op other below,
    waiting = above ++ .operator (.binary op) :: .operator other :: below →
      other.precedence < op.precedence ∨ op = .pow ∧ other = .binary .pow
  /-- the brackets are the opening ones of what is read that have no partner there, -/
  brackets_open : ∀ i bracket, (i, bracket) ∈ openBrackets waiting ↔
    (i, .opens bracket) ∈ bracketWord 0 before ∧ StaysOpen (bracketWord 0 before) i
  /-- a later one above an earlier one -/
  positions_increase : (openBrackets waiting).Pairwise fun upper lower => lower.1 < upper.1

theorem Stacked.arranged (h : Stacked before after waiting) : Arranged before after waiting where
  function_below_bracket := by
    rintro above f below rfl
    rcases List.eq_nil_or_concat above with rfl | ⟨inside, e, rfl⟩
    · refine .inr ⟨rfl, ?_⟩
      have hahead := h.guards.top.resolve_left fun hn => hn f rfl
      by_contra hne
      simp [bracketAhead, hne] at hahead
    · have hcovered := h.guards.covered
      rw [List.concat_eq_append, List.append_assoc] at hcovered
      obtain ⟨position, rfl⟩ := (List.isChain_cons_cons.mp hcovered.right_of_append).1 f rfl
      exact .inl ⟨inside, position, List.concat_eq_append⟩
  binary_binds_tighter := by
    rintro above op other below rfl
    exact (List.isChain_cons_cons.mp h.binds.right_of_append).1 op other rfl rfl
  brackets_open := fun _ _ =>
    mem_openAfter?_iff (cut_lexemes before).increasing_bracketWord h.opened
  positions_increase :=
    pairwise_openAfter? (cut_lexemes before).increasing_bracketWord h.opened

/-! ### What goes out -/

/-- Operators wait on top of the stack, and none of them is a function. -/
structure OnTop (ops : List Operator) (below waiting : List Waiting) : Prop where
  eq : waiting = ops.map .operator ++ below
  no_function : ∀ f, .function f ∉ ops

theorem sent_map_operator (ops : List Operator) :
    sent (ops.map .operator) = ops.map .operator := by
  induction ops with
  | nil => rfl
  | cons op rest ih => exact congrArg (Token.operator op :: ·) ih

theorem allOperators_map_operator (ops : List Operator) : AllOperators (ops.map .operator) := by
  intro e he
  obtain ⟨op, -, rfl⟩ := List.mem_map.mp he
  rfl

/-- Where all entries are operators and a bracket is on top, there are none. -/
theorem eq_nil_of_rests (h : AllOperators waiting) (hr : Rests waiting) : waiting = [] := by
  cases waiting with
  | nil => rfl
  | cons e rest =>
    obtain ⟨bracket, position, rfl⟩ := hr e rfl
    cases h _ List.mem_cons_self

/-- The entries above the innermost bracket are operators. -/
theorem exists_operators_above (waiting : List Waiting) :
    ∃ (ops : List Operator) (below : List Waiting),
      waiting = ops.map .operator ++ below ∧ Rests below := by
  induction waiting with
  | nil => exact ⟨[], [], rfl, by rintro e ⟨⟩⟩
  | cons e rest ih =>
    cases e with
    | bracket bracket position => exact ⟨[], _, rfl, rests_bracket bracket position rest⟩
    | operator op =>
      obtain ⟨ops, below, rfl, hbelow⟩ := ih
      exact ⟨op :: ops, below, rfl, hbelow⟩

/-- Where no round bracket comes next, no function waits above the innermost bracket. -/
theorem Arranged.onTop {ops : List Operator} {below : List Waiting}
    (h : Arranged before after waiting) (hnext : after.head? ≠ some '(')
    (hw : waiting = ops.map .operator ++ below) : OnTop ops below waiting := by
  refine ⟨hw, ?_⟩
  intro f hf
  obtain ⟨first, last, rfl⟩ := List.append_of_mem hf
  rw [List.map_append, List.append_assoc] at hw
  rcases h.function_below_bracket _ f _ hw with ⟨inside, position, habove⟩ | ⟨-, hhead⟩
  · have hbracket : .bracket .round position ∈ first.map Waiting.operator := by simp [habove]
    obtain ⟨op, -, ⟨⟩⟩ := List.mem_map.mp hbracket
  · exact hnext hhead

/-- What yields to a sign are operators, and none is a function. -/
theorem exists_onTop_of_yieldsTo (op : Binary) (waiting : List Waiting) :
    ∃ ops below, OnTop ops below waiting
      ∧ between op waiting = (⟨false, .operator (.binary op) :: below⟩, ops.map .operator) := by
  have hyields : ∀ e ∈ waiting.takeWhile (Waiting.yieldsTo op), e.yieldsTo op = true :=
    fun _ he => List.mem_takeWhile_imp he
  obtain ⟨ops, rest, htaken, hrest⟩ :=
    exists_operators_above (waiting.takeWhile (Waiting.yieldsTo op))
  have hall := allOperators_of_yieldsTo hyields
  rw [htaken, allOperators_append] at hall
  obtain rfl := eq_nil_of_rests hall.2 hrest
  rw [List.append_nil] at htaken
  refine ⟨ops, waiting.dropWhile (Waiting.yieldsTo op), ⟨?_, ?_⟩, ?_⟩
  · rw [← htaken, List.takeWhile_append_dropWhile]
  · intro f hf
    cases hyields (.operator (.function f)) (by simpa [htaken] using hf)
  · rw [between, htaken, sent_map_operator]

/-- A closing bracket sends out the operators above the innermost bracket, which has to be its
    partner, and then the function below that. -/
theorem close_of_operators_above {ops : List Operator} {below : List Waiting}
    (hw : waiting = ops.map .operator ++ below) (hbelow : Rests below) {bracket : Bracket}
    {position : Nat} {sent : List Token} (h : close bracket position waiting = .ok (next, sent)) :
    ∃ opened rest, below = .bracket bracket opened :: rest
      ∧ next = ⟨true, (calledFunction rest).2⟩
      ∧ sent = ops.map .operator ++ (calledFunction rest).1 := by
  have hm : Moves true ⟨true, waiting⟩ ⟨position, .closing bracket⟩ next sent := moves_closing h
  cases hm with
  | @closing _ opened _ above rest hw' ha =>
    obtain ⟨rfl, rfl⟩ := append_inj_of_rests (hw.symm.trans hw') (allOperators_map_operator ops) ha
      hbelow (rests_bracket bracket opened rest)
    exact ⟨opened, rest, rfl, rfl, by rw [sent_map_operator]⟩

/-- At the end of the text the operators above the innermost bracket go out, if there is no
    bracket. -/
theorem finish_of_operators_above {ops : List Operator} {below : List Waiting}
    (hw : waiting = ops.map .operator ++ below) (hbelow : Rests below)
    {tokens : List Token} (h : finish waiting = .ok tokens) :
    below = [] ∧ tokens = ops.map .operator := by
  have hall := allOperators_of_finish h
  rw [hw, allOperators_append] at hall
  obtain rfl := eq_nil_of_rests hall.2 hbelow
  refine ⟨rfl, ?_⟩
  rw [eq_sent_of_finish h, hw, List.append_nil, sent_map_operator]

/-- What can go out at a turn: operators, none of them a function, from the top of the stack, and
    after them the function below a group that is closed. -/
structure SendsOperators (allow : Bool) (after : List Char) (s : State) : Prop where
  /-- a sign between operands sends out the operators that it takes the place of -/
  between_operands : s.operandRead = true → ∀ op position, ∃ ops below, OnTop ops below s.waiting
    ∧ step allow s ⟨position, .sign op⟩
      = .ok (⟨false, .operator (.binary op) :: below⟩, ops.map .operator)
  /-- a closing bracket and the end of the text send out those above the innermost bracket -/
  group_or_end : after.head? ≠ some '(' → ∃ ops below, OnTop ops below s.waiting ∧ Rests below
    ∧ (∀ bracket position next sent, step allow s ⟨position, .closing bracket⟩ = .ok (next, sent) →
        ∃ opened rest, below = .bracket bracket opened :: rest
          ∧ next = ⟨true, (calledFunction rest).2⟩
          ∧ sent = ops.map .operator ++ (calledFunction rest).1)
    ∧ ∀ tokens, finish s.waiting = .ok tokens → below = [] ∧ tokens = ops.map .operator

theorem Arranged.sendsOperators (h : Arranged before after s.waiting) (allow : Bool) :
    SendsOperators allow after s where
  between_operands := by
    intro hread op position
    obtain ⟨ops, below, htop, hbetween⟩ := exists_onTop_of_yieldsTo op s.waiting
    refine ⟨ops, below, htop, ?_⟩
    simp only [step, hread, hbetween, if_true]
  group_or_end := by
    intro hnext
    obtain ⟨ops, below, hw, hbelow⟩ := exists_operators_above s.waiting
    refine ⟨ops, below, h.onTop hnext hw, hbelow, ?_, ?_⟩
    · exact fun bracket position next sent hs => close_of_operators_above hw hbelow hs
    · exact fun tokens => finish_of_operators_above hw hbelow

/-- At every turn the stack is arranged, and so functions go out only with their groups; and a text
    that is accepted comes to a last turn, where all that waits are operators that go out. -/
theorem waiting_arranged (allow : Bool) (text : String) :
    (∀ before after s out, Turn allow text.toList before after s out →
        Arranged before after s.waiting ∧ SendsOperators allow after s)
      ∧ ∀ tokens, convert allow text = .ok tokens →
        ∃ s out ops, Turn allow text.toList text.toList [] s out ∧ OnTop ops [] s.waiting
          ∧ tokens = out ++ ops.map .operator := by
  have harranged : ∀ before after s out, Turn allow text.toList before after s out →
      Arranged before after s.waiting := fun _ _ _ _ h => h.stacked.arranged
  refine ⟨?_, ?_⟩
  · intro before after s out h
    exact ⟨harranged _ _ _ _ h, (harranged _ _ _ _ h).sendsOperators allow⟩
  · intro tokens h
    obtain ⟨s, out, hlast⟩ := exists_last_turn h
    have hrun := hlast.convert_eq
    rw [Lexeme.scan_nil, run, h] at hrun
    cases hfinish : finish s.waiting with
    | error r => rw [hfinish] at hrun; cases hrun
    | ok last =>
      rw [hfinish] at hrun
      obtain ⟨ops, below, htop, -, -, hend⟩ :=
        ((harranged _ _ _ _ hlast).sendsOperators allow).group_or_end (by simp)
      obtain ⟨rfl, rfl⟩ := hend last hfinish
      exact ⟨s, out, ops, hlast, htop, Except.ok.inj hrun⟩

/-- In front of the bracket that ends `ln(-x^2)` a power waits above a negation, in the group of the
    function, and the bracket sends out all three. -/
theorem arranged_power_above_negation :
    ∃ s out, Turn true "ln(-x^2)".toList "ln(-x^2".toList [')'] s out
      ∧ s.waiting = [.operator (.binary .pow), .operator .negate, .bracket .round 2,
          .operator (.function .ln)]
      ∧ (Arranged "ln(-x^2".toList [')'] s.waiting ∧ SendsOperators true [')'] s)
      ∧ step true s ⟨7, .closing .round⟩ = .ok (⟨true, []⟩,
          [.operator (.binary .pow), .operator .negate, .operator (.function .ln)])
      ∧ ∃ final sent ops, Turn true "ln(-x^2)".toList "ln(-x^2)".toList [] final sent
          ∧ OnTop ops [] final.waiting
          ∧ [.var "x", .number (Lexeme.value ['2'] none), .operator (.binary .pow),
              .operator .negate, .operator (.function .ln)] = sent ++ ops.map Token.operator := by
  have hcall : Lexeme.next 'l' ['n', '(', '-', 'x', '^', '2', ')'] = (some (.call ['l', 'n']), 1) :=
    by decide +kernel
  have hopen : Lexeme.next '(' ['-', 'x', '^', '2', ')'] = (some (.opening .round), 0) := by
    decide +kernel
  have hminus : Lexeme.next '-' ['x', '^', '2', ')'] = (some (.sign .sub), 0) := by decide +kernel
  have hname : Lexeme.next 'x' ['^', '2', ')'] = (some (.name ['x']), 0) := by decide +kernel
  have hpow : Lexeme.next '^' ['2', ')'] = (some (.sign .pow), 0) := by decide +kernel
  have hnumber : Lexeme.next '2' [')'] = (some (.number ['2'] none), 0) := by decide +kernel
  have hclose : Lexeme.next ')' [] = (some (.closing .round), 0) := by decide +kernel
  have hturn : Turn true "ln(-x^2)".toList "ln(-x^2".toList [')'] _ _ :=
    (((((Turn.start.lexeme hcall rfl).lexeme hopen rfl).lexeme hminus rfl).lexeme hname rfl).lexeme
      hpow rfl).lexeme hnumber rfl
  have hconvert := (hturn.lexeme hclose rfl).convert_eq
  obtain ⟨harranged, hlast⟩ := waiting_arranged true "ln(-x^2)"
  exact ⟨_, _, hturn, rfl, harranged _ _ _ _ hturn, rfl, hlast _ hconvert⟩

end Reckon.Infix
