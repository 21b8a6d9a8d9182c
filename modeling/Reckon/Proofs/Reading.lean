import Reckon.Proofs.Reach
import Reckon.Proofs.Tree
import Reckon.Proofs.Unrestricted

/-! # Reading by precedence

    The reference reading of an expression is recursive. An expression *at level* `m` is a signed
    operand and then as many binary operators of strength at least `m` as come next, each with what
    was read so far on its left and, on its right, an expression at the operator's own right level.
    A minus in front of an operand negates an expression at level four, a plus does nothing, and
    brackets and calls hold an expression at level zero. `Reads` is this reading as a relation, and
    `Reading` says what a text as a whole is read as.

    Conversion keeps no pending calls but a stack. The invariant that connects the two is `Pending`:
    the tokens sent out so far and the operators that wait above the stack of the caller make up the
    postfix sequence of the tree read so far, and all of these operators yield to the operator that
    comes next. With it `convert_of_reading` says that conversion writes the tree of the reading.

        text:      a ^ - b * c + d         tree:      (a ^ -(b * c)) + d
        waiting before `+`, top first:  * ~ ^    (all stronger than `+`) -/

namespace Reckon.Infix

/-- How tightly a sign binds between operands. -/
def strength : Binary → Nat
  | .add | .sub => 2
  | .mul | .div => 4
  | .pow => 5

/-- The level of the right operand of a sign. -/
def rightLevel : Binary → Nat
  | .add | .sub => 3
  | .mul | .div => 5
  | .pow => 5

/-- What is read: an operand, an operand behind signs, an expression at a level, or the rest of an
    expression at a level of which `left` was read already. -/
inductive Part where
  | atom
  | signed
  | level (m : Nat)
  | rest (m : Nat) (left : Tree)

/-- A part of an expression at the start of the lexemes is read as a tree, and leaves the rest of
    the lexemes. -/
inductive Reads (allow : Bool) : Part → List Lexeme → Tree → List Lexeme → Prop
  | number (whole : List Char) (fraction : Option (List Char)) (after : List Lexeme) :
      Reads allow .atom (.number whole fraction :: after) (.number (Lexeme.value whole fraction))
        after
  | constant {letters : List Char} {x : Float} (h : constant? letters = some x)
      (after : List Lexeme) : Reads allow .atom (.name letters :: after) (.number x) after
  | var {letters : List Char} (hallow : allow = true) (h : constant? letters = none)
      (after : List Lexeme) :
      Reads allow .atom (.name letters :: after) (.var (String.ofList letters)) after
  | group (bracket : Bracket) {inner after : List Lexeme} {t : Tree}
      (h : Reads allow (.level 0) inner t (.closing bracket :: after)) :
      Reads allow .atom (.opening bracket :: inner) t after
  | call {letters : List Char} {f : Function} {inner after : List Lexeme} {t : Tree}
      (hf : Function.ofName? letters = some f)
      (h : Reads allow (.level 0) inner t (.closing .round :: after)) :
      Reads allow .atom (.call letters :: .opening .round :: inner) (.function f t) after
  | unsigned {lexemes after : List Lexeme} {t : Tree} (h : Reads allow .atom lexemes t after) :
      Reads allow .signed lexemes t after
  | plus {lexemes after : List Lexeme} {t : Tree} (h : Reads allow .signed lexemes t after) :
      Reads allow .signed (.sign .add :: lexemes) t after
  | minus {lexemes after : List Lexeme} {t : Tree} (h : Reads allow (.level 4) lexemes t after) :
      Reads allow .signed (.sign .sub :: lexemes) (.negate t) after
  | level {m : Nat} {lexemes middle after : List Lexeme} {left t : Tree}
      (h : Reads allow .signed lexemes left middle)
      (hrest : Reads allow (.rest m left) middle t after) :
      Reads allow (.level m) lexemes t after
  | stop {m : Nat} {left : Tree} {after : List Lexeme}
      (h : ∀ op, after.head? = some (.sign op) → strength op < m) :
      Reads allow (.rest m left) after left after
  | operator {m : Nat} {op : Binary} {left right t : Tree} {lexemes middle after : List Lexeme}
      (hm : m ≤ strength op) (h : Reads allow (.level (rightLevel op)) lexemes right middle)
      (hrest : Reads allow (.rest m (.binary op left right)) middle t after) :
      Reads allow (.rest m left) (.sign op :: lexemes) t after

/-- What a text is read as: the text is written as lexemes, and these are one expression at level
    zero with nothing left. -/
def Reading (allow : Bool) (text : String) (t : Tree) : Prop :=
  ∃ lexemes, Written lexemes text.toList ∧ Reads allow (.level 0) lexemes t []

variable {allow : Bool}

/-! ### What a reading leaves -/

/-- An expression at a level ends where no operator comes next that belongs to it. -/
theorem Reads.strength_lt {part : Part} {lexemes after : List Lexeme} {t : Tree}
    (h : Reads allow part lexemes t after) :
    ∀ m op, (part = .level m ∨ ∃ left, part = .rest m left) →
      after.head? = some (.sign op) → strength op < m := by
  induction h with
  | level _ _ _ ihrest =>
    rintro m op (hp | ⟨left, hp⟩) hop
    · cases hp
      exact ihrest _ op (.inr ⟨_, rfl⟩) hop
    · cases hp
  | stop h =>
    rintro m op (hp | ⟨left, hp⟩) hop
    · cases hp
    · cases hp
      exact h op hop
  | operator _ _ _ _ ihrest =>
    rintro m op (hp | ⟨left, hp⟩) hop
    · cases hp
    · cases hp
      exact ihrest _ op (.inr ⟨_, rfl⟩) hop
  | _ =>
    rintro m op (hp | ⟨left, hp⟩) _ <;> cases hp

/-- Nothing comes directly after an operand but a sign or a closing bracket. -/
def AfterOperand (lexemes : List Lexeme) : Prop :=
  ∀ l ∈ lexemes.head?, l.followsOperand = true

/-- The lexemes of an expression stay apart without blanks, as far as it goes. -/
theorem Reads.apart {part : Part} {lexemes after : List Lexeme} {t : Tree}
    (h : Reads allow part lexemes t after) (ha : Apart after) (hf : AfterOperand after) :
    Apart lexemes ∧ ∀ m left, part = .rest m left → AfterOperand lexemes := by
  induction h with
  | number whole fraction after => exact ⟨⟨fun _ => hf, ha⟩, by rintro m left ⟨⟩⟩
  | constant h after => exact ⟨⟨fun _ => hf, ha⟩, by rintro m left ⟨⟩⟩
  | var hallow h after => exact ⟨⟨fun _ => hf, ha⟩, by rintro m left ⟨⟩⟩
  | group bracket h ih =>
    have hc := ih ⟨(by rintro ⟨⟩), ha⟩ (by rintro l ⟨⟩; rfl)
    exact ⟨⟨(by rintro ⟨⟩), hc.1⟩, by rintro m left ⟨⟩⟩
  | call hf' h ih =>
    have hc := ih ⟨(by rintro ⟨⟩), ha⟩ (by rintro l ⟨⟩; rfl)
    exact ⟨⟨(by rintro ⟨⟩), (by rintro ⟨⟩), hc.1⟩, by rintro m left ⟨⟩⟩
  | unsigned h ih => exact ⟨(ih ha hf).1, by rintro m left ⟨⟩⟩
  | plus h ih => exact ⟨⟨(by rintro ⟨⟩), (ih ha hf).1⟩, by rintro m left ⟨⟩⟩
  | minus h ih => exact ⟨⟨(by rintro ⟨⟩), (ih ha hf).1⟩, by rintro m left ⟨⟩⟩
  | level h hrest ih ihrest =>
    have hr := ihrest ha hf
    exact ⟨(ih hr.1 (hr.2 _ _ rfl)).1, by rintro m left ⟨⟩⟩
  | stop h => exact ⟨ha, fun _ _ _ => hf⟩
  | operator hm h hrest ih ihrest =>
    have hr := ihrest ha hf
    refine ⟨⟨(by rintro ⟨⟩), (ih hr.1 (hr.2 _ _ rfl)).1⟩, ?_⟩
    rintro m left _ l ⟨⟩
    rfl

/-! ### Strengths and the operators that wait -/

/-- No operator of strength at least `m` sends out what is on top. -/
def Blocks (m : Nat) (waiting : List Waiting) : Prop :=
  ∀ op, m ≤ strength op → ∀ e ∈ waiting.head?, e.yieldsTo op = false

theorem blocks_bracket (bracket : Bracket) (position : Nat) (waiting : List Waiting) :
    Blocks 0 (.bracket bracket position :: waiting) := by
  rintro op - e ⟨⟩
  rfl

/-- What is strong enough for the right operand does not send out the operator on its left. -/
theorem blocks_binary (op : Binary) (waiting : List Waiting) :
    Blocks (rightLevel op) (.operator (.binary op) :: waiting) := by
  rintro other h e ⟨⟩
  revert h
  cases op <;> cases other <;> decide

theorem blocks_negate (waiting : List Waiting) : Blocks 4 (.operator .negate :: waiting) := by
  rintro other h e ⟨⟩
  revert h
  cases other <;> decide

/-- What is too weak for the right operand sends out the operator on its left. -/
theorem yieldsTo_of_lt_rightLevel {op other : Binary} (h : strength other < rightLevel op) :
    Waiting.yieldsTo other (.operator (.binary op)) = true := by
  revert h
  cases op <;> cases other <;> decide

/-- What is too weak for the operand of a minus sends out the negation. -/
theorem yieldsTo_negate {other : Binary} (h : strength other < 4) :
    Waiting.yieldsTo other (.operator .negate) = true := by
  revert h
  cases other <;> decide

theorem noCall_bracket (bracket : Bracket) (position : Nat) (waiting : List Waiting) :
    NoCall (.bracket bracket position :: waiting) := by
  rintro f ⟨⟩

theorem noCall_binary (op : Binary) (waiting : List Waiting) :
    NoCall (.operator (.binary op) :: waiting) := by
  rintro f ⟨⟩

theorem noCall_negate (waiting : List Waiting) : NoCall (.operator .negate :: waiting) := by
  rintro f ⟨⟩

/-! ### The stack beside the reading -/

/-- The operators `above` wait for the end of the tree `t`, of which `out` was sent out, and all of
    them yield to the sign that comes next, if one does. -/
structure Pending (out : List Token) (above : List Waiting) (t : Tree) (next : List Lexeme) :
    Prop where
  operators : AllOperators above
  postorder : out ++ sent above = t.postorder
  yields : ∀ op, next.head? = some (.sign op) → ∀ e ∈ above, e.yieldsTo op = true

/-- Conversion gets from the state `s` through the lexemes up to `after`, and what it leaves above
    the stack `below` is pending for the tree; `before` was sent out earlier. -/
def Follows (allow : Bool) (s : State) (before : List Token) (below : List Waiting)
    (placed : List Placed) (t : Tree) (after : List Lexeme) : Prop :=
  ∃ used left out above, placed = used ++ left ∧ left.map (·.lexeme) = after
    ∧ Reaches allow s used out ⟨true, above ++ below⟩ ∧ Pending (before ++ out) above t after

/-- The states in which a part of an expression begins, on the stack `below` of the caller. -/
def Part.Begins : Part → List Lexeme → State → List Token → List Waiting → Prop
  | .rest m left, lexemes, s, before, below =>
    Blocks m below ∧ ∃ above, s = ⟨true, above ++ below⟩ ∧ Pending before above left lexemes
  | .level m, _, s, before, below =>
    Blocks m below ∧ NoCall below ∧ s = ⟨false, below⟩ ∧ before = []
  | _, _, s, before, below => NoCall below ∧ s = ⟨false, below⟩ ∧ before = []

theorem pending_nil {out : List Token} {t : Tree} (next : List Lexeme) (h : out = t.postorder) :
    Pending out [] t next where
  operators := List.forall_mem_nil _
  postorder := (List.append_nil out).trans h
  yields _ _ := List.forall_mem_nil _

/-- A stretch in front of what conversion gets through. -/
theorem Follows.prepend {s next : State} {first second : List Placed} {out before : List Token}
    {below : List Waiting} {t : Tree} {after : List Lexeme} (h : Reaches allow s first out next)
    (hf : Follows allow next (before ++ out) below second t after) :
    Follows allow s before below (first ++ second) t after := by
  obtain ⟨used, left, more, above, rfl, hl, hr, hp⟩ := hf
  refine ⟨first ++ used, left, out ++ more, above, (List.append_assoc _ _ _).symm, hl,
    h.append hr, ?_⟩
  rwa [List.append_assoc] at hp

/-- A stretch that sends out a whole tree and leaves the stack of the caller. -/
theorem follows_of_reaches {s : State} {used left : List Placed} {out : List Token}
    {below : List Waiting} {t : Tree} (h : Reaches allow s used out ⟨true, below⟩)
    (ht : out = t.postorder) :
    Follows allow s [] below (used ++ left) t (left.map (·.lexeme)) :=
  ⟨used, left, out, [], rfl, rfl, h, pending_nil _ ht⟩

/-- An expression between brackets goes out as a whole, and then the function in front of it. -/
theorem reaches_group {bracket : Bracket} {position : Nat} {below : List Waiting}
    {placed : List Placed} {t : Tree} {after : List Lexeme}
    (h : Follows allow ⟨false, .bracket bracket position :: below⟩ []
      (.bracket bracket position :: below) placed t (.closing bracket :: after)) :
    ∃ used left, placed = used ++ left ∧ left.map (·.lexeme) = after
      ∧ Reaches allow ⟨false, below⟩ (⟨position, .opening bracket⟩ :: used)
          (t.postorder ++ (calledFunction below).1) ⟨true, (calledFunction below).2⟩ := by
  obtain ⟨used, left, out, above, rfl, hl, hr, hp⟩ := h
  obtain ⟨closedAt, left, rfl, rfl⟩ := placed_of_map_eq_cons hl
  have hopen : step allow ⟨false, below⟩ ⟨position, .opening bracket⟩
      = .ok (⟨false, .bracket bracket position :: below⟩, []) := rfl
  have hclose : step allow ⟨true, above ++ .bracket bracket position :: below⟩
      ⟨closedAt, .closing bracket⟩
      = .ok (⟨true, (calledFunction below).2⟩, sent above ++ (calledFunction below).1) :=
    close_append position closedAt hp.operators
  refine ⟨used ++ [⟨closedAt, .closing bracket⟩], left, List.append_cons _ _ _, rfl, ?_⟩
  have hall := Reaches.cons hopen (hr.append (.single hclose))
  rwa [List.nil_append, ← List.append_assoc, show out ++ sent above = t.postorder from hp.postorder]
    at hall

/-- The sign of an operator between operands: what was pending goes out, and the operator waits. -/
theorem reaches_sign {m : Nat} {op : Binary} {left : Tree} {before : List Token}
    {above below : List Waiting} {after : List Lexeme} (position : Nat) (hm : m ≤ strength op)
    (hb : Blocks m below) (hp : Pending before above left (.sign op :: after)) :
    Reaches allow ⟨true, above ++ below⟩ [⟨position, .sign op⟩] (sent above)
      ⟨false, .operator (.binary op) :: below⟩ := by
  have hs : step allow ⟨true, above ++ below⟩ ⟨position, .sign op⟩
      = .ok (between op (above ++ below)) := rfl
  rw [between_append (hp.yields op rfl) (hb op hm)] at hs
  exact .single hs

/-- What is pending for the right operand, and the operator itself, are pending for the whole. -/
theorem pending_binary {op : Binary} {left right : Tree} {before out : List Token}
    {above : List Waiting} {next : List Lexeme} (hl : before = left.postorder)
    (hp : Pending out above right next)
    (hn : ∀ other, next.head? = some (.sign other) → strength other < rightLevel op) :
    Pending (before ++ out) (above ++ [.operator (.binary op)]) (.binary op left right) next where
  operators := allOperators_append.mpr ⟨hp.operators, allOperators_singleton _⟩
  postorder := by
    rw [sent_append, Tree.postorder, hl, ← hp.postorder]
    simp only [List.append_assoc]
    rfl
  yields other ho e he := by
    rcases List.mem_append.mp he with he | he
    · exact hp.yields other ho e he
    · rw [List.mem_singleton.mp he]
      exact yieldsTo_of_lt_rightLevel (hn other ho)

theorem pending_negate {t : Tree} {out : List Token} {above : List Waiting} {next : List Lexeme}
    (hp : Pending out above t next)
    (hn : ∀ other, next.head? = some (.sign other) → strength other < 4) :
    Pending out (above ++ [.operator .negate]) (.negate t) next where
  operators := allOperators_append.mpr ⟨hp.operators, allOperators_singleton _⟩
  postorder := by
    rw [sent_append, Tree.postorder, ← hp.postorder, List.append_assoc]
    rfl
  yields other ho e he := by
    rcases List.mem_append.mp he with he | he
    · exact hp.yields other ho e he
    · rw [List.mem_singleton.mp he]
      exact yieldsTo_negate (hn other ho)

/-- Conversion gets through whatever is read, and what waits afterwards is pending for the tree. -/
theorem Reads.follows {part : Part} {lexemes after : List Lexeme} {t : Tree}
    (h : Reads allow part lexemes t after) {s : State} {before : List Token}
    {below : List Waiting} {placed : List Placed} (hb : part.Begins lexemes s before below)
    (hp : placed.map (·.lexeme) = lexemes) : Follows allow s before below placed t after := by
  -- by induction on the reading; `below` is the stack that the pending calls have built up
  induction h generalizing s before below placed with
  | number whole fraction after =>
    obtain ⟨-, rfl, rfl⟩ := hb
    obtain ⟨position, left, rfl, rfl⟩ := placed_of_map_eq_cons hp
    exact follows_of_reaches (.single rfl) rfl
  | @constant letters x hx after =>
    obtain ⟨-, rfl, rfl⟩ := hb
    obtain ⟨position, left, rfl, rfl⟩ := placed_of_map_eq_cons hp
    refine follows_of_reaches (.single ?_) rfl
    simp only [step, identifier, hx]
    rfl
  | @var letters hallow hx after =>
    obtain ⟨-, rfl, rfl⟩ := hb
    obtain ⟨position, left, rfl, rfl⟩ := placed_of_map_eq_cons hp
    refine follows_of_reaches (.single ?_) rfl
    simp only [step, identifier, hx, hallow]
    rfl
  | @group bracket inner after t _ ih =>
    obtain ⟨hcall, rfl, rfl⟩ := hb
    obtain ⟨position, rest, rfl, hrest⟩ := placed_of_map_eq_cons hp
    have hin := ih ⟨blocks_bracket bracket position below, noCall_bracket _ _ _, rfl, rfl⟩ hrest
    obtain ⟨used, left, rfl, rfl, hr⟩ := reaches_group hin
    rw [calledFunction_of_noCall hcall, List.append_nil] at hr
    exact follows_of_reaches hr rfl
  | @call letters f inner after t hf _ ih =>
    obtain ⟨-, rfl, rfl⟩ := hb
    obtain ⟨calledAt, rest, rfl, hrest⟩ := placed_of_map_eq_cons hp
    obtain ⟨position, rest', rfl, hrest'⟩ := placed_of_map_eq_cons hrest
    have hin := ih ⟨blocks_bracket .round position (.operator (.function f) :: below),
      noCall_bracket _ _ _, rfl, rfl⟩ hrest'
    obtain ⟨used, left, rfl, rfl, hr⟩ := reaches_group hin
    have hs : step allow ⟨false, below⟩ ⟨calledAt, .call letters⟩
        = .ok (⟨false, .operator (.function f) :: below⟩, []) := by
      rw [step]
      simp only [hf]
    exact follows_of_reaches (.cons hs hr) rfl
  | unsigned _ ih => exact ih hb hp
  | plus _ ih =>
    obtain ⟨hcall, rfl, rfl⟩ := hb
    obtain ⟨position, rest, rfl, hrest⟩ := placed_of_map_eq_cons hp
    have hs : step allow ⟨false, below⟩ ⟨position, .sign .add⟩ = .ok (⟨false, below⟩, []) := rfl
    exact .prepend (.single hs) (ih ⟨hcall, rfl, rfl⟩ hrest)
  | minus h ih =>
    obtain ⟨-, rfl, rfl⟩ := hb
    obtain ⟨position, rest, rfl, hrest⟩ := placed_of_map_eq_cons hp
    have hs : step allow ⟨false, below⟩ ⟨position, .sign .sub⟩
        = .ok (⟨false, .operator .negate :: below⟩, []) := rfl
    obtain ⟨used, left, out, above, rfl, rfl, hr, hpend⟩ :=
      ih ⟨blocks_negate below, noCall_negate below, rfl, rfl⟩ hrest
    refine .prepend (.single hs) ⟨used, left, out, above ++ [.operator .negate], rfl, rfl, ?_, ?_⟩
    · rwa [List.append_assoc]
    · exact pending_negate hpend fun other ho => h.strength_lt 4 other (.inl rfl) ho
  | level _ _ ih ihrest =>
    obtain ⟨hblocks, hcall, rfl, rfl⟩ := hb
    obtain ⟨used, left, out, above, rfl, hleft, hr, hpend⟩ := ih ⟨hcall, rfl, rfl⟩ hp
    exact .prepend hr (ihrest ⟨hblocks, above, rfl, hpend⟩ hleft)
  | stop _ =>
    obtain ⟨-, above, rfl, hpend⟩ := hb
    refine ⟨[], placed, [], above, rfl, hp, .nil _, ?_⟩
    rwa [List.append_nil]
  | @operator m op left right t lexemes middle after hm h _ ih ihrest =>
    obtain ⟨hblocks, above, rfl, hpend⟩ := hb
    obtain ⟨position, rest, rfl, hrest⟩ := placed_of_map_eq_cons hp
    have hsign : Reaches allow _ _ _ _ := reaches_sign position hm hblocks hpend
    obtain ⟨used, left', out, above', rfl, hleft, hr, hpend'⟩ :=
      ih ⟨blocks_binary op below, noCall_binary op below, rfl, rfl⟩ hrest
    have hwhole := pending_binary hpend.postorder hpend'
      fun other ho => h.strength_lt _ other (.inl rfl) ho
    refine .prepend hsign (.prepend hr (ihrest ⟨hblocks, _, ?_, hwhole⟩ hleft))
    rw [List.append_assoc]
    rfl

/-- Lexemes that are read as a tree are converted to the postfix sequence of the tree. -/
theorem run_of_reads {placed : List Placed} {t : Tree}
    (h : Reads allow (.level 0) (placed.map (·.lexeme)) t []) :
    run allow .start placed = .ok t.postorder := by
  have hbegin : (Part.level 0).Begins (placed.map (·.lexeme)) .start [] [] :=
    ⟨fun _ _ _ => by rintro ⟨⟩, by rintro f ⟨⟩, rfl, rfl⟩
  obtain ⟨used, left, out, above, rfl, hleft, hreach, hp⟩ := h.follows hbegin rfl
  have hrun : run allow .start (used ++ left) = _ := run_append_of_reaches hreach
  rw [List.map_eq_nil_iff.mp hleft, List.append_nil, run, List.append_nil,
    finish_of_allOperators hp.operators] at hrun
  rw [List.map_eq_nil_iff.mp hleft, List.append_nil, hrun, ← hp.postorder]
  rfl

/-- A text that is read as a tree is converted to the postfix sequence of the tree. -/
theorem convert_of_reading {text : String} {t : Tree} (h : Reading allow text t) :
    convert allow text = .ok t.postorder := by
  obtain ⟨lexemes, hw, hr⟩ := h
  have hcut := lexemes_of_written hw (hr.apart trivial (by rintro l ⟨⟩)).1
  rw [← hcut] at hr
  exact run_of_reads hr

end Reckon.Infix
