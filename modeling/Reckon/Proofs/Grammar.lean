import Reckon.Proofs.Reach

/-! # The infix grammar

    An operand is a number, a name, an expression in matching brackets or a called function with
    its expression, and an operand behind a plus or a minus; an expression is operands with binary
    operators between them. Conversion does not follow this grammar: it only keeps track of
    whether an operand was read last. Two faults pass it unseen, each at one place of the text:

    * a *join*: an operand begins where an operand was read last,
    * a *gap*: a bracket closes, or the text ends, where no operand was read last.

    Lexemes are an infix expression exactly if conversion accepts them and there is neither fault
    (`forms_iff`). One direction follows the grammar; for the other, `Fits` cuts what was read at
    the brackets that are still open, each piece waiting for one more operand.

        5 3 *        join before `3`, gap at the end
        ( ) 1        gap before `)`, join before `1` -/

namespace Reckon

namespace Infix

/-- The two kinds of phrases. -/
inductive Phrase where
  | operand
  | expression

/-- Lexemes that form a phrase of infix notation. -/
inductive Forms : Phrase → List Lexeme → Prop
  | number (whole : List Char) (fraction : Option (List Char)) :
      Forms .operand [.number whole fraction]
  | name (letters : List Char) : Forms .operand [.name letters]
  | group (bracket : Bracket) {inner : List Lexeme} (h : Forms .expression inner) :
      Forms .operand (.opening bracket :: (inner ++ [.closing bracket]))
  | call {letters : List Char} {f : Function} {inner : List Lexeme}
      (hf : Function.ofName? letters = some f) (h : Forms .expression inner) :
      Forms .operand (.call letters :: .opening .round :: (inner ++ [.closing .round]))
  | signed {op : Binary} {operand : List Lexeme} (hop : op = .add ∨ op = .sub)
      (h : Forms .operand operand) : Forms .operand (.sign op :: operand)
  | single {operand : List Lexeme} (h : Forms .operand operand) : Forms .expression operand
  | binary (op : Binary) {left right : List Lexeme} (hl : Forms .expression left)
      (hr : Forms .operand right) : Forms .expression (left ++ .sign op :: right)

/-- A text that is written as one whole infix expression. -/
def IsExpression (text : String) : Prop :=
  ∃ lexemes, Written lexemes text.toList ∧ Forms .expression lexemes

/-- How many operands begin where an operand was read last. -/
def joins (operandRead : Bool) : List Lexeme → Nat
  | [] => 0
  | l :: rest => (if operandRead && l.beginsOperand then 1 else 0) + joins l.endsOperand rest

/-- How many brackets close, and whether the text ends, where no operand was read last. -/
def gaps (operandRead : Bool) : List Lexeme → Nat
  | [] => if operandRead then 0 else 1
  | l :: rest => (if !operandRead && l.isClosing then 1 else 0) + gaps l.endsOperand rest

variable {allow : Bool}

/-! ### Phrases have no faults -/

/-- A count of faults passes over a phrase if it finds none where an operand is expected, except at
    closing brackets, and none at what may come after an operand. -/
theorem Forms.count_append {fault : Bool → Lexeme → Nat} {count : Bool → List Lexeme → Nat}
    (hcount : ∀ r l rest, count r (l :: rest) = fault r l + count l.endsOperand rest)
    (hexpected : ∀ l, l.isClosing = false → fault false l = 0)
    (hread : ∀ l, l.followsOperand = true → fault true l = 0)
    {p : Phrase} {lexemes : List Lexeme} (h : Forms p lexemes) (rest : List Lexeme) :
    count false (lexemes ++ rest) = count true rest := by
  have hbegin : ∀ {l : Lexeme} (rest), l.isClosing = false →
      count false (l :: rest) = count l.endsOperand rest := by
    intro l rest hl
    rw [hcount, hexpected l hl, Nat.zero_add]
  have hafter : ∀ {l : Lexeme} (rest), l.followsOperand = true →
      count true (l :: rest) = count l.endsOperand rest := by
    intro l rest hl
    rw [hcount, hread l hl, Nat.zero_add]
  induction h generalizing rest with
  | number | name => exact hbegin rest rfl
  | group bracket h ih =>
    rw [List.cons_append, List.append_assoc, hbegin _ rfl]
    exact (ih _).trans (hafter rest rfl)
  | call hf h ih =>
    rw [List.cons_append, List.cons_append, List.append_assoc, hbegin _ rfl]
    exact (hbegin _ rfl).trans ((ih _).trans (hafter rest rfl))
  | signed hop h ih => exact (hbegin _ rfl).trans (ih rest)
  | single h ih => exact ih rest
  | binary op hl hr ihl ihr =>
    rw [List.append_assoc, ihl]
    exact (hafter _ rfl).trans (ihr rest)

theorem Forms.joins_append {p : Phrase} {lexemes : List Lexeme} (h : Forms p lexemes)
    (rest : List Lexeme) : joins false (lexemes ++ rest) = joins true rest := by
  refine h.count_append (fun _ _ _ => rfl) (fun _ _ => rfl) ?_ rest
  intro l hl
  cases l with
  | sign | closing => rfl
  | _ => cases hl

theorem Forms.gaps_append {p : Phrase} {lexemes : List Lexeme} (h : Forms p lexemes)
    (rest : List Lexeme) : gaps false (lexemes ++ rest) = gaps true rest := by
  refine h.count_append (fun _ _ _ => rfl) ?_ (fun _ _ => rfl) rest
  intro l hl
  exact if_neg (Bool.eq_false_iff.mp hl)

/-- Phrases stay apart without blanks. -/
theorem Forms.apart_append {p : Phrase} {lexemes : List Lexeme} (h : Forms p lexemes)
    {rest : List Lexeme} (ha : Apart rest) (hf : ∀ l ∈ rest.head?, l.followsOperand = true) :
    Apart (lexemes ++ rest) := by
  induction h generalizing rest with
  | number | name => exact ⟨fun _ => hf, ha⟩
  | group bracket h ih =>
    rw [List.cons_append, List.append_assoc]
    exact ⟨(by rintro ⟨⟩), ih ⟨(by rintro ⟨⟩), ha⟩ (by rintro l ⟨⟩; rfl)⟩
  | call hf' h ih =>
    rw [List.cons_append, List.cons_append, List.append_assoc]
    exact ⟨(by rintro ⟨⟩), (by rintro ⟨⟩), ih ⟨(by rintro ⟨⟩), ha⟩ (by rintro l ⟨⟩; rfl)⟩
  | signed hop h ih => exact ⟨(by rintro ⟨⟩), ih ha hf⟩
  | single h ih => exact ih ha hf
  | binary op hl hr ihl ihr =>
    rw [List.append_assoc]
    exact ihl ⟨(by rintro ⟨⟩), ihr ha hf⟩ (by rintro l ⟨⟩; rfl)

/-! ### Phrases are accepted -/

/-- A waiting operator that gives way to weaker ones: all but the functions. -/
def IsPlain : Waiting → Prop
  | .operator (.function _) => False
  | .operator _ => True
  | .bracket _ _ => False

/-- A stack without plain operators on top, nor a function. -/
def Rests (waiting : List Waiting) : Prop :=
  ∀ e ∈ waiting.head?, ∃ bracket position, e = .bracket bracket position

theorem rests_bracket (bracket : Bracket) (position : Nat) (below : List Waiting) :
    Rests (.bracket bracket position :: below) := by
  rintro e ⟨⟩
  exact ⟨bracket, position, rfl⟩

theorem yieldsTo_eq_false_of_rests {waiting : List Waiting} (h : Rests waiting) (op : Binary) :
    ∀ e ∈ waiting.head?, e.yieldsTo op = false := by
  intro e he
  obtain ⟨bracket, position, rfl⟩ := h e he
  rfl

theorem allOperators_of_isPlain {ops : List Waiting} (h : ∀ e ∈ ops, IsPlain e) :
    AllOperators ops := by
  intro e he
  have hp := h e he
  cases e with
  | operator op => rfl
  | bracket bracket position => cases hp

theorem noCall_append {ops sk : List Waiting} (h : ∀ e ∈ ops, IsPlain e) (hs : Rests sk) :
    NoCall (ops ++ sk) := by
  intro f hf
  cases ops with
  | nil =>
    obtain ⟨bracket, position, he⟩ := hs _ hf
    cases he
  | cons e ops =>
    cases hf
    exact h _ List.mem_cons_self

/-- What is left of plain operators after some of them went out to make room for another. -/
theorem dropWhile_yieldsTo_append (op : Binary) {ops sk : List Waiting} (hs : Rests sk) :
    (ops ++ sk).dropWhile (Waiting.yieldsTo op) = ops.dropWhile (Waiting.yieldsTo op) ++ sk := by
  induction ops with
  | nil =>
    exact dropWhile_append_of_stop (List.forall_mem_nil _) (yieldsTo_eq_false_of_rests hs op)
  | cons e ops ih =>
    rw [List.cons_append, List.dropWhile_cons, List.dropWhile_cons]
    split
    · exact ih
    · rfl

theorem isPlain_between (op : Binary) {ops : List Waiting} (h : ∀ e ∈ ops, IsPlain e) :
    ∀ e ∈ .operator (.binary op) :: ops.dropWhile (Waiting.yieldsTo op), IsPlain e :=
  List.forall_mem_cons.mpr
    ⟨trivial, fun e he => h e ((List.dropWhile_sublist _).subset he)⟩

theorem identifier_true (letters : List Char) (position : Nat) :
    ∃ t, identifier true letters position = .ok t := by
  unfold identifier
  split
  · exact ⟨_, rfl⟩
  · exact ⟨_, rfl⟩

/-- Conversion gets through every phrase; it leaves plain operators above the stack `sk`. -/
theorem Forms.reaches {p : Phrase} {lexemes : List Lexeme} (h : Forms p lexemes)
    (ops : List Waiting) {sk : List Waiting} (ho : ∀ e ∈ ops, IsPlain e) (hs : Rests sk)
    {placed : List Placed} (hp : placed.map (·.lexeme) = lexemes) :
    ∃ out ops', (∀ e ∈ ops', IsPlain e)
      ∧ Reaches true ⟨false, ops ++ sk⟩ placed out ⟨true, ops' ++ sk⟩ := by
  induction h generalizing ops sk placed with
  | number whole fraction =>
    obtain ⟨position, rest, rfl, hrest⟩ := placed_of_map_eq_cons hp
    rw [List.map_eq_nil_iff.mp hrest]
    exact ⟨_, ops, ho, .single rfl⟩
  | name letters =>
    obtain ⟨position, rest, rfl, hrest⟩ := placed_of_map_eq_cons hp
    obtain ⟨t, ht⟩ := identifier_true letters position
    rw [List.map_eq_nil_iff.mp hrest]
    exact ⟨[t], ops, ho, .single (step_of_moves (.name _ ht))⟩
  | @group bracket inner _ ih =>
    obtain ⟨position, rest, rfl, hrest⟩ := placed_of_map_eq_cons hp
    obtain ⟨mid, last, rfl, hmid, hlast⟩ := List.map_eq_append_iff.mp hrest
    obtain ⟨closedAt, nothing, rfl, hnothing⟩ := placed_of_map_eq_cons hlast
    rw [List.map_eq_nil_iff.mp hnothing]
    obtain ⟨out, ops', ho', hr⟩ :=
      ih [] (List.forall_mem_nil _) (rests_bracket bracket position (ops ++ sk)) hmid
    have hclose : Moves true ⟨true, ops' ++ .bracket bracket position :: (ops ++ sk)⟩
        ⟨closedAt, .closing bracket⟩ _ _ :=
      .closing closedAt position bracket rfl (allOperators_of_isPlain ho')
    rw [calledFunction_of_noCall (noCall_append ho hs)] at hclose
    exact ⟨_, ops, ho, .cons (step_of_moves (.opening _ position bracket))
      (hr.append (.single (step_of_moves hclose)))⟩
  | @call letters f inner hf _ ih =>
    obtain ⟨calledAt, rest, rfl, hrest⟩ := placed_of_map_eq_cons hp
    obtain ⟨position, rest', rfl, hrest'⟩ := placed_of_map_eq_cons hrest
    obtain ⟨mid, last, rfl, hmid, hlast⟩ := List.map_eq_append_iff.mp hrest'
    obtain ⟨closedAt, nothing, rfl, hnothing⟩ := placed_of_map_eq_cons hlast
    rw [List.map_eq_nil_iff.mp hnothing]
    obtain ⟨out, ops', ho', hr⟩ := ih [] (List.forall_mem_nil _)
      (rests_bracket .round position (.operator (.function f) :: (ops ++ sk))) hmid
    have hclose : Moves true
        ⟨true, ops' ++ .bracket .round position :: .operator (.function f) :: (ops ++ sk)⟩
        ⟨closedAt, .closing .round⟩ _ _ :=
      .closing closedAt position .round rfl (allOperators_of_isPlain ho')
    exact ⟨_, ops, ho, .cons (step_of_moves (.call _ calledAt hf))
      (.cons (step_of_moves (.opening _ position .round))
        (hr.append (.single (step_of_moves hclose))))⟩
  | @signed op operand hop _ ih =>
    obtain ⟨position, rest, rfl, hrest⟩ := placed_of_map_eq_cons hp
    rcases hop with rfl | rfl
    · obtain ⟨out, ops', ho', hr⟩ := ih ops ho hs hrest
      exact ⟨_, ops', ho', .cons (step_of_moves (.plus position rfl)) hr⟩
    · have hneg : ∀ e ∈ .operator .negate :: ops, IsPlain e :=
        List.forall_mem_cons.mpr ⟨trivial, ho⟩
      obtain ⟨out, ops', ho', hr⟩ := ih _ hneg hs hrest
      exact ⟨_, ops', ho', .cons (step_of_moves (.minus position rfl)) hr⟩
  | single _ ih => exact ih ops ho hs hp
  | @binary op left right _ _ ihl ihr =>
    obtain ⟨first, rest, rfl, hfirst, hrest⟩ := List.map_eq_append_iff.mp hp
    obtain ⟨position, second, rfl, hsecond⟩ := placed_of_map_eq_cons hrest
    obtain ⟨out, ops', ho', hr⟩ := ihl ops ho hs hfirst
    have hbetween : Moves true ⟨true, ops' ++ sk⟩ ⟨position, .sign op⟩ _ _ :=
      moves_between op position (ops' ++ sk)
    rw [between, dropWhile_yieldsTo_append op hs] at hbetween
    obtain ⟨out', ops'', ho'', hr'⟩ := ihr _ (isPlain_between op ho') hs hsecond
    exact ⟨_, ops'', ho'', hr.append (.cons (step_of_moves hbetween) hr')⟩

/-! ### What is accepted without faults is a phrase -/

/-- Lexemes after which an operand makes up an expression. -/
def Awaits (lexemes : List Lexeme) : Prop :=
  ∀ operand, Forms .operand operand → Forms .expression (lexemes ++ operand)

theorem awaits_nil : Awaits [] := fun _ h => .single h

theorem awaits_binary (op : Binary) {lexemes : List Lexeme} (h : Forms .expression lexemes) :
    Awaits (lexemes ++ [.sign op]) := by
  intro operand ho
  rw [List.append_assoc]
  exact .binary op h ho

theorem awaits_signed {op : Binary} {lexemes : List Lexeme} (hop : op = .add ∨ op = .sub)
    (h : Awaits lexemes) : Awaits (lexemes ++ [.sign op]) := by
  intro operand ho
  rw [List.append_assoc]
  exact h _ (.signed hop ho)

/-- The stack from the last open bracket down, and the lexemes up to that bracket: in front of every
    open bracket stands a piece that waits for an operand. -/
inductive Opened : List Waiting → List Lexeme → Prop
  | start : Opened [] []
  | group (bracket : Bracket) (position : Nat) {ops sk : List Waiting}
      {before inner : List Lexeme} (h : Opened sk before) (ho : ∀ e ∈ ops, IsPlain e)
      (ha : Awaits inner) :
      Opened (.bracket bracket position :: (ops ++ sk)) (before ++ (inner ++ [.opening bracket]))
  | call {letters : List Char} {f : Function} (position : Nat) {ops sk : List Waiting}
      {before inner : List Lexeme} (h : Opened sk before) (ho : ∀ e ∈ ops, IsPlain e)
      (ha : Awaits inner) (hf : Function.ofName? letters = some f) :
      Opened (.bracket .round position :: .operator (.function f) :: (ops ++ sk))
        (before ++ (inner ++ [.call letters, .opening .round]))

/-- A state and the lexemes that led to it without faults. -/
inductive Fits : State → List Lexeme → Prop
  | awaits (ops : List Waiting) {sk : List Waiting} {before inner : List Lexeme}
      (h : Opened sk before) (ho : ∀ e ∈ ops, IsPlain e) (ha : Awaits inner) :
      Fits ⟨false, ops ++ sk⟩ (before ++ inner)
  | complete {ops sk : List Waiting} {before inner : List Lexeme} (h : Opened sk before)
      (ho : ∀ e ∈ ops, IsPlain e) (hi : Forms .expression inner) :
      Fits ⟨true, ops ++ sk⟩ (before ++ inner)
  | called {letters : List Char} {f : Function} {ops sk : List Waiting}
      {before inner : List Lexeme} (h : Opened sk before) (ho : ∀ e ∈ ops, IsPlain e)
      (ha : Awaits inner) (hf : Function.ofName? letters = some f) :
      Fits ⟨false, .operator (.function f) :: (ops ++ sk)⟩ (before ++ (inner ++ [.call letters]))

theorem Opened.rests {sk : List Waiting} {before : List Lexeme} (h : Opened sk before) :
    Rests sk := by
  cases h with
  | start => rintro e ⟨⟩
  | group | call => exact rests_bracket _ _ _

/-- Operators above a bracket are told apart from what lies below them. -/
theorem append_inj_of_rests {ops sk above below : List Waiting} (h : ops ++ sk = above ++ below)
    (ho : AllOperators ops) (ha : AllOperators above) (hs : Rests sk) (hb : Rests below) :
    ops = above ∧ sk = below := by
  have hstop : ∀ waiting, Rests waiting → ∀ e ∈ waiting.head?, e.operator?.isSome = false := by
    intro waiting hw e he
    obtain ⟨bracket, position, rfl⟩ := hw e he
    rfl
  have htake := congrArg (List.takeWhile fun e => e.operator?.isSome) h
  rw [takeWhile_append_of_stop ho (hstop sk hs), takeWhile_append_of_stop ha (hstop below hb)]
    at htake
  subst htake
  exact ⟨rfl, List.append_cancel_left h⟩

/-- A closing bracket where an expression was read completes an operand of the level below. -/
theorem Fits.close {bracket : Bracket} {position : Nat} {below : List Waiting}
    {before inner : List Lexeme} (h : Opened (.bracket bracket position :: below) before)
    (hi : Forms .expression inner) :
    Fits ⟨true, (calledFunction below).2⟩ (before ++ inner ++ [.closing bracket]) := by
  cases h with
  | @group _ _ ops sk before piece h ho ha =>
    rw [calledFunction_of_noCall (noCall_append ho h.rests)]
    have hf := Fits.complete h ho (ha _ (.group bracket hi))
    simpa only [List.append_assoc, List.cons_append, List.nil_append] using hf
  | @call letters f _ ops sk before piece h ho ha hf =>
    have hf := Fits.complete h ho (ha _ (.call hf hi))
    simpa only [calledFunction, List.append_assoc, List.cons_append, List.nil_append] using hf

/-- A lexeme without fault keeps the state fitting. -/
theorem Fits.moves {s next : State} {placed : Placed} {out : List Token} {before : List Lexeme}
    (hf : Fits s before) (hm : Moves allow s placed next out)
    (hjoin : s.operandRead = true → placed.lexeme.beginsOperand = false)
    (hgap : s.operandRead = false → placed.lexeme.isClosing = false)
    (hcall : ∀ letters, before.getLast? = some (.call letters) →
      placed.lexeme = .opening .round) : Fits next (before ++ [placed.lexeme]) := by
  cases hf with
  | @awaits ops sk before inner h ho ha =>
    rw [List.append_assoc]
    cases hm with
    | number => exact .complete h ho (ha _ (.number _ _))
    | name => exact .complete h ho (ha _ (.name _))
    | call _ hf => exact .called h ho ha hf
    | between _ hread => cases hread
    | minus =>
      exact .awaits (.operator .negate :: ops) h
        (List.forall_mem_cons.mpr ⟨trivial, ho⟩) (awaits_signed (.inr rfl) ha)
    | plus => exact .awaits ops h ho (awaits_signed (.inl rfl) ha)
    | opening position bracket =>
      have hn := Fits.awaits [] (.group bracket position h ho ha) (List.forall_mem_nil _)
        awaits_nil
      rwa [List.append_nil] at hn
    | closing => cases hgap rfl
  | @complete ops sk before inner h ho hi =>
    cases hm with
    | number | name | call | opening => cases hjoin rfl
    | minus _ hread | plus _ hread => cases hread
    | @between position op above below _ hw ha hb =>
      have hbelow : below = ops.dropWhile (Waiting.yieldsTo op) ++ sk := by
        rw [← dropWhile_yieldsTo_append op h.rests, show ops ++ sk = above ++ below from hw,
          dropWhile_append_of_stop ha hb]
      rw [hbelow, List.append_assoc]
      exact .awaits (.operator (.binary op) :: _) h (isPlain_between op ho)
        (awaits_binary op hi)
    | closing position opened bracket hw ha =>
      obtain ⟨-, rfl⟩ := append_inj_of_rests hw (allOperators_of_isPlain ho) ha h.rests
        (rests_bracket bracket opened _)
      exact .close h hi
  | @called letters f ops sk before inner h ho ha hf =>
    have hopen : placed.lexeme = .opening .round := hcall letters (by simp)
    cases hm with
    | opening position bracket =>
      cases hopen
      have hn := Fits.awaits [] (.call position h ho ha hf) (List.forall_mem_nil _)
        awaits_nil
      simpa only [List.append_assoc, List.cons_append, List.nil_append, List.append_nil] using hn
    | _ => cases hopen

/-- Lexemes that conversion gets through without faults, after others that it got through. -/
theorem Fits.forms_of_reaches {s final : State} {placed : List Placed} {out last : List Token}
    {before : List Lexeme} (hr : Reaches allow s placed out final) (hf : Fits s before)
    (hjoins : joins s.operandRead (placed.map (·.lexeme)) = 0)
    (hgaps : gaps s.operandRead (placed.map (·.lexeme)) = 0)
    (hopen : CallsOpen (placed.map (·.lexeme)))
    (hcall : ∀ letters, before.getLast? = some (.call letters) →
      (placed.map (·.lexeme)).head? = some (.opening .round))
    (hfinish : finish final.waiting = .ok last) :
    Forms .expression (before ++ placed.map (·.lexeme)) := by
  induction hr generalizing before with
  | nil s =>
    rw [List.map_nil, List.append_nil]
    cases hf with
    | awaits => cases hgaps
    | called => cases hgaps
    | @complete ops sk before inner h ho hi =>
      have hall := allOperators_append.mp (allOperators_of_finish hfinish)
      cases h with
      | start => exact hi
      | group | call => cases hall.2 _ List.mem_cons_self
  | @cons s next final placed rest out more hs hr ih =>
    have hm := step_eq_ok_iff.mp hs
    simp only [List.map_cons, joins, gaps, ← hm.operandRead_eq, Nat.add_eq_zero_iff] at hjoins hgaps
    have hfits : Fits next (before ++ [placed.lexeme]) := by
      refine hf.moves hm ?_ ?_ ?_
      · intro hread
        simpa [hread] using hjoins.1
      · intro hread
        simpa [hread] using hgaps.1
      · intro letters hl
        exact Option.some.inj (hcall letters hl)
    rw [List.map_cons, List.append_cons]
    refine ih hfits hjoins.2 hgaps.2 hopen.2 ?_ hfinish
    intro letters hl
    exact hopen.1 letters (by simpa using hl)

/-- Lexemes are one infix expression exactly if conversion accepts them, no operand begins after
    another one, and none is missing. -/
theorem forms_iff {placed : List Placed} (hopen : CallsOpen (placed.map (·.lexeme))) :
    Forms .expression (placed.map (·.lexeme))
      ↔ (∃ tokens, run true .start placed = .ok tokens)
        ∧ joins false (placed.map (·.lexeme)) = 0 ∧ gaps false (placed.map (·.lexeme)) = 0 := by
  constructor
  · intro h
    have hrests : Rests [] := by rintro e ⟨⟩
    obtain ⟨out, ops, ho, hr⟩ := h.reaches [] (List.forall_mem_nil _) hrests rfl
    have hrun : run true .start (placed ++ []) = _ := run_append_of_reaches hr
    simp only [List.append_nil, run,
      finish_of_allOperators (allOperators_of_isPlain ho)] at hrun
    have hj := h.joins_append []
    have hg := h.gaps_append []
    rw [List.append_nil] at hj hg
    exact ⟨⟨_, hrun⟩, hj, hg⟩
  · rintro ⟨⟨tokens, hrun⟩, hj, hg⟩
    obtain ⟨out, final, last, hr, hfinish, -⟩ := reaches_of_run hrun
    exact Fits.forms_of_reaches hr (Fits.awaits [] .start (List.forall_mem_nil _) awaits_nil)
      hj hg hopen (by rintro letters ⟨⟩) hfinish

end Infix

end Reckon
