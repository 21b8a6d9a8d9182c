import Reckon.Infix.Conversion
import Reckon.Proofs.Lexemes

/-! # Stretches of a reading

    `Moves` lists what one lexeme can do to a state, one case for each way, with the entries
    `above` that go out and the stack `below` that stays; `step_eq_ok_iff` says that the list is
    complete. `Reaches allow s placed out s'` says that the lexemes of a stretch, read one after
    another from the state `s`, send out the tokens `out` and lead to the state `s'`. A whole
    reading is a stretch from the start and then what still waits, so what holds of every move
    holds of every reading. -/

namespace Reckon.Infix

/-- The lexemes lead from one state to another and send out the given tokens. -/
inductive Reaches (allow : Bool) : State → List Placed → List Token → State → Prop
  | nil (s : State) : Reaches allow s [] [] s
  | cons {s next final : State} {placed : Placed} {rest : List Placed} {out more : List Token}
      (hs : step allow s placed = .ok (next, out)) (hr : Reaches allow next rest more final) :
      Reaches allow s (placed :: rest) (out ++ more) final

/-- Every entry is an operator, and none a bracket. -/
def AllOperators (entries : List Waiting) : Prop :=
  ∀ e ∈ entries, e.operator?.isSome = true

/-- No function on top. -/
def NoCall (waiting : List Waiting) : Prop :=
  ∀ f, waiting.head? ≠ some (.operator (.function f))

variable {allow : Bool}

/-- Placed lexemes, the first of which is known. -/
theorem placed_of_map_eq_cons {placed : List Placed} {l : Lexeme} {lexemes : List Lexeme}
    (h : placed.map (·.lexeme) = l :: lexemes) :
    ∃ position rest, placed = ⟨position, l⟩ :: rest ∧ rest.map (·.lexeme) = lexemes := by
  obtain ⟨⟨position, _⟩, rest, rfl, rfl, hrest⟩ := List.map_eq_cons_iff.mp h
  exact ⟨position, rest, rfl, hrest⟩

/-! ### One stretch after another -/

theorem Reaches.single {s next : State} {placed : Placed} {out : List Token}
    (h : step allow s placed = .ok (next, out)) : Reaches allow s [placed] out next := by
  have hr := Reaches.cons h (.nil next)
  rwa [List.append_nil] at hr

theorem Reaches.append {s next final : State} {first second : List Placed}
    {out more : List Token} (h : Reaches allow s first out next)
    (h' : Reaches allow next second more final) :
    Reaches allow s (first ++ second) (out ++ more) final := by
  induction h with
  | nil s => exact h'
  | cons hs _ ih =>
    rw [List.append_assoc]
    exact .cons hs (ih h')

/-- A reading that begins with a stretch goes on from where the stretch leads. -/
theorem run_append_of_reaches {s next : State} {first second : List Placed} {out : List Token}
    (h : Reaches allow s first out next) :
    run allow s (first ++ second) = (run allow next second).map (out ++ ·) := by
  induction h with
  | nil s => cases h : run allow s second <;> simp [h, Except.map]
  | cons hs _ ih =>
    simp only [List.cons_append, run, hs]
    rw [ih]
    cases run allow _ second <;> simp [Except.map]

/-- What comes after a stretch may be replaced by what is read alike from where the stretch
    leads. -/
theorem run_append_congr {s : State} {first second second' : List Placed}
    (h : ∀ out next, Reaches allow s first out next →
      run allow next second = run allow next second') :
    run allow s (first ++ second) = run allow s (first ++ second') := by
  induction first generalizing s with
  | nil => exact h [] s (.nil s)
  | cons p rest ih =>
    rw [List.cons_append, List.cons_append, run, run]
    cases hs : step allow s p with
    | error r => rfl
    | ok result =>
      obtain ⟨next, out⟩ := result
      simp only
      rw [ih fun more final hr => h _ final (.cons hs hr)]

/-- A reading that succeeds is a stretch, and then what still waits goes out. -/
theorem reaches_of_run {s : State} {placed : List Placed} {tokens : List Token}
    (h : run allow s placed = .ok tokens) :
    ∃ out final last, Reaches allow s placed out final ∧ finish final.waiting = .ok last
      ∧ tokens = out ++ last := by
  induction placed generalizing s tokens with
  | nil => exact ⟨[], s, tokens, .nil s, h, rfl⟩
  | cons p rest ih =>
    rw [run] at h
    cases hs : step allow s p with
    | error r => simp only [hs] at h; cases h
    | ok result =>
      obtain ⟨next, out⟩ := result
      simp only [hs] at h
      cases hr : run allow next rest with
      | error r => rw [hr] at h; cases h
      | ok more =>
        rw [hr] at h
        cases h
        obtain ⟨out', final, last, hreach, hfinish, rfl⟩ := ih hr
        exact ⟨out ++ out', final, last, .cons hs hreach, hfinish, (List.append_assoc _ _ _).symm⟩

/-! ### What goes out -/

theorem sent_append (above below : List Waiting) :
    sent (above ++ below) = sent above ++ sent below :=
  List.filterMap_append

theorem allOperators_append {above below : List Waiting} :
    AllOperators (above ++ below) ↔ AllOperators above ∧ AllOperators below :=
  List.forall_mem_append

theorem allOperators_singleton (op : Operator) : AllOperators [.operator op] := by
  intro e he
  rw [List.mem_singleton.mp he]
  rfl

/-- A sign between operands takes the place of the entries on top that yield to it. -/
theorem between_append {op : Binary} {above below : List Waiting}
    (ha : ∀ e ∈ above, e.yieldsTo op = true) (hb : ∀ e ∈ below.head?, e.yieldsTo op = false) :
    between op (above ++ below) = (⟨false, .operator (.binary op) :: below⟩, sent above) := by
  rw [between, takeWhile_append_of_stop ha hb, dropWhile_append_of_stop ha hb]

/-- A closing bracket sends out what waits above its opening bracket, and a function below it. -/
theorem close_append {bracket : Bracket} {above below : List Waiting} (opened position : Nat)
    (ha : AllOperators above) :
    close bracket position (above ++ .bracket bracket opened :: below)
      = .ok (⟨true, (calledFunction below).2⟩, sent above ++ (calledFunction below).1) := by
  have hs : ∀ e ∈ (Waiting.bracket bracket opened :: below).head?, e.operator?.isSome = false := by
    rintro e ⟨⟩
    rfl
  rw [close]
  simp only [takeWhile_append_of_stop ha hs, dropWhile_append_of_stop ha hs, if_true]

theorem calledFunction_of_noCall {waiting : List Waiting} (h : NoCall waiting) :
    calledFunction waiting = ([], waiting) := by
  unfold calledFunction
  split
  · next f below => exact absurd rfl (h f)
  · rfl

/-- Operators that still wait at the end go out. -/
theorem finish_of_allOperators {waiting : List Waiting} (h : AllOperators waiting) :
    finish waiting = .ok (sent waiting) := by
  induction waiting with
  | nil => rfl
  | cons e below ih =>
    cases e with
    | operator op =>
      rw [finish, ih fun e he => h e (List.mem_cons_of_mem _ he)]
      rfl
    | bracket bracket position => cases h _ List.mem_cons_self

theorem allOperators_of_finish {waiting : List Waiting} {tokens : List Token}
    (h : finish waiting = .ok tokens) : AllOperators waiting := by
  induction waiting generalizing tokens with
  | nil => exact List.forall_mem_nil _
  | cons e below ih =>
    cases e with
    | operator op =>
      rw [finish] at h
      cases hb : finish below with
      | error r => rw [hb] at h; cases h
      | ok rest => exact List.forall_mem_cons.mpr ⟨rfl, ih hb⟩
    | bracket bracket position => cases h

theorem eq_sent_of_finish {waiting : List Waiting} {tokens : List Token}
    (h : finish waiting = .ok tokens) : tokens = sent waiting := by
  rw [finish_of_allOperators (allOperators_of_finish h)] at h
  exact (Except.ok.inj h).symm

/-! ### What one lexeme can do -/

/-- One lexeme leads from one state to another and sends out the given tokens. -/
inductive Moves (allow : Bool) : State → Placed → State → List Token → Prop
  | number (s : State) (position : Nat) (whole : List Char) (fraction : Option (List Char)) :
      Moves allow s ⟨position, .number whole fraction⟩ ⟨true, s.waiting⟩
        [.number (Lexeme.value whole fraction)]
  | name (s : State) {position : Nat} {letters : List Char} {t : Token}
      (h : identifier allow letters position = .ok t) :
      Moves allow s ⟨position, .name letters⟩ ⟨true, s.waiting⟩ [t]
  | call (s : State) (position : Nat) {letters : List Char} {f : Function}
      (hf : Function.ofName? letters = some f) :
      Moves allow s ⟨position, .call letters⟩ ⟨false, .operator (.function f) :: s.waiting⟩ []
  | between {s : State} (position : Nat) {op : Binary} {above below : List Waiting}
      (hread : s.operandRead = true) (hw : s.waiting = above ++ below)
      (ha : ∀ e ∈ above, e.yieldsTo op = true) (hb : ∀ e ∈ below.head?, e.yieldsTo op = false) :
      Moves allow s ⟨position, .sign op⟩ ⟨false, .operator (.binary op) :: below⟩ (sent above)
  | minus {s : State} (position : Nat) (hread : s.operandRead = false) :
      Moves allow s ⟨position, .sign .sub⟩ ⟨false, .operator .negate :: s.waiting⟩ []
  | plus {s : State} (position : Nat) (hread : s.operandRead = false) :
      Moves allow s ⟨position, .sign .add⟩ ⟨false, s.waiting⟩ []
  | opening (s : State) (position : Nat) (bracket : Bracket) :
      Moves allow s ⟨position, .opening bracket⟩ ⟨false, .bracket bracket position :: s.waiting⟩ []
  | closing {s : State} (position opened : Nat) (bracket : Bracket) {above below : List Waiting}
      (hw : s.waiting = above ++ .bracket bracket opened :: below) (ha : AllOperators above) :
      Moves allow s ⟨position, .closing bracket⟩ ⟨true, (calledFunction below).2⟩
        (sent above ++ (calledFunction below).1)

theorem step_of_moves {s next : State} {placed : Placed} {out : List Token}
    (h : Moves allow s placed next out) : step allow s placed = .ok (next, out) := by
  cases h with
  | number | opening => rfl
  | name h =>
    simp only [step, h]
    rfl
  | call position hf => simp only [step, hf]
  | between position hread hw ha hb =>
    simp only [step, hread, hw, if_true, between_append ha hb]
  | minus position hread =>
    simp only [step, hread]
    rfl
  | plus position hread =>
    simp only [step, hread]
    rfl
  | closing position opened bracket hw ha =>
    simp only [step, hw]
    exact close_append opened position ha

/-- A sign between operands, by the entries that yield to it and those that stay. -/
theorem moves_between (op : Binary) (position : Nat) (waiting : List Waiting) :
    Moves allow ⟨true, waiting⟩ ⟨position, .sign op⟩ (between op waiting).1
      (between op waiting).2 := by
  have hb : ∀ e ∈ (waiting.dropWhile (Waiting.yieldsTo op)).head?, e.yieldsTo op = false := by
    intro e he
    have hn := List.head?_dropWhile_not (Waiting.yieldsTo op) waiting
    rw [Option.mem_def.mp he] at hn
    exact hn
  have ha : ∀ e ∈ waiting.takeWhile (Waiting.yieldsTo op), e.yieldsTo op = true :=
    fun _ he => List.mem_takeWhile_imp he
  exact .between position rfl List.takeWhile_append_dropWhile.symm ha hb

/-- A closing bracket that is accepted meets its opening bracket below operators only. -/
theorem moves_closing {operandRead : Bool} {bracket : Bracket} {position : Nat}
    {waiting : List Waiting} {next : State} {out : List Token}
    (h : close bracket position waiting = .ok (next, out)) :
    Moves allow ⟨operandRead, waiting⟩ ⟨position, .closing bracket⟩ next out := by
  have hsplit := List.takeWhile_append_dropWhile (p := fun e => e.operator?.isSome) (l := waiting)
  have hall : AllOperators (waiting.takeWhile fun e => e.operator?.isSome) :=
    fun _ he => List.mem_takeWhile_imp (p := fun e : Waiting => e.operator?.isSome) he
  simp only [close] at h
  split at h
  · next opened openedAt below hd =>
    split at h
    · next hb =>
      subst hb
      cases h
      rw [hd] at hsplit
      exact .closing position openedAt opened hsplit.symm hall
    · cases h
  · cases h

/-- What a lexeme does, if it is accepted at all, is one of the moves. -/
theorem step_eq_ok_iff {s next : State} {placed : Placed} {out : List Token} :
    step allow s placed = .ok (next, out) ↔ Moves allow s placed next out := by
  refine ⟨?_, step_of_moves⟩
  intro h
  obtain ⟨position, l⟩ := placed
  obtain ⟨operandRead, waiting⟩ := s
  cases l with
  | number whole fraction => cases h; exact .number _ _ _ _
  | name letters =>
    simp only [step] at h
    cases ht : identifier allow letters position with
    | error r => rw [ht] at h; cases h
    | ok t => rw [ht] at h; cases h; exact .name _ ht
  | call letters =>
    simp only [step] at h
    split at h
    · next f hf => cases h; exact .call _ _ hf
    · cases h
  | sign op =>
    cases operandRead with
    | true => cases h; exact moves_between op position waiting
    | false =>
      cases op with
      | add => cases h; exact .plus _ rfl
      | sub => cases h; exact .minus _ rfl
      | mul | div | pow => cases h
  | opening bracket => cases h; exact .opening _ _ _
  | closing bracket => exact moves_closing h
  | stray c => cases h

/-- Whether an operand was read last shows on the lexeme that was read last. -/
theorem Moves.operandRead_eq {s next : State} {placed : Placed} {out : List Token}
    (h : Moves allow s placed next out) : next.operandRead = placed.lexeme.endsOperand := by
  cases h <;> rfl

/-! ### Where tokens come from -/

/-- A lexeme gives a token of its own: a number, or what its letters stand for. -/
inductive Gives (allow : Bool) : Placed → Token → Prop
  | number (position : Nat) (whole : List Char) (fraction : Option (List Char)) :
      Gives allow ⟨position, .number whole fraction⟩ (.number (Lexeme.value whole fraction))
  | name {position : Nat} {letters : List Char} {t : Token}
      (h : identifier allow letters position = .ok t) : Gives allow ⟨position, .name letters⟩ t

theorem operator_of_mem_sent {entries : List Waiting} {t : Token} (h : t ∈ sent entries) :
    ∃ op, t = .operator op := by
  obtain ⟨e, -, he⟩ := List.mem_filterMap.mp h
  obtain ⟨op, -, rfl⟩ := Option.map_eq_some_iff.mp he
  exact ⟨op, rfl⟩

theorem operator_of_mem_calledFunction {below : List Waiting} {t : Token}
    (h : t ∈ (calledFunction below).1) : ∃ op, t = .operator op := by
  unfold calledFunction at h
  split at h
  · exact ⟨_, List.mem_singleton.mp h⟩
  · cases h

/-- What goes out is an operator or comes from the lexeme. -/
theorem Moves.mem {s next : State} {placed : Placed} {out : List Token} {t : Token}
    (h : Moves allow s placed next out) (ht : t ∈ out) :
    (∃ op, t = .operator op) ∨ Gives allow placed t := by
  cases h with
  | number =>
    obtain rfl := List.mem_singleton.mp ht
    exact .inr (.number _ _ _)
  | name h =>
    obtain rfl := List.mem_singleton.mp ht
    exact .inr (.name h)
  | call | minus | plus | opening => cases ht
  | between => exact .inl (operator_of_mem_sent ht)
  | closing =>
    rcases List.mem_append.mp ht with hs | hc
    · exact .inl (operator_of_mem_sent hs)
    · exact .inl (operator_of_mem_calledFunction hc)

/-- Every token of a converted expression is an operator or comes from one of the lexemes. -/
theorem mem_of_run {s : State} {placed : List Placed} {tokens : List Token} {t : Token}
    (h : run allow s placed = .ok tokens) (ht : t ∈ tokens) :
    (∃ op, t = .operator op) ∨ ∃ p ∈ placed, Gives allow p t := by
  obtain ⟨out, final, last, hr, hfinish, rfl⟩ := reaches_of_run h
  obtain rfl := eq_sent_of_finish hfinish
  clear h hfinish
  induction hr with
  | nil s => exact .inl (operator_of_mem_sent ht)
  | cons hs _ ih =>
    rw [List.append_assoc] at ht
    rcases List.mem_append.mp ht with hout | hmore
    · rcases (step_eq_ok_iff.mp hs).mem hout with hop | hgives
      · exact .inl hop
      · exact .inr ⟨_, List.mem_cons_self, hgives⟩
    · rcases ih hmore with hop | ⟨p, hp, hgives⟩
      · exact .inl hop
      · exact .inr ⟨p, List.mem_cons_of_mem _ hp, hgives⟩

/-- A variable comes from a name that is no constant, where variables are allowed. -/
theorem exists_name_of_var_mem {s : State} {placed : List Placed} {tokens : List Token}
    {name : String} (h : run allow s placed = .ok tokens) (hname : .var name ∈ tokens) :
    allow = true ∧ ∃ position letters, ⟨position, .name letters⟩ ∈ placed
      ∧ constant? letters = none ∧ name = String.ofList letters := by
  rcases mem_of_run h hname with ⟨op, ⟨⟩⟩ | ⟨p, hp, hgives⟩
  cases hgives with
  | @name position letters _ hid =>
    unfold identifier at hid
    split at hid
    · cases hid
    · next hc =>
      split at hid
      · next hallow =>
        cases hid
        exact ⟨hallow, position, letters, hp, hc, rfl⟩
      · cases hid

end Reckon.Infix
