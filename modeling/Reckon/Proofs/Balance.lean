import Reckon.Postfix.Depth
import Reckon.Proofs.Grammar

/-! # The depth of a converted expression

    A state *owes* a depth: what the waiting operators will still change, and one more value if no
    operand was read last. Every lexeme pays for what it sends out, except that a join adds a value
    that nothing asked for and a gap leaves out one that was owed. So a converted sequence has the
    net depth `1 + joins - gaps`, and a join and a gap cancel.

    Values run short only where an operator goes out before its operands. As long as no gap came
    up, the operators that wait find their operands whenever they go out. -/

namespace Reckon.Infix

open Postfix

variable {allow : Bool} {s next : State} {placed : Placed} {out : List Token}

/-- The depth that a state still owes to make up one value. -/
def owed (s : State) : Int :=
  netDepth (sent s.waiting) + if s.operandRead then 0 else 1

/-! ### What waiting operators change -/

@[simp] theorem netDepth_sent_operator (op : Operator) (below : List Waiting) :
    netDepth (sent (.operator op :: below)) = 1 - (op.arity : Int) + netDepth (sent below) := rfl

@[simp] theorem netDepth_sent_bracket (bracket : Bracket) (position : Nat)
    (below : List Waiting) :
    netDepth (sent (.bracket bracket position :: below)) = netDepth (sent below) := rfl

@[simp] theorem netDepth_sent_append (above below : List Waiting) :
    netDepth (sent (above ++ below)) = netDepth (sent above) + netDepth (sent below) := by
  rw [sent_append, netDepth_append]

theorem one_le_arity (op : Operator) : 1 ≤ op.arity := by
  cases op with
  | binary op => exact Nat.le_succ 1
  | negate | function f => exact Nat.le_refl 1

/-- Operators never add a value. -/
theorem netDepth_sent_nonpos (entries : List Waiting) : netDepth (sent entries) ≤ 0 := by
  induction entries with
  | nil => exact Int.le_refl 0
  | cons e below ih =>
    cases e with
    | operator op =>
      have ha := one_le_arity op
      rw [netDepth_sent_operator]
      omega
    | bracket bracket position => exact ih

/-- The function that a closing bracket takes along leaves the depth as it is. -/
theorem netDepth_calledFunction (below : List Waiting) :
    netDepth (calledFunction below).1 + netDepth (sent (calledFunction below).2)
      = netDepth (sent below) := by
  unfold calledFunction
  split
  · rfl
  · exact Int.zero_add _

/-- Names stand for values. -/
theorem takes_of_identifier {letters : List Char} {position : Nat} {t : Token}
    (h : identifier allow letters position = .ok t) : takes t = 0 := by
  unfold identifier at h
  split at h
  · cases h
    rfl
  · split at h <;> cases h
    rfl

/-! ### The net depth -/

/-- A lexeme pays for what it sends out, joins and gaps apart. -/
theorem Moves.netDepth_eq (h : Moves allow s placed next out) :
    netDepth out + owed next
      = owed s + (if s.operandRead && placed.lexeme.beginsOperand then 1 else 0 : Nat)
        - (if !s.operandRead && placed.lexeme.isClosing then 1 else 0 : Nat) := by
  obtain ⟨operandRead, waiting⟩ := s
  cases h with
  | number | call _ hf | opening =>
    cases operandRead <;>
      simp [owed, netDepth, takes, Lexeme.beginsOperand, Lexeme.isClosing, Operator.arity] <;>
      omega
  | name h =>
    have ht := takes_of_identifier h
    cases operandRead <;> simp [owed, netDepth, ht, Lexeme.beginsOperand, Lexeme.isClosing] <;>
      omega
  | between position hread hw ha hb =>
    obtain rfl : operandRead = true := hread
    obtain rfl : waiting = _ := hw
    simp only [owed, netDepth_sent_append, netDepth_sent_operator, Operator.arity,
      Lexeme.beginsOperand, Bool.true_and, Bool.not_true, Bool.false_and, Bool.false_eq_true,
      if_true, if_false]
    omega
  | minus position hread =>
    obtain rfl : operandRead = false := hread
    simp [owed, netDepth, Operator.arity, Lexeme.isClosing]
  | plus position hread =>
    obtain rfl : operandRead = false := hread
    simp [owed, netDepth, Lexeme.isClosing]
  | closing position opened bracket hw ha =>
    obtain rfl : waiting = _ := hw
    have hcalled := netDepth_calledFunction ‹_›
    cases operandRead <;>
      simp [owed, netDepth_append, Lexeme.beginsOperand, Lexeme.isClosing] <;>
      omega

/-- The net depth of what is sent out from a state on. -/
theorem netDepth_of_run {placed : List Placed} {tokens : List Token}
    (h : run allow s placed = .ok tokens) :
    netDepth tokens = owed s + joins s.operandRead (placed.map (·.lexeme))
      - gaps s.operandRead (placed.map (·.lexeme)) := by
  obtain ⟨out, final, last, hr, hfinish, rfl⟩ := reaches_of_run h
  obtain rfl := eq_sent_of_finish hfinish
  clear h hfinish
  induction hr with
  | nil s =>
    cases hread : s.operandRead <;> simp [joins, gaps, owed, hread]
  | @cons s next final placed rest out more hs hr ih =>
    have hm := step_eq_ok_iff.mp hs
    have hpay := hm.netDepth_eq
    rw [hm.operandRead_eq] at ih
    rw [List.append_assoc, netDepth_append, ih, List.map_cons, joins, gaps]
    omega

/-! ### Values do not run short without a gap -/

/-- Waiting operators find their operands if they leave a value. -/
theorem depthFrom?_sent {entries : List Waiting} {depth : Nat}
    (h : 1 ≤ depth + netDepth (sent entries)) :
    ∃ d, depthFrom? depth (sent entries) = some d := by
  induction entries generalizing depth with
  | nil => exact ⟨depth, rfl⟩
  | cons e below ih =>
    cases e with
    | operator op =>
      have ha := one_le_arity op
      have hn := netDepth_sent_nonpos below
      rw [netDepth_sent_operator] at h
      have hge : ¬ depth < op.arity := by omega
      have hd : ∃ d, depthFrom? (depth - op.arity + 1) (sent below) = some d := ih (by omega)
      rwa [show sent (.operator op :: below) = .operator op :: sent below from rfl, depthFrom?,
        takes, if_neg hge]
    | bracket bracket position => exact ih h

/-- The values that are there suffice for the operators that wait, and the operand that was read
    last is one more. -/
def Suffices (depth : Nat) (s : State) : Prop :=
  (if s.operandRead then 1 else 0) ≤ depth + netDepth (sent s.waiting)

/-- A value is all that the function of a closing bracket needs. -/
theorem depthFrom?_calledFunction {depth : Nat} (h : 1 ≤ depth) (below : List Waiting) :
    depthFrom? depth (calledFunction below).1 = some depth := by
  unfold calledFunction
  split
  · have hge : ¬ depth < takes (.operator (.function ‹_›)) := Nat.not_lt.mpr h
    rw [depthFrom?, if_neg hge, depthFrom?]
    exact congrArg some (Nat.sub_add_cancel h)
  · rfl

/-- Without a gap, what goes out finds its operands, and what still waits will find them too. -/
theorem Moves.suffices (h : Moves allow s placed next out) {depth : Nat}
    (hd : Suffices depth s) (hgap : s.operandRead = false → placed.lexeme.isClosing = false) :
    ∃ d, depthFrom? depth out = some d ∧ Suffices d next := by
  obtain ⟨operandRead, waiting⟩ := s
  have hle : 0 ≤ depth + netDepth (sent waiting) := by
    refine Int.le_trans ?_ hd
    split <;> decide
  cases h with
  | number =>
    refine ⟨depth + 1, rfl, ?_⟩
    simp only [Suffices, if_true]
    omega
  | name h =>
    refine ⟨depth + 1, ?_, ?_⟩
    · simp [depthFrom?, takes_of_identifier h]
    · simp only [Suffices, if_true]
      omega
  | call | opening | minus | plus =>
    exact ⟨depth, rfl, by simpa [Suffices, Operator.arity] using hle⟩
  | @between position op above below hread hw ha hb =>
    obtain rfl : operandRead = true := hread
    obtain rfl : waiting = _ := hw
    simp only [Suffices, if_true, netDepth_sent_append] at hd
    have hbelow := netDepth_sent_nonpos below
    obtain ⟨d, hsent⟩ : ∃ d, depthFrom? depth (sent above) = some d :=
      depthFrom?_sent (by omega)
    have hdepth := depthFrom?_eq hsent
    refine ⟨d, hsent, ?_⟩
    simp only [Suffices, netDepth_sent_operator, Operator.arity, Bool.false_eq_true, if_false]
    omega
  | @closing position opened bracket above below hw ha =>
    obtain rfl : operandRead = true := by
      cases operandRead with
      | true => rfl
      | false => cases hgap rfl
    obtain rfl : waiting = _ := hw
    simp only [Suffices, if_true, netDepth_sent_append, netDepth_sent_bracket] at hd
    have hbelow := netDepth_sent_nonpos below
    obtain ⟨d, hsent⟩ : ∃ d, depthFrom? depth (sent above) = some d :=
      depthFrom?_sent (by omega)
    have hdepth := depthFrom?_eq hsent
    have hcalled : depthFrom? d (calledFunction below).1 = some d :=
      depthFrom?_calledFunction (by omega) below
    have hnet := netDepth_calledFunction below
    have hkeep := depthFrom?_eq hcalled
    refine ⟨d, ?_, ?_⟩
    · rw [depthFrom?_append, hsent]
      exact hcalled
    · simp only [Suffices, if_true]
      omega

/-- Without gaps, values never run short. -/
theorem depthFrom?_of_run {placed : List Placed} {tokens : List Token} {depth : Nat}
    (h : run allow s placed = .ok tokens) (hd : Suffices depth s)
    (hgaps : gaps s.operandRead (placed.map (·.lexeme)) = 0) :
    ∃ d, depthFrom? depth tokens = some d := by
  obtain ⟨out, final, last, hr, hfinish, rfl⟩ := reaches_of_run h
  obtain rfl := eq_sent_of_finish hfinish
  clear h hfinish
  induction hr generalizing depth with
  | nil s =>
    cases hread : s.operandRead with
    | false =>
      rw [hread] at hgaps
      cases hgaps
    | true =>
      rw [Suffices, hread] at hd
      exact depthFrom?_sent hd
  | @cons s next final placed rest out more hs hr ih =>
    have hm := step_eq_ok_iff.mp hs
    simp only [List.map_cons, gaps, ← hm.operandRead_eq, Nat.add_eq_zero_iff] at hgaps
    obtain ⟨d, hout, hnext⟩ := hm.suffices hd fun hread => by simpa [hread] using hgaps.1
    obtain ⟨d', hmore⟩ := ih hnext hgaps.2
    refine ⟨d', ?_⟩
    rw [List.append_assoc, depthFrom?_append, hout]
    exact hmore

/-! ### Converted texts -/

/-- How many operands of a text begin where an operand was read last. -/
def joinsIn (text : String) : Nat :=
  joins false ((Lexeme.lexemes text.toList).map (·.lexeme))

/-- How many brackets of a text close, and whether it ends, where no operand was read last. -/
def gapsIn (text : String) : Nat :=
  gaps false ((Lexeme.lexemes text.toList).map (·.lexeme))

/-- A join and a gap cancel. -/
theorem netDepth_of_convert {text : String} {tokens : List Token}
    (h : convert allow text = .ok tokens) :
    netDepth tokens = 1 + joinsIn text - gapsIn text :=
  netDepth_of_run h

/-- A complete sequence comes from a text with as many joins as gaps. -/
theorem joinsIn_eq_of_isComplete {text : String} {tokens : List Token}
    (h : convert allow text = .ok tokens) (hc : isComplete tokens = true) :
    joinsIn text = gapsIn text := by
  have hnet := netDepth_of_convert h
  have hd := depthFrom?_eq (eq_of_beq hc)
  omega

/-- A text without joins and gaps is converted to a complete sequence. -/
theorem isComplete_of_convert {text : String} {tokens : List Token}
    (h : convert allow text = .ok tokens) (hj : joinsIn text = 0) (hg : gapsIn text = 0) :
    isComplete tokens = true := by
  have hnet := netDepth_of_convert h
  have hstart : Suffices 0 .start := Int.le_refl 0
  obtain ⟨d, hd⟩ := depthFrom?_of_run h hstart hg
  have hdepth := depthFrom?_eq hd
  obtain rfl : d = 1 := by omega
  exact beq_iff_eq.mpr hd

/-- A text is one infix expression exactly if it is converted to a complete sequence and no operand
    begins directly after another one. -/
theorem isExpression_iff {text : String} :
    IsExpression text
      ↔ (∃ tokens, convert true text = .ok tokens ∧ isComplete tokens = true)
        ∧ joinsIn text = 0 := by
  have hw := Lexeme.written_lexemes text.toList
  have hforms := forms_iff (callsOpen_of_written hw)
  constructor
  · rintro ⟨lexemes, hwritten, h⟩
    have hapart : Apart (lexemes ++ []) := h.apart_append trivial (by rintro l ⟨⟩)
    rw [List.append_nil] at hapart
    rw [← lexemes_of_written hwritten hapart] at h
    obtain ⟨⟨tokens, hrun⟩, hj, hg⟩ := hforms.mp h
    exact ⟨⟨tokens, hrun, isComplete_of_convert hrun hj hg⟩, hj⟩
  · rintro ⟨⟨tokens, hconvert, hc⟩, hj⟩
    have hg := joinsIn_eq_of_isComplete hconvert hc
    exact ⟨_, hw, hforms.mpr ⟨⟨tokens, hconvert⟩, hj, hg.symm.trans hj⟩⟩

end Reckon.Infix
