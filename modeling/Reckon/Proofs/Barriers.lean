import Mathlib.Data.List.Chain
import Reckon.Proofs.Grammar
import Reckon.Proofs.Replacing
import Reckon.Proofs.Variables

/-! # Brackets as barriers

    A group is converted as if it stood alone. From inside, the entries below its opening bracket
    are never reached, so a reading from the start is also a reading on top of any bracket
    (`Reaches.frame`). From outside, the group does what a name does: it leaves the stack as it was
    and an operand behind it, and it sends out its own tokens (`reaches_group_of_run`). Only a
    function on top of the stack would go out with the group; but functions stand nowhere except
    directly below their round brackets (`Guards`), so where a name is read, none is on top.

    Hence a name in a text can be replaced by a group: its variable in the tokens is replaced by
    the tokens of the group (`convert_replaceName`).

        stack, top first        reads      sends
        ( sin ( * +             x          x
        ( sin ( * +             (a+1)      a 1 +  -/

namespace Reckon.Infix

variable {allow : Bool}

/-! ### From inside a group -/

theorem calledFunction_append {waiting sk : List Waiting} (hs : Rests sk) :
    calledFunction (waiting ++ sk)
      = ((calledFunction waiting).1, (calledFunction waiting).2 ++ sk) := by
  cases waiting with
  | nil =>
    refine calledFunction_of_noCall ?_
    intro f hf
    obtain ⟨bracket, position, ⟨⟩⟩ := hs _ hf
  | cons e below =>
    cases e with
    | operator op => cases op <;> rfl
    | bracket => rfl

/-- What one lexeme does does not depend on what waits below a bracket. -/
theorem Moves.frame {s next : State} {placed : Placed} {out : List Token} {sk : List Waiting}
    (hs : Rests sk) (h : Moves allow s placed next out) :
    Moves allow ⟨s.operandRead, s.waiting ++ sk⟩ placed ⟨next.operandRead, next.waiting ++ sk⟩
      out := by
  cases h with
  | number => exact .number _ _ _ _
  | name h => exact .name _ h
  | call position hf => exact .call _ _ hf
  | @between position op above below hread hw ha hb =>
    have hw' : s.waiting ++ sk = above ++ (below ++ sk) := by rw [hw, List.append_assoc]
    refine .between _ hread hw' ha ?_
    intro e he
    cases below with
    | nil => exact yieldsTo_eq_false_of_rests hs op e he
    | cons d below => exact hb e he
  | minus position hread => exact .minus _ hread
  | plus position hread => exact .plus _ hread
  | opening => exact .opening _ _ _
  | @closing position opened bracket above below hw ha =>
    have hw' : s.waiting ++ sk = above ++ .bracket bracket opened :: (below ++ sk) := by
      rw [hw, List.append_assoc, List.cons_append]
    have hm : Moves allow ⟨s.operandRead, s.waiting ++ sk⟩ ⟨position, .closing bracket⟩ _ _ :=
      .closing position opened bracket hw' ha
    rwa [calledFunction_append hs] at hm

theorem Reaches.frame {s final : State} {placed : List Placed} {out : List Token}
    {sk : List Waiting} (hs : Rests sk) (h : Reaches allow s placed out final) :
    Reaches allow ⟨s.operandRead, s.waiting ++ sk⟩ placed out
      ⟨final.operandRead, final.waiting ++ sk⟩ := by
  induction h with
  | nil => exact .nil _
  | cons hstep _ ih => exact .cons (step_of_moves ((step_eq_ok_iff.mp hstep).frame hs)) ih

/-! ### From outside a group -/

/-- Lexemes that are converted by themselves send out the same tokens between brackets, and then
    the function in front of the group. -/
theorem reaches_group_of_run {placed : List Placed} {tokens : List Token}
    (h : run allow .start placed = .ok tokens) (bracket : Bracket) (openedAt closedAt : Nat)
    (operandRead : Bool) (below : List Waiting) :
    Reaches allow ⟨operandRead, below⟩
      (⟨openedAt, .opening bracket⟩ :: (placed ++ [⟨closedAt, .closing bracket⟩]))
      (tokens ++ (calledFunction below).1) ⟨true, (calledFunction below).2⟩ := by
  obtain ⟨out, final, last, hr, hfinish, rfl⟩ := reaches_of_run h
  have hrests := rests_bracket bracket openedAt below
  have hopen : step allow ⟨operandRead, below⟩ ⟨openedAt, .opening bracket⟩
      = .ok (⟨false, .bracket bracket openedAt :: below⟩, []) := rfl
  have hclose : Moves allow ⟨final.operandRead, final.waiting ++ .bracket bracket openedAt :: below⟩
      ⟨closedAt, .closing bracket⟩ _ _ :=
    .closing closedAt openedAt bracket rfl (allOperators_of_finish hfinish)
  rw [← eq_sent_of_finish hfinish] at hclose
  have hall := Reaches.cons hopen ((hr.frame hrests).append (.single (step_of_moves hclose)))
  rwa [List.nil_append, ← List.append_assoc] at hall

/-- A group does what a name does. -/
theorem reaches_group_of_noCall {placed : List Placed} {tokens : List Token}
    (h : run allow .start placed = .ok tokens) (bracket : Bracket) (operandRead : Bool)
    {below : List Waiting} (hb : NoCall below) :
    Reaches allow ⟨operandRead, below⟩
      (⟨0, .opening bracket⟩ :: (placed ++ [⟨0, .closing bracket⟩])) tokens ⟨true, below⟩ := by
  have hr := reaches_group_of_run h bracket 0 0 operandRead below
  rwa [calledFunction_of_noCall hb, List.append_nil] at hr

/-- A called function does what a name does. -/
theorem reaches_call_of_run {placed : List Placed} {tokens : List Token}
    (h : run allow .start placed = .ok tokens) (f : Function) (operandRead : Bool)
    (below : List Waiting) :
    Reaches allow ⟨operandRead, below⟩
      (⟨0, .call f.name.toList⟩ :: ⟨0, .opening .round⟩ :: (placed ++ [⟨0, .closing .round⟩]))
      (tokens ++ [.operator (.function f)]) ⟨true, below⟩ := by
  have hf := Function.ofName?_eq_some_iff.mpr (Eq.refl f.name.toList)
  have hcall : step allow ⟨operandRead, below⟩ ⟨0, .call f.name.toList⟩
      = .ok (⟨false, .operator (.function f) :: below⟩, []) := by
    simp only [step, hf]
  have hr := reaches_group_of_run h .round 0 0 false (.operator (.function f) :: below)
  have hall := Reaches.cons hcall hr
  exact hall

/-! ### Where functions wait -/

/-- An entry may stand directly above another: above a function only a round bracket. -/
def MayCover (above below : Waiting) : Prop :=
  ∀ f, below = .operator (.function f) → ∃ position, above = .bracket .round position

/-- Every waiting function stands directly below a round bracket, but one may be on top if its
    bracket comes next. -/
structure Guards (waiting : List Waiting) (next : List Lexeme) : Prop where
  covered : waiting.IsChain MayCover
  top : NoCall waiting ∨ next.head? = some (.opening .round)

theorem guards_nil (next : List Lexeme) : Guards [] next :=
  ⟨.nil, .inl (by rintro f ⟨⟩)⟩

/-- Below an entry other than a round bracket there is no function. -/
theorem noCall_of_mayCover {above : Waiting} {below : List Waiting}
    (h : ∀ e ∈ below.head?, MayCover above e) (ha : ∀ position, above ≠ .bracket .round position) :
    NoCall below := by
  intro f hf
  obtain ⟨position, hp⟩ := h _ hf f rfl
  exact ha position hp

/-- An entry may stand above entries without a function on top. -/
theorem mayCover_of_noCall {below : List Waiting} (above : Waiting) (h : NoCall below) :
    ∀ e ∈ below.head?, MayCover above e := by
  rintro e he f rfl
  exact absurd he (h f)

/-- Once the entries that yield to a sign are gone, no function is on top. -/
theorem noCall_of_yieldsTo {op : Binary} {above below : List Waiting}
    (hc : (above ++ below).IsChain MayCover) (hn : NoCall (above ++ below))
    (ha : ∀ e ∈ above, e.yieldsTo op = true) : NoCall below := by
  rcases List.eq_nil_or_concat above with rfl | ⟨first, e, rfl⟩
  · exact hn
  · rw [List.concat_eq_append] at hc ha
    have hcover : ∀ d ∈ below.head?, MayCover e d :=
      (List.isChain_append.mp hc).2.2 e (List.getLast?_concat ..)
    refine noCall_of_mayCover hcover ?_
    rintro position rfl
    cases ha _ (List.mem_append_right _ List.mem_cons_self)

/-- What is left when a group is closed has no function on top. -/
theorem guards_calledFunction {below : List Waiting} (hc : below.IsChain MayCover)
    (next : List Lexeme) : Guards (calledFunction below).2 next := by
  unfold calledFunction
  split
  · next f below =>
    obtain ⟨hhead, htail⟩ := List.isChain_cons.mp hc
    exact ⟨htail, .inl (noCall_of_mayCover hhead (by rintro position ⟨⟩))⟩
  · next hn =>
    refine ⟨hc, .inl ?_⟩
    intro f hf
    obtain ⟨rest, rfl⟩ := List.head?_eq_some_iff.mp hf
    exact hn f rest rfl

/-- Every lexeme keeps the functions below their brackets. -/
theorem Guards.moves {s next : State} {placed : Placed} {out : List Token} {rest : List Lexeme}
    (hg : Guards s.waiting (placed.lexeme :: rest)) (hopen : CallsOpen (placed.lexeme :: rest))
    (h : Moves allow s placed next out) : Guards next.waiting rest := by
  -- all lexemes but an opening bracket are read with no function on top
  have hnone : placed.lexeme ≠ .opening .round → NoCall s.waiting := by
    intro hne
    exact hg.top.resolve_right fun hhead => hne (Option.some.inj hhead)
  cases h with
  | number | name => exact ⟨hg.covered, .inl (hnone (by rintro ⟨⟩))⟩
  | call position hf =>
    refine ⟨List.isChain_cons.mpr ⟨mayCover_of_noCall _ (hnone (by rintro ⟨⟩)), hg.covered⟩, ?_⟩
    exact .inr (hopen.1 _ rfl)
  | between position hread hw ha hb =>
    have hc := hg.covered
    have hn := hnone (by rintro ⟨⟩)
    rw [hw] at hc hn
    refine ⟨List.isChain_cons.mpr ⟨mayCover_of_noCall _ (noCall_of_yieldsTo hc hn ha),
      hc.right_of_append⟩, .inl ?_⟩
    rintro f ⟨⟩
  | minus =>
    refine ⟨List.isChain_cons.mpr ⟨mayCover_of_noCall _ (hnone (by rintro ⟨⟩)), hg.covered⟩,
      .inl ?_⟩
    rintro f ⟨⟩
  | plus => exact ⟨hg.covered, .inl (hnone (by rintro ⟨⟩))⟩
  | opening position bracket =>
    refine ⟨List.isChain_cons.mpr ⟨?_, hg.covered⟩, .inl (by rintro f ⟨⟩)⟩
    rcases hg.top with hn | hhead
    · exact mayCover_of_noCall _ hn
    · cases hhead
      exact fun _ _ _ _ => ⟨position, rfl⟩
  | closing position opened bracket hw ha =>
    have hc := hg.covered
    rw [hw] at hc
    exact guards_calledFunction (List.isChain_cons.mp hc.right_of_append).2 rest

/-! ### Other lexemes in the place of a name -/

/-- Lexemes of which each name of one spelling is replaced by others. -/
def replacePlaced (name : List Char) (inner placed : List Placed) : List Placed :=
  placed.flatMap fun p => if p.lexeme = .name name then inner else [p]

theorem map_replacePlaced (name : List Char) (inner placed : List Placed) :
    (replacePlaced name inner placed).map (·.lexeme)
      = expand (.name name) (inner.map (·.lexeme)) (placed.map (·.lexeme)) := by
  simp only [replacePlaced, expand, List.map_flatMap, List.flatMap_map]
  congr 1
  funext p
  split <;> rfl

/-- Only names of its own spelling give a variable. -/
theorem Moves.var_not_mem {s next : State} {placed : Placed} {out : List Token} {name : List Char}
    (h : Moves allow s placed next out) (hne : placed.lexeme ≠ .name name) :
    .var (String.ofList name) ∉ out := by
  intro hv
  rcases h.mem hv with ⟨op, ⟨⟩⟩ | hgives
  cases hgives with
  | name hid =>
    unfold identifier at hid
    split at hid
    · cases hid
    · split at hid
      · have heq := String.ofList_injective (Token.var.inj (Except.ok.inj hid))
        exact hne (congrArg Lexeme.name heq)
      · cases hid

/-- In the place of one lexeme, others that do in every state what a name does are accepted if it is
    that name, and their tokens go out in the place of its variable. -/
theorem Moves.replace {name : List Char} {inner : List Placed} {tokens : List Token}
    (hname : constant? name = none)
    (hin : ∀ operandRead below, NoCall below →
      Reaches true ⟨operandRead, below⟩ inner tokens ⟨true, below⟩)
    {s next : State} {p : Placed} {out : List Token} {rest : List Lexeme}
    (hg : Guards s.waiting (p.lexeme :: rest)) (h : Moves true s p next out) :
    Reaches true s (if p.lexeme = .name name then inner else [p])
      (expand (.var (String.ofList name)) tokens out) next := by
  split
  · next hp =>
    obtain ⟨position, l⟩ := p
    obtain rfl : l = .name name := hp
    cases (step_of_moves h).symm.trans (step_variable s position hname).1
    rw [expand_singleton]
    exact hin _ _ (hg.top.resolve_right (by rintro ⟨⟩))
  · next hp =>
    rw [expand_eq_self (h.var_not_mem hp)]
    exact .single (step_of_moves h)

/-- The same for a stretch. -/
theorem Reaches.replace {name : List Char} {inner : List Placed} {tokens : List Token}
    (hname : constant? name = none)
    (hin : ∀ operandRead below, NoCall below →
      Reaches true ⟨operandRead, below⟩ inner tokens ⟨true, below⟩)
    {s final : State} {placed : List Placed} {out : List Token}
    (h : Reaches true s placed out final) (hg : Guards s.waiting (placed.map (·.lexeme)))
    (hopen : CallsOpen (placed.map (·.lexeme))) :
    Reaches true s (replacePlaced name inner placed)
      (expand (.var (String.ofList name)) tokens out) final := by
  induction h with
  | nil s => exact .nil s
  | cons hs hr ih =>
    have hm := step_eq_ok_iff.mp hs
    rw [expand_append]
    exact (hm.replace hname hin hg).append (ih (hg.moves hopen hm) hopen.2)

/-- The same for a whole reading. -/
theorem run_replacePlaced {name : List Char} {inner placed : List Placed} {tokens ts : List Token}
    (hname : constant? name = none)
    (hin : ∀ operandRead below, NoCall below →
      Reaches true ⟨operandRead, below⟩ inner tokens ⟨true, below⟩)
    (h : run true .start placed = .ok ts) (hopen : CallsOpen (placed.map (·.lexeme))) :
    run true .start (replacePlaced name inner placed)
      = .ok (expand (.var (String.ofList name)) tokens ts) := by
  obtain ⟨out, final, last, hr, hfinish, rfl⟩ := reaches_of_run h
  have hlast : .var (String.ofList name) ∉ last := by
    rw [eq_sent_of_finish hfinish]
    intro hv
    obtain ⟨op, ⟨⟩⟩ := operator_of_mem_sent hv
  have hrun : run true .start (_ ++ []) = _ :=
    run_append_of_reaches (hr.replace hname hin (guards_nil _) hopen)
  rw [List.append_nil, run, hfinish] at hrun
  rw [hrun, expand_append, expand_eq_self hlast]
  rfl

/-- A text that does in every state what a name does can stand in the place of the name. -/
theorem convert_replaceName_of_standalone {name new : List Char} {inner : List Placed}
    {tokens ts : List Token} {s : String} (hname : constant? name = none)
    (hnew : Lexeme.Standalone new (inner.map (·.lexeme)))
    (hin : ∀ operandRead below, NoCall below →
      Reaches true ⟨operandRead, below⟩ inner tokens ⟨true, below⟩)
    (h : convert true s = .ok ts) :
    convert true (String.ofList (replaceName name new s.toList))
      = .ok (expand (.var (String.ofList name)) tokens ts) := by
  refine (convert_eq_ok_iff ?_).mpr
    (run_replacePlaced hname hin h (Lexeme.callsOpen_cut s.toList))
  rw [String.toList_ofList, Lexeme.cut_replaceName hnew, map_replacePlaced]
  rfl

/-- Conversion is compositional. Let two texts be accepted with variables, and let a name be no
    constant. If every occurrence of the name in the first text is replaced by the second text in
    brackets, the result is accepted, and its tokens are those of the first text with all tokens
    of the second in the place of each variable of that name. If it is replaced by a call of a
    function with the second text, the function comes after them. -/
theorem convert_replaceName {name : List Char} {s e : String} {ts te : List Token}
    (hname : constant? name = none) (hs : convert true s = .ok ts)
    (he : convert true e = .ok te) :
    (∀ bracket : Bracket,
        convert true (String.ofList (replaceName name (bracket.around e.toList) s.toList))
          = .ok (expand (.var (String.ofList name)) te ts))
      ∧ ∀ f : Function,
        convert true (String.ofList
            (replaceName name (f.name.toList ++ Bracket.round.around e.toList) s.toList))
          = .ok (expand (.var (String.ofList name)) (te ++ [.operator (.function f)]) ts) := by
  constructor
  · intro bracket
    refine convert_replaceName_of_standalone hname ?_
      (fun operandRead below hb => reaches_group_of_noCall he bracket operandRead hb) hs
    rw [List.map_cons, List.map_append]
    exact Lexeme.standalone_around bracket e.toList
  · intro f
    refine convert_replaceName_of_standalone hname ?_
      (fun operandRead below _ => reaches_call_of_run he f operandRead below) hs
    rw [List.map_cons, List.map_cons, List.map_append]
    exact Lexeme.standalone_call f e.toList

/-- The text `1*`, which lacks an operand, called with a root in both places of `x` in `-x^xx[x]`:
    the longer name is kept, and the product waits for no operand outside its brackets. -/
theorem convert_root_of_unfinished_product :
    constant? ['x'] = none
      ∧ convert true "-x^xx[x]" = .ok [.var "x", .var "xx", .var "x", .operator (.binary .pow),
          .operator .negate]
      ∧ convert true "1*" = .ok [.number (Lexeme.value ['1'] none), .operator (.binary .mul)]
      ∧ convert true "-sqrt(1*)^xx[sqrt(1*)]"
        = .ok [.number (Lexeme.value ['1'] none), .operator (.binary .mul),
            .operator (.function .sqrt), .var "xx", .number (Lexeme.value ['1'] none),
            .operator (.binary .mul), .operator (.function .sqrt), .operator (.binary .pow),
            .operator .negate] := by
  have hname : constant? ['x'] = none := by decide
  have hs : convert true "-x^xx[x]" = .ok [.var "x", .var "xx", .var "x", .operator (.binary .pow),
      .operator .negate] := by
    have hcut : Lexeme.lexemes "-x^xx[x]".toList
        = [⟨0, .sign .sub⟩, ⟨1, .name ['x']⟩, ⟨2, .sign .pow⟩, ⟨3, .name ['x', 'x']⟩,
            ⟨5, .opening .square⟩, ⟨6, .name ['x']⟩, ⟨7, .closing .square⟩] := by decide +kernel
    rw [convert, hcut]
    rfl
  have he : convert true "1*"
      = .ok [.number (Lexeme.value ['1'] none), .operator (.binary .mul)] := by
    have hcut : Lexeme.lexemes "1*".toList = [⟨0, .number ['1'] none⟩, ⟨1, .sign .mul⟩] := by
      decide +kernel
    rw [convert, hcut]
    rfl
  have htext : String.ofList (replaceName ['x']
      ("sqrt".toList ++ Bracket.round.around "1*".toList) "-x^xx[x]".toList)
      = "-sqrt(1*)^xx[sqrt(1*)]" := by decide +kernel
  refine ⟨hname, hs, he, ?_⟩
  rw [← htext]
  exact (convert_replaceName hname hs he).2 .sqrt

end Reckon.Infix
