import Reckon.Proofs.Scalars

/-! # Where values run short

    The net depth of a sequence may fall and recover, and says nothing by itself: `+ 1 2` has the
    net depth of one value and cannot be evaluated. What decides is every beginning of the sequence.
    Values run short exactly if some beginning has a net depth below one (`Dips`), since the token
    that ends the shortest such beginning lacks an operand. Without a dip the net depth is the
    number of values that are left.

        tokens:      1   2   +   *   3
        net depth:   1   2   1   0   1        the sequence dips at `*` -/

namespace Reckon.Postfix

variable {bindings : Bindings} {tokens : List Token}

/-- On a stack of the given depth, some beginning of the sequence leaves less than one value. -/
def Dips (depth : Nat) (tokens : List Token) : Prop :=
  ∃ first, first <+: tokens ∧ first ≠ [] ∧ depth + netDepth first < 1

/-- A sequence dips at its first token, or after it. -/
theorem dips_cons {depth : Nat} {t : Token} {rest : List Token} :
    Dips depth (t :: rest)
      ↔ depth < takes t ∨ ¬ depth < takes t ∧ Dips (depth - takes t + 1) rest := by
  constructor
  · rintro ⟨first, hprefix, hne, hnet⟩
    by_cases hlt : depth < takes t
    · exact .inl hlt
    · obtain ⟨u, more, rfl⟩ := List.exists_cons_of_ne_nil hne
      obtain ⟨rfl, hmore⟩ := List.cons_prefix_cons.mp hprefix
      rw [netDepth] at hnet
      refine .inr ⟨hlt, more, hmore, ?_, by omega⟩
      rintro rfl
      rw [netDepth] at hnet
      omega
  · rintro (hlt | ⟨hge, first, hprefix, -, hnet⟩)
    · refine ⟨[t], List.cons_prefix_cons.mpr ⟨rfl, List.nil_prefix⟩, List.cons_ne_nil _ _, ?_⟩
      simp only [netDepth]
      omega
    · refine ⟨t :: first, List.cons_prefix_cons.mpr ⟨rfl, hprefix⟩, List.cons_ne_nil _ _, ?_⟩
      rw [netDepth]
      omega

/-- Values run short exactly if the sequence dips. -/
theorem depthFrom?_eq_none_iff {depth : Nat} :
    depthFrom? depth tokens = none ↔ Dips depth tokens := by
  induction tokens generalizing depth with
  | nil =>
    refine ⟨(by rintro ⟨⟩), ?_⟩
    rintro ⟨first, hprefix, hne, -⟩
    exact absurd (List.prefix_nil.mp hprefix) hne
  | cons t rest ih =>
    rw [dips_cons, depthFrom?, ← ih]
    split
    · next hlt => exact ⟨fun _ => .inl hlt, fun _ => rfl⟩
    · next hge => exact ⟨fun h => .inr ⟨hge, h⟩, fun h => (h.resolve_left hge).2⟩

theorem dips_zero_iff :
    Dips 0 tokens ↔ ∃ first, first <+: tokens ∧ first ≠ [] ∧ netDepth first < 1 := by
  simp only [Dips, Int.natCast_zero, Int.zero_add]

/-- Values do not run short exactly if every beginning leaves at least one. -/
theorem not_dips_zero_iff :
    ¬ Dips 0 tokens ↔ ∀ first, first <+: tokens → first ≠ [] → 1 ≤ netDepth first := by
  rw [dips_zero_iff]
  constructor
  · intro h first hprefix hne
    exact Int.not_lt.mp fun hlt => h ⟨first, hprefix, hne, hlt⟩
  · rintro h ⟨first, hprefix, hne, hlt⟩
    exact absurd (h first hprefix hne) (Int.not_le.mpr hlt)

/-- A sequence is complete exactly if it never dips and leaves one value. -/
theorem isComplete_iff_netDepth :
    isComplete tokens = true ↔ netDepth tokens = 1 ∧ ¬ Dips 0 tokens := by
  rw [isComplete, beq_iff_eq, ← depthFrom?_eq_none_iff]
  constructor
  · intro h
    have hd := depthFrom?_eq h
    exact ⟨by omega, by rw [h]; rintro ⟨⟩⟩
  · rintro ⟨hnet, hsome⟩
    obtain ⟨d, h⟩ := Option.ne_none_iff_exists'.mp hsome
    have hd := depthFrom?_eq h
    obtain rfl : d = 1 := by omega
    exact h

/-! ### What a sequence comes to -/

/-- The four ways in which a sequence with scalar variables can end. -/
inductive Ends (bindings : Bindings) (tokens : List Token) : Prop
  | value (x : Float) (hdips : ¬ Dips 0 tokens) (hnet : netDepth tokens = 1)
      (h : evaluate bindings tokens = .ok (.scalar x))
  | short (op : Operator) (hdips : Dips 0 tokens)
      (h : evaluate bindings tokens = .error (.refused (.missingOperand op.type op)))
  | empty (htokens : tokens = []) (h : evaluate bindings tokens = .error (.refused .empty))
  | surplus (count : Nat) (hdips : ¬ Dips 0 tokens) (hnet : netDepth tokens = count)
      (hcount : 2 ≤ count) (h : evaluate bindings tokens = .error (.refused (.leftOver count)))

theorem ends_of_scalarVariables (hv : ScalarVariables bindings tokens) : Ends bindings tokens := by
  cases hd : depthFrom? ([] : List Value).length tokens with
  | none =>
    obtain ⟨op, hr⟩ := run_short (List.forall_mem_nil _) hv hd
    refine .short op (depthFrom?_eq_none_iff.mp hd) ?_
    rw [evaluate, evaluateItems, hr]
  | some d =>
    obtain ⟨final, hr, hs, rfl⟩ := run_scalars (List.forall_mem_nil _) hv hd
    have hdips : ¬ Dips 0 tokens := by
      rw [← depthFrom?_eq_none_iff, show depthFrom? 0 tokens = some final.length from hd]
      rintro ⟨⟩
    have hnet : netDepth tokens = final.length := by
      have hdepth := depthFrom?_eq hd
      simp only [List.length_nil, Int.natCast_zero] at hdepth
      omega
    have hvalue : evaluate bindings tokens = result (tokens.map .token) final := by
      rw [evaluate, evaluateItems, hr]
    rcases final with _ | ⟨v, _ | ⟨w, rest⟩⟩
    · -- only the sequence without tokens leaves nothing and never dips
      refine .empty ?_ hvalue
      cases tokens with
      | nil => rfl
      | cons t rest =>
        have hge := not_dips_zero_iff.mp hdips _ (List.prefix_refl _) (List.cons_ne_nil t rest)
        rw [hnet] at hge
        cases hge
    · obtain ⟨x, rfl⟩ := hs v List.mem_cons_self
      exact .value x hdips hnet hvalue
    · refine .surplus _ hdips hnet (Nat.le_add_left 2 _) (hvalue.trans ?_)
      exact congrArg Except.error (surplus_map_token tokens _)

/-- There is a value exactly if the sequence is complete. -/
theorem Ends.ok_iff (h : Ends bindings tokens) :
    (∃ v, evaluate bindings tokens = .ok v) ↔ isComplete tokens = true := by
  rw [isComplete_iff_netDepth]
  cases h with
  | value x hdips hnet h => exact ⟨fun _ => ⟨hnet, hdips⟩, fun _ => ⟨_, h⟩⟩
  | short op hdips h => simp [h, hdips]
  | empty htokens h =>
    rw [h, htokens]
    exact ⟨(by rintro ⟨v, ⟨⟩⟩), (by rintro ⟨⟨⟩, -⟩)⟩
  | surplus count hdips hnet hcount h =>
    rw [h]
    refine ⟨(by rintro ⟨v, ⟨⟩⟩), ?_⟩
    rintro ⟨h1, -⟩
    omega

/-- An operand is missing exactly if there are no tokens or the sequence dips. -/
theorem Ends.factorExpected_iff (h : Ends bindings tokens) :
    (∃ r, evaluate bindings tokens = .error (.refused r) ∧ r.kind = .factorExpected)
      ↔ tokens = [] ∨ Dips 0 tokens := by
  cases h with
  | value x hdips hnet h =>
    refine ⟨(by rw [h]; rintro ⟨r, ⟨⟩, -⟩), ?_⟩
    rintro (rfl | hd)
    · cases hnet
    · exact absurd hd hdips
  | short op hdips h => exact ⟨fun _ => .inr hdips, fun _ => ⟨_, h, rfl⟩⟩
  | empty htokens h => exact ⟨fun _ => .inl htokens, fun _ => ⟨_, h, rfl⟩⟩
  | surplus count hdips hnet hcount h =>
    constructor
    · rw [h]
      rintro ⟨r, ⟨⟩, ⟨⟩⟩
    · rintro (rfl | hd)
      · rw [netDepth] at hnet
        omega
      · exact absurd hd hdips

/-- An operator is missing exactly if the sequence never dips and leaves two values or more. -/
theorem Ends.operatorExpected_iff (h : Ends bindings tokens) :
    (∃ r, evaluate bindings tokens = .error (.refused r) ∧ r.kind = .operatorExpected)
      ↔ ¬ Dips 0 tokens ∧ 2 ≤ netDepth tokens := by
  cases h with
  | value x hdips hnet h =>
    refine ⟨(by rw [h]; rintro ⟨r, ⟨⟩, -⟩), ?_⟩
    rintro ⟨-, h2⟩
    omega
  | short op hdips h =>
    refine ⟨(by rw [h]; rintro ⟨r, ⟨⟩, ⟨⟩⟩), ?_⟩
    rintro ⟨hd, -⟩
    exact absurd hdips hd
  | empty htokens h =>
    refine ⟨(by rw [h]; rintro ⟨r, ⟨⟩, ⟨⟩⟩), ?_⟩
    rintro ⟨-, h2⟩
    rw [htokens, netDepth] at h2
    omega
  | surplus count hdips hnet hcount h =>
    exact ⟨fun _ => ⟨hdips, by omega⟩, fun _ => ⟨_, h, rfl⟩⟩

/-- The message about values that are left over tells their number. -/
theorem message_leftOver (count : Nat) :
    (Refusal.leftOver count).message = "OperatorExpected: " ++ toString (count : Int)
      ++ " values left without an operator between them" := by
  have hdetail : toString count ++ " values left without an operator between them" ≠ "" := by
    rw [Ne, String.append_eq_empty_iff]
    exact fun h => absurd h.2 (by decide)
  calc (Refusal.leftOver count).message
      = "OperatorExpected" ++ ": "
          ++ (toString count ++ " values left without an operator between them") :=
        Report.message_of_detail hdetail
    _ = _ := by
        rw [← String.append_assoc]
        rfl

/-- There is no other way to fail, and the message of a missing operator counts the values. -/
theorem Ends.refused (h : Ends bindings tokens) {f : Failure}
    (hf : evaluate bindings tokens = .error f) :
    ∃ r, f = .refused r ∧ (r.kind = .factorExpected
      ∨ r.kind = .operatorExpected ∧ r.message = "OperatorExpected: "
          ++ toString (netDepth tokens) ++ " values left without an operator between them") := by
  cases h with
  | value x hdips hnet h =>
    rw [h] at hf
    cases hf
  | short op hdips h =>
    rw [h] at hf
    cases hf
    exact ⟨_, rfl, .inl rfl⟩
  | empty htokens h =>
    rw [h] at hf
    cases hf
    exact ⟨_, rfl, .inl rfl⟩
  | surplus count hdips hnet hcount h =>
    rw [h] at hf
    cases hf
    rw [hnet]
    exact ⟨_, rfl, .inr ⟨rfl, message_leftOver count⟩⟩

/-- With scalar variables, the depths of a sequence and of its beginnings decide what it comes to.
    It has a value exactly if it is complete; an operand is missing exactly if there are no tokens
    or some beginning has a net depth below one; and an operator is missing exactly if no beginning
    has and the whole has a net depth of at least two, which is then the number of values in the
    message. There is no other way to fail. -/
theorem outcome_of_depths (hv : ScalarVariables bindings tokens) :
    ((∃ v, evaluate bindings tokens = .ok v) ↔ isComplete tokens = true)
      ∧ ((∃ r, evaluate bindings tokens = .error (.refused r) ∧ r.kind = .factorExpected)
          ↔ tokens = [] ∨ ∃ first, first <+: tokens ∧ first ≠ [] ∧ netDepth first < 1)
      ∧ ((∃ r, evaluate bindings tokens = .error (.refused r) ∧ r.kind = .operatorExpected)
          ↔ (∀ first, first <+: tokens → first ≠ [] → 1 ≤ netDepth first) ∧ 2 ≤ netDepth tokens)
      ∧ (isComplete tokens = true
          ↔ netDepth tokens = 1 ∧ ∀ first, first <+: tokens → first ≠ [] → 1 ≤ netDepth first)
      ∧ ∀ f, evaluate bindings tokens = .error f →
          ∃ r, f = .refused r ∧ (r.kind = .factorExpected
            ∨ r.kind = .operatorExpected ∧ r.message = "OperatorExpected: "
                ++ toString (netDepth tokens)
                ++ " values left without an operator between them") := by
  have hends := ends_of_scalarVariables hv
  rw [← not_dips_zero_iff, ← dips_zero_iff]
  refine ⟨hends.ok_iff, hends.factorExpected_iff, hends.operatorExpected_iff,
    isComplete_iff_netDepth, ?_⟩
  intro f hf
  exact hends.refused hf

/-- The sequence `x + 1` has the net depth of one value, but the sign finds only one operand. -/
theorem short_at_sign_between :
    ScalarVariables (.register [("x", .single (.real 3))])
        [.var "x", .operator (.binary .add), .number 1]
      ∧ netDepth [.var "x", .operator (.binary .add), .number 1] = 1
      ∧ ∃ r, evaluate (.register [("x", .single (.real 3))])
          [.var "x", .operator (.binary .add), .number 1] = .error (.refused r)
        ∧ r.kind = .factorExpected := by
  have hv : ScalarVariables (.register [("x", .single (.real 3))])
      [.var "x", .operator (.binary .add), .number 1] := by
    intro name hname
    obtain rfl : name = "x" := by simpa using hname
    exact ⟨3, rfl⟩
  refine ⟨hv, rfl, (outcome_of_depths hv).2.1.mpr (.inr ?_)⟩
  exact ⟨[.var "x", .operator (.binary .add)], ⟨_, rfl⟩, List.cons_ne_nil _ _, by decide⟩

end Reckon.Postfix
