import Reckon.Proofs.Outcomes
import Reckon.Proofs.Scalars

/-! # The first fault of a sequence

    A sequence that a caller hands in may have many faults: names that are not bound, items that are
    no tokens, operators that lack operands. Evaluation ends at the first of them, and what comes
    after it makes no difference (`fails_at_first_fault`). A stray is at fault however many values
    lie below it, and an operator is as long as they are fewer than it takes. Without a fault every
    item does what a token does; the sequence is then worth a double, or it has no items, or it
    leaves several values, whose number the refusal tells.

    Two sorts of items are misfits. An operator whose tag is made of parts cannot be looked up in
    the operator table, and an operator in a token of a type that takes another number of values
    cannot be applied to these. Evaluation ends there too, but not with a refusal
    (`not_refused_of_composite_tag`).

        items:   1   2   +   cosh?   *   x        bound: nothing
        values:  1   2   1   the fault is here, and the other two are never met -/

namespace Reckon

/-- An item whose numbers are doubles and whose names are texts. -/
def Item.IsPlain : Item → Prop
  | .array _ => False
  | .unnamed _ _ => False
  | _ => True

namespace Postfix

/-- What is wrong with an item that has so many values below it, and the kind of its refusal. -/
inductive Fault (entries : Register Raw) (below : Int) : Item → Kind → Prop
  /-- a name that is not bound -/
  | unbound {name : String} (h : entries.find? name = none) :
      Fault entries below (.token (.var name)) .unknownVariable
  /-- an item of a type that does not exist, -/
  | type (type value : String) : Fault entries below (.stray (.item type value)) .unknownSymbol
  /-- also if its value is made of parts -/
  | typeOfParts (type value : String) :
      Fault entries below (.composite (.item type value)) .unknownSymbol
  /-- a binary operator that does not exist -/
  | binary (tag : String) : Fault entries below (.stray (.binary tag)) .unknownSymbol
  /-- a unary operator that does not exist -/
  | unary (tag : String) : Fault entries below (.stray (.unary tag)) .unknownSymbol
  /-- a function that does not exist -/
  | function (tag : String) : Fault entries below (.stray (.function tag)) .unknownFunction
  /-- an operator with fewer values below it than it takes, -/
  | short {op : Operator} (h : below < op.arity) :
      Fault entries below (.token (.operator op)) .factorExpected
  /-- or than the type takes in which it is misplaced -/
  | shortOfType {type : OperatorType} {op : Operator} {hne : op.type ≠ type}
      (h : below < type.arity) : Fault entries below (.misplaced type op hne) .factorExpected

/-- An item with so many values below it that ends evaluation without a refusal. -/
inductive Misfit (below : Int) : Item → Prop
  /-- a binary operator with a tag that is made of parts -/
  | binary (tag : String) : Misfit below (.composite (.binary tag))
  /-- a unary operator with such a tag -/
  | unary (tag : String) : Misfit below (.composite (.unary tag))
  /-- a function with such a tag -/
  | function (tag : String) : Misfit below (.composite (.function tag))
  /-- an operator that takes another number of values than the type in which it is misplaced, where
      this type has the values that it takes -/
  | misplaced {type : OperatorType} {op : Operator} {hne : op.type ≠ type}
      (harity : op.arity ≠ type.arity) (h : (type.arity : Int) ≤ below) :
      Misfit below (.misplaced type op hne)

/-- How many values an item takes. -/
def takesOf : Item → Nat
  | .token t => takes t
  | .misplaced type _ _ => type.arity
  | _ => 0

/-- How many values items leave. -/
def valuesOf : List Item → Int
  | [] => 0
  | item :: rest => 1 - (takesOf item : Int) + valuesOf rest

/-- The item at a place is at fault, with the values that those before it leave. -/
def FaultAt (entries : Register Raw) (items : List Item) (i : Nat) (kind : Kind) : Prop :=
  ∃ item, items[i]? = some item ∧ Fault entries (valuesOf (items.take i)) item kind

/-- The item at a place is a misfit, with the values that those before it leave. -/
def MisfitAt (items : List Item) (i : Nat) : Prop :=
  ∃ item, items[i]? = some item ∧ Misfit (valuesOf (items.take i)) item

/-- Nothing is wrong with the items before a place. -/
def FaultlessTo (entries : Register Raw) (items : List Item) (i : Nat) : Prop :=
  ∀ j < i, (∀ kind, ¬ FaultAt entries items j kind) ∧ ¬ MisfitAt items j

theorem valuesOf_append (items more : List Item) :
    valuesOf (items ++ more) = valuesOf items + valuesOf more := by
  induction items with
  | nil => simp [valuesOf]
  | cons item rest ih => simp [valuesOf, ih]; omega

variable {entries : Register Raw} {items : List Item} {stack : List Value} {item : Item}
  {kind : Kind}

/-! ### One item -/

/-- A fault ends evaluation with a refusal of its kind, whichever values lie below. -/
theorem step_fault {below : Int} (h : Fault entries below item kind) :
    ∃ r, r.kind = kind ∧ ∀ stack : List Value, (stack.length : Int) = below →
      step (.register entries) stack item = .error (.refused r) := by
  cases h with
  | @unbound name h =>
    refine ⟨.unbound name, rfl, fun _ _ => ?_⟩
    simp [step, Bindings.value, h, Except.map]
  | type => exact ⟨_, rfl, fun _ _ => rfl⟩
  | typeOfParts => exact ⟨_, rfl, fun _ _ => rfl⟩
  | binary => exact ⟨_, rfl, fun _ _ => rfl⟩
  | unary => exact ⟨_, rfl, fun _ _ => rfl⟩
  | function => exact ⟨_, rfl, fun _ _ => rfl⟩
  | @short op h =>
    refine ⟨.missingOperand op.type op, rfl, fun stack hlen => operate_short op ?_⟩
    exact Int.ofNat_lt.mp (hlen ▸ h)
  | @shortOfType type op _ h =>
    refine ⟨.missingOperand type op, rfl, fun stack hlen => ?_⟩
    rw [step, operateAs, if_pos (Int.ofNat_lt.mp (hlen ▸ h))]

/-- A misfit ends evaluation, but not with a refusal. -/
theorem step_misfit (bindings : Bindings) (h : Misfit stack.length item) :
    step bindings stack item = .error .wrongKind := by
  cases h with
  | binary | unary | function => rfl
  | misplaced harity h =>
    rw [step, operateAs, if_neg (Nat.not_lt.mpr (Int.ofNat_le.mp h)), if_neg harity]

/-- An item with which nothing is wrong does what the token does that is written for it. -/
theorem exists_token (hp : item.IsPlain) (hf : ∀ kind, ¬ Fault entries stack.length item kind)
    (hm : ¬ Misfit stack.length item) :
    ∃ t, item.written = .ok t ∧ takesOf item = takes t
      ∧ step (.register entries) stack item = step (.register entries) stack (.token t)
      ∧ ∀ kind, ¬ Fault entries stack.length (.token t) kind := by
  match item, hp with
  | .token t, _ => exact ⟨t, rfl, rfl, rfl, hf⟩
  | .misplaced type op hne, _ =>
    have hge : type.arity ≤ stack.length :=
      Nat.le_of_not_lt fun hlt => hf _ (.shortOfType (Int.ofNat_lt.mpr hlt))
    have harity : op.arity = type.arity :=
      not_not.mp fun hother => hm (.misplaced hother (Int.ofNat_le.mpr hge))
    refine ⟨.operator op, rfl, harity.symm, ?_, ?_⟩
    · show operateAs type op stack = operate op stack
      rw [operateAs, if_neg (Nat.not_lt.mpr hge), if_pos harity]
    · intro kind hfault
      cases hfault with
      | short hlt =>
        rw [harity] at hlt
        exact absurd (Int.ofNat_lt.mp hlt) (Nat.not_lt.mpr hge)
  | .stray (.binary tag), _ => exact absurd (.binary tag) (hf _)
  | .stray (.unary tag), _ => exact absurd (.unary tag) (hf _)
  | .stray (.function tag), _ => exact absurd (.function tag) (hf _)
  | .stray (.item type value), _ => exact absurd (.type type value) (hf _)
  | .composite (.item type value), _ => exact absurd (.typeOfParts type value) (hf _)
  | .composite (.binary tag), _ => exact absurd (.binary tag) hm
  | .composite (.unary tag), _ => exact absurd (.unary tag) hm
  | .composite (.function tag), _ => exact absurd (.function tag) hm

/-- A token with which nothing is wrong takes its values from a stack of doubles and leaves one. -/
theorem step_faultless (hb : ∀ entry ∈ entries, ∃ x, entry.2.value = .ok (.scalar x))
    (hs : AllScalars stack) {t : Token}
    (hf : ∀ kind, ¬ Fault entries stack.length (.token t) kind) :
    ∃ next, step (.register entries) stack (.token t) = .ok next ∧ AllScalars next ∧ next ≠ []
      ∧ (next.length : Int) = stack.length + (1 - takes t) := by
  have htakes : takes t ≤ stack.length := by
    cases t with
    | number x => exact Nat.zero_le _
    | var name => exact Nat.zero_le _
    | operator op => exact Nat.le_of_not_lt fun hlt => hf _ (.short (Int.ofNat_lt.mpr hlt))
  have hv : ScalarVariables (.register entries) [t] := by
    intro name hname
    obtain rfl := List.mem_singleton.mp hname
    cases hfind : entries.find? name with
    | none => exact absurd (.unbound hfind) (hf _)
    | some raw =>
      obtain ⟨x, hx⟩ := hb _ (Register.mem_of_find? hfind)
      exact ⟨x, by simp [Bindings.value, hfind, hx]⟩
  obtain ⟨next, hnext, hscalars, hlen⟩ := step_scalars hs htakes hv
  refine ⟨next, hnext, hscalars, ?_, by omega⟩
  rintro rfl
  cases hlen

/-! ### Sequences -/

/-- Up to a place before which nothing is wrong, the items have a written form, and evaluation
    leaves as many doubles as they say; it leaves none only if there are no items. -/
theorem run_take (hb : ∀ entry ∈ entries, ∃ x, entry.2.value = .ok (.scalar x))
    (hp : ∀ item ∈ items, item.IsPlain) {i : Nat} (hi : i ≤ items.length)
    (hf : FaultlessTo entries items i) :
    ∃ (tokens : List Token) (stack : List Value), tokensBy Item.written (items.take i) = .ok tokens
      ∧ run (.register entries) [] (items.take i) = .ok stack ∧ AllScalars stack
      ∧ (stack.length : Int) = valuesOf (items.take i) ∧ (stack = [] → i = 0) := by
  induction i with
  | zero => exact ⟨[], [], rfl, rfl, List.forall_mem_nil _, rfl, fun _ => rfl⟩
  | succ i ih =>
    obtain ⟨tokens, stack, htokens, hrun, hs, hlen, -⟩ := ih (Nat.le_of_succ_le hi) fun j hj =>
      hf j (Nat.lt_succ_of_lt hj)
    have hget : items[i]? = some items[i] := List.getElem?_eq_getElem hi
    obtain ⟨hfault, hmisfit⟩ := hf i (Nat.lt_succ_self i)
    have hfaultless : ∀ kind, ¬ Fault entries stack.length items[i] kind := by
      intro kind h
      rw [hlen] at h
      exact hfault kind ⟨_, hget, h⟩
    have hfits : ¬ Misfit stack.length items[i] := by
      intro h
      rw [hlen] at h
      exact hmisfit ⟨_, hget, h⟩
    obtain ⟨t, hwritten, htakes, hsame, htoken⟩ :=
      exists_token (hp _ (List.getElem_mem hi)) hfaultless hfits
    obtain ⟨next, hstep, hnext, hne, hlength⟩ := step_faultless hb hs htoken
    have htake : items.take (i + 1) = items.take i ++ [items[i]] := by
      rw [List.take_add_one, hget]
      rfl
    rw [htake]
    refine ⟨tokens ++ [t], next, ?_, ?_, hnext, ?_, fun h => absurd h hne⟩
    · rw [tokensBy_append, htokens, tokensBy, hwritten]
      rfl
    · rw [run_append, hrun]
      simp [run, hsame, hstep]
    · rw [valuesOf_append, ← hlen, hlength]
      simp [valuesOf, htakes]

/-- Evaluation ends where an item ends it, and what comes after that item makes no difference. -/
theorem evaluate_take_append (hb : ∀ entry ∈ entries, ∃ x, entry.2.value = .ok (.scalar x))
    (hp : ∀ item ∈ items, item.IsPlain) {i : Nat} (hf : FaultlessTo entries items i)
    (hitem : items[i]? = some item) {f : Failure}
    (h : ∀ stack : List Value, (stack.length : Int) = valuesOf (items.take i) →
      step (.register entries) stack item = .error f) (more : List Item) :
    evaluateItems (.register entries) (items.take (i + 1) ++ more) = .error f := by
  have hlt : i < items.length := (List.getElem?_eq_some_iff.mp hitem).1
  obtain ⟨-, stack, -, hrun, -, hlen, -⟩ := run_take hb hp hlt.le hf
  rw [evaluateItems, List.take_add_one, hitem, List.append_assoc, run_append, hrun]
  simp [run, h stack hlen]

/-- A fault before which nothing is wrong decides, and so does a misfit. -/
theorem evaluate_fault (hb : ∀ entry ∈ entries, ∃ x, entry.2.value = .ok (.scalar x))
    (hp : ∀ item ∈ items, item.IsPlain) {i : Nat} (hf : FaultlessTo entries items i)
    (h : FaultAt entries items i kind) :
    ∃ r, r.kind = kind ∧ ∀ more,
      evaluateItems (.register entries) (items.take (i + 1) ++ more) = .error (.refused r) := by
  obtain ⟨item, hitem, hfault⟩ := h
  obtain ⟨r, hr, hstep⟩ := step_fault hfault
  exact ⟨r, hr, evaluate_take_append hb hp hf hitem hstep⟩

theorem evaluate_misfit (hb : ∀ entry ∈ entries, ∃ x, entry.2.value = .ok (.scalar x))
    (hp : ∀ item ∈ items, item.IsPlain) {i : Nat} (hf : FaultlessTo entries items i)
    (h : MisfitAt items i) (more : List Item) :
    evaluateItems (.register entries) (items.take (i + 1) ++ more) = .error .wrongKind := by
  obtain ⟨item, hitem, hm⟩ := h
  exact evaluate_take_append hb hp hf hitem (fun stack hlen => step_misfit _ (hlen ▸ hm)) more

/-- A sequence without a fault is empty, or worth a double, or leaves several values. -/
theorem evaluate_faultless (hb : ∀ entry ∈ entries, ∃ x, entry.2.value = .ok (.scalar x))
    (hp : ∀ item ∈ items, item.IsPlain) (hf : FaultlessTo entries items items.length) :
    (items = [] ∧ evaluateItems (.register entries) items = .error (.refused .empty))
      ∨ (valuesOf items = 1 ∧ ∃ x, evaluateItems (.register entries) items = .ok (.scalar x))
      ∨ ∃ count, 2 ≤ count ∧ valuesOf items = (count : Nat)
        ∧ (∃ tokens, tokensBy Item.written items = .ok tokens)
        ∧ evaluateItems (.register entries) items = .error (.refused (.leftOver count)) := by
  obtain ⟨tokens, stack, htokens, hrun, hs, hlen, hempty⟩ := run_take hb hp (Nat.le_refl _) hf
  rw [List.take_length] at htokens hrun hlen
  rw [evaluateItems, hrun, ← hlen]
  rcases stack with _ | ⟨v, _ | ⟨w, rest⟩⟩
  · exact .inl ⟨List.eq_nil_of_length_eq_zero (hempty rfl), rfl⟩
  · obtain ⟨x, rfl⟩ := hs v List.mem_cons_self
    exact .inr (.inl ⟨rfl, x, rfl⟩)
  · refine .inr (.inr ⟨_, Nat.le_add_left 2 _, rfl, ⟨tokens, htokens⟩, ?_⟩)
    exact congrArg Except.error (surplus_of_written htokens _)

/-- If something is wrong in a sequence, there is a first place of it. -/
theorem faultless_or_exists_first (entries : Register Raw) (items : List Item) :
    FaultlessTo entries items items.length
      ∨ ∃ i, FaultlessTo entries items i
          ∧ ((∃ kind, FaultAt entries items i kind) ∨ MisfitAt items i) := by
  classical
  by_cases h : ∃ i, (∃ kind, FaultAt entries items i kind) ∨ MisfitAt items i
  · refine .inr ⟨Nat.find h, fun j hj => ?_, Nat.find_spec h⟩
    simpa using Nat.find_min h hj
  · refine .inl fun j _ => ?_
    simpa using not_exists.mp h j

/-- Let doubles be bound to some names. A sequence is refused at the first item that is at fault,
    with the kind that the fault has, and always by the same refusal whatever items come after it; a
    misfit ends evaluation there too, without a refusal. If there is no such item, the sequence is
    empty, or worth a double, or leaves several values, whose number the refusal tells; it has a
    written form then. Nothing else happens. -/
theorem fails_at_first_fault (hb : ∀ entry ∈ entries, ∃ x, entry.2.value = .ok (.scalar x))
    (hp : ∀ item ∈ items, item.IsPlain) :
    (∀ i kind, FaultlessTo entries items i → FaultAt entries items i kind →
        ∃ r, r.kind = kind ∧ ∀ more,
          evaluateItems (.register entries) (items.take (i + 1) ++ more) = .error (.refused r))
      ∧ (∀ i, FaultlessTo entries items i → MisfitAt items i →
        ∀ more, evaluateItems (.register entries) (items.take (i + 1) ++ more) = .error .wrongKind)
      ∧ (FaultlessTo entries items items.length →
        (items = [] ∧ evaluateItems (.register entries) items = .error (.refused .empty))
          ∨ (valuesOf items = 1 ∧ ∃ x, evaluateItems (.register entries) items = .ok (.scalar x))
          ∨ ∃ count, 2 ≤ count ∧ valuesOf items = (count : Nat)
            ∧ (∃ tokens, tokensBy Item.written items = .ok tokens)
            ∧ evaluateItems (.register entries) items = .error (.refused (.leftOver count)))
      ∧ ((∃ x, evaluateItems (.register entries) items = .ok (.scalar x))
          ∨ (∃ r, evaluateItems (.register entries) items = .error (.refused r))
          ∨ ∃ i, FaultlessTo entries items i ∧ MisfitAt items i
            ∧ evaluateItems (.register entries) items = .error .wrongKind) := by
  refine ⟨fun i kind hf h => evaluate_fault hb hp hf h,
    fun i hf h => evaluate_misfit hb hp hf h, fun hf => evaluate_faultless hb hp hf, ?_⟩
  have hsplit (i : Nat) : items.take (i + 1) ++ items.drop (i + 1) = items :=
    List.take_append_drop _ _
  rcases faultless_or_exists_first entries items with hf | ⟨i, hf, ⟨kind, h⟩ | h⟩
  · rcases evaluate_faultless hb hp hf with ⟨-, h⟩ | ⟨-, h⟩ | ⟨count, -, -, -, h⟩
    · exact .inr (.inl ⟨_, h⟩)
    · exact .inl h
    · exact .inr (.inl ⟨_, h⟩)
  · obtain ⟨r, -, hr⟩ := evaluate_fault hb hp hf h
    exact .inr (.inl ⟨r, hsplit i ▸ hr _⟩)
  · exact .inr (.inr ⟨i, hf, h, hsplit i ▸ evaluate_misfit hb hp hf h _⟩)

/-- In `x + cosh?` the sign lacks an operand, and that there is no such function is never seen. With
    two values below it, the negation in a binary token is a misfit. -/
theorem refused_at_sign_before_stray :
    (∃ r, r.kind = .factorExpected ∧ ∀ more,
        evaluateItems (.register [("x", .single (.real 3))])
            ([.token (.var "x"), .token (.operator (.binary .add))] ++ more)
          = .error (.refused r))
      ∧ ∀ more,
        evaluateItems (.register [("x", .single (.real 3))])
            ([.token (.var "x"), .token (.var "x"), .misplaced .binary .negate (by decide)] ++ more)
          = .error .wrongKind := by
  have hb : ∀ entry ∈ [("x", Raw.single (.real 3))], ∃ x, entry.2.value = .ok (.scalar x) :=
    List.forall_mem_singleton.mpr ⟨3, rfl⟩
  have hbound : ∀ below kind,
      ¬ Fault [("x", .single (.real 3))] below (.token (.var "x")) kind := by
    rintro below kind (⟨⟨⟩⟩ | _)
  have hfits : ∀ below, ¬ Misfit below (.token (.var "x")) := by
    rintro below ⟨⟩
  constructor
  · have hp : ∀ item ∈ [Item.token (.var "x"), .token (.operator (.binary .add)),
        .stray (.function "'cosh'")], item.IsPlain := by
      simp [Item.IsPlain]
    refine (fails_at_first_fault hb hp).1 1 .factorExpected ?_ ⟨_, rfl, .short (by decide)⟩
    intro j hj
    obtain rfl : j = 0 := Nat.lt_one_iff.mp hj
    refine ⟨?_, ?_⟩
    · rintro kind ⟨item, ⟨⟩, hfault⟩
      exact hbound _ _ hfault
    · rintro ⟨item, ⟨⟩, hm⟩
      exact hfits _ hm
  · have hp : ∀ item ∈ [Item.token (.var "x"), .token (.var "x"),
        .misplaced .binary .negate (by decide)], item.IsPlain := by
      simp [Item.IsPlain]
    refine (fails_at_first_fault hb hp).2.1 2 ?_ ⟨_, rfl, .misplaced (by decide) (by decide)⟩
    intro j hj
    have hget : [Item.token (.var "x"), .token (.var "x"),
        .misplaced .binary .negate (by decide)][j]? = some (.token (.var "x")) := by
      interval_cases j <;> rfl
    refine ⟨?_, ?_⟩
    · rintro kind ⟨item, hitem, hfault⟩
      cases hget.symm.trans hitem
      exact hbound _ _ hfault
    · rintro ⟨item, hitem, hm⟩
      cases hget.symm.trans hitem
      exact hfits _ hm

/-- A tag that is made of parts is not refused, and there is no value either. -/
theorem not_refused_of_composite_tag :
    ¬ ((∃ x, evaluateItems (.register []) [.token (.number 1), .composite (.unary "['~']")]
          = .ok (.scalar x))
      ∨ ∃ r, evaluateItems (.register []) [.token (.number 1), .composite (.unary "['~']")]
          = .error (.refused r)) := by
  rintro (⟨x, ⟨⟩⟩ | ⟨r, ⟨⟩⟩)

end Postfix

end Reckon
