import Reckon.Proofs.Reading

/-! # Chains of operators of one strength

    A chain is an operand and then, again and again, an operator and the next operand, which may
    have minus signs in front. Grouped from the left, the operators take what stands before them as
    a whole (`leftmost`). Sums are always grouped so, because a waiting negation yields to the next
    sign (`convert_sum`). A product is grouped so up to its first signed factor only: the negation
    does not yield to `*` and `/`, and so it takes the whole rest of the chain as its operand
    (`grouped`). Both groupings agree if no factor but the last is signed (`convert_product`).

        sum:       1 - - 2 - 4       (1 - (-2)) - 4
        product:   1 / - 2 / 4       1 / (-(2 / 4)), from the left it were (1 / (-2)) / 4 -/

namespace Reckon

namespace Tree

/-- A tree behind so many minus signs. -/
def negated (t : Tree) : Nat → Tree
  | 0 => t
  | minuses + 1 => negate (t.negated minuses)

theorem postorder_negated (t : Tree) (minuses : Nat) :
    (t.negated minuses).postorder
      = t.postorder ++ List.replicate minuses (.operator .negate) := by
  induction minuses with
  | zero => exact (List.append_nil _).symm
  | succ minuses ih => rw [negated, postorder, ih, List.append_assoc, ← List.replicate_succ']

end Tree

namespace Infix

/-- An operator of a chain, the minus signs after it, and its right operand. -/
structure Link where
  op : Binary
  minuses : Nat
  operand : Tree

/-- The tokens of a link if its operand is all that the operator and the signs take on the right. -/
def Link.tokens (l : Link) : List Token :=
  l.operand.postorder ++ List.replicate l.minuses (.operator .negate) ++ [.operator (.binary l.op)]

/-- One link after a tree, grouped from the left. -/
def Link.join (left : Tree) (l : Link) : Tree := .binary l.op left (l.operand.negated l.minuses)

/-- A chain grouped from the left. -/
def leftmost (first : Tree) (links : List Link) : Tree := links.foldl Link.join first

/-- A chain in which the first minus takes all that follows. -/
def grouped (left : Tree) : List Link → Tree
  | [] => left
  | ⟨op, 0, operand⟩ :: links => grouped (.binary op left operand) links
  | ⟨op, minuses + 1, operand⟩ :: links =>
    .binary op left ((grouped operand links).negated (minuses + 1))

/-- Lexemes that are the links of a chain with the given operators. -/
inductive Links (allow : Bool) (ops : List Binary) : List Lexeme → List Link → Prop
  | nil : Links allow ops [] []
  | cons {op : Binary} (minuses : Nat) {lexemes after : List Lexeme} {operand : Tree}
      {links : List Link} (hop : op ∈ ops) (ho : Reads allow .atom lexemes operand after)
      (h : Links allow ops after links) :
      Links allow ops (.sign op :: (List.replicate minuses (.sign .sub) ++ lexemes))
        (⟨op, minuses, operand⟩ :: links)

/-- A text that is written as a chain: a number, a name, a call or a bracketed expression, and then
    links whose operands are such. -/
def Chain (allow : Bool) (ops : List Binary) (text : String) (first : Tree) (links : List Link) :
    Prop :=
  ∃ lexemes after, Written lexemes text.toList ∧ Reads allow .atom lexemes first after
    ∧ Links allow ops after links

variable {allow : Bool} {ops : List Binary} {lexemes : List Lexeme} {links : List Link}

/-! ### The two groupings -/

theorem leftmost_append (first : Tree) (init links : List Link) :
    leftmost first (init ++ links) = leftmost (leftmost first init) links :=
  List.foldl_append

/-- Grouped from the left, a chain is written link by link. -/
theorem postorder_leftmost (first : Tree) (links : List Link) :
    (leftmost first links).postorder = first.postorder ++ links.flatMap Link.tokens := by
  induction links generalizing first with
  | nil => exact (List.append_nil _).symm
  | cons l links ih =>
    rw [leftmost, List.foldl_cons, ← leftmost, ih, List.flatMap_cons, Link.join, Tree.postorder,
      Tree.postorder_negated, Link.tokens]
    simp only [List.append_assoc]

/-- Grouped from the left, a chain that goes on after an operator is not one expression of that
    operator's left operand, because the whole of it is further down on the left. -/
theorem leftmost_ne_binary {left right right' : Tree} {op op' : Binary} (hne : links ≠ []) :
    leftmost (.binary op left right) links ≠ .binary op' left right' := by
  obtain ⟨init, l, rfl⟩ : ∃ init l, links = init ++ [l] :=
    ⟨_, _, (List.dropLast_concat_getLast hne).symm⟩
  rw [leftmost_append]
  intro h
  have hleft : leftmost (.binary op left right) init = left := (Tree.binary.inj h).2.1
  have hlength := congrArg (fun t => t.postorder.length) hleft
  simp only [postorder_leftmost, Tree.postorder, List.length_append,
    List.length_singleton] at hlength
  omega

/-- The two groupings agree exactly if no link but the last has a minus. -/
theorem grouped_eq_leftmost_iff (first : Tree) (links : List Link) :
    grouped first links = leftmost first links ↔ ∀ l ∈ links.dropLast, l.minuses = 0 := by
  induction first, links using grouped.induct with
  | case1 left => exact iff_of_true rfl (List.forall_mem_nil _)
  | case2 left op operand links ih =>
    rw [grouped, leftmost, List.foldl_cons]
    refine ih.trans ?_
    cases links with
    | nil => exact Iff.rfl
    | cons l rest =>
      rw [List.dropLast_cons_of_ne_nil (List.cons_ne_nil l rest), List.forall_mem_cons]
      exact (and_iff_right rfl).symm
  | case3 left op minuses operand links ih =>
    cases links with
    | nil => exact iff_of_true rfl (List.forall_mem_nil _)
    | cons l rest =>
      refine iff_of_false ?_ ?_
      · exact fun h => leftmost_ne_binary (List.cons_ne_nil l rest) h.symm
      · exact fun h => Nat.succ_ne_zero minuses (h _ List.mem_cons_self)

/-! ### How a chain is read -/

theorem Links.head?_mem (h : Links allow ops lexemes links) {op : Binary}
    (hop : lexemes.head? = some (.sign op)) : op ∈ ops := by
  cases h with
  | nil => cases hop
  | cons _ hmem => cases hop; exact hmem

/-- An operand behind minus signs, where the operand is read at the level of a negation. -/
theorem reads_minuses {after : List Lexeme} {t : Tree} (h : Reads allow (.level 4) lexemes t after)
    (hstop : ∀ op, after.head? = some (.sign op) → strength op < 4) (minuses : Nat) :
    Reads allow (.level 4) (List.replicate minuses (.sign .sub) ++ lexemes) (t.negated minuses)
      after := by
  induction minuses with
  | zero => exact h
  | succ minuses ih => exact .level (.minus ih) (.stop hstop)

/-- Nothing is stronger than the first sign of the rest of a chain of the operators. -/
theorem Links.strength_lt (h : Links allow ops lexemes links) {m : Nat}
    (hops : ∀ op ∈ ops, strength op < m) :
    ∀ op, lexemes.head? = some (.sign op) → strength op < m :=
  fun op hop => hops op (h.head?_mem hop)

/-- In a product the first minus takes all that follows. -/
theorem Links.reads_product (h : Links allow [.mul, .div] lexemes links) {m : Nat} (hm : m ≤ 4)
    (left : Tree) : Reads allow (.rest m left) lexemes (grouped left links) [] := by
  have hops : ∀ op ∈ [Binary.mul, .div], strength op = 4 ∧ rightLevel op = 5 := by decide
  have hend : ∀ m op, ([] : List Lexeme).head? = some (.sign op) → strength op < m := by
    rintro m op ⟨⟩
  induction h generalizing m left with
  | nil => exact .stop (hend m)
  | @cons op minuses lexemes after operand links hop ho h ih =>
    obtain ⟨hstrength, hlevel⟩ := hops op hop
    rw [← hstrength] at hm
    cases minuses with
    | zero =>
      have hstop : ∀ other, after.head? = some (.sign other) → strength other < rightLevel op := by
        rw [hlevel]
        exact h.strength_lt (by decide)
      exact .operator hm (.level (.unsigned ho) (.stop hstop)) (ih (hstrength ▸ hm) _)
    | succ minuses =>
      have hrest : Reads allow (.level 4) lexemes (grouped operand links) [] :=
        .level (.unsigned ho) (ih (Nat.le_refl 4) operand)
      have hsigned := Reads.minus (reads_minuses hrest (hend 4) minuses)
      exact .operator hm (.level hsigned (.stop (hend _))) (.stop (hend m))

/-- In a sum every minus takes one operand. -/
theorem Links.reads_sum (h : Links allow [.add, .sub] lexemes links) {m : Nat} (hm : m ≤ 2)
    (left : Tree) : Reads allow (.rest m left) lexemes (leftmost left links) [] := by
  have hops : ∀ op ∈ [Binary.add, .sub], strength op = 2 ∧ rightLevel op = 3 := by decide
  induction h generalizing left with
  | nil => exact .stop (by rintro op ⟨⟩)
  | @cons op minuses lexemes after operand links hop ho h ih =>
    obtain ⟨hstrength, hlevel⟩ := hops op hop
    have hweak : ∀ other, after.head? = some (.sign other) → strength other < 3 :=
      h.strength_lt (by decide)
    have hsigned : Reads allow .signed (List.replicate minuses (.sign .sub) ++ lexemes)
        (operand.negated minuses) after := by
      cases minuses with
      | zero => exact .unsigned ho
      | succ minuses =>
        have hstop : ∀ other, after.head? = some (.sign other) → strength other < 4 :=
          fun other hother => Nat.lt_succ_of_lt (hweak other hother)
        exact .minus (reads_minuses (.level (.unsigned ho) (.stop hstop)) hstop minuses)
    refine .operator (hstrength ▸ hm) (.level hsigned (.stop ?_)) (ih _)
    rwa [hlevel]

/-! ### How a chain is converted -/

/-- A sum is grouped from the left, whatever signs its terms have. -/
theorem convert_sum {text : String} {first : Tree} (h : Chain allow [.add, .sub] text first links) :
    convert allow text = .ok (first.postorder ++ links.flatMap Link.tokens) := by
  obtain ⟨lexemes, after, hw, hfirst, hlinks⟩ := h
  rw [← postorder_leftmost]
  exact convert_of_reading ⟨_, hw, .level (.unsigned hfirst) (hlinks.reads_sum (Nat.zero_le 2) _)⟩

/-- A product is grouped from the left up to the first factor with a minus, which takes all that
    follows. So the product is what it is from the left exactly if no factor but the last has a
    minus. -/
theorem convert_product {text : String} {first : Tree}
    (h : Chain allow [.mul, .div] text first links) :
    convert allow text = .ok (grouped first links).postorder
      ∧ (convert allow text = .ok (first.postorder ++ links.flatMap Link.tokens)
          ↔ ∀ l ∈ links.dropLast, l.minuses = 0) := by
  obtain ⟨lexemes, after, hw, hfirst, hlinks⟩ := h
  have hconvert : convert allow text = .ok (grouped first links).postorder :=
    convert_of_reading
      ⟨_, hw, .level (.unsigned hfirst) (hlinks.reads_product (Nat.zero_le 4) _)⟩
  refine ⟨hconvert, ?_⟩
  rw [hconvert, ← postorder_leftmost, Except.ok.injEq, Tree.postorder_injective.eq_iff]
  exact grouped_eq_leftmost_iff first links

/-- Where only the last factor has minus signs, the product is grouped from the left. -/
theorem chain_signed_last_factor :
    Chain true [.mul, .div] " 8*[x]/- -2" (.number (Lexeme.value ['8'] none))
        [⟨.mul, 0, .var "x"⟩, ⟨.div, 2, .number (Lexeme.value ['2'] none)⟩]
      ∧ convert true " 8*[x]/- -2"
        = .ok [.number (Lexeme.value ['8'] none), .var "x", .operator (.binary .mul),
            .number (Lexeme.value ['2'] none), .operator .negate, .operator .negate,
            .operator (.binary .div)] := by
  have hw := Lexeme.written_lexemes " 8*[x]/- -2".toList
  have hcut : (Lexeme.lexemes " 8*[x]/- -2".toList).map (·.lexeme)
      = [.number ['8'] none, .sign .mul, .opening .square, .name ['x'], .closing .square,
          .sign .div, .sign .sub, .sign .sub, .number ['2'] none] := by
    decide +kernel
  rw [hcut] at hw
  have hbracket : Reads true .atom
      [.opening .square, .name ['x'], .closing .square, .sign .div, .sign .sub, .sign .sub,
        .number ['2'] none] (.var "x") [.sign .div, .sign .sub, .sign .sub, .number ['2'] none] :=
    .group .square (.level (.unsigned (.var rfl (by decide) _)) (.stop (by rintro op ⟨⟩)))
  have hlast : Links true [.mul, .div] [.sign .div, .sign .sub, .sign .sub, .number ['2'] none]
      [⟨.div, 2, .number (Lexeme.value ['2'] none)⟩] :=
    .cons 2 (by decide) (.number _ _ _) .nil
  have hlinks : Links true [.mul, .div]
      [.sign .mul, .opening .square, .name ['x'], .closing .square, .sign .div, .sign .sub,
        .sign .sub, .number ['2'] none]
      [⟨.mul, 0, .var "x"⟩, ⟨.div, 2, .number (Lexeme.value ['2'] none)⟩] :=
    .cons 0 (by decide) hbracket hlast
  have hchain : Chain true [.mul, .div] " 8*[x]/- -2" (.number (Lexeme.value ['8'] none))
      [⟨.mul, 0, .var "x"⟩, ⟨.div, 2, .number (Lexeme.value ['2'] none)⟩] :=
    ⟨_, _, hw, .number _ _ _, hlinks⟩
  exact ⟨hchain, (convert_product hchain).2.mpr (by simp)⟩

/-- One divided by minus two and then by four is not grouped from the left: it is one divided by the
    negation of `2/4`. -/
theorem chain_signed_middle_factor :
    Chain true [.mul, .div] "1/-2/4" (.number (Lexeme.value ['1'] none))
        [⟨.div, 1, .number (Lexeme.value ['2'] none)⟩,
          ⟨.div, 0, .number (Lexeme.value ['4'] none)⟩]
      ∧ convert true "1/-2/4"
        = .ok [.number (Lexeme.value ['1'] none), .number (Lexeme.value ['2'] none),
            .number (Lexeme.value ['4'] none), .operator (.binary .div), .operator .negate,
            .operator (.binary .div)]
      ∧ convert true "1/-2/4"
        ≠ .ok [.number (Lexeme.value ['1'] none), .number (Lexeme.value ['2'] none),
            .operator .negate, .operator (.binary .div), .number (Lexeme.value ['4'] none),
            .operator (.binary .div)] := by
  have hw := Lexeme.written_lexemes "1/-2/4".toList
  have hcut : Lexeme.lexemes "1/-2/4".toList
      = [⟨0, .number ['1'] none⟩, ⟨1, .sign .div⟩, ⟨2, .sign .sub⟩, ⟨3, .number ['2'] none⟩,
          ⟨4, .sign .div⟩, ⟨5, .number ['4'] none⟩] := by
    decide +kernel
  have hlast : Links true [.mul, .div] [.sign .div, .number ['4'] none]
      [⟨.div, 0, .number (Lexeme.value ['4'] none)⟩] :=
    .cons 0 (by decide) (.number _ _ _) .nil
  have hlinks : Links true [.mul, .div]
      [.sign .div, .sign .sub, .number ['2'] none, .sign .div, .number ['4'] none]
      [⟨.div, 1, .number (Lexeme.value ['2'] none)⟩,
        ⟨.div, 0, .number (Lexeme.value ['4'] none)⟩] :=
    .cons 1 (by decide) (.number _ _ _) hlast
  have hconvert : convert true "1/-2/4"
      = .ok [.number (Lexeme.value ['1'] none), .number (Lexeme.value ['2'] none),
          .number (Lexeme.value ['4'] none), .operator (.binary .div), .operator .negate,
          .operator (.binary .div)] := by
    rw [convert, hcut]
    rfl
  rw [hcut] at hw
  refine ⟨⟨_, _, hw, .number _ _ _, hlinks⟩, hconvert, ?_⟩
  rw [hconvert]
  simp

end Infix

end Reckon
