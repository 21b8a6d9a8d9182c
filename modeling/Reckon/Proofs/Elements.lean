import Reckon.Proofs.Cellwise
import Reckon.Proofs.Columns
import Reckon.Proofs.Scalars

/-! # Evaluation element by element

    Let the variables of a sequence stand for single doubles and for arrays of one shape. If an
    array is among them, a complete sequence is worth an array of that shape, and each of its
    elements is what the sequence is worth with every array replaced by its element at the same
    place (`evaluate_elements`).

    Which parts of the sequence are arrays is seen from the names in them (`Tree.value_many`). A
    power whose exponent is no array is computed in the same way in all places. One with an array
    of exponents is not: single doubles are squared where the exponent is 2, and arrays never are.
    So a place counts only as far as no array of exponents has a special element there.

        x = [4 9]   y = [3 2]   k = 2        x ^ y + k = [66 83]
        place 0:    4 ^ 3 + 2                place 1:    has the exponent 2 -/

namespace Reckon

/-! ### Arrays of one shape -/

namespace Value

/-- An array of the given shape. -/
def OfShape (shape : List Nat) (v : Value) : Prop := ∃ t : Tensor, v = .array t ∧ t.shape = shape

/-- An array of the given shape and its element at one place. -/
def ElementAt (shape : List Nat) (k : Nat) (v : Value) (x : Float) : Prop :=
  ∃ t : Tensor, v = .array t ∧ t.shape = shape ∧ t.cells[k]? = some x

theorem combine_array (f : Float → Float → Float) {t u : Tensor} (h : t.shape = u.shape) :
    combine f (.array t) (.array u) = .ok (.array (Tensor.zipSame f t u h)) := by
  simp only [combine, ofArrays, Tensor.zip?, dif_pos h]

theorem cellwise_ofShape (shape : List Nat) : Cellwise fun v _ => OfShape shape v where
  ne_scalar := by
    rintro v - ⟨t, rfl, -⟩ y ⟨⟩
  map f := by
    rintro v - ⟨t, rfl, ht⟩
    exact ⟨t.map f, rfl, ht⟩
  combine f := by
    rintro v w - - ⟨t, rfl, ht⟩ ⟨u, rfl, hu⟩
    exact ⟨_, combine_array f (ht.trans hu.symm), _, rfl, ht⟩

theorem cellwise_elementAt (shape : List Nat) (k : Nat) : Cellwise (ElementAt shape k) where
  ne_scalar := by
    rintro v x ⟨t, rfl, -⟩ y ⟨⟩
  map f := by
    rintro v x ⟨t, rfl, ht, hx⟩
    refine ⟨t.map f, rfl, ht, ?_⟩
    simp [Tensor.map, hx]
  combine f := by
    rintro v w x y ⟨t, rfl, ht, hx⟩ ⟨u, rfl, hu, hy⟩
    refine ⟨_, combine_array f (ht.trans hu.symm), _, rfl, ht, ?_⟩
    simp [Tensor.zipSame, List.getElem?_zipWith, hx, hy]

end Value

/-- The name stands for an array. -/
def Bindings.IsArray (bindings : Bindings) (name : String) : Prop :=
  ∃ t, bindings.value name = .ok (.array t)

/-- Raw data with an array replaced by its element at one place. -/
def Raw.element (k : Nat) (raw : Raw) : Raw :=
  match raw.value with
  | .ok (.array t) => .single (.real (t.cells[k]?.getD Double.nan))
  | _ => raw

/-- The entries of a register with every array replaced by its element at one place. -/
def Register.elements (k : Nat) (entries : Register Raw) : Register Raw :=
  entries.map fun entry => (entry.1, entry.2.element k)

/-! ### Names -/

section Names

variable {entries : Register Raw} {name : String}

theorem value_elements_of_scalar {x : Float}
    (h : (Bindings.register entries).value name = .ok (.scalar x)) (k : Nat) :
    (Bindings.register (entries.elements k)).value name = .ok (.scalar x) := by
  simp only [Bindings.value, Register.elements, Register.find?_map] at h ⊢
  cases hfind : entries.find? name with
  | none => simp [hfind] at h
  | some raw =>
    simp only [hfind] at h
    simp only [Option.map_some, Raw.element, h]

theorem value_elements_of_array {t : Tensor}
    (h : (Bindings.register entries).value name = .ok (.array t)) (k : Nat) :
    (Bindings.register (entries.elements k)).value name
      = .ok (.scalar (t.cells[k]?.getD Double.nan)) := by
  simp only [Bindings.value, Register.elements, Register.find?_map] at h ⊢
  cases hfind : entries.find? name with
  | none => simp [hfind] at h
  | some raw =>
    simp only [hfind] at h
    simp only [Option.map_some, Raw.element, h]
    rfl

end Names

/-! ### Trees -/

theorem map_eq_ok {α β : Type} {whole : Except Failure α} {f : α → β} {b : β}
    (h : whole.map f = .ok b) : ∃ a, whole = .ok a ∧ f a = b := by
  cases whole with
  | error g => cases h
  | ok a => exact ⟨a, rfl, Except.ok.inj h⟩

namespace Tree

/-- No power whose exponent mentions a variable for which `p` holds is an array of exponents with a
    special one at the given place. -/
def PlainElements (p : String → Prop) (bindings : Bindings) (k : Nat) : Tree → Prop
  | number _ => True
  | var _ => True
  | binary op left right =>
    left.PlainElements p bindings k ∧ right.PlainElements p bindings k
      ∧ (op = .pow → right.Mentions p → ∀ (exponents : Tensor) (y : Float),
          right.value bindings = .ok (.array exponents) → exponents.cells[k]? = some y →
          Scalar.isSpecial y = false)
  | negate t => t.PlainElements p bindings k
  | function _ t => t.PlainElements p bindings k

/-- An operation on each cell makes a value of many cells of one, and a double of a double. -/
theorem manyOrSingle_map {F : Value → Prop} (hF : Cellwise fun v _ => F v) (f : Float → Float)
    {many : Prop} {v : Value} (h : (many → F v) ∧ (¬ many → ∃ x, v = .scalar x)) :
    (many → F (v.map f)) ∧ (¬ many → ∃ x, v.map f = .scalar x) := by
  refine ⟨fun hm => @Cellwise.map _ hF f v 0 (h.1 hm), fun hn => ?_⟩
  obtain ⟨x, rfl⟩ := h.2 hn
  exact ⟨f x, rfl⟩

/-- A tree that mentions a name for values of many cells is worth such a value, and any other tree a
    double. -/
theorem value_many {F : Value → Prop} (hF : Cellwise fun v _ => F v) {p : String → Prop}
    {bindings : Bindings} {t : Tree}
    (hmany : ∀ name v, .var name ∈ t.postorder → p name → bindings.value name = .ok v → F v)
    (hsingle : ∀ name v, .var name ∈ t.postorder → ¬ p name → bindings.value name = .ok v →
      ∃ x, v = .scalar x)
    {v : Value} (hv : t.value bindings = .ok v) :
    (t.Mentions p → F v) ∧ (¬ t.Mentions p → ∃ x, v = .scalar x) := by
  induction t generalizing v with
  | number x =>
    cases hv
    exact ⟨False.elim, fun _ => ⟨x, rfl⟩⟩
  | var name =>
    exact ⟨fun hp => hmany name v List.mem_cons_self hp hv,
      fun hp => hsingle name v List.mem_cons_self hp hv⟩
  | binary op left right ihl ihr =>
    simp only [var_mem_binary] at hmany hsingle
    obtain ⟨a, b, ha, hb, hab⟩ := value_binary_eq_ok hv
    obtain ⟨hleft, hleft'⟩ := ihl (fun name v h => hmany name v (.inl h))
      (fun name v h => hsingle name v (.inl h)) ha
    obtain ⟨hright, hright'⟩ := ihr (fun name v h => hmany name v (.inr h))
      (fun name v h => hsingle name v (.inr h)) hb
    by_cases hr : right.Mentions p
    · refine ⟨fun _ => ?_, fun hn => absurd (Or.inr hr) hn⟩
      obtain ⟨x, hl⟩ : ∃ x, a = .scalar x ∨ F a := by
        by_cases hl : left.Mentions p
        · exact ⟨0, .inr (hleft hl)⟩
        · exact (hleft' hl).imp fun x hx => .inl hx
      obtain ⟨u, hu, hF'⟩ := hF.exists_binary (y := 0) op hl (hright hr)
      rw [hab] at hu
      exact Except.ok.inj hu ▸ hF'
    · obtain ⟨y, rfl⟩ := hright' hr
      rw [Value.binary_scalar_right] at hab
      cases hab
      obtain ⟨hmap, hmap'⟩ := manyOrSingle_map hF _ ⟨hleft, hleft'⟩
      exact ⟨fun hm => hmap (hm.resolve_right hr), fun hn => hmap' fun hl => hn (.inl hl)⟩
  | negate t ih =>
    simp only [var_mem_negate] at hmany hsingle
    obtain ⟨a, ha, rfl⟩ := map_eq_ok hv
    exact manyOrSingle_map hF _ (ih hmany hsingle ha)
  | function f t ih =>
    simp only [var_mem_function] at hmany hsingle
    obtain ⟨a, ha, rfl⟩ := map_eq_ok hv
    exact manyOrSingle_map hF _ (ih hmany hsingle ha)

/-- Where no array of exponents has a special element, no exponent is special for the elements. -/
theorem PlainElements.plainPowers {shape : List Nat} {k : Nat} {whole cell : Bindings} {t : Tree}
    (hmany : ∀ name v, .var name ∈ t.postorder → whole.IsArray name → whole.value name = .ok v →
      ∃ x, cell.value name = .ok (.scalar x) ∧ v.ElementAt shape k x)
    (hsingle : ∀ name v, .var name ∈ t.postorder → ¬ whole.IsArray name →
      whole.value name = .ok v → ∃ x, cell.value name = .ok (.scalar x) ∧ v = .scalar x)
    {v : Value} (hv : t.value whole = .ok v) (h : t.PlainElements whole.IsArray whole k) :
    t.PlainPowers whole.IsArray cell := by
  induction t generalizing v with
  | number x => trivial
  | var name => trivial
  | binary op left right ihl ihr =>
    simp only [var_mem_binary] at hmany hsingle
    obtain ⟨a, b, ha, hb, -⟩ := value_binary_eq_ok hv
    obtain ⟨hpl, hpr, hpow⟩ := h
    have hmany' := fun name v h => hmany name v (.inr h)
    have hsingle' := fun name v h => hsingle name v (.inr h)
    have hright := ihr hmany' hsingle' hb hpr
    refine ⟨ihl (fun name v h => hmany name v (.inl h)) (fun name v h => hsingle name v (.inl h))
      ha hpl, hright, ?_⟩
    intro hop hm y hy
    -- what the exponent is worth for the elements is the element of the array of exponents
    obtain ⟨x, hx, -, hat⟩ := value_at (Value.cellwise_elementAt shape k) hmany' hsingle' hb
    cases hy.symm.trans hx
    obtain ⟨exponents, rfl, -, hk⟩ := hat hm hright
    exact hpow hop hm exponents y hb hk
  | negate t ih =>
    simp only [var_mem_negate] at hmany hsingle
    obtain ⟨a, ha, -⟩ := map_eq_ok hv
    exact ih hmany hsingle ha h
  | function f t ih =>
    simp only [var_mem_function] at hmany hsingle
    obtain ⟨a, ha, -⟩ := map_eq_ok hv
    exact ih hmany hsingle ha h

end Tree

/-! ### Sequences -/

namespace Postfix

variable {entries : Register Raw} {shape : List Nat} {tokens : List Token}

/-- The variables of a sequence stand for single doubles or for arrays of the given shape. -/
def ShapedVariables (entries : Register Raw) (shape : List Nat) (tokens : List Token) : Prop :=
  ∀ name, .var name ∈ tokens →
    (∃ x, (Bindings.register entries).value name = .ok (.scalar x))
      ∨ ∃ t : Tensor, (Bindings.register entries).value name = .ok (.array t) ∧ t.shape = shape

/-- Element by element, the variables stand for single doubles. -/
theorem ShapedVariables.scalarVariables (h : ShapedVariables entries shape tokens) (k : Nat) :
    ScalarVariables (.register (entries.elements k)) tokens := by
  intro name hname
  rcases h name hname with ⟨x, hx⟩ | ⟨t, ht, -⟩
  · exact ⟨x, value_elements_of_scalar hx k⟩
  · exact ⟨_, value_elements_of_array ht k⟩

theorem ShapedVariables.exists_array (h : ShapedVariables entries shape tokens) {name : String}
    {v : Value} (hname : .var name ∈ tokens) (hyes : (Bindings.register entries).IsArray name)
    (hv : (Bindings.register entries).value name = .ok v) : v.OfShape shape := by
  obtain ⟨u, hu⟩ := hyes
  rcases h name hname with ⟨x, hx⟩ | ⟨t, ht, hshape⟩
  · cases hx.symm.trans hu
  · exact ⟨t, Except.ok.inj (hv.symm.trans ht), hshape⟩

/-- A name for a double stands for it at every place. -/
theorem ShapedVariables.exists_scalar (h : ShapedVariables entries shape tokens) {name : String}
    {v : Value} (hname : .var name ∈ tokens) (hnot : ¬ (Bindings.register entries).IsArray name)
    (hv : (Bindings.register entries).value name = .ok v) (k : Nat) :
    ∃ x, (Bindings.register (entries.elements k)).value name = .ok (.scalar x)
      ∧ v = .scalar x := by
  rcases h name hname with ⟨x, hx⟩ | ⟨t, ht, -⟩
  · exact ⟨x, value_elements_of_scalar hx k, Except.ok.inj (hv.symm.trans hx)⟩
  · exact absurd ⟨t, ht⟩ hnot

/-- A name for an array stands, at a place of its shape, for its element there. -/
theorem ShapedVariables.exists_element (h : ShapedVariables entries shape tokens) {name : String}
    {v : Value} (hname : .var name ∈ tokens) (hyes : (Bindings.register entries).IsArray name)
    (hv : (Bindings.register entries).value name = .ok v) {k : Nat} (hk : k < cellCount shape) :
    ∃ x, (Bindings.register (entries.elements k)).value name = .ok (.scalar x)
      ∧ v.ElementAt shape k x := by
  obtain ⟨t, rfl, hshape⟩ := h.exists_array hname hyes hv
  have hlt : k < t.cells.length := by rwa [t.fits, hshape]
  refine ⟨t.cells[k], ?_, t, rfl, hshape, List.getElem?_eq_getElem hlt⟩
  rw [value_elements_of_array hv, List.getElem?_eq_getElem hlt, Option.getD_some]

/-- A complete sequence has a value. -/
theorem ShapedVariables.exists_value (h : ShapedVariables entries shape tokens)
    (hc : isComplete tokens = true) : ∃ v, evaluate (.register entries) tokens = .ok v := by
  have hagree : Agree (fun v w => ((∃ x, v = .scalar x) ∨ v.OfShape shape) ∧ ∃ x, w = .scalar x)
      (evaluate (.register entries) tokens) (evaluate (.register (entries.elements 0)) tokens) := by
    refine evaluate_agree (kept_of_cellwise (Value.cellwise_ofShape shape)) ?_
    intro name hname
    rcases h name hname with ⟨x, hx⟩ | ⟨t, ht, hshape⟩
    · rw [hx, value_elements_of_scalar hx]
      exact .ok ⟨.inl ⟨x, rfl⟩, x, rfl⟩
    · rw [ht, value_elements_of_array ht]
      exact .ok ⟨.inr ⟨t, rfl, hshape⟩, _, rfl⟩
  obtain ⟨x, hx⟩ := evaluate_of_isComplete (h.scalarVariables 0) hc
  rcases hagree.cases with ⟨r, -, hr⟩ | ⟨v, w, hv, -⟩
  · cases hx.symm.trans hr
  · exact ⟨v, hv⟩

/-- A complete sequence whose variables stand for doubles and for arrays of one shape, at least one
    of them an array, is worth an array of that shape. Its element at a place is what the sequence
    is worth with every array replaced by its element there, if no power has an array of exponents
    with a special exponent at that place. -/
theorem evaluate_elements (hc : isComplete tokens = true)
    (hv : ShapedVariables entries shape tokens)
    (ha : ∃ name, .var name ∈ tokens ∧ (Bindings.register entries).IsArray name) :
    ∃ (t : Tree) (r : Tensor), t.postorder = tokens
      ∧ evaluate (.register entries) tokens = .ok (.array r) ∧ r.shape = shape
      ∧ ∀ k x, r.cells[k]? = some x →
          t.PlainElements (Bindings.register entries).IsArray (.register entries) k →
          evaluate (.register (entries.elements k)) tokens = .ok (.scalar x) := by
  obtain ⟨t, rfl⟩ := (Tree.isComplete_iff tokens).mp hc
  obtain ⟨name, hname, hyes⟩ := ha
  have hmentions : t.Mentions (Bindings.register entries).IsArray :=
    Tree.mentions_iff.mpr ⟨name, hyes, hname⟩
  obtain ⟨v, hvalue⟩ := hv.exists_value hc
  have hvalue' := (Tree.evaluate_postorder _ t).symm.trans hvalue
  obtain ⟨r, rfl, hshape⟩ : v.OfShape shape := by
    refine (Tree.value_many (Value.cellwise_ofShape shape) ?_ ?_ hvalue').1 hmentions
    · exact fun name v hname hyes hw => hv.exists_array hname hyes hw
    · exact fun name v hname hnot hw => (hv.exists_scalar hname hnot hw 0).imp fun _ h => h.2
  refine ⟨t, r, rfl, hvalue, hshape, ?_⟩
  intro k x hx hplain
  -- at a place of the shape, names for arrays have an element
  have hk : k < cellCount shape := by
    rw [← hshape, ← r.fits]
    exact (List.getElem?_eq_some_iff.mp hx).1
  have hmany : ∀ name v, .var name ∈ t.postorder → (Bindings.register entries).IsArray name →
      (Bindings.register entries).value name = .ok v →
      ∃ x, (Bindings.register (entries.elements k)).value name = .ok (.scalar x)
        ∧ v.ElementAt shape k x :=
    fun name v hname hyes hw => hv.exists_element hname hyes hw hk
  have hsingle : ∀ name v, .var name ∈ t.postorder → ¬ (Bindings.register entries).IsArray name →
      (Bindings.register entries).value name = .ok v →
      ∃ x, (Bindings.register (entries.elements k)).value name = .ok (.scalar x)
        ∧ v = .scalar x :=
    fun name v hname hnot hw => hv.exists_scalar hname hnot hw k
  obtain ⟨y, hy, -, hat⟩ := Tree.value_at (Value.cellwise_elementAt shape k) hmany hsingle hvalue'
  obtain ⟨u, hu, -, hcell⟩ := hat hmentions (hplain.plainPowers hmany hsingle hvalue')
  cases hu
  rw [Tree.evaluate_postorder, hy, Option.some.inj (hx.symm.trans hcell)]

/-- The sequence `x y ^ k +` with two arrays of one row and a single double. The exponent of the
    first place is 3, and it does not matter that the one beside it is 2. -/
theorem element_beside_square :
    ∃ r, evaluate (.register [("x", .list [.row [.cell (.real 4), .cell (.real 9)]]),
          ("y", .list [.row [.cell (.real 3), .cell (.real 2)]]), ("k", .single (.real 2))])
        [.var "x", .var "y", .operator (.binary .pow), .var "k", .operator (.binary .add)]
          = .ok (.array r)
      ∧ r.shape = [1, 2] ∧ r.cells[0]? = some (Float.pow 4 3 + 2) := by
  have hx : (Raw.list [.row [.cell (.real 4), .cell (.real 9)]]).value
      = .ok (.array ⟨[1, 2], [4, 9], rfl⟩) := rfl
  have hy : (Raw.list [.row [.cell (.real 3), .cell (.real 2)]]).value
      = .ok (.array ⟨[1, 2], [3, 2], rfl⟩) := rfl
  have hv : ShapedVariables [("x", .list [.row [.cell (.real 4), .cell (.real 9)]]),
      ("y", .list [.row [.cell (.real 3), .cell (.real 2)]]), ("k", .single (.real 2))] [1, 2]
      [.var "x", .var "y", .operator (.binary .pow), .var "k", .operator (.binary .add)] := by
    intro name hname
    simp only [List.mem_cons, Token.var.injEq, reduceCtorEq, List.not_mem_nil, or_false,
      false_or] at hname
    rcases hname with rfl | rfl | rfl
    · exact .inr ⟨_, hx, rfl⟩
    · exact .inr ⟨_, hy, rfl⟩
    · exact .inl ⟨2, rfl⟩
  obtain ⟨t, r, ht, hr, hshape, helements⟩ :=
    evaluate_elements (by decide) hv ⟨"x", by decide, _, hx⟩
  have hlt : 0 < r.cells.length := by
    rw [r.fits, hshape]
    decide
  have hcell := helements 0 _ (List.getElem?_eq_getElem hlt) (by
    obtain rfl : t = .binary .add (.binary .pow (.var "x") (.var "y")) (.var "k") :=
      Tree.postorder_injective ht
    refine ⟨⟨trivial, trivial, ?_⟩, trivial, nofun⟩
    rintro - - exponents y hexponents hk
    cases hexponents.symm.trans hy
    cases hk
    decide +kernel)
  have hpower : Scalar.powerBy 3 4 = Float.pow 4 3 :=
    Scalar.powerBy_of_isSpecial (by decide +kernel) 4
  refine ⟨r, hr, hshape, ?_⟩
  rw [List.getElem?_eq_getElem hlt, ← hpower]
  exact congrArg some (Value.scalar.inj (Except.ok.inj (hcell.symm.trans rfl)))

end Postfix

end Reckon
