import Reckon.Proofs.Agreement
import Reckon.Proofs.Tree

/-! # Evaluation cell by cell

    Arrays and series are computed cell by cell, so each cell of a result should be what the same
    expression is worth for the cells at its place. `Cellwise` says what is needed for that of a
    relation "this value has many cells, and this double is the one at the place": functions and
    operators pass through it. Then the worth of a tree passes through it too (`Tree.value_at`).

    Powers make an exception. An exponent that is one double for all bases may be computed as a
    square, a reciprocal or a root, and an exponent of many cells never is. So cell and tree agree
    only as far as no exponent of many cells has one of these three values at the place.

        x ^ (y / 2)      y of many cells: cell by cell, if no cell of y is 4, -2 or 1
        (x + y) ^ 2      squared cell by cell -/

namespace Reckon

namespace Scalar

/-- A binary operator on two single doubles. -/
def combine (op : Binary) (x y : Float) : Float :=
  match op with
  | .pow => powerBy y x
  | op => binary op x y

/-- The exponents with which a power of single doubles is computed in another way. -/
def isSpecial (exponent : Float) : Bool :=
  exponent == 2 || exponent == -1 || exponent == 0.5

theorem powerBy_of_isSpecial {exponent : Float} (h : isSpecial exponent = false) (x : Float) :
    powerBy exponent x = Float.pow x exponent := by
  simp only [isSpecial, Bool.or_eq_false_iff] at h
  simp [powerBy, h]

theorem combine_eq_binary {op : Binary} {y : Float} (h : op = .pow → isSpecial y = false)
    (x : Float) : combine op x y = binary op x y := by
  cases op with
  | pow => exact powerBy_of_isSpecial (h rfl) x
  | add | sub | mul | div => rfl

end Scalar

namespace Value

theorem combine_scalar_right (f : Float → Float → Float) (v : Value) (y : Float) :
    combine f v (.scalar y) = .ok (v.map (f · y)) := by
  cases v <;> rfl

/-- A single double on the right goes with every cell. -/
theorem binary_scalar_right (op : Binary) (v : Value) (y : Float) :
    binary op v (.scalar y) = .ok (v.map (Scalar.combine op · y)) := by
  cases op with
  | pow => rfl
  | add | sub | mul | div => exact combine_scalar_right _ v y

theorem binary_of_ne_scalar (op : Binary) (left : Value) {right : Value}
    (h : ∀ y, right ≠ .scalar y) :
    binary op left right = combine (Scalar.binary op) left right := by
  cases right with
  | scalar y => exact absurd rfl (h y)
  | array | series => cases op <;> rfl

end Value

/-- A relation between values of many cells and the double at one place. -/
structure Cellwise (At : Value → Float → Prop) : Prop where
  ne_scalar {v : Value} {x : Float} (h : At v x) (y : Float) : v ≠ .scalar y
  map (f : Float → Float) {v : Value} {x : Float} (h : At v x) : At (v.map f) (f x)
  combine (f : Float → Float → Float) {v w : Value} {x y : Float} (hv : At v x) (hw : At w y) :
    ∃ u, Value.combine f v w = .ok u ∧ At u (f x y)

namespace Cellwise

variable {At : Value → Float → Prop}

/-- A binary operator passes to the cells if the right operand has many. -/
theorem exists_binary (hA : Cellwise At) (op : Binary) {left right : Value} {x y : Float}
    (hl : left = .scalar x ∨ At left x) (hr : At right y) :
    ∃ u, Value.binary op left right = .ok u ∧ At u (Scalar.binary op x y) := by
  rw [Value.binary_of_ne_scalar op left (hA.ne_scalar hr)]
  rcases hl with rfl | hl
  · exact ⟨_, rfl, hA.map (Scalar.binary op x) hr⟩
  · exact hA.combine (Scalar.binary op) hl hr

/-- A function of every cell passes to the cells. Here `many` says that the value has many of them,
    and `plain` what their agreement depends on. -/
theorem exists_map (hA : Cellwise At) (f : Float → Float) {many plain : Prop}
    {whole cell : Except Failure Value} {v : Value} (hv : whole.map (Value.map f) = .ok v)
    (h : ∀ a, whole = .ok a →
      ∃ x, cell = .ok (.scalar x) ∧ (¬ many → a = .scalar x) ∧ (many → plain → At a x)) :
    ∃ x, cell.map (Value.map f) = .ok (.scalar x) ∧ (¬ many → v = .scalar x)
      ∧ (many → plain → At v x) := by
  cases whole with
  | error g => cases hv
  | ok a =>
    cases hv
    obtain ⟨x, rfl, hsingle, hmany⟩ := h a rfl
    refine ⟨f x, rfl, ?_, fun hm hp => hA.map f (hmany hm hp)⟩
    intro hn
    rw [hsingle hn]
    rfl

end Cellwise

/-- Values of one form and single doubles on one side, single doubles on the other: operators keep
    to these, so an evaluation of either kind ends as the other does. -/
theorem Postfix.kept_of_cellwise {F : Value → Prop} (hF : Cellwise fun v _ => F v) :
    Kept fun v w => ((∃ x, v = .scalar x) ∨ F v) ∧ ∃ x, w = .scalar x where
  scalar x := ⟨.inl ⟨x, rfl⟩, x, rfl⟩
  negate := by
    rintro v w ⟨⟨x, rfl⟩ | hv, y, rfl⟩
    · exact ⟨.inl ⟨_, rfl⟩, _, rfl⟩
    · exact ⟨.inr (@Cellwise.map _ hF _ v 0 hv), _, rfl⟩
  function f := by
    rintro v w ⟨⟨x, rfl⟩ | hv, y, rfl⟩
    · exact ⟨.inl ⟨_, rfl⟩, _, rfl⟩
    · exact ⟨.inr (@Cellwise.map _ hF _ v 0 hv), _, rfl⟩
  binary op := by
    rintro l l' r r' ⟨hl, x', rfl⟩ ⟨hr, y', rfl⟩
    rw [Value.binary_scalar_right op (.scalar x')]
    rcases hr with ⟨y, rfl⟩ | hr
    · rw [Value.binary_scalar_right]
      refine .ok ⟨?_, _, rfl⟩
      rcases hl with ⟨x, rfl⟩ | hl
      · exact .inl ⟨_, rfl⟩
      · exact .inr (@Cellwise.map _ hF _ l 0 hl)
    · have hl' : ∃ x, l = .scalar x ∨ F l := by
        rcases hl with ⟨x, rfl⟩ | hl
        · exact ⟨x, .inl rfl⟩
        · exact ⟨0, .inr hl⟩
      obtain ⟨x, hl'⟩ := hl'
      obtain ⟨u, hu, hF'⟩ := hF.exists_binary (y := 0) op hl' hr
      rw [hu]
      exact .ok ⟨.inr hF', _, rfl⟩

namespace Tree

/-- A variable for which `p` holds occurs in the tree. -/
def Mentions (p : String → Prop) : Tree → Prop
  | number _ => False
  | var name => p name
  | binary _ left right => left.Mentions p ∨ right.Mentions p
  | negate t => t.Mentions p
  | function _ t => t.Mentions p

/-- No power whose exponent mentions a variable for which `p` holds has one of the special exponents
    under the bindings. -/
def PlainPowers (p : String → Prop) (bindings : Bindings) : Tree → Prop
  | number _ => True
  | var _ => True
  | binary op left right =>
    left.PlainPowers p bindings ∧ right.PlainPowers p bindings
      ∧ (op = .pow → right.Mentions p →
          ∀ y, right.value bindings = .ok (.scalar y) → Scalar.isSpecial y = false)
  | negate t => t.PlainPowers p bindings
  | function _ t => t.PlainPowers p bindings

/-! ### The variables of a tree -/

section Variables

variable {name : String} {op : Binary} {left right t : Tree} {f : Function}

theorem var_mem_binary : .var name ∈ (binary op left right).postorder
    ↔ .var name ∈ left.postorder ∨ .var name ∈ right.postorder := by
  simp [postorder]

theorem var_mem_negate : .var name ∈ (negate t).postorder ↔ .var name ∈ t.postorder := by
  simp [postorder]

theorem var_mem_function : .var name ∈ (function f t).postorder ↔ .var name ∈ t.postorder := by
  simp [postorder]

/-- A tree mentions the variables of its sequence. -/
theorem mentions_iff {p : String → Prop} :
    t.Mentions p ↔ ∃ name, p name ∧ .var name ∈ t.postorder := by
  induction t with
  | number x => simp [Mentions, postorder]
  | var name => simp [Mentions, postorder]
  | binary op left right ihl ihr =>
    simp only [Mentions, ihl, ihr, var_mem_binary, and_or_left, exists_or]
  | negate t ih => simp only [Mentions, ih, var_mem_negate]
  | function f t ih => simp only [Mentions, ih, var_mem_function]

end Variables

/-! ### Values at a place -/

theorem value_binary_eq_ok {bindings : Bindings} {op : Binary} {left right : Tree} {v : Value}
    (h : (binary op left right).value bindings = .ok v) :
    ∃ a b, left.value bindings = .ok a ∧ right.value bindings = .ok b
      ∧ Value.binary op a b = .ok v := by
  rw [value] at h
  cases hl : left.value bindings with
  | error f => rw [hl] at h; cases h
  | ok a =>
    cases hr : right.value bindings with
    | error f => rw [hl, hr] at h; cases h
    | ok b =>
      rw [hl, hr] at h
      exact ⟨a, b, rfl, rfl, h⟩

/-- Let the names of a tree for which `p` holds stand for values of many cells, and its others for
    single doubles. Then the tree is worth, at a place, what it is worth for the cells at that
    place. -/
theorem value_at {At : Value → Float → Prop} (hA : Cellwise At) {p : String → Prop}
    {whole cell : Bindings} {t : Tree}
    (hmany : ∀ name v, .var name ∈ t.postorder → p name → whole.value name = .ok v →
      ∃ x, cell.value name = .ok (.scalar x) ∧ At v x)
    (hsingle : ∀ name v, .var name ∈ t.postorder → ¬ p name → whole.value name = .ok v →
      ∃ x, cell.value name = .ok (.scalar x) ∧ v = .scalar x)
    {v : Value} (hv : t.value whole = .ok v) :
    ∃ x, t.value cell = .ok (.scalar x) ∧ (¬ t.Mentions p → v = .scalar x)
      ∧ (t.Mentions p → t.PlainPowers p cell → At v x) := by
  induction t generalizing v with
  | number x =>
    cases hv
    exact ⟨x, rfl, fun _ => rfl, False.elim⟩
  | var name =>
    by_cases hp : p name
    · obtain ⟨x, hx, hat⟩ := hmany name v List.mem_cons_self hp hv
      exact ⟨x, hx, fun hn => absurd hp hn, fun _ _ => hat⟩
    · obtain ⟨x, hx, rfl⟩ := hsingle name v List.mem_cons_self hp hv
      exact ⟨x, hx, fun _ => rfl, fun hm => absurd hm hp⟩
  | binary op left right ihl ihr =>
    simp only [var_mem_binary] at hmany hsingle
    obtain ⟨a, b, ha, hb, hab⟩ := value_binary_eq_ok hv
    obtain ⟨x, hx, hxs, hxm⟩ := ihl (fun name v h => hmany name v (.inl h))
      (fun name v h => hsingle name v (.inl h)) ha
    obtain ⟨y, hy, hys, hym⟩ := ihr (fun name v h => hmany name v (.inr h))
      (fun name v h => hsingle name v (.inr h)) hb
    refine ⟨Scalar.combine op x y, ?_, ?_, ?_⟩
    · rw [value, hx, hy]
      exact Value.binary_scalar_right op (.scalar x) y
    · intro hn
      obtain ⟨hnl, hnr⟩ := not_or.mp hn
      rw [hxs hnl, hys hnr, Value.binary_scalar_right] at hab
      exact (Except.ok.inj hab).symm
    · rintro hm ⟨hpl, hpr, hpow⟩
      by_cases hr : right.Mentions p
      · have hleft : a = .scalar x ∨ At a x := by
          by_cases hl : left.Mentions p
          · exact .inr (hxm hl hpl)
          · exact .inl (hxs hl)
        obtain ⟨u, hu, hat⟩ := hA.exists_binary op hleft (hym hr hpr)
        rw [hab] at hu
        rw [Except.ok.inj hu, Scalar.combine_eq_binary fun hop => hpow hop hr y hy]
        exact hat
      · rw [hys hr, Value.binary_scalar_right] at hab
        rw [← Except.ok.inj hab]
        exact hA.map _ (hxm (hm.resolve_right hr) hpl)
  | negate t ih =>
    simp only [var_mem_negate] at hmany hsingle
    exact hA.exists_map (fun x => -x) hv fun a ha => ih hmany hsingle ha
  | function f t ih =>
    simp only [var_mem_function] at hmany hsingle
    exact hA.exists_map (Scalar.function f) hv fun a ha => ih hmany hsingle ha

end Tree

end Reckon
