import Reckon.Proofs.Cellwise
import Reckon.Proofs.Columns
import Reckon.Proofs.Double
import Reckon.Proofs.Unrestricted

/-! # Formulas row by row

    A formula makes one series for a whole table. Its rows do not depend on each other: each is
    what the formula is worth, as an expression, for the cells of that row alone, and all rows are
    refused together or none is (`Formula.evaluate_by_rows`). This holds for frames and for
    registers of columns, lists and single numbers, for empty tables, and for labels that repeat.
    Infinities are replaced at the end only (`Formula.Shows`); one that arises on the way counts as
    itself.

        row    a   b   k = 2       1/(1/(a-b)) + k         k/(a-b)
        r      3   1               1/(1/2) + 2 = 4         1
        r      1   1               1/inf + 2 = 2           inf, replaced by nan -/

namespace Reckon

/-! ### Series with the index of the table -/

theorem Series.cells_zipSame {α β : Type} (f : α → α → β) (s t : Series α) :
    (zipSame f s t).cells = List.zipWith f s.cells t.cells := by
  unfold cells zipSame
  rw [List.map_zipWith, List.zipWith_map]

theorem Series.cells_constant {α : Type} (labels : List Label) (a : α) :
    (constant labels a).cells = labels.map fun _ => a := by
  simp [constant, cells, Function.comp_def]

theorem Series.eq_of_mem_cells_constant {α : Type} {labels : List Label} {a b : α}
    (h : b ∈ (constant labels a).cells) : b = a := by
  rw [cells_constant] at h
  obtain ⟨label, -, rfl⟩ := List.mem_map.mp h
  rfl

namespace Value

/-- A series with the given index. -/
def OnIndex (index : List Label) (v : Value) : Prop := ∃ s, v = .series s ∧ s.index = index

/-- A series with the given index and its cell in one row. -/
def InRow (index : List Label) (i : Nat) (v : Value) (x : Float) : Prop :=
  ∃ s, v = .series s ∧ s.index = index ∧ s.cells[i]? = some x

theorem combine_series (f : Float → Float → Float) {s t : Series Float} (h : s.index = t.index) :
    combine f (.series s) (.series t) = .ok (.series (Series.zipSame f s t)) := by
  rw [combine, ofSeries, Series.zip?_of_eq _ _ h]

theorem cellwise_onIndex (index : List Label) : Cellwise fun v _ => OnIndex index v where
  ne_scalar := by
    rintro v - ⟨s, rfl, -⟩ y ⟨⟩
  map f := by
    rintro v - ⟨s, rfl, hi⟩
    exact ⟨s.map f, rfl, (Series.index_map f s).trans hi⟩
  combine f := by
    rintro v w - - ⟨s, rfl, hs⟩ ⟨t, rfl, ht⟩
    have hst := hs.trans ht.symm
    exact ⟨_, combine_series f hst, _, rfl, (Series.index_zipSame f hst).trans hs⟩

theorem cellwise_inRow (index : List Label) (i : Nat) : Cellwise (InRow index i) where
  ne_scalar := by
    rintro v x ⟨s, rfl, -⟩ y ⟨⟩
  map f := by
    rintro v x ⟨s, rfl, hi, hx⟩
    refine ⟨s.map f, rfl, (Series.index_map f s).trans hi, ?_⟩
    rw [Series.cells_map, List.getElem?_map, hx]
    rfl
  combine f := by
    rintro v w x y ⟨s, rfl, hs, hx⟩ ⟨t, rfl, ht, hy⟩
    have hst := hs.trans ht.symm
    refine ⟨_, combine_series f hst, _, rfl, (Series.index_zipSame f hst).trans hs, ?_⟩
    rw [Series.cells_zipSame, List.getElem?_zipWith, hx, hy]

end Value

namespace Table

variable {table : Table} {index : List Label}

/-- In the table a sequence of tokens is worth a series on the index or a double, and a double in
    every row, or it is refused alike everywhere. -/
theorem OnIndex.evaluate_agree (h : table.OnIndex index) (i : Nat) (tokens : List Token) :
    Postfix.Agree (fun v w => ((∃ x, v = .scalar x) ∨ v.OnIndex index) ∧ ∃ x, w = .scalar x)
      (Postfix.evaluate (table.labelled index) tokens) (Postfix.evaluate (table.row i) tokens) := by
  refine Postfix.evaluate_agree (Postfix.kept_of_cellwise (Value.cellwise_onIndex index)) ?_
  intro name _
  rcases h.value_cases name with ⟨hw, hr⟩ | ⟨-, s, hw, hs, hr⟩ | ⟨-, x, hw, hr⟩
  · rw [hw, hr]
    exact .refused _
  · obtain ⟨x, hx, -⟩ := hr i
    rw [hw, hx]
    exact .ok ⟨.inr ⟨s, rfl, hs⟩, x, rfl⟩
  · rw [hw, hr]
    exact .ok ⟨.inl ⟨x, rfl⟩, x, rfl⟩

/-- What a tree is worth in the table has in each row what the tree is worth there. -/
theorem OnIndex.value_row (h : table.OnIndex index) {i : Nat} (hi : i < index.length) {t : Tree}
    {v : Value} (hv : t.value (table.labelled index) = .ok v) :
    ∃ x, t.value (table.row i) = .ok (.scalar x)
      ∧ (¬ t.Mentions table.IsSequence → v = .scalar x)
      ∧ (t.Mentions table.IsSequence → t.PlainPowers table.IsSequence (table.row i) →
          v.InRow index i x) := by
  refine Tree.value_at (Value.cellwise_inRow index i) ?_ ?_ hv
  · intro name w _ hname hw
    rcases h.value_cases name with ⟨hunbound, -⟩ | ⟨-, s, hs, hindex, hr⟩ | ⟨hnot, -⟩
    · cases hunbound.symm.trans hw
    · cases hs.symm.trans hw
      obtain ⟨x, hx, hcell⟩ := hr i
      exact ⟨x, hx, s, rfl, hindex, hcell hi⟩
    · exact absurd hname hnot
  · intro name w _ hname hw
    rcases h.value_cases name with ⟨hunbound, -⟩ | ⟨hsequence, -⟩ | ⟨-, x, hx, hr⟩
    · cases hunbound.symm.trans hw
    · exact absurd hsequence hname
    · cases hx.symm.trans hw
      exact ⟨x, hr i, rfl⟩

/-- The column of what is no number has the index of the table. -/
theorem OnIndex.exists_nothing (h : table.OnIndex index) :
    ∃ s, table.nothing = .ok s ∧ s.index = index ∧ ∀ x ∈ s.cells, x = Double.nan := by
  refine ⟨Series.constant index Double.nan, ?_, Series.index_constant _ _, ?_⟩
  · rw [nothing, h.index_eq]
    rfl
  · exact fun x hx => Series.eq_of_mem_cells_constant hx

/-- The column of a value has the index of the table, and the cells of a series or always the same
    double. -/
theorem OnIndex.exists_column (h : table.OnIndex index) {v : Value}
    (hv : (∃ x, v = .scalar x) ∨ v.OnIndex index) :
    ∃ s, table.column v = .ok s ∧ s.index = index
      ∧ (∀ x, v = .scalar x → ∀ i, i < index.length → s.cells[i]? = some x)
      ∧ ∀ i x, v.InRow index i x → s.cells[i]? = some x := by
  rcases hv with ⟨x, rfl⟩ | ⟨s, rfl, hs⟩
  · refine ⟨Series.constant index x, ?_, Series.index_constant _ _, ?_, ?_⟩
    · rw [column, h.index_eq]
      rfl
    · rintro _ ⟨⟩ i hi
      rw [Series.cells_constant, List.getElem?_map, List.getElem?_eq_getElem hi]
      rfl
    · rintro i y ⟨s, ⟨⟩, -⟩
  · refine ⟨s, rfl, hs, ?_, ?_⟩
    · rintro x ⟨⟩
    · rintro i x ⟨_, ⟨⟩, -, hx⟩
      exact hx

/-- The column of a tree has in each row what the tree is worth there. -/
theorem OnIndex.column_rows (h : table.OnIndex index) {t : Tree} {v : Value}
    (hv : t.value (table.labelled index) = .ok v) (hform : (∃ x, v = .scalar x) ∨ v.OnIndex index) :
    ∃ s, table.column v = .ok s ∧ s.index = index
      ∧ ∀ i, i < index.length → ∃ x, t.value (table.row i) = .ok (.scalar x)
        ∧ (t.PlainPowers table.IsSequence (table.row i) → s.cells[i]? = some x) := by
  obtain ⟨s, hs, hindex, hsingle, hmany⟩ := h.exists_column hform
  refine ⟨s, hs, hindex, ?_⟩
  intro i hi
  obtain ⟨x, hx, hone, hcell⟩ := h.value_row hi hv
  refine ⟨x, hx, ?_⟩
  intro hplain
  by_cases hm : t.Mentions table.IsSequence
  · exact hmany i x (hcell hm hplain)
  · exact hsingle x (hone hm) i hi

end Table

namespace Formula

variable {settings : Settings} {options : FormulaOptions} {table : Table} {index : List Label}

theorem index_replaced (options : FormulaOptions) (s : Series Float) :
    (replaced options s).index = s.index := by
  unfold replaced
  split
  · exact Series.index_map _ s
  · rfl

/-- What a cell shows of the value of its row. Where infinities are replaced, either of them is
    shown as what is no number, and every other value is shown as it is. -/
structure Shows (replace : Bool) (x shown : Float) : Prop where
  infinite : replace = true → x.isInf = true → shown.isNaN = true
  other : (replace = true → x.isInf = false) → shown = x

theorem shows_finiteOrNan (x : Float) : Shows true x (finiteOrNan x) := by
  simp only [finiteOrNan, ← Double.isInf_iff]
  constructor
  · intro _ hx
    rw [if_pos hx]
    decide +kernel
  · intro hx
    rw [if_neg (Bool.eq_false_iff.mp (hx rfl))]

/-- Infinities are replaced cell by cell. -/
theorem exists_shown (options : FormulaOptions) {s : Series Float} {i : Nat} {x : Float}
    (h : s.cells[i]? = some x) :
    ∃ shown, (replaced options s).cells[i]? = some shown
      ∧ Shows options.replaceInfinities x shown := by
  unfold replaced
  split
  · next hreplace =>
    rw [hreplace, Series.cells_map, List.getElem?_map, h]
    exact ⟨_, rfl, shows_finiteOrNan x⟩
  · next hkeep => exact ⟨x, h, fun h => absurd h hkeep, fun _ => rfl⟩

/-- A formula that is refused while it is read makes the column of what is no number. -/
theorem outcome_of_refused (ho : options.raiseErrors = false) {formula : String} {r : Refusal}
    (h : Expression.tokens settings true (.text formula) = .error (.refused r)) :
    (evaluate settings options formula table).outcome = table.nothing := by
  have hread : (Expression.read settings true (.text formula)).outcome = .error (.refused r) := h
  rw [evaluate, hread]
  simp only [refuse, ho]
  rfl

/-- A converted formula makes the column of what its tokens are worth, and the column of what is no
    number if they are refused. -/
theorem outcome_of_tokens (hd : ∀ op, settings.defines op = true)
    (ho : options.raiseErrors = false) {bindings : Bindings}
    (hb : table.bindings = Logged.ok (some bindings)) {formula : String} {tokens : List Token}
    (h : Expression.tokens settings true (.text formula) = .ok tokens) :
    (evaluate settings options formula table).outcome
      = match Postfix.evaluate bindings tokens with
        | .ok v => (table.column v).map (replaced options)
        | .error (.refused _) => table.nothing
        | .error f => .error f := by
  have hread : (Expression.read settings true (.text formula)).outcome = .ok tokens := h
  have hcalculate : (Expression.calculate settings bindings (tokens.map .token)).outcome
      = Postfix.evaluate bindings tokens := by
    rw [Expression.calculate, Expression.map_known hd]
    rfl
  have hconverted : (evaluateConverted settings options formula table tokens).outcome
      = (evaluateTokens settings options formula table bindings tokens).outcome := by
    rw [evaluateConverted, hb]
    rfl
  rw [evaluate, hread]
  simp only [hconverted, evaluateTokens, hcalculate]
  cases Postfix.evaluate bindings tokens with
  | ok v => rfl
  | error f =>
    cases f with
    | refused r =>
      simp only [refuse, ho]
      rfl
    | _ => rfl

/-- Without restrictions and failures, a formula makes the column of what it is worth as an
    expression, and the column of what is no number if it is refused. -/
theorem outcome_evaluate (hs : settings.Unrestricted) (ho : options.raiseErrors = false)
    {bindings : Bindings} (hb : table.bindings = Logged.ok (some bindings)) (formula : String) :
    (evaluate settings options formula table).outcome
      = match (Expression.evaluate settings true bindings (.text formula)).outcome with
        | .ok v => (table.column v).map (replaced options)
        | .error (.refused _) => table.nothing
        | .error f => .error f := by
  have htokens := Expression.tokens_text hs true formula
  rw [Expression.outcome_evaluate hs]
  cases hconvert : Infix.convert true formula with
  | error r =>
    rw [hconvert] at htokens
    exact outcome_of_refused ho htokens
  | ok tokens =>
    rw [hconvert] at htokens
    exact outcome_of_tokens hs.defines ho hb htokens

/-- A formula over a table is evaluated row by row. Its series has exactly the index of the table.
    If the formula is refused for the columns of the table, it is refused for every row, and no
    cell of the series is a number. Otherwise it has a value for every row, a double, and that is
    what the cell of the row shows; only where a power has an exponent that depends on a sequence of
    the table and is 2, -1 or 0.5 in the row, the cell may differ. -/
theorem evaluate_by_rows (hu : settings.Unrestricted) (ho : options.raiseErrors = false)
    (ht : table.OnIndex index) (formula : String) :
    ∃ s columns, (evaluate settings options formula table).outcome = .ok s ∧ s.index = index
      ∧ table.bindings = Logged.ok (some columns)
      ∧ ((∃ r, (Expression.evaluate settings true columns (.text formula)).outcome
              = .error (.refused r)
            ∧ (∀ x ∈ s.cells, x = Double.nan)
            ∧ ∀ i, i < index.length →
              (Expression.evaluate settings true (table.row i) (.text formula)).outcome
                = .error (.refused r))
        ∨ ∃ (v : Value) (t : Tree),
          (Expression.evaluate settings true columns (.text formula)).outcome = .ok v
          ∧ Infix.convert true formula = .ok t.postorder
          ∧ ∀ i, i < index.length → ∃ x,
            (Expression.evaluate settings true (table.row i) (.text formula)).outcome
                = .ok (.scalar x)
              ∧ (t.PlainPowers table.IsSequence (table.row i) →
                ∃ shown, s.cells[i]? = some shown
                  ∧ Shows options.replaceInfinities x shown)) := by
  rw [outcome_evaluate hu ho ht.bindings_eq]
  simp only [Expression.outcome_evaluate hu]
  obtain ⟨s, hs, hindex, hnan⟩ := ht.exists_nothing
  cases hconvert : Infix.convert true formula with
  | error r =>
    exact ⟨s, _, hs, hindex, ht.bindings_eq, .inl ⟨r, rfl, hnan, fun _ _ => rfl⟩⟩
  | ok tokens =>
    rcases (ht.evaluate_agree 0 tokens).cases with ⟨r, hw, -⟩ | ⟨v, -, hw, -, hv, -⟩
    · simp only [hw]
      refine ⟨s, _, hs, hindex, ht.bindings_eq, .inl ⟨r, hw, hnan, ?_⟩⟩
      intro i _
      rcases (ht.evaluate_agree i tokens).cases with ⟨r', hw', hr⟩ | ⟨v, w, hw', -⟩
      · cases hw.symm.trans hw'
        exact hr
      · cases hw.symm.trans hw'
    · obtain ⟨t, rfl⟩ := (Tree.isComplete_iff tokens).mp (Postfix.isComplete_of_evaluate hw)
      have hvalue := (Tree.evaluate_postorder _ t).symm.trans hw
      obtain ⟨s, hs, hindex, hrows⟩ := ht.column_rows hvalue hv
      simp only [hw, hs, Except.map]
      refine ⟨_, _, rfl, (index_replaced options s).trans hindex, ht.bindings_eq,
        .inr ⟨v, t, hw, rfl, ?_⟩⟩
      intro i hi
      obtain ⟨x, hx, hcell⟩ := hrows i hi
      refine ⟨x, (Tree.evaluate_postorder _ t).trans hx, ?_⟩
      exact fun hplain => exists_shown options (hcell hplain)

/-- Two rows with the same label: the cells of a series, those of a list, and a number for both. -/
def twins : Table :=
  .columns
    [("x", .series ⟨none, [(.text "r", .real 0), (.text "r", .flag true)]⟩),
      ("y", .list [.cell (.real 1), .cell (.real 0)]),
      ("k", .single (.real 7))]

/-- The formula `1/(1/x)+k/y` over two rows with the same label. An infinity arises in the first row
    and counts as itself; the second row is worth one, which is replaced or shown. -/
theorem cell_of_repeated_label :
    ∃ s t, (evaluate .standard ⟨false, true⟩ "1/(1/x)+k/y" twins).outcome = .ok s
      ∧ (evaluate .standard ⟨false, false⟩ "1/(1/x)+k/y" twins).outcome = .ok t
      ∧ s.index = [.text "r", .text "r"]
      ∧ s.cells[0]? = some 7
      ∧ (∃ shown, s.cells[1]? = some shown ∧ shown.isNaN = true)
      ∧ t.cells[1]? = some (1 / 0) := by
  have ht : twins.OnIndex [.text "r", .text "r"] := by
    have hx : ∀ c ∈ [Cell.real 0, .flag true], c.IsNumeric :=
      List.forall_mem_cons.mpr ⟨⟨0, rfl⟩, List.forall_mem_singleton.mpr ⟨1, rfl⟩⟩
    have hy : ∀ c ∈ [Cell.real 1, .real 0], c.IsNumeric :=
      List.forall_mem_cons.mpr ⟨⟨1, rfl⟩, List.forall_mem_singleton.mpr ⟨0, rfl⟩⟩
    refine ⟨rfl, List.forall_mem_cons.mpr ⟨.series rfl hx, List.forall_mem_cons.mpr
      ⟨.list rfl hy, List.forall_mem_singleton.mpr (.single ⟨7, rfl⟩)⟩⟩⟩
  have hconvert : Infix.convert true "1/(1/x)+k/y"
      = .ok (Tree.binary .add (.binary .div (.number 1) (.binary .div (.number 1) (.var "x")))
          (.binary .div (.var "k") (.var "y"))).postorder := by
    have hcut : Lexeme.lexemes "1/(1/x)+k/y".toList
        = [⟨0, .number ['1'] none⟩, ⟨1, .sign .div⟩, ⟨2, .opening .round⟩, ⟨3, .number ['1'] none⟩,
            ⟨4, .sign .div⟩, ⟨5, .name ['x']⟩, ⟨6, .closing .round⟩, ⟨7, .sign .add⟩,
            ⟨8, .name ['k']⟩, ⟨9, .sign .div⟩, ⟨10, .name ['y']⟩] := by decide +kernel
    have hone : Lexeme.value ['1'] none = 1 := by decide +kernel
    rw [Infix.convert, hcut, ← hone]
    rfl
  have hrows (replace : Bool) : ∃ s,
      (evaluate .standard ⟨false, replace⟩ "1/(1/x)+k/y" twins).outcome = .ok s
        ∧ s.index = [.text "r", .text "r"]
        ∧ (∃ shown, s.cells[0]? = some shown ∧ Shows replace 7 shown)
        ∧ ∃ shown, s.cells[1]? = some shown ∧ Shows replace (1 / 0) shown := by
    obtain ⟨s, columns, hs, hindex, -, ⟨r, -, -, hrefused⟩ | ⟨v, t, -, htree, hrows⟩⟩ :=
      @evaluate_by_rows _ ⟨false, replace⟩ _ _ Settings.unrestricted_standard rfl ht "1/(1/x)+k/y"
    · have h := hrefused 0 (by decide)
      rw [Expression.outcome_evaluate Settings.unrestricted_standard, hconvert] at h
      cases h
    · cases Tree.postorder_injective (Except.ok.inj (htree.symm.trans hconvert))
      simp only [Expression.outcome_evaluate Settings.unrestricted_standard, hconvert,
        Tree.evaluate_postorder] at hrows
      refine ⟨s, hs, hindex, ?_, ?_⟩
      · obtain ⟨x, hx, hcell⟩ := hrows 0 (by decide)
        have hseven : (1 / (1 / 0) + 7 / 1 : Float) = 7 := by decide +kernel
        obtain rfl : 1 / (1 / 0) + 7 / 1 = x := Value.scalar.inj (Except.ok.inj hx)
        rw [← hseven]
        exact hcell (by simp [Tree.PlainPowers])
      · obtain ⟨x, hx, hcell⟩ := hrows 1 (by decide)
        have hinf : (1 / (1 / 1) + 7 / 0 : Float) = 1 / 0 := by decide +kernel
        obtain rfl : 1 / (1 / 1) + 7 / 0 = x := Value.scalar.inj (Except.ok.inj hx)
        rw [← hinf]
        exact hcell (by simp [Tree.PlainPowers])
  obtain ⟨s, hs, hindex, ⟨first, hfirst, hseven⟩, second, hsecond, hnan⟩ := hrows true
  obtain ⟨t, ht, -, -, shown, hshown, hkept⟩ := hrows false
  have hinf : (1 / 0 : Float).isInf = true := by decide +kernel
  refine ⟨s, t, hs, ht, hindex, ?_, ⟨second, hsecond, hnan.infinite rfl hinf⟩, ?_⟩
  · rw [hfirst, hseven.other fun _ => by decide +kernel]
  · rw [hshown, hkept.other fun h => absurd h Bool.false_ne_true]

end Formula

end Reckon
