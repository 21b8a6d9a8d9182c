import Reckon.Proofs.Isolation

/-! # How a refusal is delivered

    A formula evaluator may raise a refusal or put a column of what is no number in its place. The
    choice changes nothing else (`evaluate_delivers`). A column that is made without a refusal is
    made either way, with the same journal; a refusal that is raised on the one hand is on the other
    hand a column on the index of the table and one more entry of the journal, which ends with the
    message; and every other failure is raised either way.

        over a and b:      a / b       a / (b       a / c        a / b, where b holds words
        refusals raised:   a column    refusal      refusal      failure
        otherwise:         the same    no numbers   no numbers   the same -/

namespace Reckon

/-! ### Failures of values -/

/-- An outcome that is no refusal. -/
def NotRefused {α : Type} (x : Except Failure α) : Prop := ∀ r, x ≠ .error (.refused r)

theorem notRefused_ok {α : Type} (a : α) : NotRefused (.ok a) := by rintro r ⟨⟩

theorem notRefused_map {α β : Type} {x : Except Failure α} (f : α → β) :
    NotRefused (x.map f) ↔ NotRefused x := by
  cases x with
  | ok a => exact iff_of_true (notRefused_ok _) (notRefused_ok _)
  | error e => simp [NotRefused, Except.map]

theorem Cell.toFloat_notRefused (c : Cell) : NotRefused c.toFloat := by
  -- the readings of integers and texts get names, because the cases would compute them
  obtain ⟨ofInt?, hint⟩ : ∃ f, f = Double.ofInt? := ⟨_, rfl⟩
  obtain ⟨ofText?, htext⟩ : ∃ f, f = Number.ofText? := ⟨_, rfl⟩
  delta Cell.toFloat
  rw [← hint, ← htext]
  cases c with
  | missing | flag | real => exact notRefused_ok _
  | whole n =>
    dsimp only
    cases ofInt? n with
    | none => rintro r ⟨⟩
    | some x => exact notRefused_ok x
  | text s =>
    dsimp only
    cases ofText? s.toList with
    | none => rintro r ⟨⟩
    | some x => exact notRefused_ok x
  | several | other => rintro r ⟨⟩

theorem Cell.toFloats_notRefused (cells : List Cell) : NotRefused (Cell.toFloats cells) := by
  induction cells with
  | nil => exact notRefused_ok _
  | cons c rest ih =>
    have hc := c.toFloat_notRefused
    rw [Cell.toFloats]
    cases h : c.toFloat with
    | error f =>
      rw [h] at hc
      rintro r ⟨⟩
      exact hc r rfl
    | ok x => exact (notRefused_map _).mpr ih

theorem Nested.toTensor_notRefused (nested : Nested) : NotRefused nested.toTensor := by
  have hcells := Cell.toFloats_notRefused nested.leaves
  intro r h
  unfold Nested.toTensor at h
  split at h
  · cases h
  · split at h
    · next hf =>
      cases h
      exact hcells r hf
    · split at h <;> cases h

namespace Table

theorem columnOf_notRefused (index : List Label) (items : List Nested) :
    NotRefused (columnOf index items) := by
  have htensor := (Nested.row items).toTensor_notRefused
  intro r h
  unfold columnOf at h
  split at h
  · next hf =>
    cases h
    exact htensor r hf
  · split at h <;> cases h

theorem countIndex_notRefused (entries : List (String × Raw)) :
    NotRefused (countIndex entries) := by
  induction entries with
  | nil => exact notRefused_ok _
  | cons entry rest ih =>
    obtain ⟨name, raw⟩ := entry
    cases raw with
    | list items => exact notRefused_ok _
    | point c => rintro r ⟨⟩
    | single | range | series => exact ih

theorem referenceIndex_notRefused (entries : Register Raw) :
    NotRefused (referenceIndex entries) := by
  unfold referenceIndex
  split
  · exact notRefused_ok _
  · exact countIndex_notRefused entries

theorem index_notRefused (table : Table) : NotRefused table.index := by
  cases table with
  | frame | other => exact notRefused_ok _
  | columns entries => exact referenceIndex_notRefused entries

theorem column_notRefused (table : Table) (v : Value) : NotRefused (table.column v) := by
  have hindex := table.index_notRefused
  cases v with
  | series s => exact notRefused_ok _
  | scalar x => exact (notRefused_map _).mpr hindex
  | array t =>
    intro r h
    unfold column at h
    simp only at h
    split at h
    · next hf =>
      cases h
      exact hindex r hf
    · split at h
      · split at h <;> cases h
      · cases h

/-! ### The index of a refused formula's column -/

/-- A table without arrays of no dimensions. -/
def NoPoints : Table → Prop
  | columns entries => ∀ entry ∈ entries, ∀ c, entry.2 ≠ .point c
  | _ => True

/-- The index of a labelled column. -/
def labels? : Raw → Option (List Label)
  | .series s => some s.index
  | _ => none

/-- The numbers of the rows of a list or an array. -/
def numbers? : Raw → Option (List Label)
  | .list items => some (Label.upTo items.length)
  | _ => none

/-- The index of a frame; the index of the first labelled column of a register, or else the numbers
    of the rows of its first list; and the single label zero where there is none of these. -/
def fallback : Table → List Label
  | frame f => f.index
  | columns entries =>
    match entries.findSome? fun entry => labels? entry.2 with
    | some index => index
    | none => (entries.findSome? fun entry => numbers? entry.2).getD [.int 0]
  | other _ => [.int 0]

theorem labelledIndex_eq (entries : List (String × Raw)) :
    labelledIndex entries = entries.findSome? fun entry => labels? entry.2 := by
  induction entries with
  | nil => rfl
  | cons entry rest ih =>
    obtain ⟨name, raw⟩ := entry
    cases raw with
    | series s => rfl
    | single | point | list | range => exact ih

theorem countIndex_eq {entries : List (String × Raw)}
    (h : ∀ entry ∈ entries, ∀ c, entry.2 ≠ .point c) :
    countIndex entries = .ok (entries.findSome? fun entry => numbers? entry.2) := by
  induction entries with
  | nil => rfl
  | cons entry rest ih =>
    obtain ⟨hentry, hrest⟩ := List.forall_mem_cons.mp h
    obtain ⟨name, raw⟩ := entry
    cases raw with
    | list items => rfl
    | point c => exact absurd rfl (hentry c)
    | single | range | series => exact ih hrest

theorem nothing_eq {table : Table} (h : table.NoPoints) :
    table.nothing = .ok (Series.constant table.fallback Double.nan) := by
  cases table with
  | frame | other => rfl
  | columns entries =>
    have hlabels := labelledIndex_eq entries
    simp only [nothing, index, referenceIndex, fallback, ← hlabels]
    cases labelledIndex entries with
    | some index => rfl
    | none =>
      rw [countIndex_eq h]
      rfl

theorem nothing_notRefused {table : Table} (h : table.NoPoints) : NotRefused table.nothing := by
  rw [nothing_eq h]
  exact notRefused_ok _

/-! ### What is prepared without a note -/

/-- Nothing is refused, and if something is made the journal stays empty. -/
structure Quiet {α : Type} (x : Logged (Option α)) : Prop where
  notRefused : NotRefused x.outcome
  entries : ∀ a, x.outcome = .ok (some a) → x.entries = []

theorem Quiet.map {α β : Type} {x : Logged (Option α)} (h : Quiet x) (f : α → β) :
    Quiet (x.bind fun a => Logged.ok (a.map f)) := by
  obtain ⟨entries, outcome⟩ := x
  cases outcome with
  | error e => exact ⟨fun r hr => h.notRefused r (by cases hr; rfl), by rintro b ⟨⟩⟩
  | ok found =>
    refine ⟨notRefused_ok _, ?_⟩
    intro b hb
    cases found with
    | none => cases hb
    | some a => exact (List.append_nil _).trans (h.entries a rfl)

theorem quiet_prepare (index : List Label) (entries : List (String × Raw)) :
    Quiet (prepare index entries) := by
  induction entries with
  | nil => exact ⟨notRefused_ok _, fun _ _ => rfl⟩
  | cons entry rest ih =>
    obtain ⟨name, raw⟩ := entry
    cases raw with
    | single | range | series => exact ih.map _
    | point c => exact ⟨by rintro r ⟨⟩, by rintro b ⟨⟩⟩
    | list items =>
      have hcolumn := columnOf_notRefused index items
      rw [prepare]
      split
      · split
        · next f hf => exact ⟨fun r hr => hcolumn r (hf.trans (by cases hr; rfl)), by rintro b ⟨⟩⟩
        · exact ih.map _
      · exact ⟨notRefused_ok _, by rintro b ⟨⟩⟩

theorem quiet_bindings (table : Table) : Quiet table.bindings := by
  cases table with
  | frame f => exact ⟨notRefused_ok _, fun _ _ => rfl⟩
  | other d => exact ⟨notRefused_ok _, by rintro b ⟨⟩⟩
  | columns entries =>
    have hreference := referenceIndex_notRefused entries
    rw [bindings]
    split
    · next f hf => exact ⟨fun r hr => hreference r (hf.trans (by cases hr; rfl)), by rintro b ⟨⟩⟩
    · next index _ => exact (quiet_prepare (index.getD []) entries).map _

end Table

/-! ### Both ways of delivery -/

/-- The errors among entries. -/
def errors (entries : List Entry) : List Entry := entries.filter fun e => e.level = .error

theorem errors_append (first second : List Entry) :
    errors (first ++ second) = errors first ++ errors second :=
  List.filter_append ..

theorem errors_eq_nil {entries : List Entry} (h : ∀ e ∈ entries, e.level = .debug) :
    errors entries = [] := by
  rw [errors, List.filter_eq_nil_iff]
  intro e he hw
  rw [h e he] at hw
  cases hw

/-- What is `delivered` in place of what is made if refusals are `raised`: the same unless there is
    a refusal, and for a refusal a column of what is no number and one error, which ends with the
    message of the refusal. -/
structure Delivers (table : Table) (raised delivered : Logged (Series Float)) : Prop where
  same : NotRefused raised.outcome → delivered = raised
  refused : ∀ r, raised.outcome = .error (.refused r) → ∃ s e before,
    delivered.outcome = .ok s ∧ s.index = table.fallback ∧ (∀ x ∈ s.cells, x = Double.nan)
      ∧ delivered.entries = raised.entries ++ [e] ∧ errors delivered.entries = [e]
      ∧ e.text = before ++ r.message
  hidden : NotRefused delivered.outcome

namespace Delivers

variable {table : Table} {raised delivered : Logged (Series Float)}

theorem refl (h : NotRefused raised.outcome) : Delivers table raised raised :=
  ⟨fun _ => rfl, fun r hr => absurd hr (h r), h⟩

/-- What comes first makes no difference, if there is no error in it. -/
theorem prepend {first : List Entry} (hfirst : errors first = [])
    (h : Delivers table raised delivered) :
    Delivers table ⟨first ++ raised.entries, raised.outcome⟩
      ⟨first ++ delivered.entries, delivered.outcome⟩ where
  same hr := by rw [h.same hr]
  refused r hr := by
    obtain ⟨s, e, before, hs, hindex, hnan, hentries, herrors, htext⟩ := h.refused r hr
    refine ⟨s, e, before, hs, hindex, hnan, ?_, ?_, htext⟩
    · rw [hentries, List.append_assoc]
    · rw [errors_append, hfirst, herrors, List.nil_append]
  hidden := h.hidden

end Delivers

namespace Formula

variable {table : Table} {formula : String}

theorem refuse_delivers (h : table.NoPoints) (replace : Bool) (formula : String) (r : Refusal) :
    Delivers table (refuse ⟨true, replace⟩ formula table r)
      (refuse ⟨false, replace⟩ formula table r) where
  same hr := absurd rfl (hr r)
  refused r' hr := by
    cases hr
    refine ⟨_, refusalEntry formula r, _, table.nothing_eq h, Series.index_constant _ _, ?_, rfl,
      rfl, rfl⟩
    exact fun x hx => Series.eq_of_mem_cells_constant hx
  hidden := table.nothing_notRefused h

theorem evaluateTokens_delivers (h : table.NoPoints) (settings : Settings) (replace : Bool)
    (formula : String) (bindings : Bindings) (tokens : List Token) :
    Delivers table (evaluateTokens settings ⟨true, replace⟩ formula table bindings tokens)
      (evaluateTokens settings ⟨false, replace⟩ formula table bindings tokens) := by
  have hlevel := errors_eq_nil (level_calculate settings bindings (tokens.map .token))
  unfold evaluateTokens
  generalize Expression.calculate settings bindings (tokens.map .token) = calculation at hlevel
  obtain ⟨entries, outcome⟩ := calculation
  cases outcome with
  | ok v => exact .refl ((notRefused_map _).mpr (table.column_notRefused v))
  | error f =>
    cases f with
    | refused r =>
      -- the entry about the sequence comes before the refusal is delivered
      have hsequence : errors (entries ++ [sequenceEntry tokens]) = [] := by
        rw [errors_append, hlevel]
        rfl
      have hall := (refuse_delivers h replace formula r).prepend hsequence
      simpa only [List.append_assoc, List.singleton_append] using hall
    | _ => exact .refl (by rintro r ⟨⟩)

theorem evaluateConverted_delivers (h : table.NoPoints) (settings : Settings) (replace : Bool)
    (formula : String) (tokens : List Token) :
    Delivers table (evaluateConverted settings ⟨true, replace⟩ formula table tokens)
      (evaluateConverted settings ⟨false, replace⟩ formula table tokens) := by
  have hquiet := table.quiet_bindings
  unfold evaluateConverted
  generalize table.bindings = prepared at hquiet
  obtain ⟨entries, outcome⟩ := prepared
  rcases outcome with f | (_ | bindings)
  · exact .refl fun r hr => hquiet.notRefused r (by cases hr; rfl)
  · exact .refl (table.nothing_notRefused h)
  · have hentries : entries = [] := hquiet.entries bindings rfl
    exact (evaluateTokens_delivers h settings replace formula bindings tokens).prepend
      (by rw [hentries]; rfl)

/-- How refusals are delivered changes nothing else. Over any table without arrays of no dimensions,
    a formula that is not refused comes to the same whether refusals are raised or not, column or
    failure, with the same journal. Where a refusal is raised, the other choice gives a column of
    what is no number on the index of the table, and the only error in its journal ends with the
    message of the refusal. And no refusal is ever raised with that choice. -/
theorem evaluate_delivers (h : table.NoPoints) (settings : Settings) (replace : Bool)
    (formula : String) :
    Delivers table (evaluate settings ⟨true, replace⟩ formula table)
      (evaluate settings ⟨false, replace⟩ formula table) := by
  have hlevel := errors_eq_nil (level_read settings true (.text formula))
  unfold evaluate
  generalize Expression.read settings true (.text formula) = reading at hlevel
  obtain ⟨entries, outcome⟩ := reading
  rcases outcome with f | tokens
  · cases f with
    | refused r => exact refuse_delivers h replace formula r
    | _ => exact .refl (by rintro r ⟨⟩)
  · exact (evaluateConverted_delivers h settings replace formula tokens).prepend hlevel

/-- The bracket that `a / (2` leaves open is refused, or gives a column with a row for each cell of
    the list. -/
theorem delivered_unclosed_bracket :
    (Table.columns [("a", .list [.cell (.real 1), .cell .missing])]).NoPoints
      ∧ (evaluate .standard ⟨true, true⟩ "a / (2"
          (.columns [("a", .list [.cell (.real 1), .cell .missing])])).outcome
        = .error (.refused (.unclosed .round 4))
      ∧ ∃ s, (evaluate .standard ⟨false, true⟩ "a / (2"
          (.columns [("a", .list [.cell (.real 1), .cell .missing])])).outcome = .ok s
        ∧ s.index = [.int 0, .int 1] ∧ ∀ x ∈ s.cells, x = Double.nan := by
  have hpoints : (Table.columns [("a", .list [.cell (.real 1), .cell .missing])]).NoPoints :=
    List.forall_mem_singleton.mpr (by rintro c ⟨⟩)
  have hcut : Lexeme.lexemes "a / (2".toList
      = [⟨0, .name ['a']⟩, ⟨2, .sign .div⟩, ⟨4, .opening .round⟩, ⟨5, .number ['2'] none⟩] := by
    decide +kernel
  have hread : (Expression.read .standard true (.text "a / (2")).outcome
      = .error (.refused (.unclosed .round 4)) := by
    have hconvert : Infix.convert true "a / (2" = .error (.unclosed .round 4) := by
      rw [Infix.convert, hcut]
      rfl
    have htokens := Expression.tokens_text Settings.unrestricted_standard true "a / (2"
    rw [hconvert] at htokens
    exact htokens
  have hraised : (evaluate .standard ⟨true, true⟩ "a / (2"
      (.columns [("a", .list [.cell (.real 1), .cell .missing])])).outcome
        = .error (.refused (.unclosed .round 4)) := by
    rw [evaluate, hread]
    rfl
  obtain ⟨s, -, -, hs, hindex, hnan, -⟩ :=
    (evaluate_delivers hpoints .standard true "a / (2").refused _ hraised
  exact ⟨hpoints, hraised, s, hs, hindex, hnan⟩

end Formula

end Reckon
