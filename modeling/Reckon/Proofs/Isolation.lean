import Reckon.Proofs.Rows
import Reckon.Session

/-! # Formulas do not see each other

    Formulas are put on a frame one after another, but each is evaluated on the frame that was
    given. So what is in the frame after some of them can be told without following the steps
    (`Applied`): the given columns in their order and then the new ones, each formula with the
    column that it makes of the given frame, and all other columns as they were. One more formula
    keeps this (`Applied.step`), and the order of the formulas and how often they occur make no
    difference to any column (`applyAll_isolates`).

        given:      a      b + a         formulas:   b + a,  c * 2,  a,  b + a
        made:       a      b + a  c * 2  overwritten: b + a, then a, then b + a again -/

namespace Reckon

/-! ### Registers by their names -/

namespace Register

variable {α : Type}

theorem find?_eq_none_iff {r : Register α} {name : String} :
    find? r name = none ↔ name ∉ names r := by
  induction r with
  | nil => simp [find?_nil, names]
  | cons entry rest ih =>
    rw [find?_cons, names, List.map_cons, List.mem_cons]
    by_cases h : entry.1 = name
    · simp [h]
    · rw [if_neg h, ih]
      simp [names, Ne.symm h]

theorem has_iff {r : Register α} {name : String} : has r name = true ↔ name ∈ names r := by
  rw [has, Option.isSome_iff_ne_none, Ne, find?_eq_none_iff, not_not]

theorem nodup_names_put {r : Register α} (h : (names r).Nodup) (name : String) (a : α) :
    (names (put name a r)).Nodup := by
  rw [names_put]
  split
  · exact h
  · next hname =>
    rw [List.nodup_append]
    refine ⟨h, List.pairwise_singleton _ name, ?_⟩
    rintro other hother _ hlast rfl
    exact hname (List.mem_singleton.mp hlast ▸ hother)

/-- Two registers of distinct names are the same if they keep the same under the same names. -/
theorem eq_of_find?_eq {r s : Register α} (hn : names r = names s) (hd : (names r).Nodup)
    (h : ∀ name, find? r name = find? s name) : r = s := by
  induction r generalizing s with
  | nil => exact (List.map_eq_nil_iff.mp hn.symm).symm
  | cons entry rest ih =>
    obtain ⟨name, a⟩ := entry
    obtain ⟨⟨other, b⟩, more, rfl, hother, hrest⟩ := List.map_eq_cons_iff.mp hn.symm
    obtain rfl : other = name := hother
    obtain ⟨hname, hd⟩ := List.nodup_cons.mp hd
    have hhead : a = b := by simpa [find?_cons] using h other
    have htail : ∀ name, find? rest name = find? more name := by
      intro name
      -- the first name does not come again, so neither rest keeps anything under it
      by_cases heq : other = name
      · subst heq
        have hmore : other ∉ names more := by rwa [names, hrest]
        rw [find?_eq_none_iff.mpr hname, find?_eq_none_iff.mpr hmore]
      · simpa [find?_cons, heq] using h name
    rw [hhead, ih hrest.symm hd htail]

end Register

/-! ### Texts in the order of their first occurrence -/

theorem eraseDups_concat (l : List String) (a : String) :
    (l ++ [a]).eraseDups = if a ∈ l then l.eraseDups else l.eraseDups ++ [a] := by
  rw [List.eraseDups_append]
  by_cases h : a ∈ l <;> simp [h, List.removeAll, List.eraseDups_cons]

theorem eraseDups_append_self (l : List String) : (l ++ l).eraseDups = l.eraseDups := by
  have hnone : l.removeAll l = [] := by simp [List.removeAll]
  rw [List.eraseDups_append, hnone]
  exact List.append_nil _

/-! ### Putting a series into a frame -/

namespace Frame

/-- A series with the index of a frame is put into it cell by cell. -/
theorem columns_assign {f : Frame} (name : String) {s : Series Float} (h : s.index = f.index) :
    (f.assign name s).columns = Register.put name (s.cells.map .real) f.columns := by
  rw [assign, dif_pos h]
  rfl

theorem index_assign (f : Frame) (name : String) (s : Series Float) :
    (f.assign name s).index = f.index := by
  unfold assign
  split <;> rfl

theorem eq_of_columns_eq {f g : Frame} (hi : f.index = g.index) (hc : f.columns = g.columns) :
    f = g := by
  cases f
  cases g
  cases hi
  cases hc
  rfl

end Frame

/-! ### Warnings -/

/-- The warnings among entries. -/
def warnings (entries : List Entry) : List Entry :=
  entries.filter fun e => e.level = .warning

theorem warnings_append (first second : List Entry) :
    warnings (first ++ second) = warnings first ++ warnings second :=
  List.filter_append ..

theorem warnings_eq_nil {entries : List Entry} (h : ∀ e ∈ entries, e.level = .debug) :
    warnings entries = [] := by
  rw [warnings, List.filter_eq_nil_iff]
  intro e he hw
  rw [h e he] at hw
  cases hw

/-- Reading a text leaves nothing in the journal but what is of use for a search of faults. -/
theorem level_read (settings : Settings) (allow : Bool) (expression : Datum) :
    ∀ e ∈ (Expression.read settings allow expression).entries, e.level = .debug := by
  rw [Expression.read]
  cases Expression.tokens settings allow expression with
  | ok tokens => exact List.forall_mem_singleton.mpr rfl
  | error f => exact List.forall_mem_nil _

/-- So does the evaluation of a sequence. -/
theorem level_calculate (settings : Settings) (bindings : Bindings) (items : List Item) :
    ∀ e ∈ (Expression.calculate settings bindings items).entries, e.level = .debug := by
  rw [Expression.calculate, Postfix.calculate]
  unfold Postfix.entries
  split
  · exact List.forall_mem_singleton.mpr rfl
  · exact List.forall_mem_singleton.mpr rfl
  · exact List.forall_mem_nil _

namespace Formula

variable {settings : Settings} {options : FormulaOptions} {data made : Frame} {formula : String}

theorem warnings_refuse (table : Table) (r : Refusal) :
    warnings (refuse options formula table r).entries = [] := by
  unfold refuse
  split <;> rfl

theorem warnings_evaluateTokens (table : Table) (bindings : Bindings) (tokens : List Token) :
    warnings (evaluateTokens settings options formula table bindings tokens).entries = [] := by
  have hcalculate := warnings_eq_nil (level_calculate settings bindings (tokens.map .token))
  unfold evaluateTokens
  simp only
  split
  · exact hcalculate
  · rw [warnings_append, hcalculate]
    exact warnings_refuse table _
  · exact hcalculate

/-- No evaluation on a frame is a reason to warn. -/
theorem warnings_evaluate (settings : Settings) (options : FormulaOptions) (formula : String)
    (data : Frame) : warnings (evaluate settings options formula (.frame data)).entries = [] := by
  unfold evaluate
  simp only
  split
  · rw [warnings_append, warnings_eq_nil (level_read _ _ _)]
    exact warnings_evaluateTokens _ _ _
  · exact warnings_refuse _ _
  · rfl

/-! ### One formula -/

/-- On a frame of numeric cells every formula makes a column with the index of the frame. -/
theorem exists_column (hs : settings.LimitsLength) (ho : options.raiseErrors = false)
    (hd : ∀ column ∈ data.columns, ∀ c ∈ column.2, c.IsNumeric) (formula : String) :
    ∃ s, (evaluate settings options formula (.frame data)).outcome = .ok s
      ∧ s.index = data.index := by
  have ht := Table.onIndex_frame hd
  obtain ⟨s, hnothing, hindex, -⟩ := ht.exists_nothing
  rcases Expression.tokens_text_cases hs true formula with ⟨r, hr⟩ | ⟨tokens, htokens⟩
  · exact ⟨s, (outcome_of_refused ho hr).trans hnothing, hindex⟩
  · rw [outcome_of_tokens hs.defines ho ht.bindings_eq htokens]
    rcases (ht.evaluate_agree 0 tokens).cases with ⟨r, hr, -⟩ | ⟨v, -, hv, -, hform, -⟩
    · rw [hr]
      exact ⟨s, hnothing, hindex⟩
    · obtain ⟨s, hcolumn, hindex, -⟩ := ht.exists_column hform
      refine ⟨replaced options s, ?_, (index_replaced options s).trans hindex⟩
      rw [hv]
      simp only [hcolumn]
      rfl

/-- The formulas, position by position, whose text is one of the given names or occurs earlier. -/
def overwriting (names formulas : List String) : List String :=
  (formulas.zipIdx.filter fun entry =>
    entry.1 ∈ names ∨ entry.1 ∈ formulas.take entry.2).map (·.1)

theorem overwriting_concat (names first : List String) (formula : String) :
    overwriting names (first ++ [formula])
      = overwriting names first
        ++ if formula ∈ names ∨ formula ∈ first then [formula] else [] := by
  have hfirst : (first.zipIdx.filter fun entry =>
      entry.1 ∈ names ∨ entry.1 ∈ (first ++ [formula]).take entry.2)
      = first.zipIdx.filter fun entry => entry.1 ∈ names ∨ entry.1 ∈ first.take entry.2 := by
    refine List.filter_congr ?_
    rintro ⟨f, i⟩ hentry
    -- what comes before a position of `first` is the same in the longer list
    have hi : i < first.length + 0 := List.snd_lt_of_mem_zipIdx hentry
    rw [List.take_append_of_le_length (Nat.le_of_lt hi)]
  rw [overwriting, List.zipIdx_append, List.filter_append, List.map_append, hfirst]
  congr 1
  by_cases h : formula ∈ names ∨ formula ∈ first <;> simp [h]

/-- What a frame holds after formulas were put on it, and which warnings that left. -/
structure Applied (settings : Settings) (options : FormulaOptions) (data : Frame)
    (formulas : List String) (made : Frame) (entries : List Entry) : Prop where
  index_eq : made.index = data.index
  /-- the given columns, and then the new ones in the order in which they first came -/
  names_eq : Register.names made.columns = Register.names data.columns
    ++ (formulas.filter fun f => f ∉ Register.names data.columns).eraseDups
  distinct : (Register.names made.columns).Nodup
  /-- each formula has the column that it makes of the given frame -/
  column : ∀ f ∈ formulas, ∃ s, (evaluate settings options f (.frame data)).outcome = .ok s
    ∧ s.index = data.index ∧ made.columns.find? f = some (s.cells.map .real)
  /-- all other columns are as they were -/
  other : ∀ name, name ∉ formulas → made.columns.find? name = data.columns.find? name
  /-- one warning for each formula that overwrites a column -/
  warnings_eq : warnings entries
    = (overwriting (Register.names data.columns) formulas).map overwriteEntry

theorem applied_nil (settings : Settings) (options : FormulaOptions)
    (hn : (Register.names data.columns).Nodup) : Applied settings options data [] data [] where
  index_eq := rfl
  names_eq := (List.append_nil _).symm
  distinct := hn
  column := List.forall_mem_nil _
  other _ _ := rfl
  warnings_eq := rfl

namespace Applied

variable {formulas : List String} {entries : List Entry}

theorem mem_names_iff (h : Applied settings options data formulas made entries) {name : String} :
    name ∈ Register.names made.columns
      ↔ name ∈ Register.names data.columns ∨ name ∈ formulas := by
  rw [h.names_eq, List.mem_append, List.mem_eraseDups, List.mem_filter, decide_eq_true_eq]
  tauto

/-- One more formula on the given frame. -/
theorem step (h : Applied settings options data formulas made entries)
    (hs : settings.LimitsLength) (ho : options.raiseErrors = false)
    (hd : ∀ column ∈ data.columns, ∀ c ∈ column.2, c.IsNumeric) (formula : String) :
    ∃ next, (applyTo settings options data made formula).outcome = .ok next
      ∧ Applied settings options data (formulas ++ [formula]) next
        (entries ++ (applyTo settings options data made formula).entries) := by
  obtain ⟨s, hcolumn, hindex⟩ := exists_column hs ho hd formula
  have hcolumns := Frame.columns_assign formula (hindex.trans h.index_eq.symm)
  have hhas : made.columns.has formula = true
      ↔ formula ∈ Register.names data.columns ∨ formula ∈ formulas :=
    Register.has_iff.trans h.mem_names_iff
  refine ⟨made.assign formula s, by rw [applyTo, hcolumn]; rfl, ?_⟩
  constructor
  case index_eq => exact (Frame.index_assign made formula s).trans h.index_eq
  case names_eq =>
    rw [hcolumns, Register.names_put, List.filter_append]
    simp only [h.mem_names_iff]
    by_cases hname : formula ∈ Register.names data.columns
    · simp [hname, h.names_eq]
    · by_cases hmem : formula ∈ formulas <;> simp [hname, hmem, eraseDups_concat, h.names_eq]
  case distinct =>
    rw [hcolumns]
    exact Register.nodup_names_put h.distinct _ _
  case column =>
    intro f hf
    rw [hcolumns]
    by_cases heq : formula = f
    · subst heq
      exact ⟨s, hcolumn, hindex, Register.find?_put_self _ _ _⟩
    · rw [Register.find?_put_of_ne _ _ heq]
      refine h.column f ((List.mem_append.mp hf).resolve_right ?_)
      exact fun hlast => heq (List.mem_singleton.mp hlast).symm
  case other =>
    intro name hname
    rw [List.mem_append, not_or] at hname
    obtain ⟨hmem, hne⟩ := hname
    rw [hcolumns, Register.find?_put_of_ne _ _ fun heq => hne (List.mem_singleton.mpr heq.symm)]
    exact h.other name hmem
  case warnings_eq =>
    rw [applyTo, warnings_append, warnings_append, warnings_evaluate, List.append_nil,
      h.warnings_eq, overwriting_concat, List.map_append]
    simp only [hhas]
    split <;> rfl

end Applied

/-- Formulas put on the given frame one after another, from any frame that was made on the way. -/
theorem applied_applyFrom (hs : settings.LimitsLength) (ho : options.raiseErrors = false)
    (hd : ∀ column ∈ data.columns, ∀ c ∈ column.2, c.IsNumeric) {first : List String}
    {entries : List Entry} (h : Applied settings options data first made entries)
    (rest : List String) :
    ∃ final, (applyFrom settings options data made rest).outcome = .ok final
      ∧ Applied settings options data (first ++ rest) final
        (entries ++ (applyFrom settings options data made rest).entries) := by
  -- the frame made so far changes with every formula, what it is compared with does not
  induction rest generalizing made first entries with
  | nil => exact ⟨made, rfl, by simpa [applyFrom, Logged.ok] using h⟩
  | cons formula rest ih =>
    obtain ⟨next, hnext, hstep⟩ := h.step hs ho hd formula
    obtain ⟨final, hfinal, hrest⟩ := ih hstep
    have hbind : applyFrom settings options data made (formula :: rest)
        = ⟨(applyTo settings options data made formula).entries
            ++ (applyFrom settings options data next rest).entries,
          (applyFrom settings options data next rest).outcome⟩ := by
      show Logged.bind (applyTo settings options data made formula) _ = _
      rw [Logged.bind, hnext]
    rw [hbind]
    refine ⟨final, hfinal, ?_⟩
    simpa using hrest

/-! ### Other orders, repetitions, and the given frame -/

namespace Applied

variable {formulas others : List String} {other : Frame} {entries more : List Entry}

/-- The columns do not depend on the order of the formulas, nor on how often they occur. -/
theorem find?_eq (h : Applied settings options data formulas made entries)
    (h' : Applied settings options data others other more)
    (hmem : ∀ f, f ∈ others ↔ f ∈ formulas) (name : String) :
    other.columns.find? name = made.columns.find? name := by
  by_cases hname : name ∈ formulas
  · obtain ⟨s, hs, -, hfind⟩ := h.column name hname
    obtain ⟨t, ht, -, hfind'⟩ := h'.column name ((hmem name).mpr hname)
    cases hs.symm.trans ht
    rw [hfind, hfind']
  · rw [h.other name hname, h'.other name fun h => hname ((hmem name).mp h)]

/-- Formulas that are put on a frame twice make the same frame. -/
theorem eq_of_append_self (h : Applied settings options data formulas made entries)
    (h' : Applied settings options data (formulas ++ formulas) other more) : other = made := by
  have hmem : ∀ f, f ∈ formulas ++ formulas ↔ f ∈ formulas := by simp
  have hnames : Register.names other.columns = Register.names made.columns := by
    rw [h'.names_eq, h.names_eq, List.filter_append, eraseDups_append_self]
  refine Frame.eq_of_columns_eq (h'.index_eq.trans h.index_eq.symm) ?_
  exact Register.eq_of_find?_eq hnames h'.distinct (h.find?_eq h' hmem)

end Applied

theorem leadingTexts_map_text (formulas : List String) :
    Datum.leadingTexts (formulas.map .text) = (formulas, none) := by
  induction formulas with
  | nil => rfl
  | cons formula rest ih => rw [List.map_cons, Datum.leadingTexts, ih]

theorem outcome_applyAny (settings : Settings) (options : FormulaOptions) (data : Frame)
    (formulas : List String) :
    (applyAny settings options data (formulas.map .text)).outcome
      = (applyAll settings options data formulas).outcome := by
  rw [applyAny, leadingTexts_map_text]
  show (Logged.bind (applyAll settings options data formulas) _).outcome = _
  rw [Logged.bind]
  cases (applyAll settings options data formulas).outcome <;> rfl

/-- A kept frame stays as it is when formulas are put on it, unless the result takes its name. -/
theorem applyWith_keeps {session : Session} {id frame into : String} {choices : Choices}
    {formulas : List String} (hid : session.evaluators.find? id = some choices)
    (hframe : session.frames.find? frame = some data) (hinto : into ≠ frame)
    (h : (applyAll session.settings choices.options data formulas).outcome = .ok made) :
    ∃ after, (session.applyWith id frame (formulas.map .text) into).outcome = .ok (after, made)
      ∧ after.frames.find? into = some made ∧ after.frames.find? frame = some data := by
  refine ⟨session.setFrame into made, ?_, Register.find?_put_self _ _ _, ?_⟩
  · have hany := (outcome_applyAny session.settings choices.options data formulas).trans h
    have hchoices : Session.kept session.evaluators id = .ok choices := by
      rw [Session.kept, hid]
    have hdata : Session.kept session.frames frame = .ok data := by
      rw [Session.kept, hframe]
    rw [Session.applyWith, hchoices, hdata]
    show (Logged.bind (applyAny session.settings choices.options data _) _).outcome = _
    rw [Logged.bind, hany]
    rfl
  · rw [Session.setFrame, Register.find?_put_of_ne _ _ hinto]
    exact hframe

/-- Every formula on a frame of numeric columns with distinct names makes its column of the frame
    that was given. In the frame that is made, the given columns come first and the new ones in the
    order of their first occurrence, each formula has the column that it makes of the given frame,
    and all other columns are as they were; a warning tells of each formula whose text names a given
    column or occurred before. So formulas in another order make the same columns, formulas that
    are put twice the same frame, and a given frame that is kept stays as it is. -/
theorem applyAll_isolates (hs : settings.LimitsLength) (ho : options.raiseErrors = false)
    (hn : (Register.names data.columns).Nodup)
    (hd : ∀ column ∈ data.columns, ∀ c ∈ column.2, c.IsNumeric) (formulas : List String) :
    ∃ made, (applyAll settings options data formulas).outcome = .ok made
      ∧ Applied settings options data formulas made
          (applyAll settings options data formulas).entries
      ∧ (∀ others : List String, others.Perm formulas →
          ∃ other, (applyAll settings options data others).outcome = .ok other
            ∧ other.index = made.index
            ∧ ∀ name, other.columns.find? name = made.columns.find? name)
      ∧ (applyAll settings options data (formulas ++ formulas)).outcome = .ok made
      ∧ ∀ (session : Session) (id frame into : String) (choices : Choices),
          session.settings = settings → choices.options = options →
          session.evaluators.find? id = some choices →
          session.frames.find? frame = some data → into ≠ frame →
          ∃ after, (session.applyWith id frame (formulas.map .text) into).outcome
              = .ok (after, made)
            ∧ after.frames.find? into = some made ∧ after.frames.find? frame = some data := by
  have hall := applied_applyFrom hs ho hd (applied_nil settings options hn)
  obtain ⟨made, hmade, happlied⟩ := hall formulas
  refine ⟨made, hmade, happlied, ?_, ?_, ?_⟩
  · intro others hperm
    obtain ⟨other, hother, happlied'⟩ := hall others
    refine ⟨other, hother, happlied'.index_eq.trans happlied.index_eq.symm, ?_⟩
    exact happlied.find?_eq happlied' fun f => hperm.mem_iff
  · obtain ⟨twice, htwice, happlied'⟩ := hall (formulas ++ formulas)
    rw [← happlied.eq_of_append_self happlied']
    exact htwice
  · rintro session id frame into choices rfl rfl hid hframe hinto
    exact applyWith_keeps hid hframe hinto hmade

/-- One row with an infinite cell. -/
def infiniteRow : Frame where
  index := [.text "r"]
  columns := [("a", [.real (Double.infinity false)])]
  rectangular := by decide

/-- The formula `a` overwrites the column that `1/a` reads, because infinities are replaced. Still
    `1/a` divides by infinity, and the last formula only warns once more. -/
theorem applied_overwritten_infinity :
    ∃ made, (applyAll .standard ⟨false, true⟩ infiniteRow ["a", "1/a", "b", "a"]).outcome = .ok made
      ∧ Register.names made.columns = ["a", "1/a", "b"]
      ∧ made.columns.find? "a" = some [.real Double.nan]
      ∧ made.columns.find? "1/a" = some [.real 0]
      ∧ warnings (applyAll .standard ⟨false, true⟩ infiniteRow ["a", "1/a", "b", "a"]).entries
        = [overwriteEntry "a", overwriteEntry "a"] := by
  have hs := Settings.unrestricted_standard.limitsLength
  have hd : ∀ column ∈ infiniteRow.columns, ∀ c ∈ column.2, c.IsNumeric :=
    List.forall_mem_singleton.mpr (List.forall_mem_singleton.mpr ⟨_, rfl⟩)
  obtain ⟨made, hmade, happlied, -⟩ :=
    @applyAll_isolates _ ⟨false, true⟩ infiniteRow hs rfl (by decide) hd ["a", "1/a", "b", "a"]
  have hb := (Table.onIndex_frame hd).bindings_eq
  have hcut : Lexeme.lexemes "1/a".toList
      = [⟨0, .number ['1'] none⟩, ⟨1, .sign .div⟩, ⟨2, .name ['a']⟩] := by decide +kernel
  have hinverse : (evaluate .standard ⟨false, true⟩ "1/a" (.frame infiniteRow)).outcome
      = .ok ⟨some "a", [(.text "r", 0)]⟩ := by
    have hzero : finiteOrNan (Scalar.binary .div (Lexeme.value ['1'] none)
        (Double.infinity false)) = 0 := by decide +kernel
    rw [outcome_evaluate Settings.unrestricted_standard rfl hb,
      Expression.outcome_evaluate Settings.unrestricted_standard, Infix.convert, hcut, ← hzero]
    rfl
  have hcopy : (evaluate .standard ⟨false, true⟩ "a" (.frame infiniteRow)).outcome
      = .ok ⟨some "a", [(.text "r", Double.nan)]⟩ := by
    have hnan : finiteOrNan (Double.infinity false) = Double.nan := by decide +kernel
    have hcuta : Lexeme.lexemes "a".toList = [⟨0, .name ['a']⟩] := by decide +kernel
    rw [outcome_evaluate Settings.unrestricted_standard rfl hb,
      Expression.outcome_evaluate Settings.unrestricted_standard, Infix.convert, hcuta, ← hnan]
    rfl
  refine ⟨made, hmade, ?_, ?_, ?_, ?_⟩
  · rw [happlied.names_eq]
    decide
  · obtain ⟨s, hs, -, hfind⟩ := happlied.column "a" (by decide)
    obtain rfl := Except.ok.inj (hcopy.symm.trans hs)
    exact hfind
  · obtain ⟨s, hs, -, hfind⟩ := happlied.column "1/a" (by decide)
    obtain rfl := Except.ok.inj (hinverse.symm.trans hs)
    exact hfind
  · rw [happlied.warnings_eq]
    decide +kernel

end Formula

end Reckon
