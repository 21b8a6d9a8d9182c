import Reckon.Postfix.Evaluation

/-! # Sources of values

    Values for names come from a register, in which a name is looked up, or from a function, which
    is called with it. The two say in different ways that a name is not bound: a register has no
    entry, and a function answers with the missing value. So they can differ for one value only,
    since a register can keep the missing value and the name is bound then. Apart from it, how the
    values are supplied makes no difference: two sources that give the same for every name of a
    sequence lead to the same value or to the same failure (`evaluateItems_of_sources`), and what
    they give for other names is never seen, whether or not it could be turned into doubles.

        register   x: [1, 2]   junk: one      worth of x 2 *:   [2, 4]
        function   x ↦ [1, 2], else missing   worth of x 2 *:   [2, 4] -/

namespace Reckon

/-- What a caller supplies values with. -/
inductive Source where
  /-- the entries of a register -/
  | register (entries : Register Raw)
  /-- a function that answers with the missing value for names that it does not know -/
  | function (answer : String → Raw)

namespace Source

/-- The bindings that a source makes. -/
def bindings : Source → Bindings
  | register entries => .register entries
  | function answer => .ofFunction answer

/-- The source gives a value for a name. -/
def Gives : Source → String → Raw → Prop
  | register entries, name, raw => entries.find? name = some raw
  | function answer, name, raw => answer name = raw

/-- The source does not know a name. -/
def Lacks : Source → String → Prop
  | register entries, name => entries.find? name = none
  | function answer, name => answer name = .single .missing

/-- The source that gives a value for one name, and for others what it gave before. -/
def bind (name : String) (raw : Raw) : Source → Source
  | register entries => register (entries.put name raw)
  | function answer => function fun other => if other = name then raw else answer other

/-- Two sources give the same value for a name, which is not the missing one, or both do not know
    the name. -/
def Alike (first second : Source) (name : String) : Prop :=
  (∃ raw, raw ≠ .single .missing ∧ first.Gives name raw ∧ second.Gives name raw)
    ∨ (first.Lacks name ∧ second.Lacks name)

/-! ### One name -/

theorem value_of_gives {source : Source} {name : String} {raw : Raw} (h : source.Gives name raw)
    (hraw : raw ≠ .single .missing) : source.bindings.value name = raw.value := by
  cases source with
  | register entries =>
    have hfind : entries.find? name = some raw := h
    simp [bindings, Bindings.value, hfind]
  | function answer =>
    obtain rfl : answer name = raw := h
    -- the answer is not missing, so the name is bound to it
    simp only [bindings, Bindings.value, Bindings.ofFunction]

theorem value_of_lacks {source : Source} {name : String} (h : source.Lacks name) :
    source.bindings.value name = .error (.refused (.unbound name)) := by
  cases source with
  | register entries =>
    have hfind : entries.find? name = none := h
    simp [bindings, Bindings.value, hfind]
  | function answer =>
    have hanswer : answer name = .single .missing := h
    simp [bindings, Bindings.value, Bindings.ofFunction, hanswer]

/-- A register can keep the missing value; a function that answers with it does not know the
    name. -/
example :
    (register [("x", .single .missing)]).bindings.value "x" = .ok (.scalar Double.nan)
      ∧ (function fun _ => .single .missing).bindings.value "x"
        = .error (.refused (.unbound "x")) :=
  ⟨rfl, rfl⟩

theorem Alike.value_eq {first second : Source} {name : String} (h : Alike first second name) :
    first.bindings.value name = second.bindings.value name := by
  rcases h with ⟨raw, hraw, hfirst, hsecond⟩ | ⟨hfirst, hsecond⟩
  · rw [value_of_gives hfirst hraw, value_of_gives hsecond hraw]
  · rw [value_of_lacks hfirst, value_of_lacks hsecond]

/-- Binding one name leaves all others as they were. -/
theorem value_bind_of_ne (source : Source) {name other : String} (raw : Raw) (h : name ≠ other) :
    (source.bind name raw).bindings.value other = source.bindings.value other := by
  cases source with
  | register entries =>
    simp [bind, bindings, Bindings.value, Register.find?_put_of_ne entries raw h]
  | function answer =>
    simp [bind, bindings, Bindings.value, Bindings.ofFunction, h.symm]

/-- No source knows what is no text. -/
theorem failure_eq (first second : Source) (shown : String) (composite : Bool) :
    first.bindings.failure shown composite = second.bindings.failure shown composite := by
  cases first <;> cases second <;> rfl

end Source

namespace Postfix

variable {bindings bindings' : Bindings}

/-! ### Sequences under two bindings -/

/-- An item asks for the value of its own name only. -/
theorem step_congr {item : Item} (stack : List Value)
    (hvalue : ∀ name, item = .token (.var name) → bindings.value name = bindings'.value name)
    (hfailure : ∀ shown composite,
      bindings.failure shown composite = bindings'.failure shown composite) :
    step bindings stack item = step bindings' stack item := by
  cases item with
  | token t =>
    cases t with
    | var name => simp only [step, hvalue name rfl]
    | number | operator => rfl
  | unnamed shown composite => simp only [step, hfailure]
  | array => rfl
  | misplaced => rfl
  | stray => rfl
  | composite s => cases s <;> rfl

theorem run_congr {items : List Item} (stack : List Value)
    (hvalue : ∀ name, .token (.var name) ∈ items → bindings.value name = bindings'.value name)
    (hfailure : ∀ shown composite,
      bindings.failure shown composite = bindings'.failure shown composite) :
    run bindings stack items = run bindings' stack items := by
  induction items generalizing stack with
  | nil => rfl
  | cons item rest ih =>
    have hitem : ∀ name, item = .token (.var name) →
        bindings.value name = bindings'.value name := by
      rintro name rfl
      exact hvalue name List.mem_cons_self
    rw [run, run, step_congr stack hitem hfailure]
    cases step bindings' stack item with
    | error f => rfl
    | ok next => exact ih next fun name hname => hvalue name (List.mem_cons_of_mem _ hname)

/-- What a sequence is worth depends on the values of its names, and on nothing else that is
    bound. -/
theorem evaluateItems_congr {items : List Item}
    (hvalue : ∀ name, .token (.var name) ∈ items → bindings.value name = bindings'.value name)
    (hfailure : ∀ shown composite,
      bindings.failure shown composite = bindings'.failure shown composite) :
    evaluateItems bindings items = evaluateItems bindings' items := by
  rw [evaluateItems, evaluateItems, run_congr [] hvalue hfailure]

/-- Let two sources, each a register or a function, give the same value for every name of a
    sequence, a value that is not the missing one, or both not know the name. Then the sequence has
    the same value or the same failure under both. What a source gives for a name that the sequence
    does not have makes no difference, whatever it is. -/
theorem evaluateItems_of_sources {items : List Item} {first second : Source}
    (h : ∀ name, .token (.var name) ∈ items → first.Alike second name) :
    evaluateItems first.bindings items = evaluateItems second.bindings items
      ∧ ∀ name raw, .token (.var name) ∉ items →
          evaluateItems (first.bind name raw).bindings items
            = evaluateItems first.bindings items := by
  constructor
  · exact evaluateItems_congr (fun name hname => (h name hname).value_eq)
      (Source.failure_eq first second)
  · intro name raw hnot
    refine evaluateItems_congr (fun other hother => ?_) (Source.failure_eq _ first)
    refine Source.value_bind_of_ne first raw ?_
    rintro rfl
    exact hnot hother

/-- The sequence `x 2 *` is worth the same array if a function gives `x` as if a register does that
    also has an entry which is no number. -/
theorem product_of_register_or_function :
    (∀ name, .token (.var name) ∈
          [Item.token (.var "x"), .token (.number 2), .token (.operator (.binary .mul))] →
        Source.Alike
          (.register [("junk", .single (.text "one")),
            ("x", .list [.cell (.real 1), .cell (.real 4)])])
          (.function fun name =>
            if name = "x" then .list [.cell (.real 1), .cell (.real 4)] else .single .missing)
          name)
      ∧ evaluateItems
          (Source.function fun name =>
            if name = "x" then .list [.cell (.real 1), .cell (.real 4)]
            else .single .missing).bindings
          [.token (.var "x"), .token (.number 2), .token (.operator (.binary .mul))]
        = .ok (.array ⟨[2], [1 * 2, 4 * 2], rfl⟩) := by
  have halike : ∀ name, .token (.var name) ∈
      [Item.token (.var "x"), .token (.number 2), .token (.operator (.binary .mul))] →
      Source.Alike
        (.register [("junk", .single (.text "one")),
          ("x", .list [.cell (.real 1), .cell (.real 4)])])
        (.function fun name =>
          if name = "x" then .list [.cell (.real 1), .cell (.real 4)] else .single .missing)
        name := by
    intro name hname
    obtain rfl : name = "x" := by simpa using hname
    exact .inl ⟨.list [.cell (.real 1), .cell (.real 4)], nofun, rfl, rfl⟩
  refine ⟨halike, ?_⟩
  rw [← (evaluateItems_of_sources halike).1]
  rfl

end Postfix

end Reckon
