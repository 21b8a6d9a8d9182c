import Reckon.Proofs.Cut
import Reckon.Proofs.Reach

/-! # A reading turn by turn

    A reading goes over a text from left to right. Each turn looks at the next character: a blank is
    passed over, and anything else begins a lexeme, which is taken as a whole and does to the state
    what `step` says. `Turn allow text before after s out` says that a turn begins where the text
    is parted into `before` and `after`, with the state `s` and the tokens `out` sent out so far;
    where nothing is left, what still waits goes out.

    From every turn on the rest of the text decides (`Turn.convert_eq`). Every text has turns up to
    its end or to a lexeme that is refused (`Turn.exists_end`), and one that is accepted has them up
    to its end (`exists_last_turn`). So what holds of every turn holds all along the reading of a
    text, also if the text is refused later.

        text:   2 . 5   * - x
        turns:  |     | | | | |       no turn begins inside `2.5` -/

namespace Reckon.Infix

/-- A turn of a reading, by what is read and what is left of the text, the state, and what was sent
    out. -/
inductive Turn (allow : Bool) (text : List Char) :
    List Char → List Char → State → List Token → Prop
  | start : Turn allow text [] text .start []
  | blank {before rest : List Char} {c : Char} {s : State} {out : List Token} {more : Nat}
      (h : Turn allow text before (c :: rest) s out) (hn : Lexeme.next c rest = (none, more)) :
      Turn allow text (before ++ c :: rest.take more) (rest.drop more) s out
  | lexeme {before rest : List Char} {c : Char} {s next : State} {out sent : List Token}
      {l : Lexeme} {more : Nat} (h : Turn allow text before (c :: rest) s out)
      (hn : Lexeme.next c rest = (some l, more))
      (hs : step allow s ⟨before.length, l⟩ = .ok (next, sent)) :
      Turn allow text (before ++ c :: rest.take more) (rest.drop more) next (out ++ sent)

variable {allow : Bool} {text before after rest : List Char} {c : Char} {s : State}
  {out : List Token}

/-! ### What comes next -/

/-- What is found at a character does not reach beyond the text. -/
theorem length_take_of_next {found : Option Lexeme} {more : Nat}
    (h : Lexeme.next c rest = (found, more)) : (rest.take more).length = more := by
  cases found with
  | none =>
    obtain ⟨-, rfl⟩ := Lexeme.next_eq_none h
    simp
  | some l =>
    obtain ⟨hl, hchars, hp⟩ := Lexeme.next_eq_some h
    obtain ⟨d, taken, hd, hfound⟩ := Lexeme.next_chars hl hp
    obtain ⟨rfl, rfl⟩ := List.cons.inj (hchars.symm.trans hd)
    rw [List.take_append_drop, h] at hfound
    exact (Prod.mk.inj hfound).2.symm

/-- A blank begins no lexeme, so the lexemes are those of the text after it. -/
theorem scan_of_next_none {more : Nat} (h : Lexeme.next c rest = (none, more)) (position : Nat) :
    Lexeme.scan 0 position (c :: rest)
      = Lexeme.scan 0 (position + (c :: rest.take more).length) (rest.drop more) := by
  have hposition : position + 1 + more = position + (more + 1) := by omega
  rw [Lexeme.scan, h]
  simp only
  rw [Lexeme.scan_skip, hposition, List.length_cons, length_take_of_next h]

/-- A lexeme comes first, and then those of the text after it. -/
theorem scan_of_next_some {l : Lexeme} {more : Nat} (h : Lexeme.next c rest = (some l, more))
    (position : Nat) :
    Lexeme.scan 0 position (c :: rest)
      = ⟨position, l⟩
          :: Lexeme.scan 0 (position + (c :: rest.take more).length) (rest.drop more) := by
  have hposition : position + 1 + more = position + (more + 1) := by omega
  rw [Lexeme.scan, h]
  simp only
  rw [Lexeme.scan_skip, hposition, List.length_cons, length_take_of_next h]

/-! ### Turns and conversion -/

namespace Turn

/-- What is read and what is left make up the text. -/
theorem text_eq (h : Turn allow text before after s out) : text = before ++ after := by
  induction h with
  | start => rfl
  | blank _ _ ih | lexeme _ _ _ ih => simpa using ih

/-- The rest of a reading depends on the state and on what is left. -/
theorem run_eq (h : Turn allow text before after s out) :
    run allow .start (Lexeme.lexemes text)
      = (run allow s (Lexeme.scan 0 before.length after)).map (out ++ ·) := by
  induction h with
  | start =>
    rw [Lexeme.lexemes, List.length_nil]
    cases run allow .start (Lexeme.scan 0 0 text) <;> rfl
  | blank _ hn ih => rw [ih, scan_of_next_none hn, List.length_append]
  | lexeme _ hn hs ih =>
    rw [ih, scan_of_next_some hn, List.length_append, run, hs]
    simp only
    cases run allow _ _ <;> simp [Except.map]

theorem convert_eq {text : String} (h : Turn allow text.toList before after s out) :
    convert allow text
      = (run allow s (Lexeme.scan 0 before.length after)).map (out ++ ·) :=
  h.run_eq

/-- A lexeme that is refused at a turn decides. -/
theorem convert_eq_error {text : String} {l : Lexeme} {more : Nat} {r : Refusal}
    (h : Turn allow text.toList before (c :: rest) s out)
    (hn : Lexeme.next c rest = (some l, more)) (hs : step allow s ⟨before.length, l⟩ = .error r) :
    convert allow text = .error r := by
  rw [h.convert_eq, scan_of_next_some hn, run, hs]
  rfl

/-- From every turn on, a reading comes to a turn at which nothing is left or the next lexeme is
    refused. -/
theorem exists_end (h : Turn allow text before after s out) :
    ∃ before' after' s' out', Turn allow text before' after' s' out'
      ∧ ∀ c rest, after' = c :: rest → ∃ l more r, Lexeme.next c rest = (some l, more)
          ∧ step allow s' ⟨before'.length, l⟩ = .error r := by
  -- by length, because a turn may take several characters at once
  induction hn : after.length using Nat.strongRecOn generalizing before after s out with
  | _ n ih =>
    cases after with
    | nil => exact ⟨before, [], s, out, h, by rintro c rest ⟨⟩⟩
    | cons c rest =>
      have hlt : ∀ more, (rest.drop more).length < n := by
        intro more
        rw [← hn, List.length_drop, List.length_cons]
        omega
      cases hnext : Lexeme.next c rest with
      | mk found more =>
        cases found with
        | none => exact ih _ (hlt more) (h.blank hnext) rfl
        | some l =>
          cases hs : step allow s ⟨before.length, l⟩ with
          | ok result => exact ih _ (hlt more) (h.lexeme hnext hs) rfl
          | error r =>
            refine ⟨before, c :: rest, s, out, h, ?_⟩
            rintro _ _ ⟨⟩
            exact ⟨l, more, r, hnext, hs⟩

end Turn

/-- A text that is accepted is read to its end. -/
theorem exists_last_turn {text : String} {tokens : List Token}
    (h : convert allow text = .ok tokens) :
    ∃ s out, Turn allow text.toList text.toList [] s out := by
  have hstart : Turn allow text.toList [] text.toList .start [] := .start
  obtain ⟨before, after, s, out, hend, hstop⟩ := hstart.exists_end
  cases after with
  | nil =>
    have htext := hend.text_eq
    rw [List.append_nil] at htext
    rw [← htext] at hend
    exact ⟨s, out, hend⟩
  | cons c rest =>
    obtain ⟨l, more, r, hnext, hs⟩ := hstop c rest rfl
    rw [hend.convert_eq_error hnext hs] at h
    cases h

end Reckon.Infix
