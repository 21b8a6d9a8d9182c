import Reckon.Proofs.Brackets
import Reckon.Proofs.Relocation

/-! # The leftmost offence

    A reading that is refused before the end of a text points at the first lexeme that is at fault.
    What is wrong there shows on the text (`Offends`): on the character itself, on the last visible
    character before it, or on the run of letters and what comes directly after it. The text before
    that lexeme has no fault but brackets that are still open, and whatever comes after the lexeme
    makes no difference (`refused_at_leftmost_offence`). Only after an unknown constant the next
    character counts, because letters would go on with the name and a round bracket would call it.

        text:   2 * ( 4 + ^ k        refused at 5: the character before `^` is a sign
        text:   2 * ( 4 + k ) ) u    refused at 5, if `k` has to be a constant -/

namespace Reckon

/-- The last character of a text that is no blank. -/
def lastVisible (text : List Char) : Option Char :=
  (text.filter fun c => !Text.isBlank c).getLast?

/-- A character with which nothing in an expression begins. -/
def Unrecognised (c : Char) : Prop :=
  Text.isBlank c = false ∧ c.isDigit = false ∧ c.isAlpha = false
    ∧ Binary.ofChar? c = none ∧ Mark.ofChar? c = none

/-- Letters between two texts, as long a run as it can be. -/
structure LetterRun (before letters after : List Char) : Prop where
  ne_nil : letters ≠ []
  isAlpha : ∀ c ∈ letters, c.isAlpha = true
  before : ∀ c ∈ before.getLast?, c.isAlpha = false
  after : ∀ c ∈ after.head?, c.isAlpha = false

/-- What can be wrong between two parts of a text, and the kind of refusal. -/
inductive Offends (allow : Bool) (before : List Char) : List Char → List Char → Kind → Prop
  | character {c : Char} (after : List Char) (h : Unrecognised c) :
      Offends allow before [c] after .unknownSymbol
  | sign {op : Binary} (after : List Char) (hop : op = .mul ∨ op = .div ∨ op = .pow)
      (hlast : ∀ c ∈ lastVisible before,
        (Binary.ofChar? c).isSome = true ∨ (Bracket.ofOpening? c).isSome = true) :
      Offends allow before [op.char] after .unknownSymbol
  | function {letters after : List Char} (hrun : LetterRun before letters ('(' :: after))
      (hf : Function.ofName? letters = none) :
      Offends allow before (letters ++ ['(']) after .unknownFunction
  | constant {letters after : List Char} (hallow : allow = false)
      (hrun : LetterRun before letters after) (hcall : after.head? ≠ some '(')
      (hc : constant? letters = none) : Offends allow before letters after .unknownConstant
  | closing (bracket : Bracket) (after : List Char) :
      Offends allow before [bracket.closing] after .unbalancedParens

/-! ### A text split at a lexeme -/

/-- Called names are followed by their brackets in every part of the lexemes. -/
theorem CallsOpen.of_append {init rest : List Lexeme} (h : CallsOpen (init ++ rest)) :
    CallsOpen rest := by
  induction init with
  | nil => exact h
  | cons l init ih => exact ih h.2

namespace Lexeme

/-- Whether a lexeme takes something of a text shows on the first character. -/
theorem precedes_of_head?_eq {l : Lexeme} {text text' : List Char} (h : text.head? = text'.head?)
    (hp : l.Precedes text) : l.Precedes text' := by
  cases l with
  | number whole fraction => cases fraction <;> simpa [Precedes, h] using hp
  | name | call => simpa [Precedes, h] using hp
  | sign | opening | closing | stray => trivial

theorem head?_chars_append {l : Lexeme} (hl : l.Formed) (text text' : List Char) :
    (l.chars ++ text).head? = (l.chars ++ text').head? := by
  obtain ⟨c, rest, hc⟩ := List.exists_cons_of_length_pos (Cut.length_chars_pos hl)
  simp [hc]

/-- Only a called name does not stand before the end, and it stands before its bracket. -/
theorem precedes_nil {l m : Lexeme} {after : List Char} (hl : l.Formed) (hp : l.Precedes after)
    (hne : l ≠ .opening .round) (hm : m.Precedes (l.chars ++ after)) : m.Precedes [] := by
  cases m with
  | number whole fraction => cases fraction <;> exact fun c hc => nomatch hc
  | name => exact fun c hc => nomatch hc
  | call letters =>
    have hhead := head?_of_written (written_lexemes (l.chars ++ after)) hm
    have hcut : (lexemes (l.chars ++ after)).map (·.lexeme) = l :: cut after :=
      cut_chars_append hl hp
    rw [hcut] at hhead
    exact absurd (Option.some.inj hhead) hne
  | sign | opening | closing | stray => trivial

end Lexeme

namespace Cut

variable {position : Nat} {text : List Char} {placed : List Placed}

/-- A text is split into what is before a lexeme and what is after it. The text before is cut in the
    same way in front of any other text that its lexemes take nothing of. -/
structure Split (position : Nat) (first : List Placed) (p : Placed) (before after : List Char) :
    Prop where
  position_eq : p.position = position + before.length
  formed : p.lexeme.Formed
  precedes : p.lexeme.Precedes after
  cut : ∀ tail more, (∀ m : Lexeme, m.Precedes (p.lexeme.chars ++ after) → m.Precedes tail) →
    Cut p.position tail more → Cut position (before ++ tail) (first ++ more)

theorem exists_split {first last : List Placed} {p : Placed}
    (h : Cut position text (first ++ p :: last)) :
    ∃ before after, text = before ++ (p.lexeme.chars ++ after)
      ∧ Split position first p before after := by
  generalize hplaced : first ++ p :: last = placed at h
  induction h generalizing first with
  | nil => simp at hplaced
  | @blank position c text placed hc _ ih =>
    obtain ⟨before, after, rfl, hsplit⟩ := ih hplaced
    refine ⟨c :: before, after, rfl, ?_, hsplit.formed, hsplit.precedes, ?_⟩
    · rw [hsplit.position_eq, List.length_cons]
      omega
    · exact fun tail more htail hmore => .blank hc (hsplit.cut tail more htail hmore)
  | @lexeme position l text placed hl hp h ih =>
    rcases List.append_eq_cons_iff.mp hplaced with ⟨rfl, heq⟩ | ⟨first, rfl, hrest⟩
    · cases heq
      exact ⟨[], text, rfl, rfl, hl, hp, fun tail more _ hmore => hmore⟩
    · obtain ⟨before, after, rfl, hsplit⟩ := ih hrest.symm
      refine ⟨l.chars ++ before, after, (List.append_assoc _ _ _).symm, ?_, hsplit.formed,
        hsplit.precedes, ?_⟩
      · rw [hsplit.position_eq, List.length_append, Nat.add_assoc]
      · intro tail more htail hmore
        rw [List.append_assoc]
        refine .lexeme hl ?_ (hsplit.cut tail more htail hmore)
        -- a lexeme looks at one character only, which is the new tail's if nothing is between
        cases before with
        | nil => exact htail l hp
        | cons c before =>
          have hhead : (c :: before ++ (p.lexeme.chars ++ after)).head?
              = (c :: before ++ tail).head? := rfl
          exact Lexeme.precedes_of_head?_eq hhead hp

/-- The last visible character of a text is the last one of its last lexeme. -/
theorem lastVisible_eq (h : Cut position text placed) :
    lastVisible text = placed.getLast?.bind fun p => p.lexeme.chars.getLast? := by
  induction h with
  | nil => rfl
  | blank hc _ ih => rwa [lastVisible, List.filter_cons_of_neg (by simpa using hc)]
  | @lexeme position l text placed hl _ h ih =>
    have hvisible : l.chars.filter (fun c => !Text.isBlank c) = l.chars :=
      List.filter_eq_self.mpr fun c hc => by simpa using Lexeme.isBlank_of_mem_chars hl hc
    rw [lastVisible, List.filter_append, hvisible, List.getLast?_append, ← lastVisible, ih]
    rcases List.eq_nil_or_concat placed with rfl | ⟨init, q, rfl⟩
    · simp
    · have hq := List.length_pos_iff.mp (length_chars_pos (h.formed q (by simp)))
      simp [List.getLast?_eq_some_getLast hq, List.getLast?_cons]

/-- The last lexeme of a text is no called name. -/
theorem ne_call_of_getLast? (h : Cut position text placed) {p : Placed}
    (hp : p ∈ placed.getLast?) (letters : List Char) : p.lexeme ≠ .call letters := by
  obtain ⟨init, rfl⟩ := List.getLast?_eq_some_iff.mp hp
  have hcalls := Lexeme.callsOpen_cut text
  rw [Lexeme.cut_of_cut h, List.map_append] at hcalls
  intro hcall
  exact nomatch hcalls.of_append.1 letters hcall

/-- The letters of a word stand in the text as a run that is as long as it can be. -/
theorem letterRun {before after : List Char} {l : Lexeme} (hw : l.isWord = true)
    (h : Cut 0 (before ++ (l.chars ++ after)) placed) (hl : ⟨before.length, l⟩ ∈ placed) :
    LetterRun before l.chars after := by
  obtain ⟨before', after', htext, hlength, hbefore, hformed, hprecedes⟩ :=
    (h.mem_word_iff hw).mp hl
  rw [Nat.zero_add] at hlength
  obtain ⟨rfl, hrest⟩ := List.append_inj htext hlength
  obtain rfl := List.append_cancel_left hrest
  have hletters := Lexeme.letters_of_isWord hw hformed
  exact ⟨hletters.1, hletters.2, hbefore, Lexeme.isAlpha_head?_of_precedes hw hprecedes⟩

end Cut

theorem Unrecognised.of_stray {c : Char} (h : (Lexeme.stray c).Formed) : Unrecognised c := by
  obtain ⟨hb, hd, ha, hs⟩ := h
  refine ⟨hb, hd, ha, ?_, ofChar?_of_stray hs⟩
  unfold Lexeme.single at hs
  split at hs
  · cases hs
  · cases hs
  · cases hs
  · assumption

namespace Infix

variable {allow : Bool} {s final : State} {placed : List Placed} {out : List Token} {r : Refusal}

/-! ### What is read before a fault -/

theorem Reaches.moves_of_mem (h : Reaches allow s placed out final) {p : Placed}
    (hp : p ∈ placed) : ∃ s next out, Moves allow s p next out := by
  induction h with
  | nil => cases hp
  | cons hs _ ih =>
    rcases List.mem_cons.mp hp with rfl | hp
    · exact ⟨_, _, _, step_eq_ok_iff.mp hs⟩
    · exact ih hp

/-- Whether an operand was read last shows on the last lexeme. -/
theorem Reaches.operandRead_eq (h : Reaches allow s placed out final) :
    final.operandRead = (placed.getLast?.map (·.lexeme.endsOperand)).getD s.operandRead := by
  induction h with
  | nil => rfl
  | cons hs _ ih =>
    rw [ih, (step_eq_ok_iff.mp hs).operandRead_eq, List.getLast?_cons]
    cases List.getLast? _ <;> rfl

/-- Where no operand was read last, the last visible character is an operator or an opening
    bracket, if there is one. -/
theorem Reaches.lastVisible {before : List Char} (hcut : Cut 0 before placed)
    (h : Reaches allow .start placed out final) (hread : final.operandRead = false) :
    ∀ c ∈ lastVisible before,
      (Binary.ofChar? c).isSome = true ∨ (Bracket.ofOpening? c).isSome = true := by
  intro c hc
  rw [hcut.lastVisible_eq] at hc
  obtain ⟨p, hp, hc⟩ := Option.bind_eq_some_iff.mp hc
  have hends := h.operandRead_eq
  rw [hread, hp] at hends
  obtain ⟨s, next, out, hm⟩ := h.moves_of_mem (List.mem_of_getLast? hp)
  cases hm with
  | number | name | closing => cases hends
  | call => exact absurd rfl (hcut.ne_call_of_getLast? hp _)
  | between position =>
    cases hc
    exact .inl (by cases ‹Binary› <;> rfl)
  | minus | plus =>
    cases hc
    exact .inl rfl
  | opening position bracket =>
    cases hc
    exact .inr (by cases ‹Bracket› <;> rfl)

/-! ### The fault and what follows it -/

variable {first : List Placed} {p : Placed} {before after : List Char}

/-- What comes after a lexeme at fault makes no difference, if the lexeme takes nothing of it. -/
theorem convert_of_stops (hsplit : Cut.Split 0 first p before after)
    (hreach : Reaches allow .start first out s) (hstop : Stops allow s p r) {tail : List Char}
    (htail : p.lexeme.Precedes tail) :
    convert allow (String.ofList (before ++ (p.lexeme.chars ++ tail))) = .error r := by
  have hhead := Lexeme.head?_chars_append hsplit.formed after tail
  have hcut := hsplit.cut _ _ (fun m hm => Lexeme.precedes_of_head?_eq hhead hm)
    (.lexeme hsplit.formed htail (cut_scan _ tail))
  rw [convert, String.toList_ofList, Lexeme.lexemes, ← hcut.eq_scan, run_append_of_reaches hreach,
    run, step_of_stops hstop]
  rfl

/-- No opening bracket is at fault. -/
theorem Stops.ne_opening (h : Stops allow s p r) (bracket : Bracket) :
    p.lexeme ≠ .opening bracket := by
  cases h <;> rintro ⟨⟩

/-- The text before a lexeme at fault is cut as it is inside the whole text. -/
theorem cut_before (hsplit : Cut.Split 0 first p before after) (hstop : Stops allow s p r) :
    Cut 0 before first := by
  have hcut := hsplit.cut [] [] (fun m hm => Lexeme.precedes_nil hsplit.formed hsplit.precedes
    (hstop.ne_opening .round) hm) (.nil _)
  rwa [List.append_nil, List.append_nil] at hcut

/-- Before a lexeme at fault nothing is wrong but brackets that are still open. -/
theorem unclosed_of_convert_before (hsplit : Cut.Split 0 first p before after)
    (hreach : Reaches allow .start first out s) (hstop : Stops allow s p r) {r' : Refusal}
    (h : convert allow (String.ofList before) = .error r') :
    ∃ bracket i, r' = .unclosed bracket i := by
  rw [convert, String.toList_ofList, Lexeme.lexemes, ← (cut_before hsplit hstop).eq_scan,
    ← List.append_nil first, run_append_of_reaches hreach, run] at h
  cases hfinish : finish s.waiting with
  | ok last =>
    rw [hfinish] at h
    cases h
  | error r'' =>
    rw [hfinish] at h
    cases h
    obtain ⟨above, bracket, i, below, -, -, rfl⟩ := finish_eq_error_iff.mp hfinish
    exact ⟨bracket, i, rfl⟩

/-- What is at fault shows on the text, and what comes after it is free, but that letters and a
    round bracket would change a name. -/
theorem exists_offending {last : List Placed} (hsplit : Cut.Split 0 first p before after)
    (hcut : Cut 0 (before ++ (p.lexeme.chars ++ after)) (first ++ p :: last))
    (hreach : Reaches allow .start first out s) (hstop : Stops allow s p r) :
    ∃ offending rest, p.lexeme.chars ++ after = offending ++ rest
      ∧ Offends allow before offending rest r.kind
      ∧ ∀ tail, (r.kind = .unknownConstant → ∀ c ∈ tail.head?, c.isAlpha = false ∧ c ≠ '(') →
          ∃ more, offending ++ tail = p.lexeme.chars ++ more ∧ p.lexeme.Precedes more := by
  have hrun : p.lexeme.isWord = true → LetterRun before p.lexeme.chars after := by
    intro hw
    have hposition := hsplit.position_eq
    rw [Nat.zero_add] at hposition
    exact hcut.letterRun hw (hposition ▸ by simp)
  have hfirst := cut_before hsplit hstop
  have hafter := hsplit.precedes
  cases hstop with
  | unknownConstant position hallow hc =>
    refine ⟨_, after, rfl, .constant hallow (hrun rfl) ?_ hc, ?_⟩
    · exact fun hcall => (hafter '(' hcall).2 rfl
    · exact fun tail ht => ⟨tail, rfl, ht rfl⟩
  | @unknownFunction position letters hf =>
    -- without its bracket the name would be no call
    obtain ⟨rest, rfl⟩ := List.head?_eq_some_iff.mp hafter
    refine ⟨letters ++ ['('], rest, ?_, .function (hrun rfl) hf, ?_⟩
    · rw [List.append_assoc]
      rfl
    · exact fun tail _ => ⟨'(' :: tail, List.append_assoc _ _ _, rfl⟩
  | @notUnary position op hread hadd hsub =>
    refine ⟨_, after, rfl, .sign after ?_ (hreach.lastVisible hfirst hread), ?_⟩
    · cases op <;> simp_all
    · exact fun tail _ => ⟨tail, rfl, trivial⟩
  | unopened position bracket | mismatched position openedAt =>
    exact ⟨_, after, rfl, .closing _ after, fun tail _ => ⟨tail, rfl, trivial⟩⟩
  | stray position c =>
    exact ⟨_, after, rfl, .character after (.of_stray hsplit.formed),
      fun tail _ => ⟨tail, rfl, trivial⟩⟩

/-- A text that is refused before its end is refused at the lexeme that begins there: an
    unrecognised character; a sign of an operator that cannot be unary, with nothing, an operator
    or an opening bracket before it; letters before a round bracket that name no function; letters
    not before one that name no constant, where variables are not allowed; or a closing bracket.
    The text before it is accepted, or refused for a bracket that is left open. And every text that
    goes on differently after it is refused in the same way, where a text after an unknown constant
    must not go on with its letters or call it. -/
theorem refused_at_leftmost_offence {text : String} (h : convert allow text = .error r)
    (hscan : ∀ bracket i, r ≠ .unclosed bracket i) :
    ∃ before offending after, text.toList = before ++ (offending ++ after)
      ∧ r.position = some (before.length : Int)
      ∧ Offends allow before offending after r.kind
      ∧ (∀ r', convert allow (String.ofList before) = .error r' →
          ∃ bracket i, r' = .unclosed bracket i)
      ∧ ∀ tail, (r.kind = .unknownConstant → ∀ c ∈ tail.head?, c.isAlpha = false ∧ c ≠ '(') →
          convert allow (String.ofList (before ++ (offending ++ tail))) = .error r := by
  rcases stops_of_run h with
    ⟨first, p, last, out, s, hlexemes, hreach, hstop⟩ | ⟨out, s, -, hfinish⟩
  · have hcut := cut_lexemes text.toList
    rw [hlexemes] at hcut
    obtain ⟨before, after, htext, hsplit⟩ := hcut.exists_split
    rw [htext] at hcut
    obtain ⟨offending, rest, hrest, hoffends, htail⟩ :=
      exists_offending hsplit hcut hreach hstop
    refine ⟨before, offending, rest, htext.trans (congrArg _ hrest), ?_, hoffends, ?_, ?_⟩
    · rw [hstop.position_eq, hsplit.position_eq, Nat.zero_add]
    · exact fun _ hr' => unclosed_of_convert_before hsplit hreach hstop hr'
    · intro tail ht
      obtain ⟨more, hmore, hp⟩ := htail tail ht
      rw [hmore]
      exact convert_of_stops hsplit hreach hstop hp
  · obtain ⟨above, bracket, i, below, -, -, rfl⟩ := finish_eq_error_iff.mp hfinish
    exact absurd rfl (hscan bracket i)

/-- In `2^[foo (3` the name `foo` is refused as a constant, since its bracket does not come directly
    after it, and so it is in front of everything but letters and a round bracket. -/
theorem foo_refused_before_any_tail :
    convert false "2^[foo (3" = .error (.unknownConstant ['f', 'o', 'o'] 3)
      ∧ (∀ bracket i, Refusal.unknownConstant ['f', 'o', 'o'] 3 ≠ .unclosed bracket i)
      ∧ ∀ tail : List Char, (∀ c ∈ tail.head?, c.isAlpha = false ∧ c ≠ '(') →
          convert false (String.ofList (['2', '^', '['] ++ (['f', 'o', 'o'] ++ tail)))
            = .error (.unknownConstant ['f', 'o', 'o'] 3) := by
  have hcut : Lexeme.lexemes "2^[foo (3".toList
      = [⟨0, .number ['2'] none⟩, ⟨1, .sign .pow⟩, ⟨2, .opening .square⟩,
          ⟨3, .name ['f', 'o', 'o']⟩, ⟨7, .opening .round⟩, ⟨8, .number ['3'] none⟩] := by
    decide +kernel
  have herr : convert false "2^[foo (3" = .error (.unknownConstant ['f', 'o', 'o'] 3) := by
    rw [convert, hcut]
    rfl
  have hscan : ∀ bracket i, Refusal.unknownConstant ['f', 'o', 'o'] 3 ≠ .unclosed bracket i := by
    rintro bracket i ⟨⟩
  refine ⟨herr, hscan, ?_⟩
  obtain ⟨before, offending, after, htext, hposition, hoffends, -, htail⟩ :=
    refused_at_leftmost_offence herr hscan
  have hlength : ['2', '^', '['].length = before.length := by
    have h3 : (3 : Int) = before.length := Option.some.inj hposition
    exact Int.ofNat.inj h3
  have hsplit : ['2', '^', '['] ++ ['f', 'o', 'o', ' ', '(', '3']
      = before ++ (offending ++ after) :=
    (show _ = "2^[foo (3".toList by decide +kernel).trans htext
  obtain ⟨rfl, hrest⟩ := List.append_inj hsplit hlength
  have hkind : Offends false ['2', '^', '['] offending after .unknownConstant := hoffends
  cases hkind with
  | constant _ hrun _ _ =>
    have hletters := congrArg (List.takeWhile Char.isAlpha) hrest
    rw [takeWhile_append_of_stop hrun.isAlpha hrun.after] at hletters
    obtain rfl : ['f', 'o', 'o'] = offending := hletters
    exact fun tail ht => htail tail fun _ => ht

end Infix

end Reckon
