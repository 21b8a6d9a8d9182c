import Reckon.Proofs.Lexemes

/-! # How a text is cut

    `Cut position text placed` says that a text, so many characters into an expression, is cut into
    the given lexemes: every lexeme is followed by a text that it takes nothing of. It holds of
    what `Lexeme.scan` finds and of nothing else, so what is to be shown of all lexemes of a text is
    shown by induction on its cut, one case for blanks and one for lexemes.

    A name is a run of letters, as long as it can be, without a round opening bracket directly
    after it (`NameAt`); the names of a text are found as such, at their positions.

        text:       2 x + s i n ( x )
        position:   0 1 2 3     6 7 8        the names are `x` at 1 and `x` at 7 -/

namespace Reckon

open Lexeme

/-- A text that begins at a position of an expression is cut into lexemes. -/
inductive Cut : Nat → List Char → List Placed → Prop
  | nil (position : Nat) : Cut position [] []
  | blank {position : Nat} {c : Char} {text : List Char} {placed : List Placed}
      (hc : Text.isBlank c = true) (h : Cut (position + 1) text placed) :
      Cut position (c :: text) placed
  | lexeme {position : Nat} {l : Lexeme} {text : List Char} {placed : List Placed} (hl : l.Formed)
      (hp : l.Precedes text) (h : Cut (position + l.chars.length) text placed) :
      Cut position (l.chars ++ text) (⟨position, l⟩ :: placed)

theorem cut_scan (position : Nat) (text : List Char) :
    Cut position text (scan 0 position text) := by
  -- by length, because a lexeme may take several characters at once
  induction hn : text.length using Nat.strongRecOn generalizing position text with
  | _ n ih =>
    cases text with
    | nil =>
      rw [scan_nil]
      exact .nil position
    | cons c rest =>
      cases hnext : next c rest with
      | mk found more =>
        cases found with
        | none =>
          obtain ⟨hc, rfl⟩ := next_eq_none hnext
          rw [scan_blank position rest hc]
          exact .blank hc (ih rest.length (by rw [← hn]; exact Nat.lt_add_one _) _ rest rfl)
        | some l =>
          obtain ⟨hl, hchars, hp⟩ := next_eq_some hnext
          have htext : c :: rest = l.chars ++ rest.drop more := by
            rw [hchars, List.cons_append, List.take_append_drop]
          have hlt : (rest.drop more).length < n := by
            rw [← hn, List.length_drop, List.length_cons]
            omega
          rw [htext, scan_chars_append position hl hp]
          exact .lexeme hl hp (ih _ hlt _ _ rfl)

theorem cut_lexemes (text : List Char) : Cut 0 text (lexemes text) := cut_scan 0 text

namespace Cut

variable {position : Nat} {text : List Char} {placed : List Placed}

/-- A text is cut in one way. -/
theorem eq_scan (h : Cut position text placed) : placed = scan 0 position text := by
  induction h with
  | nil position => exact (scan_nil 0 position).symm
  | blank hc _ ih => rw [scan_blank _ _ hc, ih]
  | lexeme hl hp _ ih => rw [scan_chars_append _ hl hp, ih]

theorem written (h : Cut position text placed) : Written (placed.map (·.lexeme)) text := by
  rw [h.eq_scan]
  exact written_scan position text

theorem formed (h : Cut position text placed) : ∀ p ∈ placed, p.lexeme.Formed := by
  induction h with
  | nil => exact List.forall_mem_nil _
  | blank _ _ ih => exact ih
  | lexeme hl _ _ ih => exact List.forall_mem_cons.mpr ⟨hl, ih⟩

/-! ### Positions -/

theorem position_le (h : Cut position text placed) : ∀ p ∈ placed, position ≤ p.position := by
  induction h with
  | nil => exact List.forall_mem_nil _
  | blank _ _ ih => exact fun p hp => Nat.le_of_succ_le (ih p hp)
  | lexeme _ _ _ ih =>
    refine List.forall_mem_cons.mpr ⟨Nat.le_refl _, ?_⟩
    exact fun p hp => Nat.le_trans (Nat.le_add_right _ _) (ih p hp)

theorem length_chars_pos {l : Lexeme} (h : l.Formed) : 0 < l.chars.length := by
  cases l with
  | number whole fraction =>
    have hw := List.length_pos_iff.mpr h.1
    cases fraction with
    | none => exact hw
    | some ds =>
      rw [chars, List.length_append]
      omega
  | name letters | call letters => exact List.length_pos_iff.mpr h.1
  | sign | opening | closing | stray => exact Nat.one_pos

/-- Every lexeme begins at a character of the text. -/
theorem position_lt (h : Cut position text placed) :
    ∀ p ∈ placed, p.position < position + text.length := by
  induction h with
  | nil => exact List.forall_mem_nil _
  | blank _ _ ih =>
    intro p hp
    have hlt := ih p hp
    rw [List.length_cons]
    omega
  | lexeme hl _ _ ih =>
    have hpos := length_chars_pos hl
    rw [List.length_append]
    refine List.forall_mem_cons.mpr ⟨?_, ?_⟩
    · simp only
      omega
    · intro p hp
      have hlt := ih p hp
      omega

/-- Lexemes come in the order of their positions, and no two at one. -/
theorem increasing (h : Cut position text placed) :
    placed.Pairwise fun p q => p.position < q.position := by
  induction h with
  | nil => exact .nil
  | blank _ _ ih => exact ih
  | lexeme hl _ h ih =>
    refine List.pairwise_cons.mpr ⟨?_, ih⟩
    intro q hq
    have hle := h.position_le q hq
    have hpos := length_chars_pos hl
    simp only
    omega

/-! ### Words -/

end Cut

namespace Lexeme

/-- A lexeme that is a run of letters. -/
def isWord : Lexeme → Bool
  | name _ | call _ => true
  | _ => false

theorem letters_of_isWord {l : Lexeme} (h : l.isWord = true) (hl : l.Formed) :
    l.chars ≠ [] ∧ ∀ c ∈ l.chars, c.isAlpha = true := by
  cases l with
  | name | call => exact hl
  | _ => cases h

theorem isAlpha_head?_of_precedes {l : Lexeme} {text : List Char} (h : l.isWord = true)
    (hp : l.Precedes text) : ∀ c ∈ text.head?, c.isAlpha = false := by
  cases l with
  | name => exact fun c hc => (hp c hc).1
  | call =>
    intro c hc
    have hh : text.head? = some '(' := hp
    rw [hh] at hc
    cases hc
    rfl
  | _ => cases h

theorem isAlpha_of_isDigit {c : Char} (h : c.isDigit = true) : c.isAlpha = false := by
  rw [← Bool.not_eq_true]
  intro ha
  rw [isDigit_of_isAlpha ha] at h
  cases h

/-- A numeral is written with digits and a point. -/
theorem isDigit_or_eq_point {whole : List Char} {fraction : Option (List Char)}
    (hl : (number whole fraction).Formed) {c : Char} (hc : c ∈ (number whole fraction).chars) :
    c.isDigit = true ∨ c = '.' := by
  cases fraction with
  | none => exact .inl (hl.2.1 c hc)
  | some ds =>
    rcases List.mem_append.mp hc with hw | hd
    · exact .inl (hl.2.1 c hw)
    · rcases List.mem_cons.mp hd with rfl | hd
      · exact .inr rfl
      · exact .inl (hl.2.2 ds rfl c hd)

/-- Only words are written with letters. -/
theorem isAlpha_of_mem_chars {l : Lexeme} (h : l.isWord = false) (hl : l.Formed) {c : Char}
    (hc : c ∈ l.chars) : c.isAlpha = false := by
  cases l with
  | number whole fraction =>
    rcases isDigit_or_eq_point hl hc with hd | rfl
    · exact isAlpha_of_isDigit hd
    · rfl
  | name | call => cases h
  | sign op =>
    obtain rfl := List.mem_singleton.mp hc
    cases op <;> rfl
  | opening bracket | closing bracket =>
    obtain rfl := List.mem_singleton.mp hc
    cases bracket <;> rfl
  | stray d =>
    obtain rfl := List.mem_singleton.mp hc
    exact hl.2.2.1

/-- No lexeme is written with blanks. -/
theorem isBlank_of_mem_chars {l : Lexeme} (hl : l.Formed) {c : Char} (hc : c ∈ l.chars) :
    Text.isBlank c = false := by
  cases l with
  | number whole fraction =>
    rcases isDigit_or_eq_point hl hc with hd | rfl
    · exact isBlank_of_isDigit hd
    · rfl
  | name letters | call letters => exact isBlank_of_isAlpha (hl.2 c hc)
  | sign op =>
    obtain rfl := List.mem_singleton.mp hc
    cases op <;> rfl
  | opening bracket | closing bracket =>
    obtain rfl := List.mem_singleton.mp hc
    cases bracket <;> rfl
  | stray d =>
    obtain rfl := List.mem_singleton.mp hc
    exact hl.1

/-- A text begins with one lexeme only. -/
theorem eq_of_chars_append {l m : Lexeme} {after text : List Char} (hl : l.Formed) (hm : m.Formed)
    (hla : l.Precedes after) (hmt : m.Precedes text) (h : l.chars ++ after = m.chars ++ text) :
    l = m ∧ after = text := by
  obtain ⟨c, rest, hc, hfound⟩ := next_chars hl hla
  obtain ⟨d, more, hd, hfound'⟩ := next_chars hm hmt
  rw [hc, hd] at h
  obtain rfl : c = d := (List.cons.inj h).1
  have hrest : rest ++ after = more ++ text := (List.cons.inj h).2
  rw [hrest, hfound'] at hfound
  obtain ⟨hlm, hlength⟩ := Prod.mk.inj hfound
  exact ⟨(Option.some.inj hlm).symm, (List.append_inj hrest hlength.symm).2⟩

/-- Lexemes of a family have characters of their own, and no two of them come directly one after
    the other. -/
structure Family (member : Lexeme → Bool) (inner : Char → Bool) : Prop where
  blank : ∀ c, Text.isBlank c = true → inner c = false
  inside : ∀ l : Lexeme, l.Formed → member l = true → ∀ c ∈ l.chars, inner c = true
  apart : ∀ (l m : Lexeme) (after : List Char), l.Formed → member l = true → member m = true →
    ¬ m.Precedes (l.chars ++ after)

theorem family_word : Family isWord Char.isAlpha where
  blank _ := isAlpha_of_isBlank
  inside _ hl hw := (letters_of_isWord hw hl).2
  apart l m after hl hw hmw hp := by
    obtain ⟨d, letters, hd⟩ := List.exists_cons_of_ne_nil (letters_of_isWord hw hl).1
    have ha := (letters_of_isWord hw hl).2 d (hd ▸ List.mem_cons_self)
    rw [isAlpha_head?_of_precedes hmw hp d (by rw [hd]; rfl)] at ha
    cases ha

end Lexeme

namespace Cut

variable {position : Nat} {text : List Char} {placed : List Placed}

section Families

variable {member : Lexeme → Bool} {inner : Char → Bool} {l m : Lexeme} {before after : List Char}

/-- What stands before a lexeme of a family, inside a text or at its beginning, does not end with a
    character of the family. -/
theorem inner_getLast?_append (first : List Char)
    (h : ∀ c ∈ (first ++ before).getLast?, inner c = false) :
    ∀ c ∈ before.getLast?, inner c = false := by
  intro c hc
  apply h
  rw [List.getLast?_append, Option.mem_def.mp hc]
  rfl

/-- A lexeme of a family that comes after another lexeme does not come directly after a character of
    the family. -/
theorem inner_getLast?_chars_append (hf : Family member inner) (hw : member l = true)
    (hl : l.Formed) (ho : member m = false → ∀ c ∈ m.chars, inner c = false)
    (hp : m.Precedes (before ++ (l.chars ++ after)))
    (hbefore : ∀ c ∈ before.getLast?, inner c = false) :
    ∀ c ∈ (m.chars ++ before).getLast?, inner c = false := by
  intro c hc
  rcases List.eq_nil_or_concat before with rfl | ⟨first, d, rfl⟩
  · rw [List.append_nil] at hc
    cases hmw : member m with
    | false => exact ho hmw c (List.mem_of_getLast? hc)
    | true => exact absurd hp (hf.apart l m after hl hw hmw)
  · rw [List.concat_eq_append, ← List.append_assoc, List.getLast?_concat] at hc
    rw [List.concat_eq_append, List.getLast?_concat] at hbefore
    exact hbefore c hc

/-- A lexeme of a family that does not begin in the rest of the text is the lexeme before the
    rest. -/
theorem eq_of_append_chars {rest : List Char} (hf : Family member inner) (hw : member l = true)
    (hl : l.Formed) (hp : l.Precedes after) (hm : m.Formed)
    (ho : member m = false → ∀ c ∈ m.chars, inner c = false) (hmp : m.Precedes text)
    (hbefore : ∀ c ∈ before.getLast?, inner c = false) (hrest : rest ≠ [])
    (hchars : m.chars = before ++ rest) (h : l.chars ++ after = rest ++ text) :
    before = [] ∧ l = m ∧ after = text := by
  obtain ⟨d, more, hd⟩ := List.exists_cons_of_length_pos (length_chars_pos hl)
  have ha := hf.inside l hl hw d (hd ▸ List.mem_cons_self)
  obtain ⟨e, rest, rfl⟩ := List.exists_cons_of_ne_nil hrest
  obtain rfl : d = e := by
    rw [hd] at h
    exact (List.cons.inj h).1
  have hmw : member m = true := by
    rw [← Bool.not_eq_false]
    intro hmw
    have hd : d ∈ m.chars := hchars ▸ List.mem_append_right before List.mem_cons_self
    rw [ho hmw d hd] at ha
    cases ha
  have hnil : before = [] := by
    rcases List.eq_nil_or_concat before with hn | ⟨first, c, rfl⟩
    · exact hn
    · have hc : c ∈ m.chars := by simp [hchars]
      have hca := hf.inside m hm hmw c hc
      rw [hbefore c (by simp)] at hca
      cases hca
  rw [hnil, List.nil_append] at hchars
  rw [← hchars] at h
  exact ⟨hnil, eq_of_chars_append hl hm hp hmp h⟩

/-- The lexemes of a family are found where they stand in a text, if no other lexeme of it has
    their characters. -/
theorem mem_iff_of_family (h : Cut position text placed) (hf : Family member inner)
    (ho : ∀ p ∈ placed, member p.lexeme = false → ∀ c ∈ p.lexeme.chars, inner c = false) {i : Nat}
    (hw : member l = true) :
    ⟨i, l⟩ ∈ placed
      ↔ ∃ before after, text = before ++ (l.chars ++ after) ∧ i = position + before.length
        ∧ (∀ c ∈ before.getLast?, inner c = false) ∧ l.Formed ∧ l.Precedes after := by
  induction h with
  | nil position =>
    refine ⟨(by rintro ⟨⟩), ?_⟩
    rintro ⟨before, after, htext, -, -, hl, -⟩
    have hnil := List.append_eq_nil_iff.mp (List.append_eq_nil_iff.mp htext.symm).2
    exact absurd hnil.1 (List.length_pos_iff.mp (length_chars_pos hl))
  | @blank position c text placed hc _ ih =>
    rw [ih ho]
    constructor
    · rintro ⟨before, after, rfl, rfl, hbefore, hl, hp⟩
      refine ⟨c :: before, after, rfl, ?_, ?_, hl, hp⟩
      · rw [List.length_cons]
        omega
      · cases before with
        | nil =>
          rintro d ⟨⟩
          exact hf.blank c hc
        | cons d before => exact hbefore
    · rintro ⟨before, after, htext, rfl, hbefore, hl, hp⟩
      cases before with
      | nil =>
        obtain ⟨d, more, hd⟩ := List.exists_cons_of_length_pos (length_chars_pos hl)
        have ha := hf.inside l hl hw d (hd ▸ List.mem_cons_self)
        rw [List.nil_append, hd] at htext
        obtain rfl : c = d := (List.cons.inj htext).1
        rw [hf.blank c hc] at ha
        cases ha
      | cons d before =>
        obtain ⟨rfl, rfl⟩ := List.cons.inj htext
        refine ⟨before, after, rfl, ?_, inner_getLast?_append [c] hbefore, hl, hp⟩
        rw [List.length_cons]
        omega
  | @lexeme position m text placed hm hmp h ih =>
    obtain ⟨hmo, ho⟩ := List.forall_mem_cons.mp ho
    rw [List.mem_cons, ih ho]
    constructor
    · rintro (heq | ⟨before, after, rfl, rfl, hbefore, hl, hp⟩)
      · cases heq
        exact ⟨[], text, rfl, rfl, (by rintro c ⟨⟩), hm, hmp⟩
      · refine ⟨m.chars ++ before, after, (List.append_assoc _ _ _).symm, ?_,
          inner_getLast?_chars_append hf hw hl hmo hmp hbefore, hl, hp⟩
        rw [List.length_append, Nat.add_assoc]
    · rintro ⟨before, after, htext, rfl, hbefore, hl, hp⟩
      rcases List.append_eq_append_iff.mp htext with ⟨more, rfl, hmore⟩ | ⟨rest, hchars, hrest⟩
      · refine .inr ⟨more, after, hmore, ?_, inner_getLast?_append _ hbefore, hl, hp⟩
        rw [List.length_append, Nat.add_assoc]
      · by_cases hnil : rest = []
        · subst hnil
          rw [List.append_nil] at hchars
          refine .inr ⟨[], after, hrest.symm, ?_, (by rintro c ⟨⟩), hl, hp⟩
          rw [hchars]
          rfl
        · obtain ⟨rfl, rfl, rfl⟩ :=
            eq_of_append_chars hf hw hl hp hm hmo hmp hbefore hnil hchars hrest
          exact .inl rfl

end Families

/-- The words of a text are its runs of letters. -/
theorem mem_word_iff (h : Cut position text placed) {i : Nat} {l : Lexeme}
    (hw : l.isWord = true) :
    ⟨i, l⟩ ∈ placed
      ↔ ∃ before after, text = before ++ (l.chars ++ after) ∧ i = position + before.length
        ∧ (∀ c ∈ before.getLast?, c.isAlpha = false) ∧ l.Formed ∧ l.Precedes after :=
  h.mem_iff_of_family family_word
    (fun p hp hpw _ hc => isAlpha_of_mem_chars hpw (h.formed p hp) hc) hw

/-! ### One text after another -/

/-- A lexeme at the end of a text takes nothing of a character that ends every operand. -/
theorem precedes_of_endsOperand {l : Lexeme} {tail : List Char} (hp : l.Precedes [])
    (ht : ∀ c ∈ tail.head?, EndsOperand c) : l.Precedes tail := by
  cases l with
  | number whole fraction =>
    cases fraction with
    | none => exact fun c hc => ⟨(ht c hc).1, (ht c hc).2.2.1⟩
    | some ds => exact fun c hc => (ht c hc).1
  | name => exact fun c hc => ⟨(ht c hc).2.1, (ht c hc).2.2.2⟩
  | call => cases hp
  | sign | opening | closing | stray => trivial

/-- A lexeme looks at one character only, which is the tail's if nothing is between. -/
theorem precedes_append {l : Lexeme} {tail : List Char} (hp : l.Precedes text)
    (ht : text = [] → l.Precedes tail) : l.Precedes (text ++ tail) := by
  cases text with
  | nil => exact ht rfl
  | cons c text =>
    cases l with
    | number whole fraction => cases fraction <;> exact hp
    | _ => exact hp

/-- A text is cut in front of a tail that the lexeme at its end takes nothing of. -/
theorem append_of_last {tail : List Char} {more : List Placed} (h : Cut position text placed)
    (ht : ∀ l : Lexeme, l.Formed → l.Precedes [] → l.chars <:+ text → l.Precedes tail)
    (h' : Cut (position + text.length) tail more) :
    Cut position (text ++ tail) (placed ++ more) := by
  induction h with
  | nil position => exact h'
  | @blank position c text placed hc _ ih =>
    rw [List.length_cons, Nat.add_comm text.length, ← Nat.add_assoc] at h'
    exact .blank hc (ih (fun l hl hp hs => ht l hl hp (hs.trans (List.suffix_cons c text))) h')
  | @lexeme position l text placed hl hp _ ih =>
    have ht' : ∀ m : Lexeme, m.Formed → m.Precedes [] → m.chars <:+ text → m.Precedes tail :=
      fun m hm hmp hs => ht m hm hmp (hs.trans (List.suffix_append _ _))
    rw [List.length_append, ← Nat.add_assoc] at h'
    rw [List.append_assoc]
    refine .lexeme hl (precedes_append hp ?_) (ih ht' h')
    rintro rfl
    rw [List.append_nil] at ht
    exact ht l hl hp List.suffix_rfl

/-- A text is cut before a character that ends every operand. -/
theorem append {tail : List Char} {more : List Placed} (h : Cut position text placed)
    (ht : ∀ c ∈ tail.head?, EndsOperand c) (h' : Cut (position + text.length) tail more) :
    Cut position (text ++ tail) (placed ++ more) :=
  h.append_of_last (fun _ _ hp _ => precedes_of_endsOperand hp ht) h'

end Cut

/-- A run of letters, as long as it can be, with no round opening bracket directly after it. -/
def NameAt (text : List Char) (position : Nat) (letters : List Char) : Prop :=
  ∃ before after, text = before ++ (letters ++ after) ∧ before.length = position
    ∧ letters ≠ [] ∧ (∀ c ∈ letters, c.isAlpha = true)
    ∧ (∀ c ∈ before.getLast?, c.isAlpha = false)
    ∧ ∀ c ∈ after.head?, c.isAlpha = false ∧ c ≠ '('

/-- The names that a text is cut into are those that stand in it. -/
theorem mem_lexemes_name_iff {text letters : List Char} {position : Nat} :
    ⟨position, .name letters⟩ ∈ lexemes text ↔ NameAt text position letters := by
  rw [(cut_lexemes text).mem_word_iff rfl]
  constructor
  · rintro ⟨before, after, htext, rfl, hbefore, hl, hp⟩
    exact ⟨before, after, htext, (Nat.zero_add _).symm, hl.1, hl.2, hbefore, hp⟩
  · rintro ⟨before, after, htext, rfl, hne, halpha, hbefore, hp⟩
    exact ⟨before, after, htext, (Nat.zero_add _).symm, hbefore, ⟨hne, halpha⟩, hp⟩

end Reckon
