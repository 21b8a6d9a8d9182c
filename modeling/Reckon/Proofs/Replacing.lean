import Reckon.Proofs.Relocation

/-! # Replacing a name

    `replaceName` puts a text in the place of every name that is spelled one way. A group, or a
    called function with its group, can stand wherever a name stands: it is cut into the same
    lexemes whatever comes after it, and no lexeme before it takes any of its characters. So the
    lexemes of the new text are those of the old one with the lexemes of the group in the place of
    each name (`cut_replaceName`).

        text:    2x^x (x3)       lexemes:  2 x ^ x ( x 3 )
        new:     (a+1)                     ( a + 1 )
        result:  2(a+1)^(a+1) ((a+1)3) -/

namespace Reckon

/-- Items of which each that is `a` is replaced by all of the new ones. -/
def expand {α : Type} [DecidableEq α] (a : α) (new items : List α) : List α :=
  items.flatMap fun b => if b = a then new else [b]

section Expand

variable {α : Type} [DecidableEq α] {a : α} {new : List α}

theorem expand_append (first second : List α) :
    expand a new (first ++ second) = expand a new first ++ expand a new second :=
  List.flatMap_append

theorem expand_cons (b : α) (items : List α) :
    expand a new (b :: items) = (if b = a then new else [b]) ++ expand a new items :=
  List.flatMap_cons

theorem expand_singleton : expand a new [a] = new := by
  rw [expand_cons, if_pos rfl]
  exact List.append_nil new

theorem expand_eq_self {items : List α} (h : a ∉ items) : expand a new items = items := by
  induction items with
  | nil => rfl
  | cons b items ih =>
    have hb : b ≠ a := fun hb => h (hb ▸ List.mem_cons_self)
    rw [expand_cons, if_neg hb, ih fun ha => h (List.mem_cons_of_mem b ha)]
    rfl

end Expand

/-- The text in which every run of letters that spells `name`, as long as it can be and with no
    round opening bracket directly after it, is replaced by a new text. -/
def replaceName (name new : List Char) : List Char → List Char
  | [] => []
  | c :: rest =>
    if c.isAlpha then
      let letters := c :: rest.takeWhile Char.isAlpha
      let after := rest.dropWhile Char.isAlpha
      (if letters = name ∧ after.head? ≠ some '(' then new else letters)
        ++ replaceName name new after
    else c :: replaceName name new rest
termination_by text => text.length
decreasing_by
  · exact Nat.lt_succ_of_le (List.dropWhile_sublist _).length_le
  · exact Nat.lt_succ_self _

/-- A text between the brackets of a family. -/
def Bracket.around (bracket : Bracket) (text : List Char) : List Char :=
  bracket.opening :: (text ++ [bracket.closing])

namespace Lexeme

variable {name new : List Char}

/-! ### The text -/

theorem replaceName_append_of_not_isAlpha (cs text : List Char)
    (h : ∀ c ∈ cs, c.isAlpha = false) :
    replaceName name new (cs ++ text) = cs ++ replaceName name new text := by
  induction cs with
  | nil => rfl
  | cons c cs ih =>
    obtain ⟨hc, hcs⟩ := List.forall_mem_cons.mp h
    rw [List.cons_append, replaceName, if_neg (Bool.eq_false_iff.mp hc), ih hcs]
    rfl

theorem replaceName_letters_append {letters text : List Char} (hne : letters ≠ [])
    (ha : ∀ c ∈ letters, c.isAlpha = true) (hs : ∀ c ∈ text.head?, c.isAlpha = false) :
    replaceName name new (letters ++ text)
      = (if letters = name ∧ text.head? ≠ some '(' then new else letters)
        ++ replaceName name new text := by
  obtain ⟨c, letters, rfl⟩ := List.exists_cons_of_ne_nil hne
  obtain ⟨hc, hletters⟩ := List.forall_mem_cons.mp ha
  rw [List.cons_append, replaceName, if_pos hc]
  simp only [takeWhile_append_of_stop hletters hs, dropWhile_append_of_stop hletters hs]

theorem head?_replaceName {text : List Char} (h : ∀ c ∈ text.head?, c.isAlpha = false) :
    (replaceName name new text).head? = text.head? := by
  cases text with
  | nil => rw [replaceName]
  | cons c rest =>
    rw [replaceName, if_neg (Bool.eq_false_iff.mp (h c rfl))]
    rfl

/-- A text with which no number goes on. -/
def BreaksNumber (text : List Char) : Prop :=
  ∃ c ∈ text.head?, c.isDigit = false ∧ c ≠ '.'

theorem breaksNumber_of_isAlpha {c : Char} (rest : List Char) (h : c.isAlpha = true) :
    BreaksNumber (c :: rest) := by
  refine ⟨c, rfl, isDigit_of_isAlpha h, ?_⟩
  rintro rfl
  cases h

theorem BreaksNumber.append {text : List Char} (h : BreaksNumber text) (tail : List Char) :
    BreaksNumber (text ++ tail) := by
  obtain ⟨c, hc, hbreaks⟩ := h
  refine ⟨c, ?_, hbreaks⟩
  rw [List.head?_append, Option.mem_def.mp hc]
  rfl

/-- Where the text before the replacement begins with a letter, the text after it breaks numbers. -/
theorem breaksNumber_replaceName (name : List Char) (hnew : BreaksNumber new) {c : Char}
    (rest : List Char) (h : c.isAlpha = true) :
    BreaksNumber (replaceName name new (c :: rest)) := by
  rw [replaceName, if_pos h]
  simp only
  split
  · exact hnew.append _
  · exact breaksNumber_of_isAlpha _ h

/-- A lexeme takes nothing of a replaced text if it takes nothing of the text before. -/
theorem Precedes.replaceName {l : Lexeme} {text : List Char} (hnew : BreaksNumber new)
    (h : l.Precedes text) : l.Precedes (replaceName name new text) := by
  cases text with
  | nil => rwa [Reckon.replaceName]
  | cons c rest =>
    cases ha : c.isAlpha with
    | false =>
      have hhead : (Reckon.replaceName name new (c :: rest)).head? = (c :: rest).head? :=
        head?_replaceName (by rintro d ⟨⟩; exact ha)
      cases l with
      | number whole fraction => cases fraction <;> (rw [Precedes, hhead]; exact h)
      | name | call => rw [Precedes, hhead]; exact h
      | sign | opening | closing | stray => trivial
    | true =>
      obtain ⟨d, hd, hdigit, hpoint⟩ := breaksNumber_replaceName name hnew rest ha
      have heq : ∀ e ∈ (Reckon.replaceName name new (c :: rest)).head?, e = d :=
        fun e he => Option.mem_unique he hd
      cases l with
      | number whole fraction =>
        cases fraction with
        | none => exact fun e he => heq e he ▸ ⟨hdigit, hpoint⟩
        | some ds => exact fun e he => heq e he ▸ hdigit
      | name => cases ha.symm.trans (h c rfl).1
      | call => cases h; cases ha
      | sign | opening | closing | stray => trivial

/-! ### The lexemes -/

/-- A text that can stand in the place of a name, and what it is cut into wherever it stands. -/
structure Standalone (new : List Char) (inner : List Lexeme) : Prop where
  cut_append : ∀ tail, cut (new ++ tail) = inner ++ cut tail
  breaksNumber : BreaksNumber new

theorem endsOperand_closing (bracket : Bracket) (tail : List Char) :
    ∀ c ∈ ((closing bracket).chars ++ tail).head?, EndsOperand c := by
  rintro c ⟨⟩
  cases bracket <;> refine ⟨rfl, rfl, ?_, ?_⟩ <;> decide

theorem standalone_around (bracket : Bracket) (text : List Char) :
    Standalone (bracket.around text)
      (opening bracket :: (cut text ++ [closing bracket])) where
  cut_append tail := by
    have hsplit : bracket.around text ++ tail
        = (opening bracket).chars ++ (text ++ ((closing bracket).chars ++ tail)) := by
      simp [Bracket.around, chars]
    rw [hsplit, cut_chars_append (l := opening bracket) trivial trivial,
      Lexeme.cut_append (endsOperand_closing _ _),
      cut_chars_append (l := closing bracket) trivial trivial]
    simp
  breaksNumber := by
    refine ⟨bracket.opening, rfl, ?_⟩
    cases bracket <;> decide

theorem formed_call (f : Function) : (call f.name.toList).Formed := by
  have hne : f.name.toList ≠ [] := by cases f <;> decide
  have halpha : f.name.toList.all Char.isAlpha = true := by cases f <;> decide
  exact ⟨hne, List.all_eq_true.mp halpha⟩

theorem standalone_call (f : Function) (text : List Char) :
    Standalone (f.name.toList ++ Bracket.round.around text)
      (call f.name.toList :: opening .round :: (cut text ++ [closing .round])) where
  cut_append tail := by
    have hsplit : f.name.toList ++ Bracket.round.around text ++ tail
        = (call f.name.toList).chars ++ (Bracket.round.around text ++ tail) :=
      List.append_assoc _ _ _
    have hp : (call f.name.toList).Precedes (Bracket.round.around text ++ tail) := rfl
    rw [hsplit, cut_chars_append (formed_call f) hp, (standalone_around _ _).cut_append]
    rfl
  breaksNumber := by
    obtain ⟨hne, halpha⟩ := formed_call f
    obtain ⟨c, letters, hname⟩ := List.exists_cons_of_ne_nil hne
    rw [hname]
    exact breaksNumber_of_isAlpha _ (halpha c (hname ▸ List.mem_cons_self))

theorem expand_cut_of_cut {inner : List Lexeme} (h : Standalone new inner) {position : Nat}
    {text : List Char} {placed : List Placed} (hcut : Cut position text placed) :
    cut (replaceName name new text) = expand (.name name) inner (placed.map (·.lexeme)) := by
  induction hcut with
  | nil =>
    rw [replaceName]
    rfl
  | @blank position c text placed hc _ ih =>
    have hcopy : replaceName name new (c :: text) = c :: replaceName name new text :=
      replaceName_append_of_not_isAlpha [c] text fun d hd =>
        List.mem_singleton.mp hd ▸ isAlpha_of_isBlank hc
    rw [hcopy, cut_blank _ hc, ih]
  | @lexeme position l text placed hl hp _ ih =>
    have hkept : cut (l.chars ++ replaceName name new text)
        = [l] ++ cut (replaceName name new text) :=
      cut_chars_append hl (hp.replaceName h.breaksNumber)
    rw [List.map_cons, expand_cons, ← ih]
    cases hw : l.isWord with
    | false =>
      have hne : l ≠ .name name := by
        rintro rfl
        cases hw
      have hcopy : replaceName name new (l.chars ++ text) = l.chars ++ replaceName name new text :=
        replaceName_append_of_not_isAlpha _ _ fun c hc => isAlpha_of_mem_chars hw hl hc
      rw [hcopy, if_neg hne, hkept]
    | true =>
      obtain ⟨hne, ha⟩ := letters_of_isWord hw hl
      rw [replaceName_letters_append hne ha (isAlpha_head?_of_precedes hw hp)]
      cases l with
      | name letters =>
        have hbracket : text.head? ≠ some '(' := fun hh => (hp '(' hh).2 rfl
        by_cases heq : letters = name
        · rw [if_pos ⟨heq, hbracket⟩, if_pos (congrArg Lexeme.name heq), h.cut_append]
        · rw [if_neg fun hn => heq hn.1, if_neg fun hn => heq (Lexeme.name.inj hn), hkept]
      | call letters =>
        have hbracket : text.head? = some '(' := hp
        rw [if_neg fun hn => hn.2 hbracket, if_neg (by rintro ⟨⟩), hkept]
      | _ => cases hw

/-- The lexemes of a text in which a name is replaced. -/
theorem cut_replaceName {inner : List Lexeme} (h : Standalone new inner) (text : List Char) :
    cut (replaceName name new text) = expand (.name name) inner (cut text) :=
  expand_cut_of_cut h (cut_lexemes text)

end Lexeme

end Reckon
