import Reckon.Proofs.NumberWords
import Reckon.Proofs.RoundTrip

/-! # The vocabulary of postfix text

    Postfix text is cut into words at its maximal runs of blanks. There are five classes of words,
    and no word belongs to two of them, so a word tells on its own what token it writes. A text is
    read if all of its words belong to a class, and then as one token for each word; the first word
    that belongs to none is the one that a refusal names (`parse_vocabulary`).

        sign:       +  -  *  /  ^  ~
        function:   sin  cos  tan  sqrt  ln
        constant:   pi  PI  e
        number:     12  3.  1e+30  -0.5e7  -inf  nan
        variable:   $x  $pi
        no class:   1e5e5  .5  +5  --2  1e  -$x  inf1  $  Sin -/

namespace Reckon

/-! ### Cutting a text into words -/

namespace Text

/-- A text that consists of the given words and of blanks before, between and after them. -/
inductive Split : List Char → List (List Char) → Prop
  /-- the end of the text -/
  | done : Split [] []
  /-- a blank, which belongs to no word -/
  | blank {c : Char} {text : List Char} {ws : List (List Char)} (hc : isBlank c = true)
      (h : Split text ws) : Split (c :: text) ws
  /-- a word, which goes on to the next blank or to the end -/
  | word {word text : List Char} {ws : List (List Char)} (hw : IsWord word)
      (hs : ∀ c ∈ text.head?, isBlank c = true) (h : Split text ws) :
      Split (word ++ text) (word :: ws)

theorem isWord_singleton {c : Char} (h : isBlank c = false) : IsWord [c] :=
  ⟨List.cons_ne_nil _ _, List.forall_mem_singleton.mpr h⟩

theorem isWord_cons {c : Char} {word : List Char} (hc : isBlank c = false) (hw : IsWord word) :
    IsWord (c :: word) :=
  ⟨List.cons_ne_nil _ _, noBlank_cons.mpr ⟨hc, hw.2⟩⟩

/-- A text that does not begin with a blank begins with its first word. -/
theorem Split.exists_word {d : Char} {rest : List Char} {ws : List (List Char)}
    (h : Split (d :: rest) ws) (hd : isBlank d = false) :
    ∃ word text more, IsWord word ∧ (∀ c ∈ text.head?, isBlank c = true) ∧ Split text more
      ∧ d :: rest = word ++ text ∧ ws = word :: more := by
  generalize htext : d :: rest = text at h
  cases h with
  | done => cases htext
  | blank hc h =>
    cases htext
    rw [hd] at hc
    cases hc
  | word hw hs h => exact ⟨_, _, _, hw, hs, h, rfl, rfl⟩

theorem split_words (text : List Char) : Split text (words text) := by
  induction text with
  | nil => exact .done
  | cons c rest ih =>
    cases hc : isBlank c with
    | true =>
      rw [words_cons_of_isBlank hc]
      exact .blank hc ih
    | false =>
      rw [words, if_neg (Bool.eq_false_iff.mp hc)]
      rcases rest with _ | ⟨d, rest⟩
      · exact .word (isWord_singleton hc) (by rintro c ⟨⟩) .done
      cases hd : isBlank d with
      | true =>
        rw [joinWord_of_stop c _ (by rintro c ⟨⟩; exact hd)]
        exact .word (isWord_singleton hc) (by rintro c ⟨⟩; exact hd) ih
      | false =>
        -- the word that begins at the next character is extended by this one
        obtain ⟨word, text, more, hw, hs, hmore, htext, hwords⟩ := ih.exists_word hd
        rw [hwords, joinWord_of_not_isBlank c hd, htext]
        exact .word (isWord_cons hc hw) hs hmore

/-- There is one way to cut a text. -/
theorem split_iff {text : List Char} {ws : List (List Char)} :
    Split text ws ↔ ws = words text := by
  constructor
  · intro h
    induction h with
    | done => rfl
    | blank hc h ih => rw [words_cons_of_isBlank hc, ih]
    | word hw hs h ih => rw [words_append hw hs, ih]
  · rintro rfl
    exact split_words text

end Text

namespace Postfix

/-! ### The classes -/

/-- The classes of words. -/
inductive WordClass where
  | sign | function | constant | number | var
  deriving DecidableEq, Repr

/-- The words of a class. -/
def WordClass.Contains : WordClass → List Char → Prop
  | sign, word => ∃ c ∈ ['+', '-', '*', '/', '^', '~'], word = [c]
  | function, word => ∃ f : Function, word = f.name.toList
  | constant, word => ∃ entry ∈ constants, word = entry.1.toList
  | number, word => NumberWord word
  | var, word =>
    ∃ letters, letters ≠ [] ∧ (∀ c ∈ letters, c.isAlpha = true)
      ∧ word = Token.variableMark :: letters

/-- A word that is read: it belongs to a class, and to that of variables only where these are
    allowed. -/
def InVocabulary (allow : Bool) (word : List Char) : Prop :=
  ∃ k : WordClass, (k = .var → allow = true) ∧ k.Contains word

/-- The token that a word writes. -/
inductive Writes (allow : Bool) : List Char → Token → Prop
  | binary (op : Binary) : Writes allow [op.char] (.operator (.binary op))
  | negate : Writes allow ['~'] (.operator .negate)
  | function (f : Function) : Writes allow f.name.toList (.operator (.function f))
  | constant {name : String} {x : Float} (h : (name, x) ∈ constants) :
      Writes allow name.toList (.number x)
  | number {word : List Char} {x : Float} (h : NumberWord word)
      (hx : Number.ofText? word = some x) : Writes allow word (.number x)
  | var {letters : List Char} (hallow : allow = true) (hne : letters ≠ [])
      (h : ∀ c ∈ letters, c.isAlpha = true) :
      Writes allow (Token.variableMark :: letters) (.var (String.ofList letters))

/-- The class of a word, if it has one. -/
def classOf? (word : List Char) : Option WordClass :=
  match operator? word with
  | some (.function _) => some .function
  | some _ => some .sign
  | none =>
    if (constant? word).isSome then some .constant
    else if (Number.ofWord? word).isSome then some .number
    else if (var? word).isSome then some .var
    else none

theorem constant?_of_mem {name : String} {x : Float} (h : (name, x) ∈ constants) :
    constant? name.toList = some x ∧ operator? name.toList = none := by
  simp only [constants, List.mem_cons, List.not_mem_nil, or_false] at h
  rcases h with h | h | h <;> cases h <;> exact ⟨rfl, rfl⟩

/-- The words of a class have that class, and so no other. -/
theorem classOf?_of_contains {k : WordClass} {word : List Char} (h : k.Contains word) :
    classOf? word = some k := by
  cases k with
  | sign =>
    obtain ⟨c, hc, rfl⟩ := h
    simp only [List.mem_cons, List.not_mem_nil, or_false] at hc
    rcases hc with rfl | rfl | rfl | rfl | rfl | rfl <;> rfl
  | function =>
    obtain ⟨f, rfl⟩ := h
    have hread : operator? f.name.toList = some (.function f) := operator?_symbol (.function f)
    rw [classOf?, hread]
  | constant =>
    obtain ⟨⟨name, x⟩, hentry, rfl⟩ := h
    obtain ⟨hread, hop⟩ := constant?_of_mem hentry
    rw [classOf?, hop, hread]
    rfl
  | number =>
    obtain ⟨x, hx⟩ := Number.exists_ofWord?_iff.mpr h
    rw [classOf?, operator?_eq_none_of_number hx, constant?_eq_none_of_number hx, hx]
    rfl
  | var =>
    obtain ⟨letters, hne, hletters, rfl⟩ := h
    have hnumber := number?_marked letters
    rw [number?] at hnumber
    rw [classOf?, operator?_marked]
    split at hnumber
    · cases hnumber
    · next hconstant =>
      rw [hconstant, hnumber, var?_mark_cons hne hletters]
      rfl

/-! ### Words and their tokens -/

variable {allow : Bool}

theorem token?_eq_some_iff {word : List Char} {t : Token} :
    token? allow word = some t ↔ Writes allow word t := by
  constructor
  · intro h
    unfold token? at h
    split at h
    · next op hop =>
      cases h
      rw [← symbol_of_operator? hop]
      cases op with
      | binary op => exact .binary op
      | negate => exact .negate
      | function f => exact .function f
    · split at h
      · next x hx =>
        cases h
        unfold number? at hx
        split at hx
        · next hconstant =>
          cases hx
          obtain ⟨name, hmem, rfl⟩ := mem_of_constant? hconstant
          exact .constant hmem
        · have hword := Number.exists_ofWord?_iff.mp ⟨x, hx⟩
          exact .number hword (hword.ofText?_eq.trans hx)
      · split at h
        · next hallow =>
          obtain ⟨name, hname, rfl⟩ := Option.map_eq_some_iff.mp h
          obtain ⟨letters, hne, hletters, rfl, rfl⟩ := letters_of_var? hname
          exact .var hallow hne hletters
        · cases h
  · intro h
    cases h with
    | binary op => rw [token?, show operator? [op.char] = _ from operator?_symbol (.binary op)]
    | negate => rfl
    | function f =>
      rw [token?, show operator? f.name.toList = _ from operator?_symbol (.function f)]
    | constant h =>
      obtain ⟨hread, hop⟩ := constant?_of_mem h
      rw [token?, hop, number?, hread]
    | number h hx =>
      rw [h.ofText?_eq] at hx
      rw [token?, operator?_eq_none_of_number hx, number?, constant?_eq_none_of_number hx, hx]
    | var hallow hne h =>
      rw [token?, operator?_marked, number?_marked, if_pos hallow, var?_mark_cons hne h]
      rfl

/-- A word that writes a token is in the vocabulary, -/
theorem Writes.inVocabulary {word : List Char} {t : Token} (h : Writes allow word t) :
    InVocabulary allow word := by
  cases h with
  | binary op =>
    exact ⟨.sign, by rintro ⟨⟩, op.char, by cases op <;> decide, rfl⟩
  | negate => exact ⟨.sign, by rintro ⟨⟩, '~', by decide, rfl⟩
  | function f => exact ⟨.function, by rintro ⟨⟩, f, rfl⟩
  | constant h => exact ⟨.constant, by rintro ⟨⟩, _, h, rfl⟩
  | number h hx => exact ⟨.number, by rintro ⟨⟩, h⟩
  | var hallow hne h => exact ⟨.var, fun _ => hallow, _, hne, h, rfl⟩

/-- and a word of the vocabulary writes one. -/
theorem InVocabulary.exists_writes {word : List Char} (h : InVocabulary allow word) :
    ∃ t, Writes allow word t := by
  obtain ⟨k, hallow, h⟩ := h
  cases k with
  | sign =>
    obtain ⟨c, hc, rfl⟩ := h
    simp only [List.mem_cons, List.not_mem_nil, or_false] at hc
    rcases hc with rfl | rfl | rfl | rfl | rfl | rfl
    · exact ⟨_, .binary .add⟩
    · exact ⟨_, .binary .sub⟩
    · exact ⟨_, .binary .mul⟩
    · exact ⟨_, .binary .div⟩
    · exact ⟨_, .binary .pow⟩
    · exact ⟨_, .negate⟩
  | function =>
    obtain ⟨f, rfl⟩ := h
    exact ⟨_, .function f⟩
  | constant =>
    obtain ⟨entry, hentry, rfl⟩ := h
    exact ⟨_, .constant hentry⟩
  | number =>
    obtain ⟨x, hx⟩ := Number.exists_ofWord?_iff.mpr h
    exact ⟨_, .number h (h.ofText?_eq.trans hx)⟩
  | var =>
    obtain ⟨letters, hne, hletters, rfl⟩ := h
    exact ⟨_, .var (hallow rfl) hne hletters⟩

/-- The token of a word does not depend on whether variables are allowed. -/
theorem Writes.allowing {word : List Char} {t : Token} (h : Writes allow word t) :
    Writes true word t := by
  cases h with
  | binary op => exact .binary op
  | negate => exact .negate
  | function f => exact .function f
  | constant h => exact .constant h
  | number h hx => exact .number h hx
  | var hallow hne h => exact .var rfl hne h

/-- A word writes one token only. -/
theorem Writes.unique {allow' : Bool} {word : List Char} {t u : Token} (ht : Writes allow word t)
    (hu : Writes allow' word u) : t = u := by
  have hread := token?_eq_some_iff.mpr ht.allowing
  rw [token?_eq_some_iff.mpr hu.allowing] at hread
  exact (Option.some.inj hread).symm

theorem token?_eq_none_iff {word : List Char} :
    token? allow word = none ↔ ¬ InVocabulary allow word := by
  constructor
  · intro hnone h
    obtain ⟨t, ht⟩ := h.exists_writes
    rw [token?_eq_some_iff.mpr ht] at hnone
    cases hnone
  · intro h
    cases ht : token? allow word with
    | none => rfl
    | some t => exact absurd (token?_eq_some_iff.mp ht).inVocabulary h

/-! ### Texts and their tokens -/

/-- Words are read one by one. -/
theorem tokens_eq_ok_iff {ws : List (List Char)} {ts : List Token} :
    tokens allow ws = .ok ts ↔ List.Forall₂ (Writes allow) ws ts := by
  induction ws generalizing ts with
  | nil =>
    rw [List.forall₂_nil_left_iff]
    exact ⟨fun h => by cases h; rfl, fun h => by rw [h]; rfl⟩
  | cons word ws ih =>
    rw [List.forall₂_cons_left_iff, tokens]
    constructor
    · intro h
      split at h
      · cases h
      · next t ht =>
        cases hmore : tokens allow ws with
        | error r =>
          rw [hmore] at h
          cases h
        | ok more =>
          rw [hmore] at h
          cases h
          exact ⟨t, more, token?_eq_some_iff.mp ht, ih.mp hmore, rfl⟩
    · rintro ⟨t, more, ht, hmore, rfl⟩
      rw [token?_eq_some_iff.mpr ht, ih.mpr hmore]
      rfl

/-- The first word outside the vocabulary, after words of the vocabulary. -/
def FirstUnknown (allow : Bool) (ws : List (List Char)) (word : List Char) : Prop :=
  ∃ before after, ws = before ++ word :: after ∧ (∀ w ∈ before, InVocabulary allow w)
    ∧ ¬ InVocabulary allow word

/-- Words are refused at the first one outside the vocabulary. -/
theorem tokens_eq_error_iff {ws : List (List Char)} {r : Refusal} :
    tokens allow ws = .error r ↔ ∃ word, FirstUnknown allow ws word ∧ r = .unknownWord word := by
  induction ws with
  | nil =>
    constructor
    · rintro ⟨⟩
    · rintro ⟨word, ⟨before, after, hws, -⟩, -⟩
      cases before <;> cases hws
  | cons first ws ih =>
    rw [tokens]
    cases ht : token? allow first with
    | none =>
      have hout := token?_eq_none_iff.mp ht
      constructor
      · rintro ⟨⟩
        exact ⟨first, ⟨[], ws, rfl, List.forall_mem_nil _, hout⟩, rfl⟩
      · rintro ⟨word, ⟨before, after, hws, hbefore, -⟩, rfl⟩
        cases before with
        | nil =>
          cases hws
          rfl
        | cons w before =>
          cases hws
          exact absurd (hbefore first List.mem_cons_self) hout
    | some t =>
      have hin := (token?_eq_some_iff.mp ht).inVocabulary
      have hmap : (tokens allow ws).map (t :: ·) = .error r ↔ tokens allow ws = .error r := by
        cases tokens allow ws <;> simp [Except.map]
      refine hmap.trans (ih.trans ?_)
      constructor
      · rintro ⟨word, ⟨before, after, rfl, hbefore, hword⟩, rfl⟩
        exact ⟨word, ⟨first :: before, after, rfl, List.forall_mem_cons.mpr ⟨hin, hbefore⟩, hword⟩,
          rfl⟩
      · rintro ⟨word, ⟨before, after, hws, hbefore, hword⟩, rfl⟩
        cases before with
        | nil =>
          cases hws
          exact absurd hin hword
        | cons w before =>
          cases hws
          exact ⟨word, ⟨before, after, rfl, (List.forall_mem_cons.mp hbefore).2, hword⟩, rfl⟩

theorem forall_inVocabulary {ws : List (List Char)} {ts : List Token}
    (h : List.Forall₂ (Writes allow) ws ts) : ∀ word ∈ ws, InVocabulary allow word := by
  induction h with
  | nil => exact List.forall_mem_nil _
  | cons hword _ ih => exact List.forall_mem_cons.mpr ⟨hword.inVocabulary, ih⟩

/-- Words of the vocabulary are read, and no others. -/
theorem exists_tokens_iff {ws : List (List Char)} :
    (∃ ts, tokens allow ws = .ok ts) ↔ ∀ word ∈ ws, InVocabulary allow word := by
  constructor
  · rintro ⟨ts, h⟩
    exact forall_inVocabulary (tokens_eq_ok_iff.mp h)
  · intro h
    cases hread : tokens allow ws with
    | ok ts => exact ⟨ts, rfl⟩
    | error r =>
      obtain ⟨word, ⟨before, after, rfl, -, hout⟩, -⟩ := tokens_eq_error_iff.mp hread
      exact absurd (h word (List.mem_append_right before List.mem_cons_self)) hout

/-- The message about a word outside the vocabulary names it. -/
theorem message_unknownWord (word : List Char) :
    (Refusal.unknownWord word).message
      = "UnknownSymbol: unknown token '" ++ String.ofList word ++ "'" := by
  have hdetail : "unknown token " ++ Refusal.cited word ≠ "" := by simp [Refusal.cited]
  calc (Refusal.unknownWord word).message
      = "UnknownSymbol" ++ ": " ++ ("unknown token " ++ Refusal.cited word) :=
        Report.message_of_detail hdetail
    _ = "UnknownSymbol: unknown token '" ++ String.ofList word ++ "'" := by
        simp [Refusal.cited, ← String.append_assoc]

/-- A text is read just if all its words are in the vocabulary, word by word; the first one that is
    not is refused. The classes of the vocabulary have no word in common, a word writes one token,
    and the text of a number word is a number. -/
theorem parse_vocabulary (allow : Bool) (text : String) :
    (∃ ws, (∀ others, Text.Split text.toList others ↔ others = ws)
        ∧ (∀ ts, parse allow text = .ok ts ↔ List.Forall₂ (Writes allow) ws ts)
        ∧ ((∃ ts, parse allow text = .ok ts) ↔ ∀ word ∈ ws, InVocabulary allow word)
        ∧ ∀ r, parse allow text = .error r
            ↔ ∃ word, FirstUnknown allow ws word ∧ r = .unknownWord word)
      ∧ (∀ word, (Refusal.unknownWord word).kind = .unknownSymbol
          ∧ (Refusal.unknownWord word).message
            = "UnknownSymbol: unknown token '" ++ String.ofList word ++ "'"
          ∧ (Refusal.unknownWord word).position = none)
      ∧ (∀ (k other : WordClass) (word : List Char),
          k.Contains word → other.Contains word → k = other)
      ∧ (∀ (allow' : Bool) (word : List Char) (t u : Token),
          Writes allow word t → Writes allow' word u → t = u)
      ∧ ∀ word, NumberWord word → ∃ x, Number.ofText? word = some x := by
  refine ⟨⟨Text.words text.toList, fun others => Text.split_iff, fun ts => tokens_eq_ok_iff,
    exists_tokens_iff, fun r => tokens_eq_error_iff⟩, ?_, ?_, ?_, ?_⟩
  · intro word
    exact ⟨rfl, message_unknownWord word, rfl⟩
  · intro k other word hk hother
    have hclass := classOf?_of_contains hk
    rw [classOf?_of_contains hother] at hclass
    exact (Option.some.inj hclass).symm
  · intro allow' word t u ht hu
    exact ht.unique hu
  · intro word h
    obtain ⟨x, hx⟩ := Number.exists_ofWord?_iff.mpr h
    exact ⟨x, h.ofText?_eq.trans hx⟩

/-- A second power of ten is refused before a missing first digit is met, and the name of a constant
    is no number word though it marks powers of ten. -/
theorem parse_second_power_of_ten :
    parse true "1e5 $x ~ 1e5e5 .5" = .error (.unknownWord ['1', 'e', '5', 'e', '5'])
      ∧ ∀ k : WordClass, k.Contains ['e'] → k = .constant := by
  obtain ⟨⟨ws, hsplit, -, -, hrefused⟩, -, hclass, -⟩ := parse_vocabulary true "1e5 $x ~ 1e5e5 .5"
  constructor
  · have hws := (hsplit _).mp (Text.split_words _)
    have hbefore : ∀ w ∈ [['1', 'e', '5'], ['$', 'x'], ['~']], InVocabulary true w := by
      intro w hw
      simp only [List.mem_cons, List.not_mem_nil, or_false] at hw
      rcases hw with rfl | rfl | rfl
      · have hread : (Number.ofWord? ['1', 'e', '5']).isSome = true := by decide
        exact ⟨.number, by rintro ⟨⟩,
          Number.exists_ofWord?_iff.mp (Option.isSome_iff_exists.mp hread)⟩
      · exact ⟨.var, fun _ => rfl, ['x'], by decide, List.forall_mem_singleton.mpr rfl, rfl⟩
      · exact Writes.negate.inVocabulary
    have hout : ¬ InVocabulary true ['1', 'e', '5', 'e', '5'] := token?_eq_none_iff.mp rfl
    exact (hrefused _).mpr ⟨_, ⟨_, [['.', '5']], hws.symm, hbefore, hout⟩, rfl⟩
  · intro k hk
    exact hclass k .constant ['e'] hk ⟨("e", logarithmBase), by simp [constants], rfl⟩

end Postfix

end Reckon
