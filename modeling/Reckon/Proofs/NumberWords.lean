import Reckon.Number.Numeral
import Reckon.Proofs.Lexemes

/-! # Number words

    A number word is made up of an optional minus sign and a magnitude. A magnitude is `inf`, `nan`
    or digits, then maybe a point and more digits, then maybe a power of ten: an `e`, maybe a sign,
    and digits. Digits may come from any script. These words are exactly those that are read as a
    double (`exists_ofWord?_iff`). All of them are number texts too, of the same double
    (`NumberWord.ofText?_eq`), though many number texts are no number words.

        number words:            12   3.   1e+30   -0.5e7   -inf   nan
        number texts only:       .5   +5   1_000   1E3      Infinity
        no number texts either:  1e   1e5e5   --2   inf1    . -/

namespace Reckon

/-! ### Digits of all scripts -/

namespace Text

/-- A decimal digit is one of the ten characters from a zero on. -/
theorem isDecimalDigit_iff {c : Char} :
    isDecimalDigit c = true ↔ ∃ z ∈ digitZeros, z ≤ c.toNat ∧ c.toNat < z + 10 := by
  simp [isDecimalDigit, digitValue?]

/-- A decimal digit is an ASCII digit or lies behind all of ASCII. -/
theorem code_of_isDecimalDigit {c : Char} (h : isDecimalDigit c = true) :
    48 ≤ c.toNat ∧ c.toNat ≤ 57 ∨ 128 ≤ c.toNat := by
  obtain ⟨z, hz, hlow, hhigh⟩ := isDecimalDigit_iff.mp h
  have hzeros : ∀ z ∈ digitZeros, z = 48 ∨ 128 ≤ z := by decide
  rcases hzeros z hz with rfl | hz <;> omega

theorem isBlank_of_isDecimalDigit {c : Char} (h : isDecimalDigit c = true) :
    isBlank c = false := by
  obtain ⟨z, hz, hlow, hhigh⟩ := isDecimalDigit_iff.mp h
  have hzeros : ∀ z ∈ digitZeros, ∀ d < 10, ¬ (9 ≤ z + d ∧ z + d ≤ 13
      ∨ 8192 ≤ z + d ∧ z + d ≤ 8202 ∨ z + d ∈ whiteSpaceCodes ∨ 28 ≤ z + d ∧ z + d ≤ 31) := by
    decide +kernel
  have hcode := hzeros z hz (c.toNat - z) (by omega)
  rw [Nat.add_sub_cancel' hlow] at hcode
  rw [← Bool.not_eq_true, isBlank_iff]
  exact hcode

theorem toLower_of_isDecimalDigit {c : Char} (h : isDecimalDigit c = true) : c.toLower = c := by
  have hupper : ¬ (c.val ≥ 'A'.val ∧ c.val ≤ 'Z'.val) := by
    rintro ⟨hlow, hhigh⟩
    have hlow' : 65 ≤ c.toNat := UInt32.le_iff_toNat_le.mp hlow
    have hhigh' : c.toNat ≤ 90 := UInt32.le_iff_toNat_le.mp hhigh
    have hcode := code_of_isDecimalDigit h
    omega
  exact dif_neg hupper

/-- Nothing is trimmed from a text without blanks. -/
theorem trim_of_forall {text : List Char} (h : ∀ c ∈ text, isBlank c = false) :
    trim text = text := by
  have hleft : ∀ part : List Char, (∀ c ∈ part, isBlank c = false) → trimLeft part = part := by
    intro part hpart
    have hstop : ∀ c ∈ part.head?, isWhiteSpace c = false :=
      fun c hc => (Bool.or_eq_false_iff.mp (hpart c (List.mem_of_head? hc))).1
    exact dropWhile_append_of_stop (List.forall_mem_nil _) hstop
  rw [trim, hleft text h, hleft _ fun c hc => h c (List.mem_reverse.mp hc), List.reverse_reverse]

end Text

/-- A text of decimal digits, of any scripts. -/
def DecimalDigits (text : List Char) : Prop := ∀ c ∈ text, Text.isDecimalDigit c = true

/-! ### The words -/

/-- A point and digits, or nothing. -/
inductive Fraction : List Char → Prop
  | absent : Fraction []
  | present {digits : List Char} (h : DecimalDigits digits) : Fraction ('.' :: digits)

/-- The sign of a power of ten. -/
inductive PowerSign : List Char → Prop
  | absent : PowerSign []
  | plus : PowerSign ['+']
  | minus : PowerSign ['-']

/-- A power of ten, or nothing. -/
inductive Power : List Char → Prop
  | absent : Power []
  | present {sign digits : List Char} (hs : PowerSign sign) (hne : digits ≠ [])
      (h : DecimalDigits digits) : Power ('e' :: (sign ++ digits))

/-- A number word without a sign. -/
inductive Magnitude : List Char → Prop
  | infinite : Magnitude ['i', 'n', 'f']
  | notANumber : Magnitude ['n', 'a', 'n']
  | finite {whole fraction power : List Char} (hne : whole ≠ []) (hw : DecimalDigits whole)
      (hf : Fraction fraction) (hp : Power power) : Magnitude (whole ++ (fraction ++ power))

/-- A number word. -/
inductive NumberWord : List Char → Prop
  | unsigned {word : List Char} (h : Magnitude word) : NumberWord word
  | negative {word : List Char} (h : Magnitude word) : NumberWord ('-' :: word)

namespace Numeral

/-! ### Reading digits -/

/-- The value of a decimal digit. -/
def valueOf (c : Char) : Nat := (Text.digitValue? c).getD 0

/-- Digits are read up to the first character that is none. -/
theorem digits_decimal_append {text rest : List Char} (h : DecimalDigits text)
    (hs : ∀ c ∈ rest.head?, Text.isDecimalDigit c = false) :
    digits (text ++ rest) = (text.map valueOf, rest) := by
  induction text with
  | nil =>
    cases rest with
    | nil => rfl
    | cons c rest =>
      have hc : Text.digitValue? c = none := by simpa [Text.isDecimalDigit] using hs c rfl
      simp [digits, hc]
  | cons c text ih =>
    obtain ⟨hc, htext⟩ := List.forall_mem_cons.mp h
    obtain ⟨d, hd⟩ := Option.isSome_iff_exists.mp hc
    simp [digits, hd, ih htext, valueOf]

theorem digits_of_decimalDigits {text : List Char} (h : DecimalDigits text) :
    digits text = (text.map valueOf, []) := by
  have hread : digits (text ++ []) = _ := digits_decimal_append h (by rintro c ⟨⟩)
  rwa [List.append_nil] at hread

/-- A text is digits and what is left when they are read. -/
theorem exists_digits (text : List Char) :
    ∃ ds rest, DecimalDigits ds ∧ text = ds ++ rest ∧ digits text = (ds.map valueOf, rest) := by
  induction text with
  | nil => exact ⟨[], [], List.forall_mem_nil _, rfl, rfl⟩
  | cons c text ih =>
    cases hc : Text.digitValue? c with
    | none => exact ⟨[], c :: text, List.forall_mem_nil _, rfl, by simp [digits, hc]⟩
    | some d =>
      obtain ⟨ds, rest, hds, rfl, hread⟩ := ih
      have hdigit : Text.isDecimalDigit c = true := by simp [Text.isDecimalDigit, hc]
      refine ⟨c :: ds, rest, List.forall_mem_cons.mpr ⟨hdigit, hds⟩, rfl, ?_⟩
      simp [digits, hc, hread, valueOf]

theorem isSome_onlyDigits?_iff {text : List Char} :
    (onlyDigits? text).isSome = true ↔ text ≠ [] ∧ DecimalDigits text := by
  constructor
  · intro h
    obtain ⟨ds, rest, hds, rfl, hread⟩ := exists_digits text
    rw [onlyDigits?, hread] at h
    rcases ds with _ | ⟨d, ds⟩ <;> rcases rest with _ | ⟨c, rest⟩
    · cases h
    · cases h
    · rw [List.append_nil]
      exact ⟨List.cons_ne_nil d ds, hds⟩
    · cases h
  · rintro ⟨hne, h⟩
    obtain ⟨c, rest, rfl⟩ := List.exists_cons_of_ne_nil hne
    rw [onlyDigits?, digits_of_decimalDigits h]
    rfl

theorem isSome_power?_minus (text : List Char) :
    (power? ('-' :: text)).isSome = (onlyDigits? text).isSome := by
  simp only [power?]
  cases onlyDigits? text <;> rfl

theorem isSome_power?_plus (text : List Char) :
    (power? ('+' :: text)).isSome = (onlyDigits? text).isSome := by
  simp only [power?]
  cases onlyDigits? text <;> rfl

theorem isSome_power?_unsigned {text : List Char} (hm : ∀ rest, text ≠ '-' :: rest)
    (hp : ∀ rest, text ≠ '+' :: rest) : (power? text).isSome = (onlyDigits? text).isSome := by
  rw [power?.eq_3 text hm hp]
  cases onlyDigits? text <;> rfl

/-- A power of ten is a sign, or none, and digits. -/
theorem isSome_power?_iff {text : List Char} :
    (power? text).isSome = true
      ↔ ∃ sign digits, PowerSign sign ∧ digits ≠ [] ∧ DecimalDigits digits
          ∧ text = sign ++ digits := by
  constructor
  · intro h
    by_cases hm : ∃ rest, text = '-' :: rest
    · obtain ⟨rest, rfl⟩ := hm
      rw [isSome_power?_minus] at h
      obtain ⟨hne, hdigits⟩ := isSome_onlyDigits?_iff.mp h
      exact ⟨_, rest, .minus, hne, hdigits, rfl⟩
    by_cases hp : ∃ rest, text = '+' :: rest
    · obtain ⟨rest, rfl⟩ := hp
      rw [isSome_power?_plus] at h
      obtain ⟨hne, hdigits⟩ := isSome_onlyDigits?_iff.mp h
      exact ⟨_, rest, .plus, hne, hdigits, rfl⟩
    rw [isSome_power?_unsigned (not_exists.mp hm) (not_exists.mp hp)] at h
    obtain ⟨hne, hdigits⟩ := isSome_onlyDigits?_iff.mp h
    exact ⟨[], text, .absent, hne, hdigits, rfl⟩
  · rintro ⟨sign, digits, hs, hne, hdigits, rfl⟩
    have hread := isSome_onlyDigits?_iff.mpr ⟨hne, hdigits⟩
    cases hs with
    | plus => exact (isSome_power?_plus digits).trans hread
    | minus => exact (isSome_power?_minus digits).trans hread
    | absent =>
      -- a digit comes first, and a sign is no digit
      have hfirst : ∀ sign : Char, Text.isDecimalDigit sign = false →
          ∀ rest, [] ++ digits ≠ sign :: rest := by
        rintro sign hsign rest rfl
        exact Bool.false_ne_true (hsign.symm.trans (List.forall_mem_cons.mp hdigits).1)
      rw [isSome_power?_unsigned (hfirst '-' (by decide)) (hfirst '+' (by decide))]
      exact hread

/-- A fraction is read up to what can neither continue nor begin it. -/
theorem exists_fractionDigits_append {fraction rest : List Char} (hf : Fraction fraction)
    (hs : ∀ c ∈ rest.head?, Text.isDecimalDigit c = false ∧ c ≠ '.') :
    ∃ ds, fractionDigits (fraction ++ rest) = (ds, rest) := by
  cases hf with
  | absent =>
    refine ⟨[], ?_⟩
    rw [List.nil_append, fractionDigits.eq_2]
    rintro more rfl
    exact (hs '.' rfl).2 rfl
  | @present digits h =>
    exact ⟨_, digits_decimal_append h fun c hc => (hs c hc).1⟩

/-- A text is a fraction and what is left when it is read. -/
theorem exists_fraction (text : List Char) :
    ∃ fraction rest ds, Fraction fraction ∧ text = fraction ++ rest
      ∧ fractionDigits text = (ds, rest) := by
  by_cases hpoint : ∃ more, text = '.' :: more
  · obtain ⟨more, rfl⟩ := hpoint
    obtain ⟨ds, rest, hds, rfl, hread⟩ := exists_digits more
    exact ⟨'.' :: ds, rest, _, .present hds, rfl, hread⟩
  · exact ⟨[], text, [], .absent, rfl, fractionDigits.eq_2 text (not_exists.mp hpoint)⟩

/-- What begins a power of ten neither continues nor begins a fraction. -/
theorem Power.stops {power : List Char} (h : Power power) :
    ∀ c ∈ power.head?, Text.isDecimalDigit c = false ∧ c ≠ '.' := by
  rintro c hc
  cases h with
  | absent => cases hc
  | present hs hne h =>
    cases hc
    decide

/-- What begins a fraction or a power of ten is no digit. -/
theorem Fraction.stops {fraction power : List Char} (hf : Fraction fraction) (hp : Power power) :
    ∀ c ∈ (fraction ++ power).head?, Text.isDecimalDigit c = false := by
  intro c hc
  cases hf with
  | absent => exact (Power.stops hp c hc).1
  | present h =>
    cases hc
    decide

/-- The unsigned numerals of number words: digits, a fraction and a power of ten. -/
theorem isSome_ofWord?_iff {word : List Char} :
    (ofWord? word).isSome = true
      ↔ ∃ whole fraction power, whole ≠ [] ∧ DecimalDigits whole ∧ Fraction fraction
          ∧ Power power ∧ word = whole ++ (fraction ++ power) := by
  constructor
  · intro h
    obtain ⟨whole, rest, hw, rfl, hwhole⟩ := exists_digits word
    obtain ⟨fraction, rest, ds, hf, rfl, hfraction⟩ := exists_fraction rest
    simp only [ofWord?, hwhole, hfraction] at h
    split at h
    · cases h
    · next hempty =>
      have hne : whole ≠ [] := by
        rintro rfl
        exact hempty rfl
      split at h
      · exact ⟨whole, fraction, [], hne, hw, hf, .absent, rfl⟩
      · next rest =>
        rw [Option.isSome_map] at h
        obtain ⟨sign, digits, hs, hdne, hd, rfl⟩ := isSome_power?_iff.mp h
        exact ⟨whole, fraction, _, hne, hw, hf, .present hs hdne hd, rfl⟩
      · cases h
  · rintro ⟨whole, fraction, power, hne, hw, hf, hp, rfl⟩
    have hwhole := digits_decimal_append hw (Fraction.stops hf hp)
    obtain ⟨ds, hfraction⟩ := exists_fractionDigits_append hf (Power.stops hp)
    have hempty : (whole.map valueOf).isEmpty = false := by simpa using hne
    simp only [ofWord?, hwhole, hfraction, hempty]
    cases hp with
    | absent => rfl
    | present hs hdne hd =>
      have hpower := isSome_power?_iff.mpr ⟨_, _, hs, hdne, hd, rfl⟩
      simpa using hpower

/-- The unsigned numeral of a number word is read from it as a number text too. -/
theorem ofText?_of_ofWord? {word : List Char} {n : Numeral} (h : ofWord? word = some n) :
    ofText? word = some n := by
  simp only [ofWord?] at h
  simp only [ofText?]
  split at h
  · cases h
  · next hempty =>
    rw [if_neg (by simp [hempty])]
    split at h
    · next heq =>
      rw [heq]
      exact h
    · next heq =>
      rw [heq]
      exact h
    · cases h

end Numeral

namespace Number

/-! ### Reading a magnitude -/

/-- The magnitudes are what is read as a double after an optional minus sign. -/
theorem isSome_unsignedWord?_iff {negative : Bool} {word : List Char} :
    (unsignedWord? negative word).isSome = true ↔ Magnitude word := by
  constructor
  · intro h
    rw [unsignedWord?] at h
    split at h
    · next hinf =>
      subst hinf
      exact .infinite
    split at h
    · next hnan =>
      subst hnan
      exact .notANumber
    rw [Option.isSome_map] at h
    obtain ⟨whole, fraction, power, hne, hw, hf, hp, rfl⟩ := Numeral.isSome_ofWord?_iff.mp h
    exact .finite hne hw hf hp
  · intro h
    rw [unsignedWord?]
    split
    · rfl
    split
    · rfl
    cases h with
    | infinite => contradiction
    | notANumber => contradiction
    | finite hne hw hf hp =>
      rw [Option.isSome_map]
      exact Numeral.isSome_ofWord?_iff.mpr ⟨_, _, _, hne, hw, hf, hp, rfl⟩

end Number

namespace Magnitude

variable {word : List Char}

/-- A magnitude begins with a letter or a digit, and so with no sign. -/
theorem ne_sign_cons (h : Magnitude word) {sign : Char}
    (hs : sign ∉ ['i', 'n'] ∧ Text.isDecimalDigit sign = false) (rest : List Char) :
    word ≠ sign :: rest := by
  rintro rfl
  obtain ⟨hletter, hdigit⟩ := hs
  generalize hword : sign :: rest = word at h
  cases h with
  | infinite => simp_all
  | notANumber => simp_all
  | finite hne hw hf hp =>
    obtain ⟨c, whole, rfl⟩ := List.exists_cons_of_ne_nil hne
    cases hword
    exact Bool.false_ne_true (hdigit.symm.trans (List.forall_mem_cons.mp hw).1)

/-- The characters of a magnitude. -/
theorem mem (h : Magnitude word) {c : Char} (hc : c ∈ word) :
    Text.isDecimalDigit c = true ∨ c ∈ ['i', 'n', 'f', 'a', '.', 'e', '+', '-'] := by
  cases h with
  | infinite =>
    simp only [List.mem_cons, List.not_mem_nil, or_false] at hc
    rcases hc with rfl | rfl | rfl <;> simp
  | notANumber =>
    simp only [List.mem_cons, List.not_mem_nil, or_false] at hc
    rcases hc with rfl | rfl | rfl <;> simp
  | finite hne hw hf hp =>
    rcases List.mem_append.mp hc with hc | hc
    · exact .inl (hw c hc)
    rcases List.mem_append.mp hc with hc | hc
    · cases hf with
      | absent => cases hc
      | present hd =>
        rcases List.mem_cons.mp hc with rfl | hc
        · simp
        · exact .inl (hd c hc)
    · cases hp with
      | absent => cases hc
      | present hs hdne hd =>
        rcases List.mem_cons.mp hc with rfl | hc
        · simp
        rcases List.mem_append.mp hc with hc | hc
        · cases hs <;> simp_all
        · exact .inl (hd c hc)

end Magnitude

namespace NumberWord

variable {word : List Char}

/-- The characters of a number word. -/
theorem mem (h : NumberWord word) {c : Char} (hc : c ∈ word) :
    Text.isDecimalDigit c = true ∨ c ∈ ['i', 'n', 'f', 'a', '.', 'e', '+', '-'] := by
  cases h with
  | unsigned h => exact h.mem hc
  | negative h =>
    rcases List.mem_cons.mp hc with rfl | hc
    · simp
    · exact h.mem hc

theorem isBlank_of_mem (h : NumberWord word) : ∀ c ∈ word, Text.isBlank c = false := by
  intro c hc
  rcases h.mem hc with hdigit | hother
  · exact Text.isBlank_of_isDecimalDigit hdigit
  · simp only [List.mem_cons, List.not_mem_nil, or_false] at hother
    rcases hother with rfl | rfl | rfl | rfl | rfl | rfl | rfl | rfl <;> rfl

theorem ne_underscore_of_mem (h : NumberWord word) : ∀ c ∈ word, c ≠ '_' := by
  rintro c hc rfl
  rcases h.mem hc with hdigit | hother
  · exact absurd hdigit (by decide)
  · exact absurd hother (by decide)

end NumberWord

namespace Number

/-! ### Number words as number texts -/

/-- The number words are what is read as a double. -/
theorem exists_ofWord?_iff {word : List Char} :
    (∃ x, ofWord? word = some x) ↔ NumberWord word := by
  rw [← Option.isSome_iff_exists]
  constructor
  · intro h
    by_cases hminus : ∃ rest, word = '-' :: rest
    · obtain ⟨rest, rfl⟩ := hminus
      exact .negative (isSome_unsignedWord?_iff.mp h)
    · rw [ofWord?.eq_2 word (not_exists.mp hminus)] at h
      exact .unsigned (isSome_unsignedWord?_iff.mp h)
  · intro h
    cases h with
    | negative h => exact isSome_unsignedWord?_iff.mpr h
    | unsigned h =>
      rw [ofWord?.eq_2 word (h.ne_sign_cons (by decide))]
      exact isSome_unsignedWord?_iff.mpr h

theorem underscoresBetweenDigits_of_forall {text : List Char} (h : ∀ c ∈ text, c ≠ '_')
    (before : Bool) : underscoresBetweenDigits before text = true := by
  induction text generalizing before with
  | nil => rfl
  | cons c rest ih =>
    obtain ⟨hc, hrest⟩ := List.forall_mem_cons.mp h
    unfold underscoresBetweenDigits
    split
    · next heq => cases heq
    · next heq =>
      cases heq
      exact absurd rfl hc
    · next heq =>
      cases heq
      exact ih hrest _

/-- Where an unsigned number text begins with a digit, its digits decide. -/
theorem unsignedText?_of_isDecimalDigit {negative : Bool} {c : Char} {rest : List Char}
    (hc : Text.isDecimalDigit c = true) (hu : ∀ d ∈ c :: rest, d ≠ '_') :
    unsignedText? negative (c :: rest)
      = (Numeral.ofText? (c :: rest)).map fun n => n.decimal.toFloat negative := by
  have hname : ∀ d : Char, Text.isDecimalDigit d = false →
      ∀ name, (c :: rest).map Char.toLower ≠ d :: name := by
    intro d hd name h
    have hcd := (List.cons.inj h).1
    rw [Text.toLower_of_isDecimalDigit hc] at hcd
    rw [← hcd, hc] at hd
    cases hd
  have hfilter : (c :: rest).filter (· ≠ '_') = c :: rest :=
    List.filter_eq_self.mpr fun d hd => decide_eq_true (hu d hd)
  simp only [unsignedText?, hname 'i' (by decide), hname 'n' (by decide), hfilter,
    underscoresBetweenDigits_of_forall hu]
  rfl

/-- A magnitude is worth the same as an unsigned number text. -/
theorem unsignedText?_of_magnitude {negative : Bool} {word : List Char} (h : Magnitude word)
    (hu : ∀ c ∈ word, c ≠ '_') : unsignedText? negative word = unsignedWord? negative word := by
  cases h with
  | infinite => rfl
  | notANumber => rfl
  | @finite whole fraction power hne hw hf hp =>
    obtain ⟨n, hn⟩ := Option.isSome_iff_exists.mp
      (Numeral.isSome_ofWord?_iff.mpr ⟨_, _, _, hne, hw, hf, hp, rfl⟩)
    obtain ⟨c, whole, rfl⟩ := List.exists_cons_of_ne_nil hne
    have hc : Text.isDecimalDigit c = true := (List.forall_mem_cons.mp hw).1
    rw [List.cons_append] at hn hu ⊢
    rw [unsignedText?_of_isDecimalDigit hc hu, Numeral.ofText?_of_ofWord? hn, unsignedWord?,
      if_neg, if_neg, hn]
    -- a word that begins with a digit is neither of the two names
    · intro heq
      rw [(List.cons.inj heq).1] at hc
      exact absurd hc (by decide)
    · intro heq
      rw [(List.cons.inj heq).1] at hc
      exact absurd hc (by decide)

end Number

/-- A number word is a number text of the same double. -/
theorem NumberWord.ofText?_eq {word : List Char} (h : NumberWord word) :
    Number.ofText? word = Number.ofWord? word := by
  have hu := h.ne_underscore_of_mem
  rw [Number.ofText?, Text.trim_of_forall h.isBlank_of_mem]
  cases h with
  | @negative word h =>
    exact Number.unsignedText?_of_magnitude h fun c hc => hu c (List.mem_cons_of_mem _ hc)
  | unsigned h =>
    rw [Number.ofTrimmed?.eq_3 word (h.ne_sign_cons (by decide)) (h.ne_sign_cons (by decide)),
      Number.ofWord?.eq_2 word (h.ne_sign_cons (by decide))]
    exact Number.unsignedText?_of_magnitude h hu

end Reckon
