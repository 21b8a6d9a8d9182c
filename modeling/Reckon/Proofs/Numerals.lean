import Reckon.Number.Spelling
import Reckon.Proofs.Cut
import Reckon.Proofs.Double
import Reckon.Proofs.Lexemes
import Reckon.Proofs.Nearest
import Reckon.Proofs.NumberWords

/-! # Reading what was written

    A written double is a number word, and it is read as the double it was written for. The digits
    of its decimal are found again around the point or in front of the power; only where zeros had
    to fill up the places before the point does reading find another decimal of the same value.
    The numerals of expressions are number texts too, and are worth what these are
    (`Number.ofText?_chars`).

        digits  point   written     read
        15      -2      0.0015      15 * 10^-4
        15       1      1.5         15 * 10^-1
        15       4      1500.0      15000 * 10^-1
        15      18      1.5e+17     15 * 10^16 -/

namespace Reckon

/-! ### Digits -/

/-- Decimal digits, at most none of them. -/
def AllDigits (text : List Char) : Prop :=
  ∀ c ∈ text, c.isDigit = true

theorem allDigits_append {text more : List Char} :
    AllDigits (text ++ more) ↔ AllDigits text ∧ AllDigits more :=
  List.forall_mem_append

theorem allDigits_replicate (k : Nat) : AllDigits (List.replicate k '0') := by
  intro c hc
  rw [List.eq_of_mem_replicate hc]
  rfl

theorem allDigits_toDigits (n : Nat) : AllDigits (Nat.toDigits 10 n) :=
  fun _ hc => Nat.isDigit_of_mem_toDigits (by decide) (by decide) hc

/-- An ASCII digit has its value in every script. -/
theorem digitValue?_of_isDigit {c : Char} (h : c.isDigit = true) :
    Text.digitValue? c = some (Lexeme.digit c) := by
  obtain ⟨hlow, hhigh⟩ := (isDigit_iff c).mp h
  have hfirst : (0x30 ≤ c.toNat && c.toNat < 0x30 + 10) = true := by
    rw [Bool.and_eq_true, decide_eq_true_eq, decide_eq_true_eq]
    omega
  rw [Text.digitValue?, Text.digitZeros, List.find?_cons, hfirst]
  rfl

theorem isDecimalDigit_of_isDigit {c : Char} (h : c.isDigit = true) :
    Text.isDecimalDigit c = true := by
  rw [Text.isDecimalDigit, digitValue?_of_isDigit h]
  rfl

namespace Numeral

/-- Digits are read up to the first other character. -/
theorem digits_append {text rest : List Char} (h : AllDigits text)
    (hs : ∀ c ∈ rest.head?, Text.digitValue? c = none) :
    digits (text ++ rest) = (text.map Lexeme.digit, rest) := by
  have hvalues : text.map valueOf = text.map Lexeme.digit := by
    refine List.map_congr_left fun c hc => ?_
    rw [valueOf, digitValue?_of_isDigit (h c hc)]
    rfl
  have hdecimal : DecimalDigits text := fun c hc => isDecimalDigit_of_isDigit (h c hc)
  rw [digits_decimal_append hdecimal, hvalues]
  intro c hc
  rw [Text.isDecimalDigit, hs c hc]
  rfl

theorem ofDigits_append (ds es : List Nat) :
    ofDigits (ds ++ es) = es.foldl (fun n d => 10 * n + d) (ofDigits ds) :=
  List.foldl_append

theorem ofDigits_concat (ds : List Nat) (d : Nat) : ofDigits (ds ++ [d]) = 10 * ofDigits ds + d :=
  ofDigits_append ds [d]

/-- Zeros in front do not count. -/
theorem ofDigits_zeros_append (k : Nat) (ds : List Nat) :
    ofDigits (List.replicate k 0 ++ ds) = ofDigits ds := by
  induction k with
  | zero => rfl
  | succ k ih => exact ih

/-- Zeros behind multiply by ten. -/
theorem ofDigits_append_zeros (ds : List Nat) (k : Nat) :
    ofDigits (ds ++ List.replicate k 0) = ofDigits ds * Decimal.powerOfTen k := by
  induction k with
  | zero =>
    rw [List.replicate_zero, List.append_nil]
    exact (Nat.mul_one _).symm
  | succ k ih =>
    rw [List.replicate_succ', ← List.append_assoc, ofDigits_concat, ih, Decimal.powerOfTen_succ,
      Nat.mul_comm 10, Nat.mul_assoc, Nat.add_zero]

theorem digit_digitChar {d : Nat} (h : d < 10) : Lexeme.digit d.digitChar = d := by
  revert d
  decide

/-- The written digits of a number denote it. -/
theorem ofDigits_toDigits (n : Nat) : ofDigits ((Nat.toDigits 10 n).map Lexeme.digit) = n := by
  induction n using Nat.strongRecOn with
  | ind n ih =>
    rw [Nat.toDigits_eq_if (by decide)]
    split
    · next h => exact (Nat.zero_add _).trans (digit_digitChar h)
    · next h =>
      have hdiv : n / 10 < n := Nat.div_lt_self (by omega) (by decide)
      rw [List.map_append, List.map_singleton, ofDigits_concat, ih _ hdiv,
        digit_digitChar (Nat.mod_lt n (by decide))]
      exact Nat.div_add_mod n 10

/-! ### Number words -/

theorem digits_of_allDigits {text : List Char} (h : AllDigits text) :
    digits text = (text.map Lexeme.digit, []) := by
  have hread : digits (text ++ []) = _ := digits_append h (by rintro c ⟨⟩)
  rwa [List.append_nil] at hread

theorem onlyDigits?_of_allDigits {text : List Char} (h : AllDigits text) (hne : text ≠ []) :
    onlyDigits? text = some (ofDigits (text.map Lexeme.digit)) := by
  rw [onlyDigits?, digits_of_allDigits h]
  cases text with
  | nil => exact absurd rfl hne
  | cons c text => rfl

/-- A power of ten is read as it was written. -/
theorem power?_power (e : Int) : power? (Spelling.power e) = some e := by
  have hread : onlyDigits? (if (Nat.toDigits 10 e.natAbs).length < 2
      then '0' :: Nat.toDigits 10 e.natAbs else Nat.toDigits 10 e.natAbs) = some e.natAbs := by
    have hdigits := allDigits_toDigits e.natAbs
    have hvalue := ofDigits_toDigits e.natAbs
    split
    · have hzero : AllDigits ('0' :: Nat.toDigits 10 e.natAbs) :=
        List.forall_mem_cons.mpr ⟨rfl, hdigits⟩
      rw [onlyDigits?_of_allDigits hzero (List.cons_ne_nil _ _)]
      exact congrArg some hvalue
    · rw [onlyDigits?_of_allDigits hdigits Nat.toDigits_ne_nil, hvalue]
  rw [Spelling.power]
  split
  · next hneg =>
    have habs : -(e.natAbs : Int) = e := by omega
    rw [power?, hread]
    exact congrArg some habs
  · next hpos =>
    have habs : (e.natAbs : Int) = e := by omega
    rw [power?, hread]
    exact congrArg some habs

theorem isEmpty_map_digit {text : List Char} (h : text ≠ []) :
    (text.map Lexeme.digit).isEmpty = false := by
  rw [List.isEmpty_map, List.isEmpty_eq_false_iff]
  exact h

section

variable {whole rest : List Char} {fraction : List Nat} (hw : AllDigits whole) (hne : whole ≠ [])
  (hs : ∀ c ∈ rest.head?, Text.digitValue? c = none)

include hw hne hs

/-- A number word is digits, and then maybe a point with digits, -/
theorem ofWord?_append (hf : fractionDigits rest = (fraction, [])) :
    ofWord? (whole ++ rest) = some ⟨whole.map Lexeme.digit, fraction, 0⟩ := by
  have hempty := isEmpty_map_digit hne
  simp only [ofWord?, digits_append hw hs, hf, hempty, Bool.false_eq_true, if_false]

/-- and then maybe a power of ten. -/
theorem ofWord?_append_power {e : Int}
    (hf : fractionDigits rest = (fraction, 'e' :: Spelling.power e)) :
    ofWord? (whole ++ rest) = some ⟨whole.map Lexeme.digit, fraction, e⟩ := by
  have hempty := isEmpty_map_digit hne
  simp only [ofWord?, digits_append hw hs, hf, hempty, Bool.false_eq_true, if_false, power?_power,
    Option.map_some]

end

/-- Digits around a point, and no power of ten. -/
theorem decimal_of_point {whole fraction : List Char} (hw : AllDigits whole) (hne : whole ≠ [])
    (hf : AllDigits fraction) :
    (ofWord? (whole ++ '.' :: fraction)).map decimal
      = some ⟨ofDigits ((whole ++ fraction).map Lexeme.digit), -fraction.length⟩ := by
  have hread : fractionDigits ('.' :: fraction) = _ := digits_of_allDigits hf
  rw [ofWord?_append hw hne (by rintro c ⟨⟩; decide) hread, Option.map_some, decimal,
    ← List.map_append, List.length_map, Int.zero_sub]

/-- Digits and a power of ten. -/
theorem decimal_of_power {whole : List Char} (hw : AllDigits whole) (hne : whole ≠ []) (e : Int) :
    (ofWord? (whole ++ 'e' :: Spelling.power e)).map decimal
      = some ⟨ofDigits (whole.map Lexeme.digit), e⟩ := by
  rw [ofWord?_append_power hw hne (by rintro c ⟨⟩; decide) rfl, Option.map_some, decimal,
    List.append_nil]
  exact congrArg (fun e => some (Decimal.mk _ e)) (Int.sub_zero e)

/-- Digits around a point, and a power of ten. -/
theorem decimal_of_point_power {whole fraction : List Char} (hw : AllDigits whole)
    (hne : whole ≠ []) (hf : AllDigits fraction) (e : Int) :
    (ofWord? (whole ++ '.' :: (fraction ++ 'e' :: Spelling.power e))).map decimal
      = some ⟨ofDigits ((whole ++ fraction).map Lexeme.digit), e - fraction.length⟩ := by
  have hread : fractionDigits ('.' :: (fraction ++ 'e' :: Spelling.power e)) = _ :=
    digits_append hf (by rintro c ⟨⟩; decide)
  rw [ofWord?_append_power hw hne (by rintro c ⟨⟩; decide) hread, Option.map_some, decimal,
    ← List.map_append, List.length_map]

end Numeral

namespace Spelling

open Numeral

/-! ### Written decimals -/

theorem ofDigits_zeros_append_map (k : Nat) (text : List Char) :
    ofDigits ((List.replicate k '0' ++ text).map Lexeme.digit)
      = ofDigits (text.map Lexeme.digit) := by
  rw [List.map_append, List.map_replicate]
  exact ofDigits_zeros_append k _

theorem ofDigits_append_zeros_map (text : List Char) (k : Nat) :
    ofDigits ((text ++ List.replicate k '0').map Lexeme.digit)
      = ofDigits (text.map Lexeme.digit) * Decimal.powerOfTen k := by
  rw [List.map_append, List.map_replicate]
  exact ofDigits_append_zeros _ k

section

variable {text : List Char} (hd : AllDigits text) {point : Int}

include hd

/-- Zeros between the point and the digits. -/
theorem decimal_of_positional_nonpos (hp : point ≤ 0) :
    (ofWord? (positional text point)).map Numeral.decimal
      = some ⟨ofDigits (text.map Lexeme.digit), point - text.length⟩ := by
  have hzeros := allDigits_append.mpr ⟨allDigits_replicate (-point).toNat, hd⟩
  have hread := decimal_of_point (allDigits_replicate 1) (List.cons_ne_nil _ _) hzeros
  rw [ofDigits_zeros_append_map, ofDigits_zeros_append_map, List.length_append,
    List.length_replicate] at hread
  have hlength : -(((-point).toNat + text.length : Nat) : Int) = point - text.length := by omega
  rw [positional, if_pos hp, ← hlength]
  exact hread

/-- The point between the digits. -/
theorem decimal_of_positional_lt (hp : 0 < point) (hlt : point < text.length) :
    (ofWord? (positional text point)).map Numeral.decimal
      = some ⟨ofDigits (text.map Lexeme.digit), point - text.length⟩ := by
  rw [← List.take_append_drop point.toNat text] at hd
  obtain ⟨htake, hdrop⟩ := allDigits_append.mp hd
  have hne : text.take point.toNat ≠ [] := by
    refine List.ne_nil_of_length_pos ?_
    rw [List.length_take]
    omega
  have hread := decimal_of_point htake hne hdrop
  rw [List.take_append_drop, List.length_drop] at hread
  have hlength : -((text.length - point.toNat : Nat) : Int) = point - text.length := by omega
  rw [positional, if_neg (Int.not_le.mpr hp), if_pos hlt, ← hlength]
  exact hread

/-- Zeros between the digits and the point. -/
theorem decimal_of_positional_ge (hne : text ≠ []) {k : Nat} (hp : point = text.length + k) :
    (ofWord? (positional text point)).map Numeral.decimal
      = some ⟨ofDigits (text.map Lexeme.digit) * Decimal.powerOfTen (k + 1), -1⟩ := by
  have hlength := List.length_pos_iff.mpr hne
  have hzeros := allDigits_append.mpr ⟨hd, allDigits_replicate k⟩
  have hread := decimal_of_point hzeros (List.append_ne_nil_of_left_ne_nil hne _)
    (allDigits_replicate 1)
  have hvalue : ofDigits ((text ++ List.replicate k '0' ++ List.replicate 1 '0').map Lexeme.digit)
      = ofDigits (text.map Lexeme.digit) * Decimal.powerOfTen (k + 1) := by
    rw [List.append_assoc, List.replicate_append_replicate, ofDigits_append_zeros_map]
  rw [hvalue] at hread
  have hk : point.toNat - text.length = k := by omega
  rw [positional, if_neg (by omega), if_neg (by omega), hk]
  exact hread

/-- One digit before the point, and a power of ten. -/
theorem decimal_of_scientific (hne : text ≠ []) (e : Int) :
    (ofWord? (scientific text e)).map Numeral.decimal
      = some ⟨ofDigits (text.map Lexeme.digit), e + 1 - text.length⟩ := by
  rcases text with _ | ⟨c, rest⟩
  · exact absurd rfl hne
  · obtain ⟨hc, hrest⟩ := List.forall_mem_cons.mp hd
    have hfirst : AllDigits [c] := List.forall_mem_singleton.mpr hc
    rcases rest with _ | ⟨c', rest'⟩
    · have hread := decimal_of_power hfirst (List.cons_ne_nil _ _) e
      rw [show e + 1 - (([c] : List Char).length : Int) = e from Int.add_sub_cancel e 1]
      exact hread
    · have hread := decimal_of_point_power hfirst (List.cons_ne_nil _ _) hrest e
      have hlength : e - ((c' :: rest').length : Int) = e + 1 - (c :: c' :: rest').length := by
        simp only [List.length_cons]
        omega
      have hlong : ¬ (c :: c' :: rest').length ≤ 1 := by
        simp only [List.length_cons]
        omega
      rw [hlength] at hread
      rw [scientific, if_neg hlong, List.append_assoc]
      exact hread

end

/-- A positive decimal is read as one of the same value. -/
theorem ofWord?_decimal {m : Nat} (hm : 0 < m) (e : Int) :
    ∃ n, ofWord? (decimal ⟨m, e⟩) = some n ∧ n.decimal.code = Decimal.code ⟨m, e⟩ := by
  have hd := allDigits_toDigits m
  have hvalue := ofDigits_toDigits m
  have hne : Nat.toDigits 10 m ≠ [] := Nat.toDigits_ne_nil
  suffices h : ∃ r, (ofWord? (decimal ⟨m, e⟩)).map Numeral.decimal = some r
      ∧ r.code = Decimal.code ⟨m, e⟩ by
    obtain ⟨r, hread, hcode⟩ := h
    obtain ⟨n, hn, rfl⟩ := Option.map_eq_some_iff.mp hread
    exact ⟨n, hn, hcode⟩
  simp only [decimal]
  generalize Nat.toDigits 10 m = text at *
  split
  · next hplace =>
    have hpoint : text.length + e - 1 < 16 := of_decide_eq_true (Bool.and_eq_true_iff.mp hplace).2
    have hback : text.length + e - text.length = e := by omega
    rcases Int.lt_or_le 0 (text.length + e) with hp | hp
    · rcases Int.lt_or_le (text.length + e) text.length with hlt | hge
      · refine ⟨_, decimal_of_positional_lt hd hp hlt, ?_⟩
        rw [hvalue, hback]
      · obtain ⟨k, rfl⟩ := Int.eq_ofNat_of_zero_le (show 0 ≤ e by omega)
        refine ⟨_, decimal_of_positional_ge hd hne rfl, ?_⟩
        rw [hvalue]
        exact Decimal.code_mul_ten hm (by omega)
    · refine ⟨_, decimal_of_positional_nonpos hd hp, ?_⟩
      rw [hvalue, hback]
  · have hback : text.length + e - 1 + 1 - text.length = e := by omega
    refine ⟨_, decimal_of_scientific hd hne _, ?_⟩
    rw [hvalue, hback]

end Spelling

namespace Number

open Double

/-! ### Written doubles -/

theorem unsignedWord?_of_numeral {word : List Char} {n : Numeral} (negative : Bool)
    (h : Numeral.ofWord? word = some n) :
    unsignedWord? negative word = some (ofCode negative n.decimal.code) := by
  have hinf : word ≠ ['i', 'n', 'f'] := by
    rintro rfl
    cases h
  have hnan : word ≠ ['n', 'a', 'n'] := by
    rintro rfl
    cases h
  rw [unsignedWord?, if_neg hinf, if_neg hnan, h]
  rfl

/-- A magnitude is read as its code. -/
theorem unsignedWord?_magnitude {c : Nat} (h : c ≤ infinityCode) (negative : Bool) :
    unsignedWord? negative (Spelling.magnitude c) = some (ofCode negative c) := by
  rw [Spelling.magnitude]
  split
  · next hzero =>
    subst hzero
    exact unsignedWord?_of_numeral (n := ⟨[0], [0], 0⟩) negative rfl
  · next hpos =>
    split
    · next hlt =>
      have hcode := Shortest.code_decimal (Nat.pos_of_ne_zero hpos) hlt
      have hm : 0 < (Shortest.decimal c).mantissa := by
        refine Nat.pos_of_ne_zero fun hm => hpos ?_
        rw [← hcode, Decimal.code, if_pos hm]
      obtain ⟨n, hn, hread⟩ := Spelling.ofWord?_decimal hm (Shortest.decimal c).exponent
      rw [unsignedWord?_of_numeral negative hn, hread]
      exact congrArg (fun c => some (ofCode negative c)) hcode
    · next hge =>
      obtain rfl : c = infinityCode := by omega
      rfl

/-- No number word has two signs. -/
theorem unsignedWord?_minus (negative : Bool) (word : List Char) :
    unsignedWord? negative ('-' :: word) = none := rfl

/-- A double is read as it was written. -/
theorem ofWord?_chars (x : Float) : ofWord? (Spelling.chars x) = some x := by
  rw [Spelling.chars]
  split
  · next hnan =>
    rw [eq_nan_of_infinityCode_lt hnan]
    rfl
  · next hle =>
    have hread := unsignedWord?_magnitude (Nat.le_of_not_lt hle)
    cases hneg : isNegative x with
    | true =>
      rw [if_pos rfl, ofWord?, hread, ← hneg, ofCode_code]
    | false =>
      rw [if_neg Bool.false_ne_true, ofWord?.eq_def]
      split
      · next word hword =>
        have hminus := hread false
        rw [hword, unsignedWord?_minus] at hminus
        cases hminus
      · rw [hread, ← hneg, ofCode_code]

end Number

/-! ### Numerals of expressions -/

namespace Numeral

/-- The text of a numeral is read as its digits. -/
theorem ofText?_chars {whole : List Char} {fraction : Option (List Char)}
    (hl : (Lexeme.number whole fraction).Formed) :
    ofText? (Lexeme.number whole fraction).chars
      = some ⟨whole.map Lexeme.digit, (fraction.getD []).map Lexeme.digit, 0⟩ := by
  obtain ⟨hne, hw, hf⟩ := hl
  have hempty := isEmpty_map_digit hne
  cases fraction with
  | none =>
    simp only [ofText?, Lexeme.chars, digits_of_allDigits hw, fractionDigits, hempty]
    rfl
  | some ds =>
    have hread : fractionDigits ('.' :: ds) = (ds.map Lexeme.digit, []) :=
      digits_of_allDigits (hf ds rfl)
    have hpoint : ∀ c ∈ ('.' :: ds).head?, Text.digitValue? c = none := by
      rintro c ⟨⟩
      decide
    simp only [ofText?, Lexeme.chars, digits_append hw hpoint, hread, hempty]
    rfl

end Numeral

namespace Number

/-- Where a number text begins with a digit, its digits decide. -/
theorem ofTrimmed?_of_isDigit {c : Char} {rest : List Char} (hc : c.isDigit = true)
    (hu : ∀ d ∈ c :: rest, d ≠ '_') :
    ofTrimmed? (c :: rest)
      = (Numeral.ofText? (c :: rest)).map fun n => n.decimal.toFloat false := by
  rw [ofTrimmed?.eq_def]
  split
  · next h => cases h; cases hc
  · next h => cases h; cases hc
  · exact unsignedText?_of_isDecimalDigit (isDecimalDigit_of_isDigit hc) hu

/-- Every numeral of an expression is a number text, worth what the numeral is worth. -/
theorem ofText?_chars {whole : List Char} {fraction : Option (List Char)}
    (hl : (Lexeme.number whole fraction).Formed) :
    ofText? (Lexeme.number whole fraction).chars = some (Lexeme.value whole fraction) := by
  have hu : ∀ d ∈ (Lexeme.number whole fraction).chars, d ≠ '_' := by
    rintro d hd rfl
    rcases Lexeme.isDigit_or_eq_point hl hd with hdigit | hpoint
    · cases hdigit
    · cases hpoint
  have hread := Numeral.ofText?_chars hl
  rw [ofText?, Text.trim_of_forall fun d hd => Lexeme.isBlank_of_mem_chars hl hd]
  obtain ⟨c, digits, hw⟩ := List.exists_cons_of_ne_nil hl.1
  have hc : c.isDigit = true := hl.2.1 c (hw ▸ List.mem_cons_self)
  obtain ⟨rest, hchars⟩ : ∃ rest, (Lexeme.number whole fraction).chars = c :: rest := by
    cases fraction with
    | none => exact ⟨digits, hw⟩
    | some ds => exact ⟨digits ++ '.' :: ds, by rw [Lexeme.chars, hw, List.cons_append]⟩
  rw [hchars] at hu hread ⊢
  rw [ofTrimmed?_of_isDigit hc hu, hread]
  rfl

end Number

end Reckon
