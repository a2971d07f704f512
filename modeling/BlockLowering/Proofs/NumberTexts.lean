import BlockLowering.Proofs.PrintedText
import BlockLowering.Proofs.DecodedDepth

/-! Which texts are integers. Digits may have one sign in front of them, and underscores anywhere
after the first. A number token is an integer if it has neither a fraction nor an exponent, is no
minus zero, and fits 64 bits. These integers are read exactly, and no others. -/

namespace BlockLowering

namespace Decoder

/-- Digits with the value `n`. Underscores may stand anywhere but in front, and do not count. -/
structure SpellsNat (cs : List Char) (n : Nat) : Prop where
  first : ∃ d ∈ cs.head?, d.isDigit = true
  digits : ∀ c ∈ cs, c.isDigit = true ∨ c = '_'
  value : n = Nat.ofDigitChars 10 (cs.filter (· ≠ '_')) 0

/-- A numeral with the value `n`: digits after at most one sign. -/
inductive Spells : List Char → Int → Prop
  | unsigned {cs n} : SpellsNat cs n → Spells cs n
  | plus {cs n} : SpellsNat cs n → Spells ('+' :: cs) n
  | minus {cs n} : SpellsNat cs n → Spells ('-' :: cs) (-n)

theorem digitsValue?_eq_some_iff {cs : List Char} {n m : Nat} : digitsValue? n cs = some m ↔
    (∀ c ∈ cs, c.isDigit = true ∨ c = '_') ∧ m = Nat.ofDigitChars 10 (cs.filter (· ≠ '_')) n := by
  induction cs generalizing n with
  | nil =>
    rw [digitsValue?, Option.some.injEq, eq_comm]
    exact ⟨fun h => ⟨by simp, h⟩, And.right⟩
  | cons c cs ih =>
    by_cases hscore : c = '_'
    · simp [digitsValue?, hscore, ih]
    · by_cases hc : c.isDigit = true
      · simp [digitsValue?, hscore, hc, ih, Nat.ofDigitChars_cons, Nat.mul_comm 10]
      · simp [digitsValue?, hscore, hc]

theorem not_spellsNat_of_head {c : Char} (h : c.isDigit = false) (cs : List Char) (n : Nat) :
    ¬ SpellsNat (c :: cs) n := by
  rintro ⟨⟨d, hd, hdigit⟩, -, -⟩
  obtain rfl : c = d := by simpa using hd
  rw [h] at hdigit
  cases hdigit

theorem parseNat_eq_ok_iff {cs : List Char} (h : cs.head? ≠ some '+') {n : Nat} :
    parseNat cs = .ok n ↔ SpellsNat cs n := by
  cases cs with
  | nil =>
    constructor
    · intro hn
      cases hn
    · rintro ⟨⟨d, hd, -⟩, -, -⟩
      cases hd
  | cons c cs =>
    have hplus : c ≠ '+' := fun he => h (he ▸ rfl)
    by_cases hscore : c = '_'
    · subst hscore
      constructor
      · intro hn
        simp [parseNat] at hn
      · exact fun hn => absurd hn (not_spellsNat_of_head rfl cs n)
    · have hparse : parseNat (c :: cs) = .ok n ↔ digitsValue? 0 (c :: cs) = some n := by
        cases hd : digitsValue? 0 (c :: cs) <;> simp [parseNat, hplus, hscore, hd]
      rw [hparse, digitsValue?_eq_some_iff]
      constructor
      · rintro ⟨hdigits, hvalue⟩
        have hc := (hdigits c List.mem_cons_self).resolve_right hscore
        exact ⟨⟨c, rfl, hc⟩, hdigits, hvalue⟩
      · exact fun hn => ⟨hn.digits, hn.value⟩

theorem parseNat_plus_eq_ok_iff {cs : List Char} {n : Nat} :
    parseNat ('+' :: cs) = .ok n ↔ SpellsNat cs n := by
  by_cases h : cs.head? = some '+'
  · obtain ⟨rest, rfl⟩ := List.head?_eq_some_iff.mp h
    constructor
    · intro hn
      simp [parseNat, digitsValue?] at hn
    · exact fun hn => absurd hn (not_spellsNat_of_head rfl rest n)
  · rw [← parseNat_eq_ok_iff h]
    cases cs with
    | nil => rfl
    | cons c rest =>
      have hplus : c ≠ '+' := fun he => h (he ▸ rfl)
      simp [parseNat, hplus]

theorem map_eq_ok {ε α β : Type} {f : α → β} {x : Except ε α} {b : β} :
    x.map f = .ok b ↔ ∃ a, x = .ok a ∧ f a = b := by
  cases x <;> simp [Except.map]

theorem spells_minus_iff {cs : List Char} {k : Int} :
    Spells ('-' :: cs) k ↔ ∃ n : Nat, SpellsNat cs n ∧ -(n : Int) = k := by
  constructor
  · intro h
    cases h with
    | unsigned h => exact absurd h (not_spellsNat_of_head rfl cs _)
    | minus h => exact ⟨_, h, rfl⟩
  · rintro ⟨n, h, rfl⟩
    exact .minus h

theorem spells_plus_iff {cs : List Char} {k : Int} :
    Spells ('+' :: cs) k ↔ ∃ n : Nat, SpellsNat cs n ∧ (n : Int) = k := by
  constructor
  · intro h
    cases h with
    | unsigned h => exact absurd h (not_spellsNat_of_head rfl cs _)
    | plus h => exact ⟨_, h, rfl⟩
  · rintro ⟨n, h, rfl⟩
    exact .plus h

theorem spells_unsigned_iff {cs : List Char} (hplus : cs.head? ≠ some '+')
    (hminus : cs.head? ≠ some '-') {k : Int} :
    Spells cs k ↔ ∃ n : Nat, SpellsNat cs n ∧ (n : Int) = k := by
  constructor
  · intro h
    cases h with
    | unsigned h => exact ⟨_, h, rfl⟩
    | plus h => exact absurd rfl hplus
    | minus h => exact absurd rfl hminus
  · rintro ⟨n, h, rfl⟩
    exact .unsigned h

/-- The integers that are read from a text are those that it spells. -/
theorem parseInt_eq_ok_iff {cs : List Char} {k : Int} : parseInt cs = .ok k ↔ Spells cs k := by
  by_cases hminus : cs.head? = some '-'
  · obtain ⟨rest, rfl⟩ := List.head?_eq_some_iff.mp hminus
    rw [spells_minus_iff]
    by_cases hplus : rest.head? = some '+'
    · obtain ⟨rest, rfl⟩ := List.head?_eq_some_iff.mp hplus
      constructor
      · intro h
        simp [parseInt, parseNat, digitsValue?, Except.map] at h
      · rintro ⟨n, h, -⟩
        exact absurd h (not_spellsNat_of_head rfl rest n)
    · have hparse : parseInt ('-' :: rest) = (parseNat rest).map fun n : Nat => -(n : Int) := by
        cases rest with
        | nil => rfl
        | cons c rest =>
          have hc : c ≠ '+' := fun he => hplus (he ▸ rfl)
          cases hp : parseNat (c :: rest) <;> simp [parseInt, hc, hp, Except.map]
      rw [hparse, map_eq_ok]
      simp only [parseNat_eq_ok_iff hplus]
  · have hparse : parseInt cs = (parseNat cs).map fun n : Nat => (n : Int) := by
      cases cs with
      | nil => rfl
      | cons c rest =>
        have hc : c ≠ '-' := fun he => hminus (he ▸ rfl)
        cases hp : parseNat (c :: rest) <;> simp [parseInt, hc, hp, Except.map]
    rw [hparse, map_eq_ok]
    by_cases hplus : cs.head? = some '+'
    · obtain ⟨rest, rfl⟩ := List.head?_eq_some_iff.mp hplus
      simp only [parseNat_plus_eq_ok_iff, spells_plus_iff]
    · simp only [parseNat_eq_ok_iff hplus, spells_unsigned_iff hplus hminus]

end Decoder

namespace Numeral

theorem keepWhole_dropped {ds : List Nat} {n : Nat} (hn : n < wordLimit) :
    (keepWhole n ds).2 = 0 ↔ ds.foldl (fun n d => n * 10 + d) n < wordLimit := by
  induction ds generalizing n with
  | nil => simpa [keepWhole] using hn
  | cons d ds ih =>
    rw [List.foldl_cons]
    by_cases hd : n * 10 + d < wordLimit
    · rw [keepWhole, if_pos hd, ih hd]
    · have hge := Json.le_foldl_decimal ds (n * 10 + d)
      rw [keepWhole, if_neg hd]
      constructor
      · intro h
        cases h
      · intro h
        omega

/-- The integer in front of the point, with its sign. -/
def integer (t : Numeral) : Int := if t.negative then -(value t.whole : Int) else value t.whole

theorem map_float_ne_int {x : Token Decimal.Binary64} {negative : Bool} {k : Int} :
    x.map (Number.float negative) ≠ .ok (.int k) := by
  cases x <;> simp [Except.map]

/-- Digits are left out if and only if the number has more than 64 bits. -/
theorem keepWhole_zero (whole : List Nat) :
    value whole < 0x10000000000000000 ∧ keepWhole 0 whole = (value whole, 0) ∨
      0x10000000000000000 ≤ value whole ∧ (keepWhole 0 whole).2 ≠ 0 := by
  have hdropped : (keepWhole 0 whole).2 = 0 ↔ value whole < 0x10000000000000000 :=
    keepWhole_dropped (by decide)
  by_cases hlt : value whole < 0x10000000000000000
  · exact .inl ⟨hlt, Json.keepWhole_eq hlt⟩
  · exact .inr ⟨Nat.le_of_not_lt hlt, mt hdropped.mp hlt⟩

theorem toNumber_plain {negative : Bool} {whole : List Nat} {k : Int} :
    toNumber ⟨negative, whole, none, none⟩ = .ok (.int k) ↔
      k = integer ⟨negative, whole, none, none⟩ ∧ ¬ (negative = true ∧ k = 0) ∧
        -0x8000000000000000 ≤ k ∧ k < 0x10000000000000000 := by
  rcases keepWhole_zero whole with ⟨hlt, hk⟩ | ⟨hge, hne⟩
  · cases negative with
    | false =>
      simp only [toNumber, hk, integer, Bool.not_false, and_self, if_true, Except.ok.injEq,
        Number.int.injEq, Bool.false_eq_true, if_false, false_and, not_false_eq_true, true_and]
      omega
    | true =>
      simp only [toNumber, hk, integer, Bool.not_true, Bool.false_eq_true, and_false, if_false,
        true_and, if_true]
      by_cases hc : value whole ≠ 0 ∧ value whole ≤ 0x8000000000000000
      · rw [if_pos hc, Except.ok.injEq, Number.int.injEq]
        omega
      · rw [if_neg hc]
        simp only [map_float_ne_int, false_iff]
        omega
  · simp only [toNumber, integer, hne, false_and, if_false, map_float_ne_int, false_iff]
    rintro ⟨hk, -, hlow, hhigh⟩
    cases negative with
    | false =>
      rw [if_neg Bool.false_ne_true] at hk
      omega
    | true =>
      rw [if_pos rfl] at hk
      omega

/-- A plain integer: neither a fraction nor an exponent, no minus zero, and in range. -/
theorem toNumber_eq_int_iff {t : Numeral} {k : Int} : t.toNumber = .ok (.int k) ↔
    t.fraction = none ∧ t.exponent = none ∧ k = t.integer ∧ ¬ (t.negative = true ∧ k = 0) ∧
      -0x8000000000000000 ≤ k ∧ k < 0x10000000000000000 := by
  obtain ⟨negative, whole, fraction, exponent⟩ := t
  cases fraction with
  | some ds => simp [toNumber, map_float_ne_int]
  | none =>
    cases exponent with
    | some e => simp [toNumber, map_float_ne_int]
    | none => simp [toNumber_plain]

end Numeral

namespace Json

/-- One digit or more. -/
structure Digits where
  chars : List Char
  ne_nil : chars ≠ []
  digit : ∀ c ∈ chars, c.isDigit = true

def Digits.values (d : Digits) : List Nat := d.chars.map (·.toNat - '0'.toNat)

structure Exponent where
  mark : Char
  sign : Option Char
  digits : Digits
  mark_form : mark = 'e' ∨ mark = 'E'
  sign_form : ∀ c ∈ sign, c = '+' ∨ c = '-'

/-- The text of a number. Only a zero starts with a zero. -/
structure NumberText where
  negative : Bool
  whole : Digits
  fraction : Option Digits
  exponent : Option Exponent
  whole_form : whole.chars.head? = some '0' → whole.chars = ['0']

def fractionChars : Option Digits → List Char
  | none => []
  | some d => '.' :: d.chars

def Exponent.value (e : Exponent) : Bool × List Nat :=
  (decide (e.sign = some '-'), e.digits.values)

def exponentChars : Option Exponent → List Char
  | none => []
  | some e => e.mark :: (e.sign.toList ++ e.digits.chars)

namespace NumberText

/-- All but the sign. -/
def magnitude (t : NumberText) : List Char :=
  t.whole.chars ++ (fractionChars t.fraction ++ exponentChars t.exponent)

def chars (t : NumberText) : List Char := (if t.negative then ['-'] else []) ++ t.magnitude

def numeral (t : NumberText) : Numeral :=
  ⟨t.negative, t.whole.values, t.fraction.map Digits.values, t.exponent.map Exponent.value⟩

/-- The digits in front of the point, with the sign. -/
def integer (t : NumberText) : Int :=
  if t.negative then -(Nat.ofDigitChars 10 t.whole.chars 0 : Int)
  else Nat.ofDigitChars 10 t.whole.chars 0

/-- The text is the integer `k`: it has neither a fraction nor an exponent, it is no minus zero, and
`k` fits 64 bits. -/
structure IsInteger (t : NumberText) (k : Int) : Prop where
  no_fraction : t.fraction = none
  no_exponent : t.exponent = none
  value : k = t.integer
  no_minus_zero : ¬ (t.negative = true ∧ k = 0)
  low : -0x8000000000000000 ≤ k
  high : k < 0x10000000000000000

theorem toNumber_numeral {t : NumberText} {k : Int} :
    t.numeral.toNumber = .ok (.int k) ↔ t.IsInteger k := by
  have hvalue : Numeral.value t.whole.values = Nat.ofDigitChars 10 t.whole.chars 0 := by
    rw [Numeral.value, Digits.values, List.foldl_map]
    simp only [Nat.mul_comm _ 10]
    rfl
  have hinteger : t.numeral.integer = t.integer := by
    rw [Numeral.integer, integer, ← hvalue]
    rfl
  rw [Numeral.toNumber_eq_int_iff, hinteger]
  constructor
  · rintro ⟨hf, he, hk, hzero, hlow, hhigh⟩
    exact ⟨Option.map_eq_none_iff.mp hf, Option.map_eq_none_iff.mp he, hk, hzero, hlow, hhigh⟩
  · rintro ⟨hf, he, hk, hzero, hlow, hhigh⟩
    exact ⟨Option.map_eq_none_iff.mpr hf, Option.map_eq_none_iff.mpr he, hk, hzero, hlow, hhigh⟩

end NumberText

/-- No digit comes next. -/
def NoDigit (rest : List Char) : Prop := ∀ c ∈ rest.head?, c.isDigit = false

/-- Nothing comes next that would belong to the number. -/
def Stops (rest : List Char) : Prop :=
  ∀ c ∈ rest.head?, c.isDigit = false ∧ c ≠ '.' ∧ c ≠ 'e' ∧ c ≠ 'E'

theorem readDigits_eq_ok_iff {cs rest : List Char} {ds : List Nat} :
    readDigits cs = .ok (ds, rest) ↔
      ∃ d : Digits, ds = d.values ∧ cs = d.chars ++ rest ∧ NoDigit rest := by
  constructor
  · intro h
    have hdigit : ∀ c ∈ cs.takeWhile Char.isDigit, c.isDigit = true :=
      List.all_eq_true.mp List.all_takeWhile
    have hsplit : cs = cs.takeWhile Char.isDigit ++ cs.dropWhile Char.isDigit :=
      List.takeWhile_append_dropWhile.symm
    have hstop : NoDigit (cs.dropWhile Char.isDigit) := by
      intro c hc
      have hhead := List.head?_dropWhile_not Char.isDigit cs
      rwa [hc] at hhead
    simp only [readDigits, digitsOf, List.span_eq_takeWhile_dropWhile] at h
    generalize cs.takeWhile Char.isDigit = token, cs.dropWhile Char.isDigit = tail at *
    cases token with
    | nil => cases tail <;> cases h
    | cons c token =>
      obtain ⟨rfl, rfl⟩ := Prod.mk.inj (Except.ok.inj h)
      exact ⟨⟨c :: token, List.cons_ne_nil c token, hdigit⟩, rfl, hsplit, hstop⟩
  · rintro ⟨d, rfl, rfl, hstop⟩
    have hnone : rest.takeWhile Char.isDigit = [] ∧ rest.dropWhile Char.isDigit = rest := by
      cases rest with
      | nil => simp
      | cons c cs => simp [hstop c rfl]
    rw [readDigits, digitsOf, List.span_eq_takeWhile_dropWhile,
      List.takeWhile_append_of_pos d.digit, List.dropWhile_append_of_pos d.digit, hnone.1, hnone.2,
      List.append_nil]
    obtain ⟨chars, hne, _⟩ := d
    cases chars with
    | nil => exact absurd rfl hne
    | cons c chars => rfl

theorem eq_zero_of_digit {c : Char} (h : c.isDigit = true) (hc : c.toNat - '0'.toNat = 0) :
    c = '0' := by
  simp only [Char.isDigit, Bool.and_eq_true, decide_eq_true_eq] at h
  have hlow : 48 ≤ c.toNat := UInt32.le_iff_toNat_le.mp h.1
  have hhigh : c.toNat - 48 = 0 := hc
  rw [← Char.ofNat_toNat c, show c.toNat = 48 by omega]

/-- More than one digit, the first of them a zero: this is no number. -/
theorem values_eq_zero_cons_iff {d : Digits} :
    (∃ v vs, d.values = 0 :: v :: vs) ↔ ¬ (d.chars.head? = some '0' → d.chars = ['0']) := by
  obtain ⟨chars, _, hdigit⟩ := d
  match chars with
  | [] => simp [Digits.values]
  | [c] => simp [Digits.values]
  | c :: c' :: cs =>
    have hc := hdigit c List.mem_cons_self
    constructor
    · rintro ⟨v, vs, h⟩ hform
      have hzero := eq_zero_of_digit hc (List.cons.inj h).1
      cases hform (congrArg some hzero)
    · intro h
      have hzero : c = '0' := by
        by_contra hne
        exact h fun he => absurd (Option.some.inj he) hne
      subst hzero
      exact ⟨_, _, rfl⟩

theorem readWhole_eq_ok_iff {cs rest : List Char} {ds : List Nat} :
    readWhole cs = .ok (ds, rest) ↔ ∃ d : Digits, (d.chars.head? = some '0' → d.chars = ['0']) ∧
      ds = d.values ∧ cs = d.chars ++ rest ∧ NoDigit rest := by
  rw [readWhole, Decoder.bind_eq_ok]
  constructor
  · rintro ⟨⟨ds', rest'⟩, hd, h⟩
    obtain ⟨d, rfl, rfl, hstop⟩ := readDigits_eq_ok_iff.mp hd
    dsimp only at h
    split at h
    · cases h
    · next hne =>
      obtain ⟨rfl, rfl⟩ := Prod.mk.inj (Except.ok.inj h)
      refine ⟨d, ?_, rfl, rfl, hstop⟩
      by_contra hform
      obtain ⟨v, vs, hv⟩ := values_eq_zero_cons_iff.mpr hform
      exact hne v vs hv
  · rintro ⟨d, hform, rfl, rfl, hstop⟩
    refine ⟨_, readDigits_eq_ok_iff.mpr ⟨d, rfl, rfl, hstop⟩, ?_⟩
    dsimp only
    split
    · next hv => exact absurd hform (values_eq_zero_cons_iff.mp ⟨_, _, hv⟩)
    · rfl

theorem exists_of_readFraction {cs rest : List Char} {f : Option (List Nat)}
    (h : readFraction cs = .ok (f, rest)) :
    ∃ d : Option Digits, f = d.map Digits.values ∧ cs = fractionChars d ++ rest := by
  rw [readFraction.eq_def] at h
  split at h
  · obtain ⟨⟨ds, rest'⟩, hd, h⟩ := Decoder.bind_eq_ok.mp h
    obtain ⟨rfl, rfl⟩ := Prod.mk.inj (Except.ok.inj h)
    obtain ⟨d, rfl, rfl, -⟩ := readDigits_eq_ok_iff.mp hd
    exact ⟨some d, rfl, rfl⟩
  · obtain ⟨rfl, rfl⟩ := Prod.mk.inj (Except.ok.inj h)
    exact ⟨none, rfl, rfl⟩

theorem readFraction_chars (d : Option Digits) {rest : List Char} (hdigit : NoDigit rest)
    (hpoint : rest.head? ≠ some '.') :
    readFraction (fractionChars d ++ rest) = .ok (d.map Digits.values, rest) := by
  cases d with
  | none =>
    rw [fractionChars, List.nil_append, readFraction.eq_def]
    split
    · exact absurd rfl hpoint
    · rfl
  | some d =>
    have hd := readDigits_eq_ok_iff.mpr ⟨d, rfl, rfl, hdigit⟩
    rw [fractionChars, List.cons_append, readFraction, hd]
    rfl

/-- The digits of an exponent, after its mark and its sign. -/
def exponentDigits (sign : Option Char) (cs : List Char) :
    Except Flaw (Option (Bool × List Nat) × List Char) := do
  let (ds, rest) ← readDigits cs
  pure (some (decide (sign = some '-'), ds), rest)

theorem exponentDigits_eq_ok_iff {sign : Option Char} {cs rest : List Char}
    {e : Option (Bool × List Nat)} : exponentDigits sign cs = .ok (e, rest) ↔
      ∃ d : Digits, e = some (decide (sign = some '-'), d.values) ∧ cs = d.chars ++ rest ∧
        NoDigit rest := by
  rw [exponentDigits, Decoder.bind_eq_ok]
  constructor
  · rintro ⟨⟨ds, rest'⟩, hd, h⟩
    obtain ⟨rfl, rfl⟩ := Prod.mk.inj (Except.ok.inj h)
    obtain ⟨d, rfl, rfl, hstop⟩ := readDigits_eq_ok_iff.mp hd
    exact ⟨d, rfl, rfl, hstop⟩
  · rintro ⟨d, rfl, rfl, hstop⟩
    exact ⟨_, readDigits_eq_ok_iff.mpr ⟨d, rfl, rfl, hstop⟩, rfl⟩

theorem exists_of_readExponent {cs rest : List Char} {e : Option (Bool × List Nat)}
    (h : readExponent cs = .ok (e, rest)) :
    ∃ x : Option Exponent, e = x.map Exponent.value ∧ cs = exponentChars x ++ rest := by
  cases cs with
  | nil =>
    obtain ⟨rfl, rfl⟩ := Prod.mk.inj (Except.ok.inj h)
    exact ⟨none, rfl, rfl⟩
  | cons mark cs =>
    rw [readExponent.eq_def] at h
    dsimp only at h
    by_cases hm : mark = 'e' ∨ mark = 'E'
    · have hsigned : ∀ sign more, (∀ c ∈ sign, c = '+' ∨ c = '-') →
          exponentDigits sign more = .ok (e, rest) → ∃ x : Option Exponent,
            e = x.map Exponent.value ∧ mark :: (sign.toList ++ more) = exponentChars x ++ rest := by
        intro sign more hs hd
        obtain ⟨d, rfl, rfl, -⟩ := exponentDigits_eq_ok_iff.mp hd
        exact ⟨some ⟨mark, sign, d, hm, hs⟩, rfl, by simp [exponentChars]⟩
      rw [if_pos hm] at h
      split at h
      · exact hsigned (some '-') _ (by simp) h
      · exact hsigned (some '+') _ (by simp) h
      · exact hsigned none _ (by simp) h
    · rw [if_neg hm] at h
      obtain ⟨rfl, rfl⟩ := Prod.mk.inj (Except.ok.inj h)
      exact ⟨none, rfl, rfl⟩

theorem readExponent_mark (e : Exponent) (rest : List Char) :
    readExponent (exponentChars (some e) ++ rest) =
      exponentDigits e.sign (e.digits.chars ++ rest) := by
  obtain ⟨mark, sign, d, hm, hs⟩ := e
  simp only [exponentChars, List.cons_append, readExponent.eq_def, if_pos hm]
  cases sign with
  | none =>
    obtain ⟨cs, hne, hdigit⟩ := d
    obtain ⟨c, cs, rfl⟩ := List.exists_cons_of_ne_nil hne
    have hplus : c ≠ '+' := ne_of_isDigit (hdigit c List.mem_cons_self) rfl
    have hminus : c ≠ '-' := ne_of_isDigit (hdigit c List.mem_cons_self) rfl
    simp only [Option.toList_none, List.nil_append, List.cons_append]
    split
    · next heq => exact absurd (List.cons.inj heq).1 hminus
    · next heq => exact absurd (List.cons.inj heq).1 hplus
    · rfl
  | some c =>
    rcases hs c rfl with rfl | rfl
    · rfl
    · rfl

theorem readExponent_chars (x : Option Exponent) {rest : List Char} (hstop : Stops rest) :
    readExponent (exponentChars x ++ rest) = .ok (x.map Exponent.value, rest) := by
  cases x with
  | none =>
    cases rest with
    | nil => rfl
    | cons c rest =>
      obtain ⟨-, -, he, hE⟩ := hstop c rfl
      rw [exponentChars, List.nil_append, readExponent.eq_def]
      exact if_neg (not_or.mpr ⟨he, hE⟩)
  | some e =>
    rw [readExponent_mark]
    exact exponentDigits_eq_ok_iff.mpr ⟨e.digits, rfl, rfl, fun c hc => (hstop c hc).1⟩

theorem exists_of_readNumber {negative : Bool} {cs rest : List Char} {token : Token Number}
    (h : readNumber negative cs = .ok (token, rest)) :
    ∃ t : NumberText, t.negative = negative ∧ cs = t.magnitude ++ rest ∧
      token = t.numeral.toNumber := by
  obtain ⟨⟨ds, afterWhole⟩, hw, h⟩ := Decoder.bind_eq_ok.mp h
  obtain ⟨⟨f, afterFraction⟩, hf, h⟩ := Decoder.bind_eq_ok.mp h
  obtain ⟨⟨e, afterExponent⟩, he, h⟩ := Decoder.bind_eq_ok.mp h
  obtain ⟨rfl, rfl⟩ := Prod.mk.inj (Except.ok.inj h)
  obtain ⟨whole, hform, rfl, rfl, -⟩ := readWhole_eq_ok_iff.mp hw
  obtain ⟨fraction, rfl, rfl⟩ := exists_of_readFraction hf
  obtain ⟨exponent, rfl, rfl⟩ := exists_of_readExponent he
  exact ⟨⟨negative, whole, fraction, exponent, hform⟩, rfl, by simp [NumberText.magnitude], rfl⟩

theorem readNumber_magnitude (t : NumberText) {rest : List Char} (hstop : Stops rest) :
    readNumber t.negative (t.magnitude ++ rest) = .ok (t.numeral.toNumber, rest) := by
  have hexponent : ∀ c ∈ (exponentChars t.exponent ++ rest).head?, c.isDigit = false ∧ c ≠ '.' := by
    cases he : t.exponent with
    | none => exact fun c hc => ⟨(hstop c hc).1, (hstop c hc).2.1⟩
    | some e =>
      intro c hc
      obtain rfl : e.mark = c := Option.some.inj hc
      rcases e.mark_form with hm | hm <;> rw [hm] <;> decide
  have hfraction : NoDigit (fractionChars t.fraction ++ (exponentChars t.exponent ++ rest)) := by
    cases hf : t.fraction with
    | none => exact fun c hc => (hexponent c hc).1
    | some d =>
      intro c hc
      obtain rfl : '.' = c := Option.some.inj hc
      rfl
  have hw := readWhole_eq_ok_iff.mpr ⟨t.whole, t.whole_form, rfl, rfl, hfraction⟩
  have hf := readFraction_chars t.fraction (fun c hc => (hexponent c hc).1)
    fun hc => (hexponent '.' hc).2 rfl
  rw [NumberText.magnitude, List.append_assoc, List.append_assoc, readNumber, hw]
  dsimp only [bind, Except.bind]
  rw [hf]
  dsimp only [bind, Except.bind]
  rw [readExponent_chars t.exponent hstop]
  rfl

theorem settle_number_eq {x : Except Flaw (Token Number × List Char)} {token : Token Number}
    {rest : List Char} (h : settle .number x = (.number token, rest)) : x = .ok (token, rest) := by
  cases x with
  | error f => cases h
  | ok p =>
    cases h
    rfl

theorem settle_ne_number {α : Type} {make : α → Json} (hm : ∀ a token, make a ≠ .number token)
    {x : Except Flaw (α × List Char)} {token : Token Number} {rest : List Char} :
    settle make x ≠ (.number token, rest) := by
  cases x with
  | error f => simp [settle]
  | ok p => exact fun h => hm p.1 token (Prod.mk.inj h).1

/-- What is read as a number has the text of one. -/
theorem exists_of_readValue {fuel : Nat} {cs rest : List Char} {token : Token Number}
    (h : readValue fuel cs = (.number token, rest)) :
    ∃ t : NumberText, cs = t.chars ++ rest ∧ token = t.numeral.toNumber := by
  cases fuel with
  | zero =>
    rw [readValue] at h
    cases h
  | succ fuel =>
    cases cs with
    | nil =>
      rw [readValue] at h
      cases h
    | cons c cs =>
      rw [readValue] at h
      by_cases hquote : c = '"'
      · rw [if_pos hquote] at h
        exact absurd h (settle_ne_number (by simp))
      rw [if_neg hquote] at h
      by_cases hlist : c = '['
      · rw [if_pos hlist] at h
        cases (Prod.mk.inj h).1
      rw [if_neg hlist] at h
      by_cases hobject : c = '\x7b'
      · rw [if_pos hobject] at h
        cases (Prod.mk.inj h).1
      rw [if_neg hobject] at h
      by_cases hminus : c = '-'
      · rw [if_pos hminus] at h
        obtain ⟨t, hneg, rfl, ht⟩ := exists_of_readNumber (settle_number_eq h)
        exact ⟨t, by simp [NumberText.chars, hneg, hminus], ht⟩
      rw [if_neg hminus] at h
      by_cases hdigit : c.isDigit = true
      · rw [if_pos hdigit] at h
        obtain ⟨t, hneg, hcs, ht⟩ := exists_of_readNumber (settle_number_eq h)
        exact ⟨t, by simp [NumberText.chars, hneg, hcs], ht⟩
      rw [if_neg hdigit] at h
      split at h
      · exact absurd h (settle_ne_number (by simp))
      · split at h
        · exact absurd h (settle_ne_number (by simp))
        · split at h
          · exact absurd h (settle_ne_number (by simp))
          · cases h

/-- The text of a number is read as one, up to its end. -/
theorem readValue_chars (t : NumberText) {rest : List Char} (hstop : Stops rest) (fuel : Nat) :
    readValue (fuel + 1) (t.chars ++ rest) = (.number t.numeral.toNumber, rest) := by
  have hnumber := readNumber_magnitude t hstop
  rw [NumberText.chars, List.append_assoc]
  cases hneg : t.negative with
  | true =>
    rw [hneg] at hnumber
    rw [if_pos rfl, List.singleton_append, readValue, if_neg (by decide), if_neg (by decide),
      if_neg (by decide), if_pos rfl, hnumber]
    rfl
  | false =>
    obtain ⟨c, cs, hcs⟩ := List.exists_cons_of_ne_nil t.whole.ne_nil
    have hc : c.isDigit = true := t.whole.digit c (hcs ▸ List.mem_cons_self)
    have hne : ∀ d : Char, d.isDigit = false → c ≠ d := fun d => ne_of_isDigit hc
    rw [hneg, NumberText.magnitude, hcs] at hnumber
    simp only [List.cons_append] at hnumber
    rw [if_neg (by decide), List.nil_append, NumberText.magnitude, hcs, List.cons_append,
      List.cons_append, readValue, if_neg (hne _ rfl), if_neg (hne _ rfl), if_neg (hne _ rfl),
      if_neg (hne _ rfl), if_pos hc, hnumber]
    rfl

end Json

end BlockLowering
