import ApiSurface.Proofs.Token.Numeral
import Mathlib.Computability.Language
import Mathlib.Data.Char

/-!
# The longest numeral

`numerals` is the language of numerals, put together from classes of characters by the operations
on languages: one word after another (`*`), a word of one language or the other (`+`), and words of
a language any number of times (`∗`). It does not say how a numeral is read.

Reading takes the longest word of this language that stands at an offset of a text, where the point
of a fraction may not have another point behind it (`read?_longest`). That is more than to say that
every part of a numeral is taken as far as it goes: a closing letter may be one more hexadecimal
digit, digits may be the zero in front of the mark of a hexadecimal number, and the letter of an
exponent is given back where no digit follows. Two facts carry the proof, one lemma for each part of
a numeral and one for cuts in a row:

* a cut takes no point in front of another (`Cut.KeepsPointsApart`);
* a part that stands in front of a text is a front part of what its cut takes there, and exactly
  what the cut takes if a further part stands behind it (`Cut.prefix_andThen`).
-/

namespace ApiSurface

open Text
open scoped Computability

namespace Numeral

/-! ## The language of numerals -/

/-- The words of one character of the class. -/
def oneOf (s : Set Char) : Language Char := {w | ∃ c ∈ s, w = [c]}

/-- A word of the language, or nothing. -/
def maybe (l : Language Char) : Language Char := 1 + l

/-- The signs. -/
def signs : Set Char := {'+', '-'}

/-- The decimal digits. -/
def digits : Set Char := Set.Icc '0' '9'

/-- The decimal digits, and the underscore that groups them. -/
def groupedDigits : Set Char := digits ∪ {'_'}

/-- The hexadecimal digits, and the underscore that groups them. -/
def groupedHexDigits : Set Char := digits ∪ Set.Icc 'a' 'f' ∪ Set.Icc 'A' 'F' ∪ {'_'}

/-- The letters that may close a numeral. -/
def suffixes : Set Char := {'L', 'l', 'F', 'f', 'D', 'd'}

/-- A zero, the mark of a hexadecimal number, and any number of digits. -/
def hexadecimals : Language Char := oneOf {'0'} * oneOf {'x', 'X'} * (oneOf groupedHexDigits)∗

/-- A digit, and any number of grouped digits. -/
def integers : Language Char := oneOf digits * (oneOf groupedDigits)∗

/-- A point, and any number of grouped digits. -/
def fractions : Language Char := oneOf {'.'} * (oneOf groupedDigits)∗

/-- A letter `e`, perhaps a sign, and at least one digit. -/
def exponents : Language Char :=
  oneOf {'e', 'E'} * maybe (oneOf signs) * (oneOf digits * (oneOf digits)∗)

/-- An integer, perhaps a fraction, and perhaps an exponent. -/
def decimals : Language Char := integers * maybe fractions * maybe exponents

/-- A point with an integer behind it, and perhaps an exponent. -/
def pointDecimals : Language Char := oneOf {'.'} * integers * maybe exponents

/-- Perhaps a sign, a number, and perhaps a closing letter. -/
def numerals : Language Char :=
  maybe (oneOf signs) * (hexadecimals + decimals + pointDecimals) * maybe (oneOf suffixes)

/-- What a numeral begins with: perhaps a sign, then a digit, or a point and a digit. -/
def beginnings : Language Char :=
  maybe (oneOf signs) * (oneOf digits + oneOf {'.'} * oneOf digits)

/-! ### Words of one class -/

/-- The words of one character from a class. -/
theorem mem_oneOf {s : Set Char} {w : List Char} : w ∈ oneOf s ↔ ∃ c ∈ s, w = [c] := Iff.rfl

/-- A word of the language, or the empty one. -/
theorem mem_maybe {l : Language Char} {w : List Char} : w ∈ maybe l ↔ w = [] ∨ w ∈ l := Iff.rfl

/-- A character of the class in front of a word of the language. -/
theorem mem_oneOf_mul {s : Set Char} {l : Language Char} {w : List Char} :
    w ∈ oneOf s * l ↔ ∃ c ∈ s, ∃ rest ∈ l, w = c :: rest := by
  rw [Language.mem_mul]
  constructor
  · rintro ⟨_, ⟨c, hc, rfl⟩, rest, hrest, rfl⟩
    exact ⟨c, hc, rest, hrest, rfl⟩
  · rintro ⟨c, hc, rest, hrest, rfl⟩
    exact ⟨[c], ⟨c, hc, rfl⟩, rest, hrest, rfl⟩

section

variable {s : Set Char} {p : Char → Bool} {w : List Char}

/-- At most one character of a class, as a language. -/
theorem mem_maybe_oneOf (hp : ∀ c, c ∈ s ↔ p c = true) : w ∈ maybe (oneOf s) ↔ AtMostOne p w := by
  rw [mem_maybe, mem_oneOf]
  constructor
  · rintro (rfl | ⟨c, hc, rfl⟩)
    · exact .none
    · exact .one ((hp c).mp hc)
  · rintro (_ | hc)
    · exact .inl rfl
    · exact .inr ⟨_, (hp _).mpr hc, rfl⟩

/-- A run of a class, as a language. -/
theorem mem_kstar_oneOf (hp : ∀ c, c ∈ s ↔ p c = true) :
    w ∈ (oneOf s)∗ ↔ ∀ c ∈ w, p c = true := by
  rw [Language.mem_kstar]
  constructor
  · rintro ⟨words, rfl, hwords⟩ c hc
    obtain ⟨word, hword, hc⟩ := List.mem_flatten.mp hc
    obtain ⟨d, hd, rfl⟩ := hwords word hword
    rw [List.mem_singleton.mp hc]
    exact (hp d).mp hd
  · intro hw
    refine ⟨w.map fun c => [c], ?_, fun word hword => ?_⟩
    · rw [← List.flatMap_def, List.flatMap_singleton']
    · obtain ⟨c, hc, rfl⟩ := List.mem_map.mp hword
      exact ⟨c, (hp c).mpr (hw c hc), rfl⟩

end

/-- The signs are those that are read. -/
theorem mem_signs (c : Char) : c ∈ signs ↔ isSign c = true := by
  simp [signs, isSign]

/-- The digits are those that are read. -/
theorem mem_digits (c : Char) : c ∈ digits ↔ c.isDigit = true := by
  simp [digits, Char.isDigit, Char.le_def]

/-- The digits and the underscore are those that are read. -/
theorem mem_groupedDigits (c : Char) : c ∈ groupedDigits ↔ isGroupedDigit c = true := by
  simp [groupedDigits, isGroupedDigit, mem_digits, or_comm]

/-- The hexadecimal digits and the underscore are those that are read. -/
theorem mem_groupedHexDigits (c : Char) : c ∈ groupedHexDigits ↔ isGroupedHexDigit c = true := by
  simp [groupedHexDigits, isGroupedHexDigit, isHexDigit, mem_digits, or_comm]

/-- The suffixes are those that are read. -/
theorem mem_suffixes (c : Char) : c ∈ suffixes ↔ isSuffix c = true := by
  simp [suffixes, isSuffix_iff]

/-! ### The parts of a numeral -/

/-- A hexadecimal magnitude is a zero, the letter x, and a run of its digits. -/
theorem mem_hexadecimals {w : List Char} : w ∈ hexadecimals ↔
    ∃ x ds, (x = 'x' ∨ x = 'X') ∧ (∀ d ∈ ds, isGroupedHexDigit d = true) ∧ w = '0' :: x :: ds := by
  simp only [hexadecimals, mul_assoc, mem_oneOf_mul, mem_kstar_oneOf mem_groupedHexDigits]
  constructor
  · rintro ⟨_, rfl, _, ⟨x, hx, ds, hds, rfl⟩, rfl⟩
    exact ⟨x, ds, hx, hds, rfl⟩
  · rintro ⟨x, ds, hx, hds, rfl⟩
    exact ⟨'0', rfl, _, ⟨x, hx, ds, hds, rfl⟩, rfl⟩

/-- An integer is a run of digits and underscores that begins with a digit. -/
theorem mem_integers {w : List Char} : w ∈ integers ↔
    (∃ d rest, w = d :: rest ∧ d.isDigit = true) ∧ ∀ d ∈ w, isGroupedDigit d = true := by
  simp only [integers, mem_oneOf_mul, mem_kstar_oneOf mem_groupedDigits, mem_digits]
  constructor
  · rintro ⟨d, hd, ds, hds, rfl⟩
    exact ⟨⟨d, ds, rfl, hd⟩, List.forall_mem_cons.mpr ⟨by simp [isGroupedDigit, hd], hds⟩⟩
  · rintro ⟨⟨d, ds, rfl, hd⟩, hw⟩
    exact ⟨d, hd, ds, (List.forall_mem_cons.mp hw).2, rfl⟩

/-- A fraction of the language is one that is read. -/
theorem mem_fractions {w : List Char} : w ∈ maybe fractions ↔ IsFraction w := by
  simp only [fractions, mem_maybe, mem_oneOf_mul, mem_kstar_oneOf mem_groupedDigits]
  constructor
  · rintro (rfl | ⟨_, rfl, ds, hds, rfl⟩)
    · exact .none
    · exact .point hds
  · rintro (_ | hds)
    · exact .inl rfl
    · exact .inr ⟨'.', rfl, _, hds, rfl⟩

/-- A run of at least one digit, as a language. -/
theorem mem_someDigits {w : List Char} :
    w ∈ oneOf digits * (oneOf digits)∗ ↔ w ≠ [] ∧ ∀ d ∈ w, d.isDigit = true := by
  simp only [mem_oneOf_mul, mem_kstar_oneOf mem_digits, mem_digits]
  constructor
  · rintro ⟨d, hd, ds, hds, rfl⟩
    exact ⟨List.cons_ne_nil d ds, List.forall_mem_cons.mpr ⟨hd, hds⟩⟩
  · rintro ⟨hne, hw⟩
    obtain ⟨d, ds, rfl⟩ := List.exists_cons_of_ne_nil hne
    obtain ⟨hd, hds⟩ := List.forall_mem_cons.mp hw
    exact ⟨d, hd, ds, hds, rfl⟩

/-- An exponent of the language is one that is read. -/
theorem mem_exponents {w : List Char} : w ∈ maybe exponents ↔ IsExponent w := by
  simp only [exponents, mem_maybe, mul_assoc _ _ (oneOf digits * _), mem_oneOf_mul]
  constructor
  · rintro (rfl | ⟨e, he, _, hrest, rfl⟩)
    · exact .none
    · obtain ⟨sign, hsign, ds, hds, rfl⟩ := Language.mem_mul.mp hrest
      obtain ⟨hne, hds⟩ := mem_someDigits.mp hds
      exact .letter he ((mem_maybe_oneOf mem_signs).mp hsign) hne hds
  · rintro (_ | ⟨he, hsign, hne, hds⟩)
    · exact .inl rfl
    · exact .inr ⟨_, he, _, Language.append_mem_mul ((mem_maybe_oneOf mem_signs).mpr hsign)
        (mem_someDigits.mpr ⟨hne, hds⟩), rfl⟩

/-- What stands before an exponent is digits and a fraction, of which the first that is there begins
the number. -/
theorem mem_mantissas {w : List Char} :
    w ∈ integers * maybe fractions + oneOf {'.'} * integers ↔
      ∃ ds f, (∀ d ∈ ds, isGroupedDigit d = true) ∧ IsFraction f ∧
        startsMagnitude (ds ++ f) = true ∧ w = ds ++ f := by
  rw [Language.mem_add]
  constructor
  · rintro (h | h)
    · obtain ⟨ds, hds, f, hf, rfl⟩ := Language.mem_mul.mp h
      obtain ⟨hfirst, hds⟩ := mem_integers.mp hds
      exact ⟨ds, f, hds, mem_fractions.mp hf,
        startsMagnitude_append (startsMagnitude_iff.mpr (.inl hfirst)) f, rfl⟩
    · obtain ⟨_, rfl, ds, hds, rfl⟩ := mem_oneOf_mul.mp h
      obtain ⟨⟨d, rest, rfl, hd⟩, hds⟩ := mem_integers.mp hds
      exact ⟨[], _, by simp, .point hds, startsMagnitude_iff.mpr (.inr ⟨d, rest, rfl, hd⟩), rfl⟩
  · rintro ⟨ds, f, hds, hf, hstart, rfl⟩
    rcases startsMagnitude_iff.mp hstart with ⟨c, rest, hcut, hc⟩ | ⟨d, rest, hcut, hd⟩
    · -- A digit in front is no point, so it is not that of the fraction.
      left
      rcases ds with _ | ⟨c', ds⟩
      · exfalso
        rcases hf with _ | _
        · cases hcut
        · obtain ⟨rfl, -⟩ := List.cons.inj hcut
          exact absurd hc (by decide)
      · obtain ⟨rfl, -⟩ := List.cons.inj hcut
        exact Language.append_mem_mul (mem_integers.mpr ⟨⟨_, _, rfl, hc⟩, hds⟩)
          (mem_fractions.mpr hf)
    · -- A point in front is no digit, so the fraction is all there is.
      right
      rcases ds with _ | ⟨c', ds⟩
      · rcases hf with _ | hds
        · cases hcut
        · obtain ⟨-, rfl⟩ := List.cons.inj hcut
          exact mem_oneOf_mul.mpr ⟨'.', rfl, _, mem_integers.mpr ⟨⟨d, rest, rfl, hd⟩, hds⟩, rfl⟩
      · obtain ⟨rfl, -⟩ := List.cons.inj hcut
        exact absurd (hds _ List.mem_cons_self) (by decide)

/-- A decimal magnitude has its digits, a fraction and an exponent, and begins as one. -/
theorem mem_decimals {w : List Char} : w ∈ decimals + pointDecimals ↔
    ∃ ds f e, (∀ d ∈ ds, isGroupedDigit d = true) ∧ IsFraction f ∧ IsExponent e ∧
      startsMagnitude (ds ++ f) = true ∧ w = ds ++ f ++ e := by
  rw [decimals, pointDecimals, ← add_mul, Language.mem_mul]
  constructor
  · rintro ⟨_, hm, e, he, rfl⟩
    obtain ⟨ds, f, hds, hf, hstart, rfl⟩ := mem_mantissas.mp hm
    exact ⟨ds, f, e, hds, hf, mem_exponents.mp he, hstart, rfl⟩
  · rintro ⟨ds, f, e, hds, hf, he, hstart, rfl⟩
    exact ⟨ds ++ f, mem_mantissas.mpr ⟨ds, f, hds, hf, hstart, rfl⟩, e, mem_exponents.mpr he, rfl⟩

/-- A sign, a magnitude and a suffix make a numeral. -/
theorem append_mem_numerals {sign m suffix : List Char} (hsign : AtMostOne isSign sign)
    (hm : m ∈ hexadecimals + (decimals + pointDecimals)) (hsuffix : AtMostOne isSuffix suffix) :
    sign ++ (m ++ suffix) ∈ numerals := by
  rw [numerals, add_assoc, mul_assoc]
  exact Language.append_mem_mul ((mem_maybe_oneOf mem_signs).mpr hsign)
    (Language.append_mem_mul hm ((mem_maybe_oneOf mem_suffixes).mpr hsuffix))

/-- The words of the language are the numerals told by their parts, although there no hexadecimal
digit closes a hexadecimal number. -/
theorem mem_numerals {w : List Char} : w ∈ numerals ↔ IsNumeral w := by
  constructor
  · intro h
    rw [numerals, add_assoc] at h
    obtain ⟨_, hfront, suffix, hsuffix, rfl⟩ := Language.mem_mul.mp h
    obtain ⟨sign, hsign, m, hm, rfl⟩ := Language.mem_mul.mp hfront
    rw [mem_maybe_oneOf mem_signs] at hsign
    rw [mem_maybe_oneOf mem_suffixes] at hsuffix
    rw [List.append_assoc]
    rcases hm with hm | hm
    · obtain ⟨x, ds, hx, hds, rfl⟩ := mem_hexadecimals.mp hm
      cases hsuffix with
      | none => exact .hexadecimal hsign hx hds .none
      | @one c hc =>
        by_cases hhex : isGroupedHexDigit c = true
        · -- The closing letter is one more digit.
          have hmore : ∀ d ∈ ds ++ [c], isGroupedHexDigit d = true := by
            intro d hd
            rcases List.mem_append.mp hd with hd | hd
            · exact hds d hd
            · rwa [List.mem_singleton.mp hd]
          simpa using IsNumeral.hexadecimal hsign hx hmore .none
        · exact .hexadecimal hsign hx hds (.one (by simp [hc, hhex]))
    · obtain ⟨ds, f, e, hds, hf, he, hstart, rfl⟩ := mem_decimals.mp hm
      exact .decimal hsign hds hf he hstart hsuffix
  · intro h
    cases h with
    | hexadecimal hsign hx hds hsuffix =>
      exact append_mem_numerals hsign (.inl (mem_hexadecimals.mpr ⟨_, _, hx, hds, rfl⟩))
        (hsuffix.mono fun c hc => (Bool.and_eq_true_iff.mp hc).1)
    | decimal hsign hds hf he hstart hsuffix =>
      exact append_mem_numerals hsign
        (.inr (mem_decimals.mpr ⟨_, _, _, hds, hf, he, hstart, rfl⟩)) hsuffix

/-- A number stands behind a sign or none just where a text begins like a numeral. -/
theorem startsMagnitude_iff_beginnings {cs : List Char} :
    startsMagnitude (single isSign cs).2 = true ↔ ∃ w ∈ beginnings, w <+: cs := by
  constructor
  · intro h
    have hsign := (mem_maybe_oneOf mem_signs).mpr (atMostOne_single isSign cs)
    have hcut := single_exact isSign cs
    rcases startsMagnitude_iff.mp h with ⟨c, rest, hrest, hc⟩ | ⟨d, rest, hrest, hd⟩
    · refine ⟨_, Language.append_mem_mul hsign (.inl ⟨c, (mem_digits c).mpr hc, rfl⟩), rest, ?_⟩
      rw [List.append_assoc, List.singleton_append, ← hrest, hcut]
    · have hpoint : ['.', d] ∈ oneOf {'.'} * oneOf digits :=
        mem_oneOf_mul.mpr ⟨'.', rfl, [d], ⟨d, (mem_digits d).mpr hd, rfl⟩, rfl⟩
      refine ⟨_, Language.append_mem_mul hsign (.inr hpoint), rest, ?_⟩
      rw [List.append_assoc, List.cons_append, List.singleton_append, ← hrest, hcut]
  · rintro ⟨w, hw, rest, rfl⟩
    obtain ⟨sign, hsign, number, hnumber, rfl⟩ := Language.mem_mul.mp hw
    rw [mem_maybe_oneOf mem_signs] at hsign
    have hstart : startsMagnitude number = true := by
      rcases hnumber with ⟨c, hc, rfl⟩ | hpoint
      · exact startsMagnitude_iff.mpr (.inl ⟨c, [], rfl, (mem_digits c).mp hc⟩)
      · obtain ⟨_, rfl, _, ⟨d, hd, rfl⟩, rfl⟩ := mem_oneOf_mul.mp hpoint
        exact startsMagnitude_iff.mpr (.inr ⟨d, [], rfl, (mem_digits d).mp hd⟩)
    have hstart' := startsMagnitude_append hstart rest
    rw [List.append_assoc, single_append hsign (boundary_isSign_of_startsMagnitude hstart')]
    exact hstart'

/-! ## Points -/

/-- No point in a piece of a text has another point behind it, in the piece or in the rest of the
text. The only point that a numeral can have is the one of its fraction. -/
def PointsApart (piece rest : List Char) : Prop :=
  ∀ front behind, piece = front ++ '.' :: behind → (behind ++ rest).head? ≠ some '.'

/-- Without a point there are no two. -/
theorem pointsApart_of_not_mem {piece rest : List Char} (h : '.' ∉ piece) :
    PointsApart piece rest := by
  rintro front behind rfl
  exact absurd (List.mem_append_right front List.mem_cons_self) h

/-- Points are apart in a piece of two parts if they are in each, as it stands in the text. -/
theorem pointsApart_append {first second rest : List Char} :
    PointsApart (first ++ second) rest ↔
      PointsApart first (second ++ rest) ∧ PointsApart second rest := by
  constructor
  · refine fun h => ⟨fun front behind hcut => ?_, fun front behind hcut => ?_⟩
    · have hbehind := h front (behind ++ second) (by rw [hcut, List.append_assoc]; rfl)
      rwa [List.append_assoc] at hbehind
    · exact h (first ++ front) behind (by rw [hcut, List.append_assoc])
  · rintro ⟨hfirst, hsecond⟩ front behind hcut
    rcases List.append_eq_append_iff.mp hcut with ⟨more, rfl, hmore⟩ | ⟨more, rfl, hmore⟩
    · exact hsecond more behind hmore
    · rcases List.cons_eq_append_iff.mp hmore with ⟨rfl, hpoint⟩ | ⟨more', rfl, rfl⟩
      · exact hsecond [] behind hpoint
      · rw [List.append_assoc]
        exact hfirst front more' rfl

/-- The cut takes no point that has another behind it. -/
def Cut.KeepsPointsApart (f : Cut) : Prop := ∀ cs, PointsApart (f cs).1 (f cs).2

/-- A cut that never takes a point keeps points apart. -/
theorem Cut.Avoids.keepsPointsApart {f : Cut} (h : f.Avoids '.') : f.KeepsPointsApart :=
  fun cs => pointsApart_of_not_mem (h cs)

/-- Two cuts, one behind the other, keep points apart if both do. -/
theorem Cut.KeepsPointsApart.andThen {f g : Cut} (hf : f.KeepsPointsApart)
    (hg : g.KeepsPointsApart) (hexact : g.Exact) : (f.andThen g).KeepsPointsApart := by
  intro cs
  have hbehind : PointsApart (f cs).1 ((g (f cs).2).1 ++ (g (f cs).2).2) := by
    rw [hexact]
    exact hf cs
  exact pointsApart_append.mpr ⟨hbehind, hg (f cs).2⟩

/-- A fraction is not begun at a point with another behind it. -/
theorem fraction_keepsPointsApart : fraction.KeepsPointsApart := by
  intro cs
  unfold fraction
  split
  · next rest =>
    split
    · exact pointsApart_of_not_mem List.not_mem_nil
    · next hhead =>
      have hpoint : PointsApart ['.']
          ((run isGroupedDigit rest).1 ++ (run isGroupedDigit rest).2) := by
        rw [run_exact]
        intro front behind hcut
        rcases List.singleton_eq_append_iff.mp hcut with ⟨rfl, hcut⟩ | ⟨-, hcut⟩
        · obtain ⟨-, rfl⟩ := List.cons.inj hcut
          exact hhead
        · cases hcut
      exact pointsApart_append.mpr ⟨hpoint, pointsApart_of_not_mem (run_avoids (by decide) rest)⟩
  · exact pointsApart_of_not_mem List.not_mem_nil

/-- A fraction has only points, digits and underscores in it. -/
theorem IsFraction.not_mem {f : List Char} (hf : IsFraction f) {c : Char} (hpoint : c ≠ '.')
    (hdigit : isGroupedDigit c = false) : c ∉ f := by
  intro hc
  cases hf with
  | none => cases hc
  | point hds =>
    rcases List.mem_cons.mp hc with hc | hc
    · exact hpoint hc
    · exact Bool.eq_false_iff.mp hdigit (hds c hc)

/-- An exponent has only its letter, a sign and digits in it. -/
theorem IsExponent.not_mem {e : List Char} (he : IsExponent e) {c : Char}
    (hletter : ¬ (c = 'e' ∨ c = 'E')) (hsign : isSign c = false) (hdigit : c.isDigit = false) :
    c ∉ e := by
  intro hc
  cases he with
  | none => cases hc
  | letter hletter' hsign' _ hds =>
    rw [List.mem_cons, List.mem_append] at hc
    rcases hc with rfl | hc | hc
    · exact hletter hletter'
    · exact Bool.eq_false_iff.mp hsign (hsign'.forall_mem c hc)
    · exact Bool.eq_false_iff.mp hdigit (hds c hc)

/-- No point is taken for an exponent. -/
theorem exponent_keepsPointsApart : exponent.KeepsPointsApart :=
  fun cs => pointsApart_of_not_mem
    ((isExponent_exponent cs).not_mem (by decide) (by decide) (by decide))

/-- Of a magnitude only the fraction has a point. -/
theorem magnitude_keepsPointsApart : magnitude.KeepsPointsApart := by
  intro cs
  rcases magnitude_cases cs with ⟨x, rest, -, hx, hm⟩ | hm
  · rw [hm]
    refine pointsApart_of_not_mem ?_
    rw [List.mem_cons, List.mem_cons, not_or, not_or]
    refine ⟨by decide, ?_, run_avoids (by decide) rest⟩
    rcases hx with rfl | rfl <;> decide
  · rw [hm]
    have hdigits : (run isGroupedDigit).KeepsPointsApart :=
      (run_avoids (by decide)).keepsPointsApart
    exact (hdigits.andThen fraction_keepsPointsApart fraction_exact).andThen
      exponent_keepsPointsApart exponent_exact cs

/-- In what is read as a numeral no point has another behind it. -/
theorem pointsApart_of_read? {cs numeral rest : List Char}
    (h : read? cs = some (numeral, rest)) : PointsApart numeral rest := by
  unfold read? at h
  split at h
  · have hsign : (single isSign).KeepsPointsApart := (single_avoids (by decide)).keepsPointsApart
    have hsuffix : (single isSuffix).KeepsPointsApart :=
      (single_avoids (by decide)).keepsPointsApart
    have hapart := (hsign.andThen magnitude_keepsPointsApart magnitude_exact).andThen hsuffix
      (single_exact isSuffix) cs
    rw [Option.some.injEq] at h
    rwa [h] at hapart
  · cases h

/-! ## Nothing longer stands there -/

/-- A run in front of any text is taken, and perhaps more. -/
theorem prefix_run {p : Char → Bool} {ds : List Char} (hds : ∀ d ∈ ds, p d = true)
    (rest : List Char) : ds <+: (run p (ds ++ rest)).1 := by
  rw [run, List.takeWhile_append_of_pos hds]
  exact List.prefix_append _ _

/-- A fraction whose points are apart is taken, and perhaps more. -/
theorem prefix_fraction {f rest : List Char} (hf : IsFraction f) (hpoints : PointsApart f rest) :
    f <+: (fraction (f ++ rest)).1 := by
  cases hf with
  | none => exact List.nil_prefix
  | @point ds hds =>
    have hhead : (ds ++ rest).head? ≠ some '.' := hpoints [] ds rfl
    rw [List.cons_append, fraction, if_neg hhead]
    exact (List.prefix_cons_inj '.').mpr (prefix_run hds rest)

/-- An exponent in front of any text is taken, and perhaps more. -/
theorem prefix_exponent {e : List Char} (he : IsExponent e) (rest : List Char) :
    e <+: (exponent (e ++ rest)).1 := by
  cases he with
  | none => exact List.nil_prefix
  | letter hletter hsign hne hds =>
    rw [exponent_letter hletter hsign hne hds, List.prefix_cons_inj, List.prefix_append_right_inj]
    exact prefix_run hds rest

/-- Two parts in front of a text are a front part of what two cuts in a row take of it, if the first
part is one of what the first cut takes, and where the second part is there, the first cut stops in
front of it and the second cut goes on over it. -/
theorem Cut.prefix_andThen {f g : Cut} {first second rest : List Char}
    (hfirst : first <+: (f (first ++ (second ++ rest))).1)
    (hsecond : second ≠ [] → f (first ++ (second ++ rest)) = (first, second ++ rest) ∧
      second <+: (g (second ++ rest)).1) :
    first ++ second <+: (f.andThen g (first ++ second ++ rest)).1 := by
  rw [List.append_assoc, Cut.andThen]
  by_cases hne : second = []
  · subst hne
    rw [List.append_nil]
    exact hfirst.trans (List.prefix_append _ _)
  · obtain ⟨hf, hg⟩ := hsecond hne
    rw [hf, List.prefix_append_right_inj]
    exact hg

section

variable {ds f e : List Char} (hds : ∀ d ∈ ds, isGroupedDigit d = true) (hf : IsFraction f)
  (he : IsExponent e)

include hds hf he

/-- A decimal magnitude whose points are apart is taken, and perhaps more. -/
theorem prefix_decimal {rest : List Char} (hpoints : PointsApart f (e ++ rest)) :
    ds ++ f ++ e <+: (decimal (ds ++ f ++ e ++ rest)).1 := by
  refine Cut.prefix_andThen ?_ fun hne => ⟨?_, prefix_exponent he rest⟩
  · exact Cut.prefix_andThen (prefix_run hds _) fun hne =>
      ⟨run_append hds ((hf.boundary rfl).append_of_ne_nil hne _), prefix_fraction hf hpoints⟩
  · rw [List.append_assoc]
    exact mantissa_append hds hf ((he.boundary rfl rfl).append_of_ne_nil hne rest)
      ((he.boundary rfl rfl).append_of_ne_nil hne rest)

/-- A decimal magnitude has only the characters of its three parts in it. -/
theorem not_mem_decimal {c : Char} (hpoint : c ≠ '.') (hletter : ¬ (c = 'e' ∨ c = 'E'))
    (hsign : isSign c = false) (hdigit : isGroupedDigit c = false) : c ∉ ds ++ f ++ e := by
  have hdigit' : c.isDigit = false := (Bool.or_eq_false_iff.mp hdigit).1
  rw [List.mem_append, List.mem_append, not_or, not_or]
  exact ⟨⟨fun hc => Bool.eq_false_iff.mp hdigit (hds c hc), hf.not_mem hpoint hdigit⟩,
    he.not_mem hletter hsign hdigit'⟩

end

/-- A part without the mark of a hexadecimal number is taken of a number if it is taken of a
decimal: where the mark stands behind it, it is no more than the zero in front. -/
theorem prefix_magnitude {m rest : List Char} (hm : m <+: (decimal (m ++ rest)).1)
    (hmark : ∀ x, x = 'x' ∨ x = 'X' → x ∉ m) : m <+: (magnitude (m ++ rest)).1 := by
  rcases magnitude_cases (m ++ rest) with ⟨x, more, hcs, hx, hmagnitude⟩ | hmagnitude
  · rw [hmagnitude]
    have hzero : m <+: ['0'] := by
      rcases List.append_eq_append_iff.mp (show m ++ rest = ['0'] ++ x :: more from hcs) with
        ⟨tail, htail, -⟩ | ⟨tail, rfl, htail⟩
      · exact ⟨tail, htail.symm⟩
      · rcases tail with _ | ⟨x', tail⟩
        · exact List.prefix_rfl
        · obtain ⟨rfl, -⟩ := List.cons.inj htail
          exact absurd (by simp) (hmark x hx)
    exact hzero.trans (List.prefix_append ['0'] _)
  · rw [hmagnitude]
    exact hm

/-- A closing letter behind a front part of a number is read too: it closes the number, or has gone
into it. -/
theorem exists_read?_of_prefix {sign m suffix rest : List Char} (hsign : AtMostOne isSign sign)
    (hstart : startsMagnitude (m ++ (suffix ++ rest)) = true)
    (hm : m <+: (magnitude (m ++ (suffix ++ rest))).1) (hsuffix : AtMostOne isSuffix suffix) :
    ∃ numeral behind, read? (sign ++ (m ++ suffix) ++ rest) = some (numeral, behind) ∧
      sign ++ (m ++ suffix) <+: numeral := by
  have hread := read?_of_sign hsign hstart
  have hexact := magnitude_exact (m ++ (suffix ++ rest))
  generalize magnitude (m ++ (suffix ++ rest)) = cut at hm hread hexact
  obtain ⟨_, after⟩ := cut
  obtain ⟨more, rfl⟩ := hm
  rw [List.append_assoc, List.append_cancel_left_eq] at hexact
  -- Where the magnitude is read further, the suffix is its next character.
  have hclose : suffix <+: more ++ (single isSuffix after).1 := by
    cases hsuffix with
    | none => exact List.nil_prefix
    | @one c hc =>
      rcases more with _ | ⟨d, more⟩
      · rw [show after = [c] ++ rest from hexact, List.singleton_append, single, if_pos hc]
        exact List.prefix_rfl
      · obtain ⟨rfl, -⟩ := List.cons.inj hexact
        exact List.prefix_append [d] _
  refine ⟨_, _, by rw [List.append_assoc, List.append_assoc]; exact hread, ?_⟩
  rw [List.prefix_append_right_inj, List.append_assoc, List.prefix_append_right_inj]
  exact hclose

/-- Where a numeral with its points apart stands in front of a text, it is a front part of what is
read. -/
theorem IsNumeral.exists_read? {w rest : List Char} (hw : IsNumeral w)
    (hpoints : PointsApart w rest) :
    ∃ numeral behind, read? (w ++ rest) = some (numeral, behind) ∧ w <+: numeral := by
  cases hw with
  | @hexadecimal sign ds suffix x hsign hx hds hsuffix =>
    have hm : '0' :: x :: ds <+: (magnitude ('0' :: x :: ds ++ (suffix ++ rest))).1 := by
      rw [List.cons_append, List.cons_append, magnitude, if_pos (by simpa using hx)]
      exact (List.prefix_append_right_inj ['0', x]).mpr (prefix_run hds _)
    exact exists_read?_of_prefix hsign rfl hm
      (hsuffix.mono fun c hc => (Bool.and_eq_true_iff.mp hc).1)
  | @decimal sign ds f e suffix hsign hds hf he hstart hsuffix =>
    -- The one point of a decimal numeral is that of its fraction.
    have hfraction : PointsApart f (e ++ (suffix ++ rest)) := by
      rw [List.append_assoc, List.append_assoc] at hpoints
      have hnumber := (pointsApart_append.mp (pointsApart_append.mp hpoints).2).2
      rw [← List.append_assoc]
      exact (pointsApart_append.mp hnumber).1
    have hmark : ∀ x, x = 'x' ∨ x = 'X' → x ∉ ds ++ f ++ e := by
      rintro x (rfl | rfl) <;>
        exact not_mem_decimal hds hf he (by decide) (by decide) (by decide) (by decide)
    have hstart' : startsMagnitude (ds ++ f ++ e ++ (suffix ++ rest)) = true :=
      startsMagnitude_append (startsMagnitude_append hstart e) _
    exact exists_read?_of_prefix hsign hstart'
      (prefix_magnitude (prefix_decimal hds hf he hfraction) hmark) hsuffix

/-! ## Offsets -/

/-- The offsets at which a numeral that begins at the offset `start` may end: between them stands a
word of the language in which no point is followed in the text by another. -/
def numeralEnds (text : List Char) (start : Nat) : Set Nat :=
  {stop | start ≤ stop ∧ stop ≤ text.length ∧ text.extract start stop ∈ numerals ∧
    PointsApart (text.extract start stop) (text.drop stop)}

/-- The piece of a text at an offset, and the rest behind it. -/
theorem extract_of_drop {text w rest : List Char} {start : Nat} (h : text.drop start = w ++ rest) :
    text.extract start (start + w.length) = w ∧ text.drop (start + w.length) = rest := by
  rw [List.extract_eq_take_drop, ← List.drop_drop, h, Nat.add_sub_cancel_left]
  exact ⟨List.take_left, List.drop_left⟩

/-- A numeral between two offsets is a front part of the text behind the first of them. -/
theorem mem_numeralEnds {text : List Char} {start stop : Nat} :
    stop ∈ numeralEnds text start ↔ ∃ w rest, text.drop start = w ++ rest ∧
      stop = start + w.length ∧ IsNumeral w ∧ PointsApart w rest := by
  constructor
  · rintro ⟨hstart, hstop, hw, hpoints⟩
    refine ⟨_, _, ?_, ?_, mem_numerals.mp hw, hpoints⟩
    · have hdrop : text.drop stop = (text.drop start).drop (stop - start) := by
        rw [List.drop_drop, Nat.add_sub_cancel' hstart]
      rw [List.extract_eq_take_drop, hdrop, List.take_append_drop]
    · rw [List.extract_eq_take_drop, List.length_take, List.length_drop]
      omega
  · rintro ⟨w, rest, hcut, rfl, hw, hpoints⟩
    obtain ⟨hextract, hdrop⟩ := extract_of_drop hcut
    have hlength := congrArg List.length hcut
    rw [List.length_drop, List.length_append] at hlength
    have hpos := List.length_pos_iff.mpr hw.ne_nil
    refine ⟨by omega, by omega, ?_, ?_⟩
    · rw [hextract]
      exact mem_numerals.mpr hw
    · rw [hextract, hdrop]
      exact hpoints

/-- What is read ends as far behind as any numeral that begins there. -/
theorem isGreatest_of_read? {text numeral rest : List Char} {start : Nat}
    (h : read? (text.drop start) = some (numeral, rest)) :
    IsGreatest (numeralEnds text start) (start + numeral.length) := by
  refine ⟨mem_numeralEnds.mpr ⟨numeral, rest, (append_of_read? h).symm, rfl,
    isNumeral_of_read? h, pointsApart_of_read? h⟩, ?_⟩
  rintro stop hstop
  obtain ⟨w, behind, hcut, rfl, hw, hpoints⟩ := mem_numeralEnds.mp hstop
  obtain ⟨longer, more, hread, hprefix⟩ := hw.exists_read? hpoints
  rw [← hcut, h] at hread
  obtain ⟨rfl, -⟩ := Prod.mk.inj (Option.some.inj hread)
  exact Nat.add_le_add_left hprefix.length_le start

/-- A numeral is read if and only if a magnitude begins behind a sign that may be missing. -/
theorem exists_read?_iff {cs : List Char} : (∃ numeral rest, read? cs = some (numeral, rest)) ↔
    startsMagnitude (single isSign cs).2 = true := by
  unfold read?
  split
  · next h => exact ⟨fun _ => h, fun _ => ⟨_, _, rfl⟩⟩
  · next h => simp [h]

/-- **Reading takes the longest numeral.** At any offset of any text a numeral is read just if there
stands perhaps a sign, and then a digit, or a point and a digit. What is read goes from there to the
greatest offset at which a word of the language of numerals ends whose point, if it has one, is not
followed by another, and the text from that offset on is left. -/
theorem read?_longest (text : List Char) (start : Nat) :
    ((∃ numeral rest, read? (text.drop start) = some (numeral, rest)) ↔
      ∃ w ∈ beginnings, w <+: text.drop start) ∧
    ∀ numeral rest, read? (text.drop start) = some (numeral, rest) ↔
      ∃ stop, IsGreatest (numeralEnds text start) stop ∧
        numeral = text.extract start stop ∧ rest = text.drop stop := by
  refine ⟨exists_read?_iff.trans startsMagnitude_iff_beginnings, fun numeral rest => ⟨?_, ?_⟩⟩
  · intro h
    obtain ⟨hextract, hdrop⟩ := extract_of_drop (append_of_read? h).symm
    exact ⟨_, isGreatest_of_read? h, hextract.symm, hdrop.symm⟩
  · rintro ⟨stop, hgreatest, rfl, rfl⟩
    obtain ⟨w, behind, hcut, -, hw, hpoints⟩ := mem_numeralEnds.mp hgreatest.1
    obtain ⟨longer, more, hread, -⟩ := hw.exists_read? hpoints
    rw [← hcut] at hread
    obtain ⟨hextract, hdrop⟩ := extract_of_drop (append_of_read? hread).symm
    rw [hgreatest.unique (isGreatest_of_read? hread), hextract, hdrop, hread]

/-- The letter of an exponent without digits and the first of two points are left. -/
example :
    read? ("= -1.5e+;".toList.drop 2) = some ("-1.5".toList, "e+;".toList) ∧
    read? ("= -1..5".toList.drop 2) = some ("-1".toList, "..5".toList) := by
  decide

end Numeral

end ApiSurface
