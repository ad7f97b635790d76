import VisualScript.Json.Reader
import VisualScript.Json.Writer
import VisualScript.Proofs.Rounding
import Mathlib.Data.List.DropRight

/-!
# Proofs — Numerals

Numbers as text.  A `Numeral` is the digits before the point with an optional fraction and an
optional power of ten; every layout of a decimal is the text of one that has the same value
(`Layout.exists_numeral`), and reading that text rounds the value (`Numeral.unsigned?_text`).  So a
double is read back from its text (`scalar?_float`), and a whole number from its digits unless
there are too many (`scalar?_int`).
-/

namespace VisualScript

variable {ds : List Char} {width : Nat} {e : Int} {exponent : Option Int} {c : Char} {s : Bool}

namespace Number

variable {a b cs : List Char} {c : Char}

theorem isDigit_eq : isDigit c = c.isDigit := by
  simp only [isDigit, Char.isDigit, Char.le_def]

theorem digitsValue_eq : digitsValue cs = Nat.ofDigitChars 10 cs 0 := by
  simp only [digitsValue, Nat.ofDigitChars, Nat.mul_comm 10]
  rfl

@[simp] theorem digitsValue_toDigits (n : Nat) : digitsValue (Nat.toDigits 10 n) = n := by
  rw [digitsValue_eq, Nat.ofDigitChars_ten_toDigits]

theorem digitsValue_concat : digitsValue (a ++ [c]) = digitsValue a * 10 + (c.toNat - 48) := by
  simp [digitsValue]

theorem digitsValue_append :
    digitsValue (a ++ b) = digitsValue a * 10 ^ b.length + digitsValue b := by
  induction b using List.reverseRecOn with
  | nil => simp [digitsValue]
  | append_singleton b c ih =>
    rw [← List.append_assoc, digitsValue_concat, digitsValue_concat, ih, List.length_append,
      List.length_singleton, pow_succ]
    ring

@[simp] theorem digitsValue_zeros (n : Nat) : digitsValue (Layout.zeros n) = 0 := by
  induction n with
  | zero => rfl
  | succ n ih =>
    rw [Layout.zeros, List.replicate_succ', digitsValue_concat]
    simpa [Layout.zeros] using ih

theorem isDigit_of_mem_zeros {n : Nat} (h : c ∈ Layout.zeros n) : isDigit c = true := by
  rw [List.eq_of_mem_replicate h]
  rfl

theorem isDigit_of_mem_toDigits {n : Nat} (h : c ∈ Nat.toDigits 10 n) : isDigit c = true := by
  rw [isDigit_eq]
  exact Nat.isDigit_of_mem_toDigits (by decide) (by decide) h

theorem head?_digitChar : ∀ n < 10, 0 < n → [Nat.digitChar n].head? ≠ some '0' := by decide

/-- The digits of a number that is not zero start with another digit. -/
theorem head?_toDigits {n : Nat} (hn : 0 < n) : (Nat.toDigits 10 n).head? ≠ some '0' := by
  induction n using Nat.strongRecOn with
  | ind n ih =>
    rw [Nat.toDigits_eq_if (by decide)]
    split
    case isTrue h => exact head?_digitChar n h hn
    case isFalse h =>
      rw [List.head?_append_of_ne_nil _ Nat.toDigits_ne_nil]
      exact ih (n / 10) (by omega) (by omega)

end Number

open Number Json.Reader

/-! ### Numerals -/

/-- Digits before the point: a zero alone, or several that do not start with one. -/
structure Whole (ds : List Char) : Prop where
  nonempty : ds ≠ []
  digits : ∀ c ∈ ds, isDigit c = true
  leading : ds = ['0'] ∨ ds.head? ≠ some '0'

/-- A number as it is written. -/
structure Numeral where
  whole    : List Char
  fraction : Option (List Char)
  exponent : Option Int

/-- What can stand behind a value: nothing, or what separates and closes. -/
def Closed (rest : List Char) : Prop := ∀ c ∈ rest.head?, c = ',' ∨ c = ']' ∨ c = '\x7d'

namespace Numeral

def fractionText : Option (List Char) → List Char
  | some ds => '.' :: ds
  | none    => []

def exponentText (width : Nat) : Option Int → List Char
  | some e => 'e' :: Layout.exponentText width e
  | none   => []

def text (width : Nat) (n : Numeral) : List Char :=
  n.whole ++ (fractionText n.fraction ++ exponentText width n.exponent)

def digits (n : Numeral) : Nat := digitsValue (n.whole ++ n.fraction.getD [])

def power (n : Numeral) : Int := n.exponent.getD 0 - (n.fraction.getD []).length

structure WellFormed (n : Numeral) : Prop where
  whole : Whole n.whole
  fraction : ∀ ds ∈ n.fraction, ds ≠ [] ∧ ∀ c ∈ ds, isDigit c = true
  /-- Without a fraction and an exponent it would be read as a whole number. -/
  fractional : n.fraction.isSome ∨ n.exponent.isSome

end Numeral

theorem spanDigits_append {ds rest : List Char} (hds : ∀ c ∈ ds, isDigit c = true)
    (hrest : ∀ c ∈ rest.head?, isDigit c = false) : spanDigits (ds ++ rest) = (ds, rest) := by
  have htake : rest.takeWhile isDigit = [] := by
    cases rest with
    | nil => rfl
    | cons c cs => simp [hrest c rfl]
  have hdrop : rest.dropWhile isDigit = rest := by
    cases rest with
    | nil => rfl
    | cons c cs => simp [hrest c rfl]
  rw [spanDigits, List.takeWhile_append_of_pos hds, List.dropWhile_append_of_pos hds, htake, hdrop,
    List.append_nil]

theorem Closed.not_digit {rest : List Char} (h : Closed rest) :
    ∀ c ∈ rest.head?, isDigit c = false := by
  intro c hc
  rcases h c hc with rfl | rfl | rfl <;> rfl

theorem whole?_append {ds rest : List Char} (hds : Whole ds)
    (hrest : ∀ c ∈ rest.head?, isDigit c = false) : whole? (ds ++ rest) = some (ds, rest) := by
  rw [whole?, spanDigits_append hds.digits hrest]
  split
  case h_1 h => exact absurd (Prod.mk.inj h).1 hds.nonempty
  case h_2 h =>
    obtain ⟨rfl, rfl⟩ := Prod.mk.inj h
    rcases hds.leading with h | h <;> simp at h
  case h_3 h => rw [h]

theorem exponent?_closed {rest : List Char} (h : Closed rest) :
    exponent? rest = some (none, rest) := by
  cases rest with
  | nil => rfl
  | cons c cs =>
    refine if_neg ?_
    rcases h c rfl with rfl | rfl | rfl <;> decide

theorem fraction?_of_head {rest : List Char} (h : rest.head? ≠ some '.') :
    fraction? rest = some (none, rest) := by
  unfold fraction?
  split
  · simp at h
  · rfl

theorem exponentDigits : ∀ c ∈
    Layout.zeros (width - (Nat.toDigits 10 e.natAbs).length) ++ Nat.toDigits 10 e.natAbs,
      isDigit c = true := by
  intro c hc
  rcases List.mem_append.mp hc with hc | hc
  · exact isDigit_of_mem_zeros hc
  · exact isDigit_of_mem_toDigits hc

/-- The power of ten is read back. -/
theorem exponent?_text {rest : List Char} (h : Closed rest) :
    exponent? ('e' :: Layout.exponentText width e ++ rest) = some (some e, rest) := by
  have hspan := spanDigits_append (@exponentDigits width e) h.not_digit
  generalize hds : Layout.zeros (width - (Nat.toDigits 10 e.natAbs).length) ++
    Nat.toDigits 10 e.natAbs = ds at hspan
  have hne : ds ≠ [] := by
    rw [← hds]
    exact List.append_ne_nil_of_right_ne_nil _ Nat.toDigits_ne_nil
  have hvalue : digitsValue ds = e.natAbs := by
    rw [← hds, digitsValue_append, digitsValue_zeros, digitsValue_toDigits]
    simp
  by_cases hneg : e < 0
  · simp only [Layout.exponentText, hds, if_pos hneg, List.cons_append, exponent?, true_or, if_true,
      hspan]
    cases ds with
    | nil => exact absurd rfl hne
    | cons d ds => simp only [hvalue]; congr 3; omega
  · simp only [Layout.exponentText, hds, if_neg hneg, List.cons_append, exponent?, true_or, if_true,
      hspan]
    cases ds with
    | nil => exact absurd rfl hne
    | cons d ds =>
      simp only [hvalue, Bool.false_eq_true, if_false]
      congr 3
      omega

theorem Numeral.exponent?_exponentText {rest : List Char} (h : Closed rest) :
    exponent? (exponentText width exponent ++ rest) = some (exponent, rest) := by
  cases exponent with
  | none => exact exponent?_closed h
  | some e => exact exponent?_text h

theorem Numeral.head?_exponentText {rest : List Char} (h : Closed rest) :
    ∀ c ∈ (exponentText width exponent ++ rest).head?,
      isDigit c = false ∧ c ≠ '.' := by
  cases exponent with
  | none =>
    intro c hc
    rcases h c hc with rfl | rfl | rfl <;> decide
  | some e =>
    intro c hc
    cases hc
    decide

theorem Numeral.fraction?_fractionText {fraction : Option (List Char)} {rest : List Char}
    (hfraction : ∀ ds ∈ fraction, ds ≠ [] ∧ ∀ c ∈ ds, isDigit c = true)
    (hrest : ∀ c ∈ rest.head?, isDigit c = false ∧ c ≠ '.') :
    fraction? (fractionText fraction ++ rest) = some (fraction, rest) := by
  cases fraction with
  | none => exact fraction?_of_head fun h => (hrest _ h).2 rfl
  | some ds =>
    obtain ⟨hne, hds⟩ := hfraction ds rfl
    simp only [fractionText, List.cons_append, fraction?,
      spanDigits_append hds fun c hc => (hrest c hc).1]

theorem Numeral.head?_text {fraction : Option (List Char)} {rest : List Char} (h : Closed rest) :
    ∀ c ∈ (fractionText fraction ++ (exponentText width exponent ++ rest)).head?,
      isDigit c = false := by
  cases fraction with
  | none => exact fun c hc => (head?_exponentText h c hc).1
  | some ds =>
    intro c hc
    cases hc
    rfl

/-- **A numeral is read as the double nearest to its value.** -/
theorem Numeral.unsigned?_text {n : Numeral} (hn : n.WellFormed) {limit width : Nat}
    (hlimit : n.whole.length ≤ limit) {negative : Bool} {rest : List Char} (h : Closed rest) :
    unsigned? limit negative (n.text width ++ rest) =
      some (.float (.ofDecimal negative n.digits n.power), rest) := by
  have htext : n.text width ++ rest =
      n.whole ++ (fractionText n.fraction ++ (exponentText width n.exponent ++ rest)) := by
    simp [text]
  simp only [unsigned?, htext, whole?_append hn.whole (head?_text h), bind, Option.bind,
    if_neg (not_lt.mpr hlimit), fraction?_fractionText hn.fraction (head?_exponentText h),
    exponent?_exponentText h, pure]
  split
  case h_1 hf he =>
    have hsome := hn.fractional
    simp [hf, he] at hsome
  case h_2 => rfl

/-! ### Layouts -/

namespace Layout

/-- The digits that are left when the zeros at the end are dropped. -/
theorem trailing_zeros (ds : List Char) :
    ∃ n, ds = (ds.reverse.dropWhile (· == '0')).reverse ++ zeros n := by
  refine ⟨(ds.rtakeWhile (· == '0')).length, ?_⟩
  have hzeros : ds.rtakeWhile (· == '0') = zeros (ds.rtakeWhile (· == '0')).length :=
    List.eq_replicate_of_mem fun c hc => by simpa using List.mem_rtakeWhile_imp hc
  conv_lhs => rw [← @List.rdropWhile_append_rtakeWhile _ (· == '0') ds]
  rw [← hzeros]
  rfl

/-- Digits that start with another digit than zero. -/
structure Significant (ds : List Char) : Prop where
  nonempty : ds ≠ []
  digits : ∀ c ∈ ds, isDigit c = true
  leading : ds.head? ≠ some '0'

theorem Significant.whole {ds : List Char} (h : Significant ds) : Whole ds :=
  ⟨h.nonempty, h.digits, .inr h.leading⟩

theorem Significant.append_zeros {ds : List Char} (h : Significant ds) (n : Nat) :
    Significant (ds ++ zeros n) := by
  refine ⟨List.append_ne_nil_of_left_ne_nil h.nonempty _, fun c hc => ?_, ?_⟩
  · exact (List.mem_append.mp hc).elim (h.digits c) isDigit_of_mem_zeros
  · rw [List.head?_append_of_ne_nil _ h.nonempty]
    exact h.leading

theorem Significant.take {ds : List Char} (h : Significant ds) {n : Nat} (hn : 0 < n) :
    Significant (ds.take n) := by
  refine ⟨?_, fun c hc => h.digits c (List.mem_of_mem_take hc), ?_⟩
  · simpa using ⟨hn.ne', h.nonempty⟩
  · rw [List.head?_take, if_neg hn.ne']
    exact h.leading

/-- A numeral for `0.ds * 10 ^ point`. -/
structure Stands (n : Numeral) (ds : List Char) (point : Int) : Prop where
  wellFormed : n.WellFormed
  value : (n.digits : ℚ) * 10 ^ n.power = digitsValue ds * 10 ^ (point - ds.length)

theorem positional_numeral {ds : List Char} (h : Significant ds) (point : Int) (width : Nat) :
    ∃ n : Numeral, positional ds point = n.text width ∧ Stands n ds point ∧
      n.whole.length ≤ max 1 point.toNat := by
  unfold positional
  split
  case isTrue hpoint =>
    refine ⟨⟨['0'], some (zeros (-point).toNat ++ ds), none⟩, ?_, ⟨⟨?_, ?_, .inl rfl⟩, ?_⟩, ?_⟩
    · simp [Numeral.text, Numeral.fractionText, Numeral.exponentText]
    · exact ⟨by simp, by simp [isDigit], .inl rfl⟩
    · rintro _ ⟨⟩
      refine ⟨List.append_ne_nil_of_right_ne_nil _ h.nonempty, fun c hc => ?_⟩
      exact (List.mem_append.mp hc).elim isDigit_of_mem_zeros (h.digits c)
    · have hdigits : digitsValue (['0'] ++ (zeros (-point).toNat ++ ds)) = digitsValue ds := by
        rw [digitsValue_append, digitsValue_append, digitsValue_zeros,
          show digitsValue ['0'] = 0 from rfl]
        simp
      simp only [Numeral.digits, Numeral.power, Option.getD, hdigits]
      congr 2
      simp only [List.length_append, zeros, List.length_replicate]
      omega
    · simp
  case isFalse hpoint =>
    obtain ⟨p, rfl⟩ := Int.eq_ofNat_of_zero_le (not_le.mp hpoint).le
    have hp : 0 < p := by omega
    simp only [Int.toNat_natCast, List.isEmpty_iff, List.drop_eq_nil_iff]
    split
    case isTrue hlen =>
      have hwhole := h.append_zeros (p - ds.length)
      refine ⟨⟨ds ++ zeros (p - ds.length), some ['0'], none⟩, ?_,
        ⟨⟨hwhole.whole, ?_, .inl rfl⟩, ?_⟩, ?_⟩
      · simp [Numeral.text, Numeral.fractionText, Numeral.exponentText, List.take_of_length_le hlen]
      · rintro _ ⟨⟩
        simp [isDigit]
      · have hdigits : digitsValue (ds ++ zeros (p - ds.length) ++ ['0']) =
            digitsValue ds * 10 ^ (p - ds.length) * 10 := by
          rw [digitsValue_append, digitsValue_append, digitsValue_zeros,
            show digitsValue ['0'] = 0 from rfl]
          simp [zeros]
        simp only [Numeral.digits, Numeral.power, Option.getD, hdigits]
        rw [← Nat.cast_sub hlen]
        simp
      · simp only [zeros, List.length_append, List.length_replicate]
        omega
    case isFalse hlen =>
      refine ⟨⟨ds.take p, some (ds.drop p), none⟩, ?_,
        ⟨⟨(h.take hp).whole, ?_, .inl rfl⟩, ?_⟩, ?_⟩
      · simp [Numeral.text, Numeral.fractionText, Numeral.exponentText, zeros,
          Nat.sub_eq_zero_of_le (not_le.mp hlen).le]
      · rintro _ ⟨⟩
        exact ⟨by simpa using hlen, fun c hc => h.digits c (List.mem_of_mem_drop hc)⟩
      · simp only [Numeral.digits, Numeral.power, Option.getD, List.take_append_drop]
        congr 2
        simp only [List.length_drop]
        omega
      · simp only [List.length_take]
        omega

theorem scientific_numeral {ds : List Char} (h : Significant ds) (point : Int) (width : Nat) :
    ∃ n : Numeral, scientific width ds point = n.text width ∧ Stands n ds point ∧
      n.whole.length = 1 := by
  cases ds with
  | nil => exact absurd rfl h.nonempty
  | cons d ds =>
    have hwhole : Whole [d] :=
      ⟨by simp, fun c hc => h.digits c (by simp_all), .inr (by simpa using h.leading)⟩
    cases ds with
    | nil =>
      refine ⟨⟨[d], none, some (point - 1)⟩, ?_, ⟨⟨hwhole, by simp, .inr rfl⟩, ?_⟩, rfl⟩
      · simp [scientific, Numeral.text, Numeral.fractionText, Numeral.exponentText]
      · simp [Numeral.digits, Numeral.power]
    | cons d' ds =>
      refine ⟨⟨[d], some (d' :: ds), some (point - 1)⟩, ?_, ⟨⟨hwhole, ?_, .inr rfl⟩, ?_⟩, rfl⟩
      · simp [scientific, Numeral.text, Numeral.fractionText, Numeral.exponentText]
      · rintro _ ⟨⟩
        exact ⟨by simp, fun c hc => h.digits c (List.mem_cons_of_mem _ hc)⟩
      · simp only [Numeral.digits, Numeral.power, Option.getD, List.singleton_append]
        congr 2
        simp only [List.length_cons]
        omega

/-- **Every layout writes a numeral of the same value.** -/
theorem exists_numeral (l : Layout) {d : Decimal} (hd : 0 < d.digits) :
    ∃ n : Numeral, l.decimal d = n.text l.width ∧ n.WellFormed ∧
      (n.digits : ℚ) * 10 ^ n.power = d.digits * 10 ^ d.exponent ∧
      n.whole.length ≤ max 1 l.bound.toNat := by
  obtain ⟨k, hk⟩ := trailing_zeros (Nat.toDigits 10 d.digits)
  have hvalue := digitsValue_toDigits d.digits
  unfold decimal
  simp only
  generalize ((Nat.toDigits 10 d.digits).reverse.dropWhile (· == '0')).reverse = ds at *
  have hlen : (Nat.toDigits 10 d.digits).length = ds.length + k := by
    rw [hk, List.length_append, zeros, List.length_replicate]
  rw [hk, digitsValue_append, digitsValue_zeros, zeros, List.length_replicate,
    Nat.add_zero] at hvalue
  have hds : Significant ds := by
    have hne : ds ≠ [] := by
      rintro rfl
      rw [show digitsValue [] = 0 from rfl, Nat.zero_mul] at hvalue
      omega
    refine ⟨hne, fun c hc => ?_, ?_⟩
    · exact isDigit_of_mem_toDigits (hk ▸ List.mem_append_left _ hc)
    · have := head?_toDigits hd
      rwa [hk, List.head?_append_of_ne_nil _ hne] at this
  have hstands {n : Numeral}
      (h : Stands n ds ((Nat.toDigits 10 d.digits).length + d.exponent)) :
      (n.digits : ℚ) * 10 ^ n.power = d.digits * 10 ^ d.exponent := by
    rw [h.value, hlen, ← hvalue,
      show ((ds.length + k : Nat) : Int) + d.exponent - ds.length = k + d.exponent by omega,
      zpow_add₀ (by norm_num)]
    simp [mul_assoc]
  split
  case isTrue h =>
    obtain ⟨n, htext, hn, hwhole⟩ := positional_numeral hds _ l.width
    have hbound := max_le_max_left 1 (Int.toNat_le_toNat h.2)
    exact ⟨n, htext, hn.wellFormed, hstands hn, hwhole.trans hbound⟩
  case isFalse h =>
    obtain ⟨n, htext, hn, hwhole⟩ := scientific_numeral hds _ l.width
    exact ⟨n, htext, hn.wellFormed, hstands hn, by omega⟩

end Layout

/-! ### Scalars -/

variable {limit : Nat} {rest : List Char}

theorem ne_of_isDigit {c d : Char} (h : isDigit c = true) (hd : isDigit d = false) : c ≠ d := by
  rintro rfl
  simp [h] at hd

theorem scalar?_of_digit (h : isDigit c = true) (cs : List Char) :
    scalar? limit (c :: cs) = unsigned? limit false (c :: cs) := by
  have hne {d : Char} (hd : isDigit d = false) (ds : List Char) : c :: cs = d :: ds → False :=
    fun heq => ne_of_isDigit h hd (List.cons.inj heq).1
  refine scalar?.eq_10 _ _ (by simp) ?_ ?_ ?_ ?_ ?_ ?_ ?_ <;> exact hne rfl

/-- The sign in front of the digits, and what is read behind it. -/
theorem scalar?_signed (h : isDigit c = true) (cs : List Char) :
    scalar? limit (if s then '-' :: c :: cs else c :: cs) = unsigned? limit s (c :: cs) := by
  cases s with
  | false => exact scalar?_of_digit h cs
  | true =>
    exact scalar?.eq_9 _ _ fun _ heq => ne_of_isDigit h rfl (List.cons.inj heq).1

/-- The digits of a number that is written as a double. -/
theorem exists_float_numeral {m : Nat} (hc : Binary64.Canonical (.finite s m e)) :
    ∃ n : Numeral, Json.Writer.float (.finite s m e) =
        (if s then '-' :: n.text Json.Writer.layout.width else n.text Json.Writer.layout.width) ∧
      n.WellFormed ∧ n.whole.length ≤ 16 ∧
      Binary64.ofDecimal s n.digits n.power = .finite s m e := by
  simp only [Json.Writer.float, Layout.write?, Option.getD]
  by_cases hm : m = 0
  · subst hm
    obtain rfl : e = Binary64.minExponent := hc.2.2.2.resolve_right (by norm_num)
    refine ⟨⟨['0'], some ['0'], none⟩, ?_, ⟨⟨by simp, by simp [isDigit], .inl rfl⟩, ?_, .inl rfl⟩,
      by simp, rfl⟩
    · cases s <;> rfl
    · rintro _ ⟨⟩
      simp [isDigit]
  · have hshort := Decimal.toBinary64_shortest hc (Nat.pos_of_ne_zero hm)
    have hdigits : 0 < (Decimal.shortest m e).digits := by
      refine Nat.pos_of_ne_zero fun h0 => hm ?_
      rw [Decimal.toBinary64, Binary64.ofDecimal, if_pos h0] at hshort
      exact (Binary64.finite.inj hshort).2.1.symm
    obtain ⟨n, htext, hn, hvalue, hwhole⟩ := Json.Writer.layout.exists_numeral hdigits
    refine ⟨n, ?_, hn, hwhole, ?_⟩
    · rw [if_neg hm, htext]
      cases s <;> simp
    · rw [Decimal.toBinary64, ← Binary64.ofDecimal_congr hvalue, Binary64.ofDecimal_eq_ofRatio]
        at hshort
      rw [Binary64.ofDecimal_eq_ofRatio]
      exact Binary64.ofRatio_negate hshort

theorem Whole.exists_cons (h : Whole ds) : ∃ c cs, ds = c :: cs ∧ isDigit c = true := by
  cases ds with
  | nil => exact absurd rfl h.nonempty
  | cons c cs => exact ⟨c, cs, rfl, h.digits c List.mem_cons_self⟩

/-- **A finite double is read back from its text.** -/
theorem scalar?_float {m : Nat} (hc : Binary64.Canonical (.finite s m e)) (hlimit : 16 ≤ limit)
    (h : Closed rest) :
    scalar? limit (Json.Writer.float (.finite s m e) ++ rest) =
      some (.float (.finite s m e), rest) := by
  obtain ⟨n, htext, hn, hwhole, hvalue⟩ := exists_float_numeral hc
  obtain ⟨c, cs, hcons, hc⟩ := hn.whole.exists_cons
  have hread : unsigned? limit s (n.text Json.Writer.layout.width ++ rest) =
      some (.float (.finite s m e), rest) := by
    rw [Numeral.unsigned?_text hn (hwhole.trans hlimit) h, hvalue]
  rw [← hread, htext]
  have hhead : n.text Json.Writer.layout.width ++ rest = c :: (cs ++
      (Numeral.fractionText n.fraction ++
        (Numeral.exponentText Json.Writer.layout.width n.exponent ++ rest))) := by
    simp [Numeral.text, hcons]
  rw [hhead, ← scalar?_signed hc]
  congr 1
  cases s <;> simp [hhead]

theorem whole_toDigits (n : Nat) : Whole (Nat.toDigits 10 n) := by
  refine ⟨Nat.toDigits_ne_nil, fun c => isDigit_of_mem_toDigits, ?_⟩
  rcases Nat.eq_zero_or_pos n with rfl | hn
  · exact .inl rfl
  · exact .inr (head?_toDigits hn)

theorem toList_toString_int (i : Int) :
    (toString i).toList =
      if i < 0 then '-' :: Nat.toDigits 10 i.natAbs else Nat.toDigits 10 i.natAbs := by
  rw [Int.toString_eq_repr]
  cases i with
  | ofNat n =>
    rw [if_neg (by simp), Int.repr, Nat.repr_eq_ofList_toDigits]
    simp
  | negSucc n =>
    rw [if_pos (Int.negSucc_lt_zero n), Int.repr, Nat.repr_eq_ofList_toDigits]
    simp

/-- **A whole number is read back unless it has too many digits.** -/
theorem scalar?_int (i : Int) (h : Closed rest) :
    scalar? limit ((toString i).toList ++ rest) =
      if (Nat.toDigits 10 i.natAbs).length ≤ limit then some (.int i, rest) else none := by
  obtain ⟨c, cs, hcons, hc⟩ := (whole_toDigits i.natAbs).exists_cons
  have hwhole := whole?_append (whole_toDigits i.natAbs) h.not_digit
  have hread : unsigned? limit (decide (i < 0)) (Nat.toDigits 10 i.natAbs ++ rest) =
      if (Nat.toDigits 10 i.natAbs).length ≤ limit then some (.int i, rest) else none := by
    have hdot : rest.head? ≠ some '.' := fun hdot => by
      rcases h _ hdot with h | h | h <;> cases h
    simp only [unsigned?, hwhole, bind, Option.bind, fraction?_of_head hdot, exponent?_closed h,
      digitsValue_toDigits, pure]
    split
    case isTrue hlong => rw [if_neg (not_le.mpr hlong)]
    case isFalse hshort =>
      rw [if_pos (not_lt.mp hshort)]
      congr 3
      split <;> simp_all only [decide_eq_true_eq] <;> omega
  rw [← hread, toList_toString_int, hcons, List.cons_append, ← scalar?_signed hc]
  congr 1
  by_cases hi : i < 0 <;> simp [hi]

end VisualScript
