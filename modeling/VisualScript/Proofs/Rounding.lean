import VisualScript.Number.Shortest
import Mathlib.Algebra.Order.Field.Power
import Mathlib.Data.Rat.Cast.Order
import Mathlib.Tactic.FieldSimp
import Mathlib.Tactic.Linarith
import Mathlib.Tactic.NormNum
import Mathlib.Tactic.Positivity
import Mathlib.Tactic.Ring

/-!
# Proofs — Rounding

The double nearest to a quotient depends on the quotient only (`Binary64.ofRatio_congr`): the
exponent is the one that fits (`Fits`), and there is one such exponent.  A double is nearest to
itself (`ofRatio_exact`), the decimals settled by their size are rounded like all others
(`ofDecimal_eq_ofRatio`), and the shortest decimal of a double reads back as that double
(`Decimal.toBinary64_shortest`).
-/

namespace VisualScript.Binary64

variable {num den num' den' : Nat} {e e' : Int} {v : ℚ}

/-- The exponent of two at which `v` has a significand of 53 bits; below the least one there is
none. -/
structure Fits (v : ℚ) (e : Int) : Prop where
  least : minExponent ≤ e
  upper : v < 2 ^ (e + 53)
  lower : e = minExponent ∨ 2 ^ (e + 52) ≤ v

theorem Fits.le (h : Fits v e) (h' : Fits v e') : e ≤ e' := by
  by_contra hlt
  rcases h.lower with hmin | hlow
  · have := h'.least
    omega
  · have hpow : (2 : ℚ) ^ (e' + 53) ≤ 2 ^ (e + 52) := zpow_le_zpow_right₀ (by norm_num) (by omega)
    exact absurd h'.upper (not_lt.mpr (hpow.trans hlow))

theorem Fits.unique (h : Fits v e) (h' : Fits v e') : e = e' := le_antisymm (h.le h') (h'.le h)

theorem scale_den_pos (hd : 0 < den) : 0 < (scale num den e).2 := by
  unfold scale
  split
  · exact Nat.mul_pos hd (Nat.two_pow_pos _)
  · exact hd

theorem scale_ratio : ((scale num den e).1 : ℚ) / (scale num den e).2 = num / den / 2 ^ e := by
  unfold scale
  split
  case isTrue h =>
    obtain ⟨k, rfl⟩ := Int.eq_ofNat_of_zero_le h
    simp [div_div]
  case isFalse h =>
    obtain ⟨k, rfl⟩ : ∃ k : Nat, e = -k := ⟨(-e).toNat, by omega⟩
    simp [div_eq_mul_inv, mul_right_comm]

theorem two_pow_log2_le (hn : 0 < num) : (2 : ℚ) ^ (num.log2 : Int) ≤ num := by
  exact_mod_cast Nat.log2_self_le hn.ne'

theorem lt_two_pow_log2 (num : Nat) : (num : ℚ) < 2 ^ ((num.log2 : Int) + 1) := by
  exact_mod_cast Nat.lt_log2_self (n := num)

/-- The binary sizes of a numerator and a denominator bound the quotient. -/
theorem ratio_bounds (hn : 0 < num) (hd : 0 < den) :
    (2 : ℚ) ^ ((num.log2 : Int) - den.log2 - 1) ≤ num / den ∧
      (num : ℚ) / den < 2 ^ ((num.log2 : Int) - den.log2 + 1) := by
  have hd' : (0 : ℚ) < den := by exact_mod_cast hd
  constructor
  · rw [le_div_iff₀ hd']
    calc (2 : ℚ) ^ ((num.log2 : Int) - den.log2 - 1) * den
        ≤ 2 ^ ((num.log2 : Int) - den.log2 - 1) * 2 ^ ((den.log2 : Int) + 1) :=
          mul_le_mul_of_nonneg_left (lt_two_pow_log2 den).le (by positivity)
      _ = 2 ^ (num.log2 : Int) := by rw [← zpow_add₀ (by norm_num)]; congr 1; ring
      _ ≤ num := two_pow_log2_le hn
  · rw [div_lt_iff₀ hd']
    calc (num : ℚ) < 2 ^ ((num.log2 : Int) + 1) := lt_two_pow_log2 num
      _ = 2 ^ ((num.log2 : Int) - den.log2 + 1) * 2 ^ (den.log2 : Int) := by
          rw [← zpow_add₀ (by norm_num)]; congr 1; ring
      _ ≤ 2 ^ ((num.log2 : Int) - den.log2 + 1) * den :=
          mul_le_mul_of_nonneg_left (two_pow_log2_le hd) (by positivity)

theorem scale_lt_iff (hd : 0 < den) :
    (scale num den e).1 / (scale num den e).2 < 2 ^ 53 ↔ (num : ℚ) / den < 2 ^ (e + 53) := by
  have hpos : (0 : ℚ) < (scale num den e).2 := by exact_mod_cast scale_den_pos hd
  have hpow : (0 : ℚ) < 2 ^ e := by positivity
  rw [Nat.div_lt_iff_lt_mul (scale_den_pos hd), zpow_add₀ (by norm_num), mul_comm ((2 : ℚ) ^ e),
    ← div_lt_iff₀ hpow, ← scale_ratio, div_lt_iff₀ hpos]
  exact_mod_cast Iff.rfl

theorem le_scale_iff (hd : 0 < den) :
    2 ^ 52 ≤ (scale num den e).1 / (scale num den e).2 ↔ (2 : ℚ) ^ (e + 52) ≤ num / den := by
  have hpos : (0 : ℚ) < (scale num den e).2 := by exact_mod_cast scale_den_pos hd
  have hpow : (0 : ℚ) < 2 ^ e := by positivity
  rw [Nat.le_div_iff_mul_le (scale_den_pos hd), zpow_add₀ (by norm_num), mul_comm ((2 : ℚ) ^ e),
    ← le_div_iff₀ hpow, ← scale_ratio, le_div_iff₀ hpos]
  exact_mod_cast Iff.rfl

theorem exponentOf_fits (hn : 0 < num) (hd : 0 < den) :
    Fits ((num : ℚ) / den) (exponentOf num den) := by
  obtain ⟨hlow, hup⟩ := ratio_bounds hn hd
  unfold exponentOf
  simp only
  split
  case isTrue h =>
    refine ⟨le_max_left _ _, (scale_lt_iff hd).mp h, ?_⟩
    by_cases hmin : minExponent ≤ (num.log2 : Int) - den.log2 - 53
    · refine .inr (le_trans (zpow_le_zpow_right₀ (by norm_num) ?_) hlow)
      rw [max_eq_right hmin]
      omega
    · exact .inl (max_eq_left (by omega))
  case isFalse h =>
    rw [scale_lt_iff hd, not_lt] at h
    have hmin : minExponent ≤ (num.log2 : Int) - den.log2 - 53 := by
      by_contra hmin
      rw [max_eq_left (by omega)] at h
      refine absurd (h.trans_lt hup) (not_lt.mpr (zpow_le_zpow_right₀ (by norm_num) ?_))
      unfold minExponent at *
      omega
    rw [max_eq_right hmin] at h ⊢
    refine ⟨by omega, hup.trans_le (zpow_le_zpow_right₀ (by norm_num) (by omega)), .inr ?_⟩
    rwa [show (num.log2 : Int) - den.log2 - 53 + 1 + 52 = num.log2 - den.log2 - 53 + 53 by omega]

/-! ### Rounding -/

theorem roundQuotient_mul (k : Nat) (hk : 0 < k) :
    roundQuotient (num * k) (den * k) = roundQuotient num den := by
  unfold roundQuotient
  simp only [Nat.mul_div_mul_right _ _ hk, Nat.mul_mod_mul_right]
  have h₁ : den * k < 2 * (num % den * k) ↔ den < 2 * (num % den) := by
    rw [← mul_assoc]; exact Nat.mul_lt_mul_right hk
  have h₂ : 2 * (num % den * k) = den * k ↔ 2 * (num % den) = den := by
    rw [← mul_assoc]; exact Nat.mul_left_inj hk.ne'
  simp only [h₁, h₂]

/-- Rounding depends on the quotient only. -/
theorem roundQuotient_congr (hd : 0 < den) (hd' : 0 < den')
    (h : (num : ℚ) / den = num' / den') : roundQuotient num den = roundQuotient num' den' := by
  have hcross : num * den' = num' * den := by
    rw [div_eq_div_iff (by exact_mod_cast hd.ne') (by exact_mod_cast hd'.ne')] at h
    exact_mod_cast h
  rw [← roundQuotient_mul den' hd', hcross, mul_comm den, roundQuotient_mul den hd]

theorem ofRatio_congr {s : Bool} (hd : 0 < den) (hd' : 0 < den')
    (h : (num : ℚ) / den = num' / den') : ofRatio s num den = ofRatio s num' den' := by
  have hzero : num = 0 ↔ num' = 0 := by
    have : (den : ℚ) ≠ 0 := by exact_mod_cast hd.ne'
    have : (den' : ℚ) ≠ 0 := by exact_mod_cast hd'.ne'
    rw [← Nat.cast_eq_zero (R := ℚ), ← Nat.cast_eq_zero (R := ℚ) (n := num')]
    constructor <;> intro h0 <;> simp_all [eq_comm]
  unfold ofRatio
  by_cases h0 : num = 0
  · rw [if_pos h0, if_pos (hzero.mp h0)]
  · have h0' : num' ≠ 0 := fun h' => h0 (hzero.mpr h')
    have hexp : exponentOf num den = exponentOf num' den' :=
      (exponentOf_fits (Nat.pos_of_ne_zero h0) hd).unique
        (h ▸ exponentOf_fits (Nat.pos_of_ne_zero h0') hd')
    rw [if_neg h0, if_neg h0', hexp]
    simp only
    have hscale (e : Int) : ((scale num den e).1 : ℚ) / (scale num den e).2 =
        (scale num' den' e).1 / (scale num' den' e).2 := by
      rw [scale_ratio, scale_ratio, h]
    rw [roundQuotient_congr (scale_den_pos hd) (scale_den_pos hd') (hscale _)]

/-- A double in the form in which every one is made. -/
def Canonical : Binary64 → Prop
  | .finite _ m e =>
      m < 2 ^ 53 ∧ minExponent ≤ e ∧ e ≤ maxExponent ∧ (e = minExponent ∨ 2 ^ 52 ≤ m)
  | _ => True

theorem roundQuotient_bounds (num den : Nat) :
    num / den ≤ roundQuotient num den ∧ roundQuotient num den ≤ num / den + 1 := by
  unfold roundQuotient
  simp only
  split <;> omega

theorem roundQuotient_one (n : Nat) : roundQuotient n 1 = n := by
  simp [roundQuotient, Nat.mod_one]

/-- A double is the one nearest to itself. -/
theorem ofRatio_exact {s t : Bool} {m : Nat} (hc : Canonical (.finite t m e)) (hm : 0 < m)
    (hd : 0 < den) (h : (num : ℚ) / den = m * 2 ^ e) : ofRatio s num den = .finite s m e := by
  obtain ⟨hup, hmin, hmax, hlow⟩ := hc
  have hpow : (0 : ℚ) < 2 ^ e := by positivity
  have hnum : num ≠ 0 := by
    rintro rfl
    have : (0 : ℚ) < m * 2 ^ e := by positivity
    simp [← h] at this
  have hfits : Fits ((num : ℚ) / den) e := by
    refine ⟨hmin, ?_, hlow.imp_right fun hlow => ?_⟩
    · rw [h, zpow_add₀ (by norm_num), mul_comm]
      exact mul_lt_mul_of_pos_left (by exact_mod_cast hup) hpow
    · rw [h, zpow_add₀ (by norm_num), mul_comm]
      exact mul_le_mul_of_nonneg_right (by exact_mod_cast hlow) hpow.le
  have hexp : exponentOf num den = e :=
    (exponentOf_fits (Nat.pos_of_ne_zero hnum) hd).unique hfits
  have hround : roundQuotient (scale num den e).1 (scale num den e).2 = m := by
    have hratio : ((scale num den e).1 : ℚ) / (scale num den e).2 = (m : Nat) / (1 : Nat) := by
      rw [scale_ratio, h]
      simp [hpow.ne']
    rw [roundQuotient_congr (scale_den_pos hd) Nat.one_pos hratio, roundQuotient_one]
  unfold ofRatio
  rw [if_neg hnum, hexp]
  simp only [hround, assemble, if_neg hup.ne, if_neg (not_lt.mpr hmax)]

/-- Every double made from a quotient has the form of one. -/
theorem ofRatio_canonical (s : Bool) (num : Nat) (hd : 0 < den) :
    (ofRatio s num den).Canonical := by
  unfold ofRatio
  split
  case isTrue => exact ⟨by norm_num, le_rfl, by decide, .inl rfl⟩
  case isFalse hn =>
    have hfits := exponentOf_fits (Nat.pos_of_ne_zero hn) hd
    simp only
    generalize he : exponentOf num den = e at *
    have hup := (scale_lt_iff hd).mpr hfits.upper
    have hlow : e = minExponent ∨ 2 ^ 52 ≤ (scale num den e).1 / (scale num den e).2 :=
      hfits.lower.imp_right (le_scale_iff hd).mpr
    have hround := roundQuotient_bounds (scale num den e).1 (scale num den e).2
    generalize (scale num den e).1 / (scale num den e).2 = q at *
    generalize roundQuotient _ _ = m at *
    simp only [assemble]
    split
    case isTrue hm =>
      split
      case isTrue => trivial
      case isFalse hmax =>
        have := hfits.least
        exact ⟨by norm_num, by omega, by omega, .inr le_rfl⟩
    case isFalse hm =>
      split
      case isTrue => trivial
      case isFalse hmax =>
        exact ⟨by omega, hfits.least, by omega, hlow.imp_right fun h => by omega⟩

theorem ofRatio_of_large {s : Bool} (hn : 0 < num) (hd : 0 < den)
    (h : (2 : ℚ) ^ (1024 : Int) ≤ num / den) : ofRatio s num den = .infinite s := by
  have hexp : maxExponent < exponentOf num den := by
    have hup := h.trans_lt (exponentOf_fits hn hd).upper
    rw [zpow_lt_zpow_iff_right₀ (by norm_num)] at hup
    unfold maxExponent
    omega
  unfold ofRatio
  rw [if_neg hn.ne']
  simp only [assemble]
  rw [if_pos]
  split
  · exact hexp.trans (lt_add_one _)
  · exact hexp

theorem ofRatio_of_small {s : Bool} (hn : 0 < num) (hd : 0 < den)
    (h : (num : ℚ) / den < 2 ^ (-1075 : Int)) : ofRatio s num den = zero s := by
  have hexp : exponentOf num den = minExponent := by
    have hfits := exponentOf_fits hn hd
    refine hfits.lower.resolve_right fun hlow => ?_
    have hlt := hlow.trans_lt h
    rw [zpow_lt_zpow_iff_right₀ (by norm_num)] at hlt
    have hmin := hfits.least
    unfold minExponent at hmin
    omega
  have hround : roundQuotient (scale num den minExponent).1 (scale num den minExponent).2 = 0 := by
    generalize hp : scale num den minExponent = p
    have hpos : 0 < p.2 := hp ▸ scale_den_pos hd
    have hhalf : 2 * p.1 < p.2 := by
      have hpos' : (0 : ℚ) < p.2 := by exact_mod_cast hpos
      have hlt : (p.1 : ℚ) / p.2 < 2⁻¹ := by
        rwa [← hp, scale_ratio, div_lt_iff₀ (by positivity), ← zpow_neg_one,
          ← zpow_add₀ (by norm_num)]
      rw [div_lt_iff₀ hpos'] at hlt
      have : 2 * (p.1 : ℚ) < p.2 := by linarith
      exact_mod_cast this
    have hlt : p.1 < p.2 := by omega
    unfold roundQuotient
    simp only [Nat.div_eq_of_lt hlt, Nat.mod_eq_of_lt hlt]
    exact if_neg (by omega)
  unfold ofRatio
  rw [if_neg hn.ne', hexp]
  simp only [hround]
  rfl

theorem two_pow_le_ten_pow : (2 : ℚ) ^ (1200 : Int) ≤ 10 ^ (400 : Int) := by
  rw [show (1200 : Int) = 3 * 400 by norm_num, zpow_mul]
  exact zpow_le_zpow_left₀ (by norm_num) (by norm_num) (by norm_num)

theorem decimal_ratio (digits : Nat) (e : Int) :
    ((digits * 10 ^ e.toNat : Nat) : ℚ) / (10 ^ (-e).toNat : Nat) = digits * 10 ^ e := by
  rcases Int.le_total 0 e with h | h
  · obtain ⟨k, rfl⟩ := Int.eq_ofNat_of_zero_le h
    simp
  · obtain ⟨k, rfl⟩ : ∃ k : Nat, e = -k := ⟨(-e).toNat, by omega⟩
    simp [div_eq_mul_inv]

/-- The values settled without computing a power are rounded like all others. -/
theorem ofDecimal_eq_ofRatio (s : Bool) (digits : Nat) (e : Int) :
    ofDecimal s digits e = ofRatio s (digits * 10 ^ e.toNat) (10 ^ (-e).toNat) := by
  unfold ofDecimal
  split
  case isTrue h => simp [ofRatio, h]
  case isFalse h =>
    have hpos : 0 < digits * 10 ^ e.toNat := by positivity
    have hden : 0 < 10 ^ (-e).toNat := by positivity
    split
    case isTrue hlarge =>
      refine (ofRatio_of_large hpos hden ?_).symm
      rw [decimal_ratio]
      calc (2 : ℚ) ^ (1024 : Int) ≤ 2 ^ (1200 : Int) :=
            zpow_le_zpow_right₀ (by norm_num) (by norm_num)
        _ ≤ 1 * 10 ^ (400 : Int) := by simpa only [one_mul] using two_pow_le_ten_pow
        _ ≤ digits * 10 ^ e := by
          refine mul_le_mul ?_ (zpow_le_zpow_right₀ (by norm_num) (by omega)) (by positivity)
            (by positivity)
          exact_mod_cast Nat.pos_of_ne_zero h
    case isFalse hlarge =>
      split
      case isTrue hsmall =>
        refine (ofRatio_of_small hpos hden ?_).symm
        rw [decimal_ratio]
        calc (digits : ℚ) * 10 ^ e < 10 ^ ((digits.log2 : Int) + 1) * 10 ^ e := by
              refine mul_lt_mul_of_pos_right ((lt_two_pow_log2 digits).trans_le ?_) (by positivity)
              exact zpow_le_zpow_left₀ (by omega) (by norm_num) (by norm_num)
          _ = 10 ^ ((digits.log2 : Int) + 1 + e) := (zpow_add₀ (by norm_num) _ _).symm
          _ ≤ 10 ^ (-400 : Int) := zpow_le_zpow_right₀ (by norm_num) (by omega)
          _ ≤ 2 ^ (-1200 : Int) := by
              rw [zpow_neg, zpow_neg]
              exact inv_anti₀ (by positivity) two_pow_le_ten_pow
          _ ≤ 2 ^ (-1075 : Int) := zpow_le_zpow_right₀ (by norm_num) (by norm_num)
      case isFalse hsmall =>
        split
        case isTrue hsign => simp [show (-e).toNat = 0 by omega]
        case isFalse hsign => simp [show e.toNat = 0 by omega]

/-- A decimal is rounded by its value only. -/
theorem ofDecimal_congr {s : Bool} {digits digits' : Nat}
    (h : (digits : ℚ) * 10 ^ e = digits' * 10 ^ e') :
    ofDecimal s digits e = ofDecimal s digits' e' := by
  rw [ofDecimal_eq_ofRatio, ofDecimal_eq_ofRatio]
  refine ofRatio_congr (by positivity) (by positivity) ?_
  rw [decimal_ratio, decimal_ratio, h]

theorem ofInt_canonical (i : Int) : (ofInt i).Canonical := ofRatio_canonical _ _ Nat.one_pos

theorem ofDecimal_canonical (s : Bool) (digits : Nat) (e : Int) :
    (ofDecimal s digits e).Canonical := by
  rw [ofDecimal_eq_ofRatio]
  exact ofRatio_canonical _ _ (by positivity)

/-- The sign takes no part in the rounding. -/
theorem ofRatio_negate {s t : Bool} {m : Nat} (h : ofRatio t num den = .finite t m e) :
    ofRatio s num den = .finite s m e := by
  unfold ofRatio at *
  split at h
  case isTrue h0 =>
    cases h
    exact if_pos h0
  case isFalse h0 =>
    rw [if_neg h0]
    simp only [assemble] at *
    split at h <;> split at h <;> cases h <;> simp_all

end VisualScript.Binary64

namespace VisualScript.Decimal

variable {m : Nat} {e : Int}

theorem toBinary64_of_onGrid {x : Binary64} {num den : Nat} {q : Int} {d : Decimal}
    (h : onGrid x num den q = some d) : d.toBinary64 = x := by
  unfold onGrid at h
  simp only at h
  split at h
  case h_1 h₁ h₂ =>
    cases h
    split
    · exact of_decide_eq_true h₁
    · exact of_decide_eq_true h₂
  case h_2 h₁ _ => cases h; exact of_decide_eq_true h₁
  case h_3 _ h₂ => cases h; exact of_decide_eq_true h₂
  case h_4 => cases h

theorem toBinary64_exact {s : Bool} (hc : Binary64.Canonical (.finite s m e)) (hm : 0 < m) :
    (exact m e).toBinary64 = .finite false m e := by
  rw [toBinary64, Binary64.ofDecimal_eq_ofRatio]
  refine Binary64.ofRatio_exact hc hm (by positivity) ?_
  rw [Binary64.decimal_ratio, exact]
  split
  case isTrue h =>
    obtain ⟨k, rfl⟩ := Int.eq_ofNat_of_zero_le h
    simp
  case isFalse h =>
    obtain ⟨k, rfl⟩ : ∃ k : Nat, e = -k := ⟨(-e).toNat, by omega⟩
    simp only [neg_neg, Int.toNat_natCast, Nat.cast_mul, Nat.cast_pow, Nat.cast_ofNat, zpow_neg,
      zpow_natCast, mul_assoc]
    rw [show (10 : ℚ) = 5 * 2 by norm_num, mul_pow, mul_inv, mul_inv_cancel_left₀ (by positivity)]

/-- **The shortest decimal of a double reads back as it.** -/
theorem toBinary64_shortest {s : Bool} (hc : Binary64.Canonical (.finite s m e)) (hm : 0 < m) :
    (shortest m e).toBinary64 = .finite false m e := by
  unfold shortest
  simp only
  generalize hfound : List.findSome? _ _ = found
  cases found with
  | none => exact toBinary64_exact hc hm
  | some d =>
    obtain ⟨n, _, hgrid⟩ := List.exists_of_findSome?_eq_some hfound
    exact toBinary64_of_onGrid hgrid

end VisualScript.Decimal
