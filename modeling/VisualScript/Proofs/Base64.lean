import VisualScript.Text.Base64
import Mathlib.Data.List.Basic

/-!
# Proofs — Base64

Decoding undoes encoding (`decode?_encode`), and only the characters of the alphabet and the
padding can be decoded (`inAlphabet_of_decode?`).
-/

namespace VisualScript.Text.Base64

theorem value?_digit : ∀ n < 64, value? (digit n) = some n := by decide +kernel

theorem digit_ne : ∀ n < 64, digit n ≠ '=' := by decide +kernel

/-- Four digits stand for three bytes. -/
theorem decode?_group {i j k l : Nat} (hi : i < 64) (hj : j < 64) (hk : k < 64) (hl : l < 64)
    {rest : List Char} {bytes : List UInt8} (hrest : decode? rest = some bytes)
    (hpad : rest.all (· == '=') = true → bytes = []) :
    decode? (digit i :: digit j :: digit k :: digit l :: rest) =
      some (UInt8.ofNat ((i * 262144 + j * 4096 + k * 64 + l) / 65536) ::
        UInt8.ofNat ((i * 262144 + j * 4096 + k * 64 + l) / 256 % 256) ::
        UInt8.ofNat ((i * 262144 + j * 4096 + k * 64 + l) % 256) :: bytes) := by
  rw [decode?.eq_4 _ _ _ _ _ (fun _ h => absurd h (digit_ne l hl))
    (fun h => absurd h (digit_ne l hl)), value?_digit i hi, value?_digit j hj, value?_digit k hk,
    value?_digit l hl]
  simp only [bind, Option.bind, hrest, pure]
  split
  case isTrue h => rw [hpad h]
  case isFalse => rfl

/-- No text of bytes consists of padding only. -/
theorem encode_padding : ∀ {bytes : List UInt8}, (encode bytes).all (· == '=') = true → bytes = []
  | [], _ => rfl
  | [a], h => by
    have ha := a.toNat_lt
    simp only [encode, List.all_cons, Bool.and_eq_true, beq_iff_eq] at h
    exact absurd h.1 (digit_ne _ (by omega))
  | [a, b], h => by
    have ha := a.toNat_lt
    have hb := b.toNat_lt
    simp only [encode, List.all_cons, Bool.and_eq_true, beq_iff_eq] at h
    exact absurd h.1 (digit_ne _ (by omega))
  | a :: b :: c :: rest, h => by
    have ha := a.toNat_lt
    have hb := b.toNat_lt
    have hc := c.toNat_lt
    simp only [encode, List.all_cons, Bool.and_eq_true, beq_iff_eq] at h
    exact absurd h.1 (digit_ne _ (by omega))

theorem ofNat_eq {n : Nat} {a : UInt8} (h : n = a.toNat) : UInt8.ofNat n = a := by
  rw [h, UInt8.ofNat_toNat]

theorem decode?_encode : ∀ bytes : List UInt8, decode? (encode bytes) = some bytes
  | [] => rfl
  | [a] => by
    have ha := a.toNat_lt
    rw [encode, decode?, value?_digit _ (by omega), value?_digit _ (by omega)]
    simp only [bind, Option.bind, pure]
    rw [ofNat_eq]
    omega
  | [a, b] => by
    have ha := a.toNat_lt
    have hb := b.toNat_lt
    rw [encode, decode?.eq_3 _ _ _ (digit_ne _ (by omega)), value?_digit _ (by omega),
      value?_digit _ (by omega), value?_digit _ (by omega)]
    simp only [bind, Option.bind, pure]
    rw [ofNat_eq, ofNat_eq]
    all_goals omega
  | a :: b :: c :: rest => by
    have ha := a.toNat_lt
    have hb := b.toNat_lt
    have hc := c.toNat_lt
    rw [encode, decode?_group (by omega) (by omega) (by omega) (by omega) (decode?_encode rest)
      encode_padding, ofNat_eq, ofNat_eq, ofNat_eq]
    all_goals omega

/-- A character of the alphabet, or padding. -/
def InAlphabet (c : Char) : Prop := c ∈ alphabet ∨ c = '='

theorem inAlphabet_of_value? {c : Char} {n : Nat} (h : value? c = some n) : InAlphabet c := by
  refine .inl (by_contra fun hc => ?_)
  rw [value?, List.idxOf?_eq_none_iff.mpr hc] at h
  cases h

theorem inAlphabet_of_decode? {cs : List Char} {bytes : List UInt8} (h : decode? cs = some bytes) :
    ∀ c ∈ cs, InAlphabet c := by
  induction cs using decode?.induct generalizing bytes with
  | case1 => simp
  | case2 a b =>
    simp only [decode?, Option.bind_eq_bind, Option.bind_eq_some_iff] at h
    obtain ⟨_, ha, _, hb, -⟩ := h
    simp only [List.mem_cons, List.not_mem_nil, or_false]
    rintro c (rfl | rfl | rfl | rfl)
    exacts [inAlphabet_of_value? ha, inAlphabet_of_value? hb, .inr rfl, .inr rfl]
  | case3 a b c hc =>
    rw [decode?.eq_3 _ _ _ hc] at h
    simp only [Option.bind_eq_bind, Option.bind_eq_some_iff] at h
    obtain ⟨_, ha, _, hb, _, hc, -⟩ := h
    simp only [List.mem_cons, List.not_mem_nil, or_false]
    rintro c (rfl | rfl | rfl | rfl)
    exacts [inAlphabet_of_value? ha, inAlphabet_of_value? hb, inAlphabet_of_value? hc, .inr rfl]
  | case4 a b c d rest h₁ h₂ ih =>
    rw [decode?.eq_4 _ _ _ _ _ h₁ h₂] at h
    simp only [Option.bind_eq_bind, Option.bind_eq_some_iff] at h
    obtain ⟨_, ha, _, hb, _, hc, _, hd, hrest⟩ := h
    have hmem : ∀ c ∈ rest, InAlphabet c := by
      split at hrest
      case isTrue hpad => exact fun c hc => .inr (by simpa using List.all_eq_true.mp hpad c hc)
      case isFalse =>
        obtain ⟨bytes, hbytes, -⟩ := Option.bind_eq_some_iff.mp hrest
        exact ih hbytes
    simp only [List.mem_cons]
    rintro c (rfl | rfl | rfl | rfl | hc)
    exacts [inAlphabet_of_value? ha, inAlphabet_of_value? hb, inAlphabet_of_value? hc,
      inAlphabet_of_value? hd, hmem _ hc]
  | case5 cs h₁ h₂ h₃ h₄ =>
    rw [decode?.eq_5 _ h₁ h₂ h₃ h₄] at h
    cases h

end VisualScript.Text.Base64
