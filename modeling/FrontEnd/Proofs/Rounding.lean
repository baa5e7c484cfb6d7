import FrontEnd.Binary64
import Mathlib.Tactic.Ring

/-!
# The order of integers in the 64-bit format

* `roundHalfEven_le`, `le_roundHalfEven`, `roundHalfEven_mono` : a rounded quotient stays on its side of an integer, and
  rounding keeps the order;
* `Binary64.rounded` : a natural number rounded to 53 bits, `rounded_mono`, `rounded_of_le`;
* `Binary64.significand` : these bits as an integer of 53 bits, `position` : what the format stores of it and an exponent,
  `bits_ofInt`;
* `Binary64.lt_ofInt` : numbers in the format are in the order of what is rounded, which need not be that of the numbers.
-/

namespace FrontEnd

/-! ## Rounded quotients -/

section
variable {num num' den k : Nat}

theorem roundHalfEven_le (h : num ≤ k * den) : roundHalfEven num den ≤ k := by
  rcases Nat.eq_zero_or_pos den with rfl | hden
  · obtain rfl : num = 0 := by simpa using h
    simp [roundHalfEven]
  · unfold roundHalfEven
    dsimp only
    have hdiv : num / den ≤ k := Nat.div_le_of_le_mul (by rwa [Nat.mul_comm])
    split
    · exact hdiv
    · -- rounding up from `k` itself would need a rest
      rcases Nat.lt_or_eq_of_le hdiv with hlt | heq
      · exact hlt
      · have hsplit := Nat.div_add_mod num den
        rw [heq, Nat.mul_comm] at hsplit
        omega

theorem le_roundHalfEven (hden : 0 < den) (h : k * den ≤ num) : k ≤ roundHalfEven num den := by
  have hdiv : k ≤ num / den := (Nat.le_div_iff_mul_le hden).2 h
  unfold roundHalfEven
  dsimp only
  split <;> omega

theorem roundHalfEven_mono (hden : 0 < den) (h : num ≤ num') : roundHalfEven num den ≤ roundHalfEven num' den := by
  rcases Nat.lt_or_eq_of_le (Nat.div_le_div_right (c := den) h) with hlt | heq
  · have hsplit := Nat.div_add_mod num den
    have hmod := Nat.mod_lt num hden
    have hleft : num ≤ (num / den + 1) * den := by
      rw [Nat.add_mul, Nat.mul_comm]
      omega
    have hright : num' / den * den ≤ num' := Nat.div_mul_le_self num' den
    exact (roundHalfEven_le hleft).trans (Nat.succ_le_of_lt hlt |>.trans (le_roundHalfEven hden hright))
  · have hsplit := Nat.div_add_mod num den
    have hsplit' := Nat.div_add_mod num' den
    rw [← heq] at hsplit'
    unfold roundHalfEven
    dsimp only
    rw [← heq]
    split <;> split <;> omega

theorem roundHalfEven_one (n : Nat) : roundHalfEven n 1 = n := by simp [roundHalfEven, Nat.mod_one]

end

namespace Binary64

/-! ## Numbers of 53 bits -/

/-- `n`, rounded to its leading 53 bits; a half goes to the even neighbour. -/
def rounded (n : Nat) : Nat := roundHalfEven n (2 ^ (n.log2 - 52)) * 2 ^ (n.log2 - 52)

/-- `n` scaled by a power of two to 53 bits, and rounded. -/
def significand (n : Nat) : Nat := roundHalfEven (n * 2 ^ (52 - n.log2)) (2 ^ (n.log2 - 52))

theorem rounded_of_le {n : Nat} (h : n ≤ 2 ^ 53) : rounded n = n := by
  rcases Nat.lt_or_eq_of_le h with hlt | rfl
  · have hlog : n.log2 - 52 = 0 := by
      rcases Nat.eq_zero_or_pos n with rfl | hpos
      · rfl
      · have := (Nat.log2_lt (by omega)).2 hlt
        omega
    rw [rounded, hlog, Nat.pow_zero, roundHalfEven_one, Nat.mul_one]
  · decide +kernel

section
variable {n : Nat}

theorem leadWeight_mul_le (hn : n ≠ 0) : leadWeight * 2 ^ (n.log2 - 52) ≤ n * 2 ^ (52 - n.log2) := by
  have hlow : 2 ^ n.log2 ≤ n := Nat.log2_self_le hn
  calc leadWeight * 2 ^ (n.log2 - 52) = 2 ^ n.log2 * 2 ^ (52 - n.log2) := by
        rw [show leadWeight = 2 ^ 52 from rfl, ← Nat.pow_add, ← Nat.pow_add]
        congr 1
        omega
    _ ≤ n * 2 ^ (52 - n.log2) := Nat.mul_le_mul_right _ hlow

theorem mul_le_leadWeight_mul : n * 2 ^ (52 - n.log2) ≤ 2 * leadWeight * 2 ^ (n.log2 - 52) := by
  have hhigh : n ≤ 2 ^ (n.log2 + 1) := Nat.lt_log2_self.le
  calc n * 2 ^ (52 - n.log2) ≤ 2 ^ (n.log2 + 1) * 2 ^ (52 - n.log2) := Nat.mul_le_mul_right _ hhigh
    _ = 2 * leadWeight * 2 ^ (n.log2 - 52) := by
        rw [show 2 * leadWeight = 2 ^ 53 from rfl, ← Nat.pow_add, ← Nat.pow_add]
        congr 1
        omega

theorem le_significand (hn : n ≠ 0) : leadWeight ≤ significand n :=
  le_roundHalfEven (Nat.two_pow_pos _) (leadWeight_mul_le hn)

theorem significand_le (n : Nat) : significand n ≤ 2 * leadWeight := roundHalfEven_le mul_le_leadWeight_mul

theorem rounded_mul_leadWeight (n : Nat) : rounded n * leadWeight = significand n * 2 ^ n.log2 := by
  rw [show leadWeight = 2 ^ 52 from rfl, rounded, significand]
  rcases Nat.le_total n.log2 52 with hle | hle
  · rw [Nat.sub_eq_zero_of_le hle, Nat.pow_zero, roundHalfEven_one, roundHalfEven_one, Nat.mul_one, Nat.mul_assoc,
      ← Nat.pow_add, Nat.sub_add_cancel hle]
  · rw [Nat.sub_eq_zero_of_le hle, Nat.pow_zero, Nat.mul_one, Nat.mul_assoc, ← Nat.pow_add, Nat.sub_add_cancel hle]

end

theorem rounded_mono {a b : Nat} (h : a ≤ b) : rounded a ≤ rounded b := by
  rcases Nat.eq_zero_or_pos a with rfl | ha
  · exact Nat.zero_le _
  have hb : b ≠ 0 := by omega
  have hlog : a.log2 ≤ b.log2 := (Nat.le_log2 hb).2 ((Nat.log2_self_le (by omega)).trans h)
  rcases Nat.lt_or_eq_of_le hlog with hlt | heq
  · refine Nat.le_of_mul_le_mul_right ?_ (show 0 < leadWeight by decide)
    rw [rounded_mul_leadWeight, rounded_mul_leadWeight]
    calc significand a * 2 ^ a.log2 ≤ 2 * leadWeight * 2 ^ a.log2 := Nat.mul_le_mul_right _ (significand_le a)
      _ = leadWeight * 2 ^ (a.log2 + 1) := by rw [Nat.pow_succ]; ring
      _ ≤ leadWeight * 2 ^ b.log2 := Nat.mul_le_mul_left _ (Nat.pow_le_pow_right (by decide) hlt)
      _ ≤ significand b * 2 ^ b.log2 := Nat.mul_le_mul_right _ (le_significand hb)
  · rw [rounded, rounded, heq]
    exact Nat.mul_le_mul_right _ (roundHalfEven_mono (Nat.two_pow_pos _) h)

/-! ## The format -/

theorem scaleRatio_natural (n l : Nat) :
    scaleRatio 2 n 1 (-((l : Int) - 52)) = (n * 2 ^ (52 - l), 2 ^ (l - 52)) := by
  unfold scaleRatio
  split
  · have h₁ : (-((l : Int) - 52)).toNat = 52 - l := by omega
    have h₂ : l - 52 = 0 := by omega
    rw [h₁, h₂, Nat.pow_zero, Nat.pow_eq]
  · have h₁ : (- -((l : Int) - 52)).toNat = l - 52 := by omega
    have h₂ : 52 - l = 0 := by omega
    rw [h₁, h₂, Nat.pow_zero, Nat.mul_one, Nat.one_mul, Nat.pow_eq]

theorem normalize_natural {n : Nat} (hn : n ≠ 0) : normalize n 1 =
    if significand n = 2 * leadWeight then (leadWeight, (n.log2 : Int) - 52 + 1)
    else (significand n, (n.log2 : Int) - 52) := by
  have hguess : (n.log2 : Int) - (1 : Nat).log2 - 52 = n.log2 - 52 := by
    rw [show (1 : Nat).log2 = 0 from rfl, Int.natCast_zero, Int.sub_zero]
  have hlow := leadWeight_mul_le hn
  rw [Nat.mul_comm] at hlow
  simp only [normalize, hguess, scaleRatio_natural, if_neg (Nat.not_lt.2 hlow), significand]
  congr

/-- A number of the format as its exponent `l` and its leading bits `m`; where these are one too many, they carry into the
exponent. -/
def position (l m : Nat) : Nat := (l + 1023) * leadWeight + (m - leadWeight)

theorem bits_ofInt {n : Nat} (hn : n ≠ 0) (hlog : n.log2 < 1023) :
    (ofInt n).bits.toNat = position n.log2 (significand n) := by
  have hlow := le_significand hn
  have hhigh := significand_le n
  have hweight : leadWeight = 4503599627370496 := rfl
  rw [ofInt, if_neg (by exact_mod_cast hn), Int.natAbs_natCast, normalize_natural hn, position]
  simp only [if_neg (Int.not_lt.2 (Int.natCast_nonneg n))]
  split
  · next hcarry =>
    have hexponent : ((n.log2 : Int) - 52 + 1 + 1075).toNat = n.log2 + 1024 := by omega
    simp only [ofNormal, hexponent, Nat.sub_self, Nat.add_zero, Nat.toUInt64, UInt64.toNat_ofNat', hcarry, hweight]
    omega
  · have hexponent : ((n.log2 : Int) - 52 + 1075).toNat = n.log2 + 1023 := by omega
    rw [hweight] at hlow hhigh ⊢
    simp only [ofNormal, hexponent, Nat.toUInt64, UInt64.toNat_ofNat', hweight]
    omega

/-! ## Order -/

section
variable {l l' m m' : Nat}

/-- A greater exponent means a greater number, except that `2 * leadWeight` is `leadWeight` with the next exponent. -/
theorem position_lt_of_exponent_lt (hm : m ≤ 2 * leadWeight) (hm' : leadWeight ≤ m') (h : l < l') :
    position l m ≤ position l' m' ∧ (position l m < position l' m' ↔ m * 2 ^ l < m' * 2 ^ l') := by
  obtain ⟨k, rfl⟩ := Nat.exists_eq_add_of_lt h
  have hpow : m' * 2 ^ (l + k + 1) = m' * 2 ^ (k + 1) * 2 ^ l := by ring
  rw [hpow, Nat.mul_lt_mul_right (Nat.two_pow_pos l), position, position]
  rw [show leadWeight = 4503599627370496 from rfl] at *
  cases k with
  | zero => omega
  | succ k =>
    have hlarge : m' * 4 ≤ m' * 2 ^ (k + 1 + 1) := by
      refine Nat.mul_le_mul_left m' ?_
      calc 4 = 2 ^ 2 := rfl
        _ ≤ 2 ^ (k + 1 + 1) := Nat.pow_le_pow_right (by decide) (by omega)
    omega

theorem position_lt_iff (hm : leadWeight ≤ m ∧ m ≤ 2 * leadWeight) (hm' : leadWeight ≤ m' ∧ m' ≤ 2 * leadWeight) :
    position l m < position l' m' ↔ m * 2 ^ l < m' * 2 ^ l' := by
  rcases Nat.lt_trichotomy l l' with hlt | rfl | hgt
  · exact (position_lt_of_exponent_lt hm.2 hm'.1 hlt).2
  · rw [Nat.mul_lt_mul_right (Nat.two_pow_pos l), position, position]
    omega
  · obtain ⟨hle, -⟩ := position_lt_of_exponent_lt hm'.2 hm.1 hgt
    refine iff_of_false (Nat.not_lt.2 hle) (Nat.not_lt.2 ?_)
    calc m' * 2 ^ l' ≤ 2 * leadWeight * 2 ^ l' := Nat.mul_le_mul_right _ hm'.2
      _ = leadWeight * 2 ^ (l' + 1) := by ring
      _ ≤ leadWeight * 2 ^ l := Nat.mul_le_mul_left _ (Nat.pow_le_pow_right (by decide) hgt)
      _ ≤ m * 2 ^ l := Nat.mul_le_mul_right _ hm.1

end

section
variable {a b n : Nat}

theorem log2_lt_of_lt (h : n < 2 ^ 63) : n.log2 < 63 := by
  rcases Nat.eq_zero_or_pos n with rfl | hpos
  · decide
  · exact (Nat.log2_lt (by omega)).2 h

/-- A stored whole number is not negative, and stands where its leading bits do. -/
theorem rank_ofInt (hn : n ≠ 0) (h : n < 2 ^ 63) :
    (ofInt n).isNaN = false ∧ (ofInt n).rank = position n.log2 (significand n) := by
  have hlog := log2_lt_of_lt h
  have hbits := bits_ofInt hn (by omega)
  have hhigh := significand_le n
  have hmagnitude : (ofInt n).magnitudeBits = position n.log2 (significand n) := by
    rw [magnitudeBits, hbits, position, show signWeight = 9223372036854775808 from rfl]
    rw [show leadWeight = 4503599627370496 from rfl] at *
    omega
  have hsign : (ofInt n).isNegative = false := by
    rw [isNegative, decide_eq_false_iff_not, hbits, position, show signWeight = 9223372036854775808 from rfl]
    rw [show leadWeight = 4503599627370496 from rfl] at *
    omega
  have hexponent : (ofInt n).exponentField ≠ 2047 := by
    rw [exponentField, hmagnitude, position]
    rw [show leadWeight = 4503599627370496 from rfl] at *
    omega
  constructor
  · simp [isNaN, hexponent]
  · rw [rank, hsign, hmagnitude]
    rfl

theorem rank_ofInt_zero : (ofInt (0 : Nat)).isNaN = false ∧ (ofInt (0 : Nat)).rank = 0 := by
  constructor <;> rfl

theorem rounded_pos (hn : n ≠ 0) : 0 < rounded n := by
  have hone : rounded 1 ≤ rounded n := rounded_mono (Nat.one_le_iff_ne_zero.2 hn)
  rwa [rounded_of_le (by decide)] at hone

/-- Stored numbers are in the order of the rounded ones. -/
theorem lt_ofInt (ha : a < 2 ^ 63) (hb : b < 2 ^ 63) : (ofInt a).lt (ofInt b) ↔ rounded a < rounded b := by
  have hzero : rounded 0 = 0 := rfl
  rcases Nat.eq_zero_or_pos a with rfl | hapos <;> rcases Nat.eq_zero_or_pos b with rfl | hbpos
  · simp [lt]
  · obtain ⟨hnan, hrank⟩ := rank_ofInt (by omega) hb
    have hlow := le_significand (n := b) (by omega)
    simp only [lt, rank_ofInt_zero, hnan, hrank, hzero, position]
    rw [show leadWeight = 4503599627370496 from rfl] at *
    have hpos := rounded_pos (n := b) (by omega)
    simp only [Bool.not_false, Bool.true_and, decide_eq_true_eq]
    omega
  · obtain ⟨hnan, hrank⟩ := rank_ofInt (by omega) ha
    simp only [lt, rank_ofInt_zero, hnan, hrank, hzero]
    simp only [Bool.not_false, Bool.true_and, decide_eq_true_eq]
    omega
  · obtain ⟨hnan, hrank⟩ := rank_ofInt (by omega) ha
    obtain ⟨hnan', hrank'⟩ := rank_ofInt (by omega) hb
    simp only [lt, hnan, hnan', hrank, hrank', Bool.not_false, Bool.true_and, decide_eq_true_eq, Int.ofNat_lt]
    rw [position_lt_iff ⟨le_significand (by omega), significand_le a⟩ ⟨le_significand (by omega), significand_le b⟩,
      ← rounded_mul_leadWeight, ← rounded_mul_leadWeight, Nat.mul_lt_mul_right (by decide)]

end

end Binary64
end FrontEnd
