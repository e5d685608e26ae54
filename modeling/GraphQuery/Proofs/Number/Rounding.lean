import GraphQuery.Number.Basic
import Mathlib.Order.Compare
import Mathlib.Tactic.Ring

/-! Whole numbers as doubles. A double has 53 significant bits, so that the double of a whole number is the
number itself below `2 ^ 53`, and above it the nearest multiple of a power of two. Ranks of doubles are
ordered as these nearest numbers are: rounding never turns the order of two numbers round, but it may make
them one. -/

namespace GraphQuery.Binary64

variable {m n den : Nat}

/-! ### Rounded quotients -/

theorem divNearest_one (n : Nat) : divNearest n 1 = n := by
  simp [divNearest, Nat.mod_one]

theorem divNearest_mul (n : Nat) (hden : 0 < den) : divNearest (n * den) den = n := by
  simp [divNearest, hden]

/-- Rounded quotients grow with what is divided. -/
theorem divNearest_mono (h : m ≤ n) : divNearest m den ≤ divNearest n den := by
  have hquotient : m / den ≤ n / den := Nat.div_le_div_right h
  unfold divNearest
  dsimp only
  by_cases hsame : m / den = n / den
  · have hm := Nat.div_add_mod m den
    have hn := Nat.div_add_mod n den
    rw [hsame] at hm ⊢
    have hrest : m % den ≤ n % den := by omega
    split <;> split <;> omega
  · split <;> split <;> omega

/-- A rounded quotient is at most half a unit off. -/
theorem divNearest_close (n : Nat) (hden : 0 < den) :
    2 * n ≤ 2 * (divNearest n den * den) + den ∧ 2 * (divNearest n den * den) ≤ 2 * n + den := by
  have hn : n / den * den + n % den = n := Nat.div_add_mod' n den
  have hrest : n % den < den := Nat.mod_lt n hden
  have hnext : (n / den + 1) * den = n / den * den + den := Nat.add_one_mul _ _
  unfold divNearest
  dsimp only
  split <;> omega

/-! ### Nearest whole numbers -/

/-- What the last of the 53 significant bits of a whole number counts. -/
def wholeUnit (n : Nat) : Nat :=
  2 ^ (n.log2 - 52)

/-- The whole number of 53 significant bits that is nearest to a given one, of two the one whose last bit is zero. -/
def nearestWhole (n : Nat) : Nat :=
  divNearest n (wholeUnit n) * wholeUnit n

theorem wholeUnit_pos (n : Nat) : 0 < wholeUnit n :=
  Nat.two_pow_pos _

theorem nearestWhole_close (n : Nat) :
    2 * n ≤ 2 * nearestWhole n + wholeUnit n ∧ 2 * nearestWhole n ≤ 2 * n + wholeUnit n :=
  divNearest_close n (wholeUnit_pos n)

/-- Numbers of at most 53 bits are their own nearest ones. -/
theorem nearestWhole_of_lt (h : n < 2 ^ 53) : nearestWhole n = n := by
  have hlog : n.log2 ≤ 52 := by
    by_cases hn : n = 0
    · rw [hn]
      decide
    · exact Nat.le_of_lt_succ ((Nat.log2_lt hn).mpr h)
  have hunit : wholeUnit n = 1 := by
    rw [wholeUnit, Nat.sub_eq_zero_of_le hlog]
    rfl
  rw [nearestWhole, hunit, divNearest_one, Nat.mul_one]

theorem pow_log2_bounds (hn : n ≠ 0) : 2 ^ n.log2 ≤ n ∧ n ≤ 2 ^ (n.log2 + 1) :=
  ⟨Nat.log2_self_le hn, Nat.le_of_lt Nat.lt_log2_self⟩

/-- Rounding stays within the powers of two around a number. -/
theorem nearestWhole_bounds (hn : n ≠ 0) :
    2 ^ n.log2 ≤ nearestWhole n ∧ nearestWhole n ≤ 2 ^ (n.log2 + 1) := by
  obtain ⟨hlow, hhigh⟩ := pow_log2_bounds hn
  have hpower (e : Nat) (he : n.log2 ≤ e) :
      divNearest (2 ^ e) (wholeUnit n) * wholeUnit n = 2 ^ e := by
    have hsplit : 2 ^ e = 2 ^ (e - (n.log2 - 52)) * wholeUnit n := by
      rw [wholeUnit, ← Nat.pow_add]
      congr 1
      omega
    rw [hsplit, divNearest_mul _ (wholeUnit_pos n)]
  constructor
  · calc 2 ^ n.log2 = divNearest (2 ^ n.log2) (wholeUnit n) * wholeUnit n := (hpower _ (Nat.le_refl _)).symm
      _ ≤ nearestWhole n := Nat.mul_le_mul_right _ (divNearest_mono hlow)
  · calc nearestWhole n ≤ divNearest (2 ^ (n.log2 + 1)) (wholeUnit n) * wholeUnit n :=
          Nat.mul_le_mul_right _ (divNearest_mono hhigh)
      _ = 2 ^ (n.log2 + 1) := hpower _ (Nat.le_succ _)

theorem nearestWhole_pos (hn : n ≠ 0) : 0 < nearestWhole n :=
  Nat.lt_of_lt_of_le (Nat.two_pow_pos _) (nearestWhole_bounds hn).1

/-- Rounding never turns two numbers round. -/
theorem nearestWhole_mono (h : m ≤ n) : nearestWhole m ≤ nearestWhole n := by
  by_cases hm : m = 0
  · rw [hm, nearestWhole_of_lt (Nat.two_pow_pos 53)]
    exact Nat.zero_le _
  have hn : n ≠ 0 := by omega
  have hlog : m.log2 ≤ n.log2 := by
    rw [Nat.le_log2 hn]
    exact (Nat.log2_self_le hm).trans h
  rcases Nat.eq_or_lt_of_le hlog with hsame | hless
  · rw [nearestWhole, nearestWhole, wholeUnit, wholeUnit, hsame]
    exact Nat.mul_le_mul_right _ (divNearest_mono h)
  · calc nearestWhole m ≤ 2 ^ (m.log2 + 1) := (nearestWhole_bounds hm).2
      _ ≤ 2 ^ n.log2 := Nat.pow_le_pow_right (by decide) hless
      _ ≤ nearestWhole n := (nearestWhole_bounds hn).1

/-! ### Bits -/

/-- The significand of bits, moved as far as their exponent says. -/
def scaled (bits : Nat) : Nat :=
  (2 ^ 52 + bits % 2 ^ 52) * 2 ^ (bits / 2 ^ 52)

theorem scaled_strictMono : StrictMono scaled := by
  intro bits other h
  have hbits := Nat.div_add_mod bits (2 ^ 52)
  have hother := Nat.div_add_mod other (2 ^ 52)
  have hrest : bits % 2 ^ 52 < 2 ^ 52 := Nat.mod_lt _ (by decide)
  have hexponent : bits / 2 ^ 52 ≤ other / 2 ^ 52 := Nat.div_le_div_right (Nat.le_of_lt h)
  unfold scaled
  rcases Nat.eq_or_lt_of_le hexponent with hsame | hless
  · rw [hsame]
    rw [hsame] at hbits
    exact Nat.mul_lt_mul_of_pos_right (by omega) (Nat.two_pow_pos _)
  · calc (2 ^ 52 + bits % 2 ^ 52) * 2 ^ (bits / 2 ^ 52) < 2 ^ 53 * 2 ^ (bits / 2 ^ 52) :=
          Nat.mul_lt_mul_of_pos_right (by omega) (Nat.two_pow_pos _)
      _ = 2 ^ 52 * 2 ^ (bits / 2 ^ 52 + 1) := by ring
      _ ≤ 2 ^ 52 * 2 ^ (other / 2 ^ 52) := Nat.mul_le_mul_left _ (Nat.pow_le_pow_right (by decide) hless)
      _ ≤ (2 ^ 52 + other % 2 ^ 52) * 2 ^ (other / 2 ^ 52) := Nat.mul_le_mul_right _ (Nat.le_add_right _ _)

/-- An exponent and a significand of 53 bits, or the next power of two, give bits of their own. -/
theorem scaled_add {significand : Nat} (exponent : Nat) (hlow : 2 ^ 52 ≤ significand)
    (hhigh : significand ≤ 2 ^ 53) :
    scaled (exponent * 2 ^ 52 + significand) = significand * 2 ^ (exponent + 1) := by
  rcases Nat.eq_or_lt_of_le hhigh with rfl | hless
  · have hdiv : (exponent * 2 ^ 52 + 2 ^ 53) / 2 ^ 52 = exponent + 2 := by omega
    have hmod : (exponent * 2 ^ 52 + 2 ^ 53) % 2 ^ 52 = 0 := by omega
    rw [scaled, hdiv, hmod]
    ring
  · have hdiv : (exponent * 2 ^ 52 + significand) / 2 ^ 52 = exponent + 1 := by omega
    have hmod : (exponent * 2 ^ 52 + significand) % 2 ^ 52 = significand - 2 ^ 52 := by omega
    rw [scaled, hdiv, hmod, Nat.add_sub_cancel' hlow]

/-- The 53 significant bits of a whole number. -/
def significand (n : Nat) : Nat :=
  divNearest (n * 2 ^ (52 - n.log2)) (2 ^ (n.log2 - 52))

theorem significand_bounds (hn : n ≠ 0) : 2 ^ 52 ≤ significand n ∧ significand n ≤ 2 ^ 53 := by
  obtain ⟨hlow, hhigh⟩ := pow_log2_bounds hn
  have hpower (e : Nat) :
      divNearest (2 ^ (n.log2 + e) * 2 ^ (52 - n.log2)) (2 ^ (n.log2 - 52)) = 2 ^ (52 + e) := by
    have hsplit : 2 ^ (n.log2 + e) * 2 ^ (52 - n.log2) = 2 ^ (52 + e) * 2 ^ (n.log2 - 52) := by
      rw [← Nat.pow_add, ← Nat.pow_add]
      congr 1
      omega
    rw [hsplit, divNearest_mul _ (Nat.two_pow_pos _)]
  constructor
  · calc 2 ^ 52 = divNearest (2 ^ n.log2 * 2 ^ (52 - n.log2)) (2 ^ (n.log2 - 52)) := (hpower 0).symm
      _ ≤ significand n := divNearest_mono (Nat.mul_le_mul_right _ hlow)
  · calc significand n ≤ divNearest (2 ^ (n.log2 + 1) * 2 ^ (52 - n.log2)) (2 ^ (n.log2 - 52)) :=
          divNearest_mono (Nat.mul_le_mul_right _ hhigh)
      _ = 2 ^ 53 := hpower 1

/-- The bits of a whole number hold its significand behind its exponent, which counts from 1022. -/
theorem roundBits_whole (hn : n ≠ 0) :
    roundBits n 1 = 1022 * 2 ^ 52 + (n.log2 * 2 ^ 52 + significand n) := by
  have hexponent : binaryExponent n 1 = n.log2 := by
    have hone : Nat.log2 1 = 0 := rfl
    have hle : 2 ^ n.log2 ≤ n := Nat.log2_self_le hn
    simp [binaryExponent, hone, hle]
  have hscale : max (-1074) ((n.log2 : Int) - 52) = (n.log2 : Int) - 52 := by omega
  have hdown : (-((n.log2 : Int) - 52)).toNat = 52 - n.log2 := by omega
  have hup : ((n.log2 : Int) - 52).toNat = n.log2 - 52 := by omega
  have hbias : ((n.log2 : Int) - 52 + 1074).toNat = 1022 + n.log2 := by omega
  simp only [roundBits, if_neg hn, hexponent, hscale, hdown, hup, hbias, Nat.one_mul]
  rw [← Nat.add_assoc, ← Nat.add_mul]
  rfl

/-- The bits of a whole number are those of the nearest number of 53 bits. -/
theorem scaled_whole (hn : n ≠ 0) : scaled (n.log2 * 2 ^ 52 + significand n) = nearestWhole n * 2 ^ 53 := by
  obtain ⟨hlow, hhigh⟩ := significand_bounds hn
  rw [scaled_add _ hlow hhigh]
  rcases Nat.le_total n.log2 52 with hsmall | hlarge
  · have hunit : n.log2 - 52 = 0 := Nat.sub_eq_zero_of_le hsmall
    have hexponent : 52 - n.log2 + (n.log2 + 1) = 53 := by omega
    rw [significand, nearestWhole, wholeUnit, hunit, Nat.pow_zero, divNearest_one, divNearest_one, Nat.mul_one,
      Nat.mul_assoc, ← Nat.pow_add, hexponent]
  · have hunit : 52 - n.log2 = 0 := Nat.sub_eq_zero_of_le hlarge
    have hexponent : n.log2 + 1 = n.log2 - 52 + 53 := by omega
    rw [significand, nearestWhole, wholeUnit, hunit, Nat.pow_zero, Nat.mul_one, hexponent, Nat.pow_add,
      Nat.mul_assoc]

theorem roundBits_pos (hn : n ≠ 0) : 0 < roundBits n 1 := by
  rw [roundBits_whole hn]
  omega

/-- Whole numbers have their bits in the order of the nearest numbers of 53 bits. -/
theorem roundBits_lt_iff (m n : Nat) : roundBits m 1 < roundBits n 1 ↔ nearestWhole m < nearestWhole n := by
  have hzero : nearestWhole 0 = 0 := nearestWhole_of_lt (Nat.two_pow_pos 53)
  have hnone : roundBits 0 1 = 0 := rfl
  by_cases hn : n = 0
  · rw [hn, hzero, hnone]
    simp only [Nat.not_lt_zero]
  by_cases hm : m = 0
  · rw [hm, hzero, hnone]
    exact iff_of_true (roundBits_pos hn) (nearestWhole_pos hn)
  rw [roundBits_whole hm, roundBits_whole hn, Nat.add_lt_add_iff_left, ← scaled_strictMono.lt_iff_lt,
    scaled_whole hm, scaled_whole hn]
  exact Nat.mul_lt_mul_right (Nat.two_pow_pos _)

/-- Whole numbers below `2 ^ 1023` have finite bits. -/
theorem roundBits_lt (h : n.log2 < 1023) : roundBits n 1 < 0x7FF0000000000000 := by
  by_cases hn : n = 0
  · rw [hn]
    decide
  · have hhigh := (significand_bounds hn).2
    rw [roundBits_whole hn]
    omega

/-! ### Integers -/

/-- The integer of 53 significant bits that is nearest to a given one. -/
def nearestInt (i : Int) : Int :=
  if i < 0 then -(nearestWhole i.natAbs) else nearestWhole i.natAbs

theorem nearestInt_of_lt {i : Int} (h : i.natAbs < 2 ^ 53) : nearestInt i = i := by
  rw [nearestInt, nearestWhole_of_lt h]
  split <;> omega

theorem nearestInt_mono {i j : Int} (h : i ≤ j) : nearestInt i ≤ nearestInt j := by
  unfold nearestInt
  by_cases hi : i < 0
  · by_cases hj : j < 0
    · have hle : nearestWhole j.natAbs ≤ nearestWhole i.natAbs := nearestWhole_mono (by omega)
      rw [if_pos hi, if_pos hj]
      omega
    · rw [if_pos hi, if_neg hj]
      omega
  · have hle : nearestWhole i.natAbs ≤ nearestWhole j.natAbs := nearestWhole_mono (by omega)
    rw [if_neg hi, if_neg (by omega)]
    omega

/-- An integer that has no more than 53 bits is nearest to itself alone. -/
theorem eq_of_nearestInt {i j : Int} (hi : i.natAbs < 2 ^ 53) (h : nearestInt j = nearestInt i) : j = i := by
  rw [nearestInt_of_lt hi] at h
  by_cases hj : j.natAbs < 2 ^ 53
  · rwa [nearestInt_of_lt hj] at h
  · have hlarge : nearestWhole (2 ^ 53) ≤ nearestWhole j.natAbs := nearestWhole_mono (Nat.le_of_not_lt hj)
    have hpower : nearestWhole (2 ^ 53) = 2 ^ 53 := by decide
    rw [nearestInt] at h
    split at h <;> omega

theorem rank_ofInt {i : Int} (h : i.natAbs.log2 < 1023) :
    (ofInt i).rank = if i < 0 then -(roundBits i.natAbs 1 : Int) else roundBits i.natAbs 1 := by
  rw [ofInt, ofBits?, dif_pos (roundBits_lt h), Option.getD_some, rank]
  simp only [decide_eq_true_eq]

/-- The doubles of integers stand in the order of the nearest integers of 53 bits. -/
theorem rank_ofInt_lt_iff {i j : Int} (hi : i.natAbs.log2 < 1023) (hj : j.natAbs.log2 < 1023) :
    (ofInt i).rank < (ofInt j).rank ↔ nearestInt i < nearestInt j := by
  have hij := roundBits_lt_iff i.natAbs j.natAbs
  have hji := roundBits_lt_iff j.natAbs i.natAbs
  have hpos {k : Int} (hk : k < 0) : 0 < roundBits k.natAbs 1 ∧ 0 < nearestWhole k.natAbs :=
    ⟨roundBits_pos (by omega), nearestWhole_pos (by omega)⟩
  rw [rank_ofInt hi, rank_ofInt hj, nearestInt, nearestInt]
  by_cases hi : i < 0
  · have hi' := hpos hi
    by_cases hj : j < 0
    · rw [if_pos hi, if_pos hj, if_pos hi, if_pos hj]
      omega
    · rw [if_pos hi, if_neg hj, if_pos hi, if_neg hj]
      omega
  · by_cases hj : j < 0
    · have hj' := hpos hj
      rw [if_neg hi, if_pos hj, if_neg hi, if_pos hj]
      omega
    · rw [if_neg hi, if_neg hj, if_neg hi, if_neg hj]
      omega

end GraphQuery.Binary64
