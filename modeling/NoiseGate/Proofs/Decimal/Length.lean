import NoiseGate.Decimal.Shortest
import NoiseGate.Proofs.Text.Decimal

/-!
# Lengths of decimals

The magnitudes that arithmetic gives lie in the range of the format, so their decimals have a bounded
length. The bound is far from sharp. It does not rely on the digits being the fewest that read back.
-/

namespace NoiseGate

private theorem pow_mono (base m n : Nat) (hb : 0 < base) (h : m ≤ n) :
    Nat.pow base m ≤ Nat.pow base n := Nat.pow_le_pow_right hb h

theorem roundDiv_le (num den bound : Nat) (h : num / den < bound) : roundDiv num den ≤ bound := by
  unfold roundDiv
  dsimp only
  split <;> omega

namespace Magnitude

/-- Within the range of the format, with a bit to spare. -/
structure Fits (a : Magnitude) : Prop where
  mantissa : a.mantissa ≤ Nat.pow 2 54
  exponent : a.exponent ≤ maxExponent

theorem fits_zero : zero.Fits := ⟨by decide, by decide⟩

theorem scaled_lt (num den : Nat) (e : Int) (he : (num.log2 : Int) - den.log2 - 53 ≤ e) :
    (num <<< (-e).toNat) / (den <<< e.toNat) < Nat.pow 2 54 := by
  by_cases hden : den = 0
  · subst hden
    rw [Nat.zero_shiftLeft, Nat.div_zero]
    decide
  have hpos : 0 < den <<< e.toNat := by
    rw [Nat.shiftLeft_eq]
    exact Nat.mul_pos (Nat.pos_of_ne_zero hden) (Nat.two_pow_pos _)
  rw [Nat.div_lt_iff_lt_mul hpos, Nat.shiftLeft_eq, Nat.shiftLeft_eq]
  have hnum : num * Nat.pow 2 (-e).toNat < Nat.pow 2 (num.log2 + 1 + (-e).toNat) := by
    have hlog : num < Nat.pow 2 (num.log2 + 1) := Nat.lt_log2_self
    calc num * Nat.pow 2 (-e).toNat < Nat.pow 2 (num.log2 + 1) * Nat.pow 2 (-e).toNat :=
          Nat.mul_lt_mul_of_pos_right hlog (Nat.two_pow_pos _)
      _ = Nat.pow 2 (num.log2 + 1 + (-e).toNat) := (Nat.pow_add 2 _ _).symm
  have hle : Nat.pow 2 (num.log2 + 1 + (-e).toNat) ≤ Nat.pow 2 (54 + (den.log2 + e.toNat)) :=
    pow_mono 2 _ _ (by decide) (by omega)
  have hlog : Nat.pow 2 den.log2 ≤ den := Nat.log2_self_le hden
  calc num * Nat.pow 2 (-e).toNat < Nat.pow 2 (54 + (den.log2 + e.toNat)) :=
        Nat.lt_of_lt_of_le hnum hle
    _ = Nat.pow 2 54 * Nat.pow 2 (den.log2 + e.toNat) := Nat.pow_add 2 _ _
    _ = Nat.pow 2 54 * (Nat.pow 2 den.log2 * Nat.pow 2 e.toNat) :=
        congrArg (Nat.pow 2 54 * ·) (Nat.pow_add 2 _ _)
    _ ≤ Nat.pow 2 54 * (den * Nat.pow 2 e.toNat) :=
        Nat.mul_le_mul_left _ (Nat.mul_le_mul_right _ hlog)

theorem fits_of_carry (m : Nat) (e : Int) (a : Magnitude) (hm : m ≤ Nat.pow 2 54)
    (h : (let (m, e) := if m = 1 <<< 53 then (1 <<< 52, e + 1) else (m, e)
      if maxExponent < e then none else some (⟨m, e⟩ : Magnitude)) = some a) : a.Fits := by
  have hle : (1 <<< 52) ≤ Nat.pow 2 54 := by decide
  by_cases hcarry : m = 1 <<< 53
  · rw [if_pos hcarry] at h
    obtain ⟨hexponent, ha⟩ := Option.ite_none_left_eq_some.mp h
    cases ha
    exact ⟨hle, Int.not_lt.mp hexponent⟩
  · rw [if_neg hcarry] at h
    obtain ⟨hexponent, ha⟩ := Option.ite_none_left_eq_some.mp h
    cases ha
    exact ⟨hm, Int.not_lt.mp hexponent⟩

theorem fits_round (num den : Nat) (a : Magnitude) (h : round num den = some a) : a.Fits := by
  unfold round at h
  by_cases hnum : num = 0
  · rw [if_pos hnum] at h
    cases h
    exact fits_zero
  · rw [if_neg hnum] at h
    refine fits_of_carry _ _ a (roundDiv_le _ _ _ (scaled_lt num den _ ?_)) h
    split <;> omega

theorem fits_mul (a b c : Magnitude) (h : a.mul b = some c) : c.Fits := fits_round _ _ _ h

theorem fits_div (a b c : Magnitude) (h : a.div b = some c) : c.Fits := fits_round _ _ _ h

theorem fits_scale (a : Magnitude) (power : Int) (b : Magnitude) (ha : a.Fits)
    (h : a.scale power = some b) : b.Fits := by
  fun_induction scale a power with
  | case1 a power hzero =>
    cases h
    exact ha
  | case2 => cases h
  | case3 a power hzero hle hpos =>
    obtain ⟨tens, -, hmul⟩ := Option.bind_eq_some_iff.mp h
    exact fits_mul a tens b hmul
  | case4 a power hzero hle hneg hge =>
    obtain ⟨tens, -, hdiv⟩ := Option.bind_eq_some_iff.mp h
    exact fits_div a tens b hdiv
  | case5 a power hzero hle hneg hlt ih =>
    obtain ⟨tens, -, h⟩ := Option.bind_eq_some_iff.mp h
    obtain ⟨quotient, hdiv, hscale⟩ := Option.bind_eq_some_iff.mp h
    exact ih quotient (fits_div a tens quotient hdiv) hscale

/-- The power of ten of the first digit of the greatest numerator. -/
def ratioPower : Nat := 308

private theorem mul_pow_lt (m k most bound : Nat) (hm : m ≤ Nat.pow 2 54) (hk : k ≤ most)
    (hb : Nat.pow 2 54 * Nat.pow 2 most < bound) : m * Nat.pow 2 k < bound :=
  Nat.lt_of_le_of_lt (Nat.mul_le_mul hm (pow_mono 2 k most (by decide) hk)) hb

theorem Fits.ratio_lt {a : Magnitude} (h : a.Fits) : a.ratio.1 < Nat.pow 10 (ratioPower + 1) := by
  have hratio : a.ratio.1 = a.mantissa * Nat.pow 2 a.exponent.toNat := Nat.shiftLeft_eq _ _
  rw [hratio]
  apply mul_pow_lt _ _ maxExponent.toNat _ h.mantissa (Int.toNat_le_toNat h.exponent)
  decide +kernel

theorem leadingZeros_le (num den fuel k : Nat) : leadingZeros num den fuel k ≤ k + fuel := by
  induction fuel generalizing k with
  | zero => exact Nat.le_refl k
  | succ fuel ih =>
    have hlater := ih (k + 1)
    unfold leadingZeros
    split <;> omega

theorem leadingPower_bounds (num den : Nat) (hn : num < Nat.pow 10 (ratioPower + 1)) :
    -401 ≤ leadingPower num den ∧ leadingPower num den ≤ ratioPower := by
  unfold leadingPower
  split
  · have hquotient := Nat.lt_of_le_of_lt (Nat.div_le_self num den) hn
    have hlength := decimal_length_le (num / den) ratioPower hquotient
    omega
  · have hzeros := leadingZeros_le num den 400 1
    omega

theorem nearestMultiple_le (a : Magnitude) (power : Int) (n : Nat)
    (h : a.nearestMultiple power = some n) : n ≤ a.ratio.1 * Nat.pow 10 (-power).toNat + 1 := by
  let num := a.ratio.1 * Nat.pow 10 (-power).toNat
  let den := a.ratio.2 * Nat.pow 10 power.toNat
  have hbelow : num / den ≤ num := Nat.div_le_self num den
  have hnearest : roundDiv num den ≤ num + 1 := roundDiv_le _ _ _ (Nat.lt_succ_of_le hbelow)
  have hother : (if roundDiv num den = num / den then num / den + 1 else num / den) ≤ num + 1 := by
    split <;> omega
  unfold nearestMultiple at h
  dsimp only at h
  split at h
  · cases h
    exact hnearest
  · obtain ⟨-, hn⟩ := Option.ite_none_right_eq_some.mp h
    cases hn
    exact hother

theorem shortestFrom_bounds (a : Magnitude) (first : Int) (fuel places most : Nat)
    (hm : (places + fuel : Nat) - first ≤ most) :
    (a.shortestFrom first fuel places).1 ≤ a.ratio.1 * Nat.pow 10 most + 1 ∧
      first - (places + fuel : Nat) ≤ (a.shortestFrom first fuel places).2 ∧
      (a.shortestFrom first fuel places).2 ≤ first - places := by
  have hscale (k : Nat) (hk : k ≤ most) : a.ratio.1 * Nat.pow 10 k ≤ a.ratio.1 * Nat.pow 10 most :=
    Nat.mul_le_mul_left _ (pow_mono 10 k most (by decide) hk)
  induction fuel generalizing places with
  | zero =>
    have hquotient := roundDiv_le a.ratio.1 a.ratio.2 (a.ratio.1 + 1)
      (Nat.lt_succ_of_le (Nat.div_le_self _ _))
    have hall : a.ratio.1 * 1 ≤ _ := hscale 0 (Nat.zero_le most)
    refine ⟨?_, Int.le_refl _, Int.le_refl _⟩
    change roundDiv a.ratio.1 a.ratio.2 ≤ _
    omega
  | succ fuel ih =>
    unfold shortestFrom
    split
    · rename_i n hn
      have hall := hscale (-(first - places)).toNat (by omega)
      have hle := nearestMultiple_le a _ n hn
      dsimp only
      omega
    · have hlater := ih (places + 1) (by omega)
      omega

/-- How many powers of ten are tried behind the point. -/
def scalePlaces : Nat := 418

def digitsMax : Nat := 728

private theorem decimal_scaled_length_le (n num places power most : Nat)
    (hn : n ≤ num * Nat.pow 10 places + 1) (hnum : num < Nat.pow 10 power)
    (hmost : Nat.pow 10 power * Nat.pow 10 places < Nat.pow 10 (most + 1)) :
    (decimal n).length ≤ most + 1 := by
  have hone : 1 ≤ Nat.pow 10 places := pow_mono 10 0 places (by decide) (Nat.zero_le places)
  apply decimal_length_le
  calc n ≤ num * Nat.pow 10 places + Nat.pow 10 places := Nat.le_trans hn (Nat.add_le_add_left hone _)
    _ = (num + 1) * Nat.pow 10 places := (Nat.succ_mul _ _).symm
    _ ≤ Nat.pow 10 power * Nat.pow 10 places := Nat.mul_le_mul_right _ hnum
    _ < Nat.pow 10 (most + 1) := hmost

theorem Fits.shortest_bounds {a : Magnitude} (h : a.Fits) :
    a.shortest.digits.length ≤ digitsMax ∧ a.shortest.exponent.natAbs < Nat.pow 10 4 := by
  have hratio := h.ratio_lt
  let first := leadingPower a.ratio.1 a.ratio.2
  obtain ⟨hfirst, hfirst'⟩ := leadingPower_bounds a.ratio.1 a.ratio.2 hratio
  have hplaces : (0 + 17 : Nat) - first ≤ scalePlaces := by
    simp only [scalePlaces, first]
    omega
  obtain ⟨hn, hpower, hpower'⟩ := shortestFrom_bounds a first 17 0 scalePlaces hplaces
  let n := (a.shortestFrom first 17 0).1
  have hdigits : (decimal n).length ≤ digitsMax := by
    apply decimal_scaled_length_le n _ scalePlaces _ (digitsMax - 1) hn hratio
    decide +kernel
  have hne : 0 < (decimal n).length := List.length_pos_iff.mpr (decimal_ne_nil n)
  have hdrop : (dropZeros (decimal n)).length ≤ (decimal n).length := by
    simp only [dropZeros, List.length_reverse]
    exact Nat.le_trans (List.dropWhile_sublist _).length_le (Nat.le_of_eq List.length_reverse)
  refine ⟨Nat.le_trans hdrop hdigits, ?_⟩
  change ((a.shortestFrom first 17 0).2 + (decimal n).length - 1).natAbs < 10000
  simp only [digitsMax, ratioPower, first] at *
  omega

end Magnitude

namespace ShortDecimal

theorem positional_length_le (d : ShortDecimal)
    (h : positionalExponents.1 ≤ d.exponent ∧ d.exponent ≤ positionalExponents.2) :
    d.positional.length ≤ d.digits.length + 18 := by
  obtain ⟨hlow, hhigh⟩ := h
  simp only [positionalExponents] at hlow hhigh
  unfold positional
  split
  · have hpoint : (ascii "0.").length = 2 := by decide
    simp only [List.length_append, zeros, List.length_replicate, hpoint]
    omega
  · have hpoint : (ascii ".").length = 1 := by decide
    have hzero : (ascii "0").length = 1 := by decide
    dsimp only
    split <;>
      simp only [List.length_append, zeros, List.length_replicate, List.length_take,
        List.length_drop, hpoint, hzero] <;> omega

theorem scientific_length_le (d : ShortDecimal) (h : d.exponent.natAbs < Nat.pow 10 4) :
    d.scientific.length ≤ d.digits.length + 8 := by
  have hpoint : (ascii ".").length = 1 := by decide
  have hsign : (ascii (if d.exponent < 0 then "e-" else "e+")).length = 2 := by
    split <;> decide
  have hexponent := decimal_length_le d.exponent.natAbs 3 h
  unfold scientific
  split <;>
    simp only [List.length_append, List.length_take, List.length_drop, List.length_nil, hpoint,
      hsign] <;> omega

end ShortDecimal

/-- No more bytes than this are written for a magnitude. -/
def realTextMax : Nat := Magnitude.digitsMax + 19

theorem realText_length_le (negative : Bool) (a : Magnitude) (h : a.Fits) :
    (realText negative a).length ≤ realTextMax := by
  obtain ⟨hdigits, hexponent⟩ := h.shortest_bounds
  have hsign : (if negative then ascii "-" else []).length ≤ 1 := by
    cases negative <;> decide
  have hsize : (if a.mantissa = 0 then ascii "0.0"
      else if positionalExponents.1 ≤ a.shortest.exponent ∧
        a.shortest.exponent ≤ positionalExponents.2 then a.shortest.positional
      else a.shortest.scientific).length ≤ Magnitude.digitsMax + 18 := by
    split
    · decide
    split
    · rename_i hmoderate
      have hpositional := a.shortest.positional_length_le hmoderate
      omega
    · have hscientific := a.shortest.scientific_length_le hexponent
      omega
  rw [realText, List.length_append, realTextMax]
  exact Nat.le_trans (Nat.add_le_add hsign hsize) (by omega)

end NoiseGate
