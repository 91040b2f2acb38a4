import Mathlib.Algebra.Group.Int.Defs
import Mathlib.Algebra.Group.Nat.Defs
import MessagePack.Ieee.Format
/-!
# Widening loses nothing

Every short float has an equal long one, so widening it and narrowing it back gives the same float;
a pattern that is no number stays none.

The proof looks at the long pattern's three fields: a significand moved up to 53 bits, with an
exponent as much lower, keeps its value, and narrowing shifts out exactly the zeros that were moved
in.

Main statement: `Single.narrow_widen`.
-/

namespace MessagePack

namespace FloatFormat

/-! ## 1. Patterns by their fields -/

theorem fractions_pos (f : FloatFormat) : 0 < f.fractions := Nat.two_pow_pos f.fractionBits

/-- There is at least one exponent. -/
theorem exponents_pos (f : FloatFormat) : 0 < f.exponents := Nat.two_pow_pos f.exponentBits

theorem classify_eq (f : FloatFormat) (negative : Bool) {stored fraction : Nat}
    (hs : stored < f.exponents) (hf : fraction < f.fractions) :
    f.classify (f.sign negative + (stored * f.fractions + fraction)) =
      if stored = f.exponents - 1 then
        if fraction = 0 then .infinite negative else .nan negative fraction
      else if stored = 0 then .finite negative fraction f.leastExponent
      else .finite negative (f.fractions + fraction) (f.leastExponent + (stored - 1 : Nat)) := by
  have whole : f.sign negative + (stored * f.fractions + fraction) =
      fraction + (stored + (if negative then f.exponents else 0)) * f.fractions := by
    unfold sign
    cases negative
    · rw [if_neg (by decide), if_neg (by decide), Nat.add_zero]
      omega
    · rw [if_pos rfl, if_pos rfl, Nat.add_mul]
      omega
  have low : (fraction + (stored + (if negative then f.exponents else 0)) * f.fractions) %
      f.fractions = fraction := by
    rw [Nat.add_mul_mod_self_right, Nat.mod_eq_of_lt hf]
  have upper : (fraction + (stored + (if negative then f.exponents else 0)) * f.fractions) /
      f.fractions = stored + (if negative then f.exponents else 0) := by
    rw [Nat.add_mul_div_right _ _ f.fractions_pos, Nat.div_eq_of_lt hf, Nat.zero_add]
  have mid : (stored + (if negative then f.exponents else 0)) % f.exponents = stored := by
    cases negative
    · exact Nat.mod_eq_of_lt hs
    · rw [if_pos rfl, Nat.add_mod_right, Nat.mod_eq_of_lt hs]
  have top : ((stored + (if negative then f.exponents else 0)) / f.exponents % 2 == 1) =
      negative := by
    cases negative
    · rw [if_neg (by decide), Nat.add_zero, Nat.div_eq_of_lt hs]
      rfl
    · rw [if_pos rfl, Nat.add_div_right _ f.exponents_pos, Nat.div_eq_of_lt hs]
      rfl
  rw [whole]
  simp only [classify, low, upper, mid, top]

/-! ## 2. Exact rounding -/

theorem log2_mul_two_pow {m : Nat} (k : Nat) (pos : m ≠ 0) :
    (m * 2 ^ k).log2 = m.log2 + k := by
  have room : 0 < 2 ^ k := Nat.two_pow_pos k
  have product : m * 2 ^ k ≠ 0 := by
    have := Nat.mul_pos (Nat.pos_of_ne_zero pos) room
    omega
  rw [Nat.log2_eq_iff product]
  refine ⟨?_, ?_⟩
  · rw [Nat.pow_add]
    exact Nat.mul_le_mul_right _ (Nat.log2_self_le pos)
  · rw [Nat.add_right_comm, Nat.pow_add]
    exact Nat.mul_lt_mul_of_pos_right Nat.lt_log2_self room

/-- Zeros that were shifted in are shifted out without a rest. -/
theorem roundShift_mul (m k : Nat) : roundShift (m * 2 ^ k) k = m := by
  have room : 0 < 2 ^ k := Nat.two_pow_pos k
  have unit : Nat.pow 2 k = 2 ^ k := rfl
  unfold roundShift
  simp only [unit, Nat.mul_mod_left, Nat.mul_div_cancel m room, Nat.mul_zero]
  rw [if_neg (by omega)]

/-- A significand with its leading bit, behind so many steps of the exponent. -/
theorem min_steps {n count unit top : Nat} (least : unit ≤ count) (most : count < 2 * unit)
    (below : n + 2 ≤ top) :
    min (n * unit + count) (top * unit) = (n + 1) * unit + (count - unit) := by
  have room : (n + 2) * unit ≤ top * unit := Nat.mul_le_mul_right _ below
  rw [Nat.add_mul] at room
  rw [Nat.add_mul]
  omega

variable {m : Nat} {e : Int} (negative : Bool)

/-- The long float of a short one's significand and exponent. -/
theorem round_double (pos : m ≠ 0) (small : m < 2 ^ 24) (low : -149 ≤ e) (high : e ≤ 104) :
    ∃ stored fraction, 0 < stored ∧ stored < 2047 ∧ fraction < 2 ^ 52 ∧
      double.round negative m e = double.sign negative + (stored * 2 ^ 52 + fraction) ∧
      2 ^ 52 + fraction = m * 2 ^ (52 - m.log2) ∧
      (-1074 : Int) + (stored - 1 : Nat) = e + m.log2 - 52 := by
  have bits : m.log2 ≤ 23 := by
    have := (Nat.log2_lt pos).2 small
    omega
  have exact' : (m * 2 ^ (52 - m.log2)).log2 = 52 := by
    rw [log2_mul_two_pow _ pos]
    omega
  have nonzero : m * 2 ^ (52 - m.log2) ≠ 0 := by
    intro zero
    rw [zero] at exact'
    simp at exact'
  obtain ⟨least, most⟩ := (Nat.log2_eq_iff nonzero).1 exact'
  -- a short float lies well above the least exponent of a long one, so nothing is shifted out
  have last : max (e + m.log2 - double.fractionBits) double.leastExponent = e + m.log2 - 52 := by
    show max (e + m.log2 - 52) (-1074) = _
    omega
  refine ⟨(e + m.log2 - 52 + 1074).toNat + 1, m * 2 ^ (52 - m.log2) - 2 ^ 52, by omega, by omega,
    by omega, ?_, by omega, by omega⟩
  unfold round
  rw [if_neg pos]
  simp only [last]
  rw [if_pos (by omega), show (e - (e + m.log2 - 52)).toNat = 52 - m.log2 by omega]
  show double.sign negative + min ((e + m.log2 - 52 - (-1074)).toNat * 2 ^ 52 +
    m * 2 ^ (52 - m.log2)) (2047 * 2 ^ 52) = _
  have steps : (e + m.log2 - 52 - (-1074)).toNat = (e + m.log2 - 52 + 1074).toNat := by omega
  have below : (e + m.log2 - 52 + 1074).toNat < 2000 := by omega
  rw [steps, min_steps least (by rw [Nat.mul_comm 2, ← Nat.pow_succ]; exact most) (by omega)]

/-- And back. -/
theorem round_single (pos : m ≠ 0) (small : m < 2 ^ 24) (low : -149 ≤ e) (high : e ≤ 104)
    (normal : e = -149 ∨ 2 ^ 23 ≤ m) :
    single.round negative (m * 2 ^ (52 - m.log2)) (e + m.log2 - 52) =
      single.sign negative + ((e + 149).toNat * 2 ^ 23 + m) := by
  have bits : m.log2 ≤ 23 := by
    have := (Nat.log2_lt pos).2 small
    omega
  have exact' : (m * 2 ^ (52 - m.log2)).log2 = 52 := by
    rw [log2_mul_two_pow _ pos]
    omega
  have nonzero : m * 2 ^ (52 - m.log2) ≠ 0 := by
    intro zero
    rw [zero] at exact'
    simp at exact'
  have whole : e = -149 ∨ m.log2 = 23 := by
    rcases normal with e | large
    · exact .inl e
    · exact .inr ((Nat.log2_eq_iff pos).2 ⟨large, small⟩)
  have last : max (e + m.log2 - 52 + ((m * 2 ^ (52 - m.log2)).log2 : Nat) - single.fractionBits)
      single.leastExponent = e := by
    rw [exact']
    show max (e + m.log2 - 52 + ((52 : Nat) : Int) - ((23 : Nat) : Int)) (-149) = e
    omega
  unfold round
  rw [if_neg nonzero]
  simp only [last]
  rw [if_neg (by omega), show (e - (e + m.log2 - 52)).toNat = 52 - m.log2 by omega,
    roundShift_mul]
  show single.sign negative + min ((e - (-149)).toNat * 2 ^ 23 + m) (255 * 2 ^ 23) = _
  have steps : (e - (-149)).toNat = (e + 149).toNat := by omega
  have below : (e + 149).toNat ≤ 253 := by omega
  rw [steps]
  generalize (e + 149).toNat = n at below ⊢
  omega

/-! ## 3. There and back -/

/-- Every short pattern has three fields. -/
theorem single_fields {n : Nat} (lt : n < 2 ^ 32) :
    ∃ negative stored fraction, stored < 2 ^ 8 ∧ fraction < 2 ^ 23 ∧
      n = single.sign negative + (stored * 2 ^ 23 + fraction) := by
  refine ⟨decide (2 ^ 31 ≤ n), n / 2 ^ 23 % 2 ^ 8, n % 2 ^ 23, by omega, by omega, ?_⟩
  by_cases high : 2 ^ 31 ≤ n
  · rw [decide_eq_true high]
    show n = 2 ^ 31 + _
    omega
  · rw [decide_eq_false high]
    show n = 0 + _
    omega

theorem classify_single (negative : Bool) {stored fraction : Nat} (hs : stored < 2 ^ 8)
    (hf : fraction < 2 ^ 23) :
    single.classify (single.sign negative + (stored * 2 ^ 23 + fraction)) =
      if stored = 255 then if fraction = 0 then .infinite negative else .nan negative fraction
      else if stored = 0 then .finite negative fraction (-149)
      else .finite negative (2 ^ 23 + fraction) (-149 + (stored - 1 : Nat)) :=
  classify_eq single negative hs hf

theorem classify_double (negative : Bool) {stored fraction : Nat} (hs : stored < 2 ^ 11)
    (hf : fraction < 2 ^ 52) :
    double.classify (double.sign negative + (stored * 2 ^ 52 + fraction)) =
      if stored = 2047 then if fraction = 0 then .infinite negative else .nan negative fraction
      else if stored = 0 then .finite negative fraction (-1074)
      else .finite negative (2 ^ 52 + fraction) (-1074 + (stored - 1 : Nat)) :=
  classify_eq double negative hs hf

/-- A zero stays a zero, with its sign. -/
theorem convert_zero : ∀ negative,
    single.convert double (double.round negative 0 (-149)) = single.sign negative := by
  decide +kernel

/-- A finite short float comes back from the long one of the same number. -/
theorem narrow_round {m : Nat} {e : Int} (negative : Bool) (small : m < 2 ^ 24) (low : -149 ≤ e)
    (high : e ≤ 104) (normal : e = -149 ∨ 2 ^ 23 ≤ m) :
    single.convert double (double.round negative m e) =
      single.sign negative + ((e + 149).toNat * 2 ^ 23 + m) := by
  by_cases pos : m = 0
  · subst pos
    obtain rfl : e = -149 := by omega
    exact convert_zero negative
  · obtain ⟨stored, fraction, nonzero, finite, lt, pattern, significand, exponent⟩ :=
      round_double negative pos small low high
    unfold convert
    rw [pattern, classify_double negative (by omega) lt, if_neg (by omega), if_neg (by omega),
      significand, exponent]
    exact round_single negative pos small low high normal

/-- **Narrowing undoes widening, pattern by pattern.** -/
theorem convert_convert {n : Nat} (lt : n < 2 ^ 32) (number : (single.classify n).isNan = false) :
    single.convert double (double.convert single n) = n := by
  obtain ⟨negative, stored, fraction, hs, hf, rfl⟩ := single_fields lt
  have fields := classify_single negative hs hf
  rw [convert.eq_def double]
  split at fields
  · rename_i top
    split at fields
    · rename_i zero
      rw [fields, top, zero]
      cases negative <;> decide +kernel
    · rw [fields] at number
      cases number
  · split at fields
    · rename_i zero
      rw [fields, zero]
      exact narrow_round negative (by omega) (by omega) (by omega) (.inl rfl)
    · rename_i top nonzero
      rw [fields]
      have back := narrow_round (m := 2 ^ 23 + fraction) (e := -149 + (stored - 1 : Nat)) negative
        (by omega) (by omega) (by omega) (.inr (by omega))
      refine back.trans ?_
      have steps : (-149 + ((stored - 1 : Nat) : Int) + 149).toNat = stored - 1 := by omega
      have units : stored * 2 ^ 23 = (stored - 1) * 2 ^ 23 + 2 ^ 23 := by
        rw [← Nat.succ_mul, Nat.succ_eq_add_one, Nat.sub_add_cancel (by omega)]
      rw [steps, units, Nat.add_assoc ((stored - 1) * 2 ^ 23)]

/-- A quiet pattern is no number. -/
theorem classify_quiet (f : FloatFormat) (some' : 2 ≤ f.fractions) (negative : Bool) (p : Nat) :
    f.classify (f.sign negative + f.infinity +
      (p % (f.fractions / 2) + f.fractions / 2)) =
        .nan negative (p % (f.fractions / 2) + f.fractions / 2) := by
  have below : p % (f.fractions / 2) < f.fractions / 2 := Nat.mod_lt _ (by omega)
  have top : f.exponents - 1 < f.exponents := Nat.sub_lt f.exponents_pos (by decide)
  rw [Nat.add_assoc, infinity, classify_eq f negative top (by omega), if_pos rfl, if_neg (by omega)]

/-- A payload keeps its top bits. -/
theorem convert_of_nan {f source : FloatFormat} {n : Nat} {negative : Bool} {payload : Nat}
    (nan : source.classify n = .nan negative payload) :
    f.convert source n = f.sign negative + f.infinity +
      (payload * f.fractions / source.fractions % (f.fractions / 2) + f.fractions / 2) := by
  rw [convert.eq_def, nan]

theorem convert_nan {f source : FloatFormat} (some' : 2 ≤ f.fractions) {n : Nat} {negative : Bool}
    {payload : Nat} (nan : source.classify n = .nan negative payload) :
    f.classify (f.convert source n) = .nan negative
      (payload * f.fractions / source.fractions % (f.fractions / 2) + f.fractions / 2) := by
  rw [convert_of_nan nan]
  exact classify_quiet f some' negative _

/-- What is no short float only becomes quiet on the way to a long one and back. -/
theorem convert_convert_nan {n : Nat} {negative : Bool} {payload : Nat}
    (nan : single.classify n = .nan negative payload) :
    single.convert double (double.convert single n) =
      single.sign negative + single.infinity + (payload % 2 ^ 22 + 2 ^ 22) := by
  have short : single.fractions = 2 ^ 23 := rfl
  have long : double.fractions = 2 ^ 52 := rfl
  rw [convert_of_nan (convert_nan (by decide) nan), short, long]
  omega

/-- The sign is the topmost bit. -/
theorem sign_le (f : FloatFormat) (negative : Bool) :
    f.sign negative ≤ f.exponents * f.fractions := by
  unfold sign
  split
  · exact Nat.le_refl _
  · exact Nat.zero_le _

/-- A converted pattern has no more bits than its format. -/
theorem convert_lt (f source : FloatFormat) (some' : 2 ≤ f.fractions) (n : Nat) :
    f.convert source n < 2 * (f.exponents * f.fractions) := by
  have upper : f.exponents * f.fractions = f.infinity + f.fractions := by
    rw [infinity, ← Nat.succ_mul, Nat.succ_eq_add_one, Nat.sub_add_cancel f.exponents_pos]
  rw [convert.eq_def]
  split
  · rename_i negative payload _
    have sign := f.sign_le negative
    have quiet : payload * f.fractions / source.fractions % (f.fractions / 2) < f.fractions / 2 :=
      Nat.mod_lt _ (by omega)
    dsimp only
    omega
  · rename_i negative _
    have sign := f.sign_le negative
    omega
  · rename_i negative m e _
    have sign := f.sign_le negative
    unfold round
    split
    · omega
    · dsimp only
      omega

end FloatFormat

namespace Single

open FloatFormat

/-- What widening does to the bits, -/
theorem widen_bits (x : Single) : x.widen.bits.toNat = double.convert .single x.bits.toNat := by
  have lt := convert_lt double .single (by decide) x.bits.toNat
  exact UInt64.toNat_ofNat_of_lt' lt

/-- and narrowing after it. -/
theorem narrow_widen_bits (x : Single) :
    x.widen.narrow.bits.toNat = single.convert double (double.convert .single x.bits.toNat) := by
  have lt := convert_lt .single double (by decide) (double.convert .single x.bits.toNat)
  rw [Double.narrow, widen_bits]
  exact UInt32.toNat_ofNat_of_lt' lt

/-- **Narrowing undoes widening.** -/
theorem narrow_widen (x : Single) (number : x.classify.isNan = false) : x.widen.narrow = x := by
  have bits : x.widen.narrow.bits = x.bits := by
    rw [← UInt32.toNat_inj, narrow_widen_bits]
    exact convert_convert x.bits.toNat_lt number
  exact congrArg Single.mk bits

/-- What is no number becomes quiet once. -/
theorem narrow_widen_nan {x : Single} {negative : Bool} {payload : Nat}
    (nan : x.classify = .nan negative payload) :
    x.widen.narrow.bits.toNat =
      single.sign negative + single.infinity + (payload % 2 ^ 22 + 2 ^ 22) := by
  rw [narrow_widen_bits]
  exact convert_convert_nan nan

/-- **What went through a long float once does not change again.** -/
theorem narrow_widen_idem (x : Single) : x.widen.narrow.widen.narrow = x.widen.narrow := by
  cases source : x.classify with
  | infinite | finite =>
    have number : x.classify.isNan = false := by rw [source]; rfl
    rw [narrow_widen x number, narrow_widen x number]
  | nan negative payload =>
    have once := narrow_widen_nan source
    have quiet : x.widen.narrow.classify = .nan negative (payload % 2 ^ 22 + 2 ^ 22) := by
      rw [classify, once]
      exact classify_quiet .single (by decide) negative payload
    have twice := narrow_widen_nan quiet
    have bits : x.widen.narrow.widen.narrow.bits = x.widen.narrow.bits := by
      rw [← UInt32.toNat_inj, twice, once]
      omega
    exact congrArg Single.mk bits

/-- What is no number stays none. -/
theorem isNan_narrow_widen (x : Single) : x.widen.narrow.classify.isNan = x.classify.isNan := by
  cases nan : x.classify.isNan with
  | false => rw [narrow_widen x nan, nan]
  | true =>
    unfold classify at nan ⊢
    rw [narrow_widen_bits]
    cases source : FloatFormat.single.classify x.bits.toNat with
    | infinite | finite =>
      rw [source] at nan
      cases nan
    | nan negative payload =>
      have widened := convert_nan (f := double) (by decide) source
      have narrowed := convert_nan (f := .single) (by decide) widened
      rw [narrowed]
      rfl

/-- The float, and one fixed float for all that are no numbers. -/
def upToNan (x : Single) : Single := if x.classify.isNan then ⟨0x7fc00000⟩ else x

/-- **A short float that went through a long one is the same, or both are no numbers.** -/
theorem upToNan_narrow_widen (x : Single) : x.widen.narrow.upToNan = x.upToNan := by
  unfold upToNan
  cases number : x.classify.isNan with
  | false => rw [narrow_widen x number, number]
  | true => rw [isNan_narrow_widen, number, if_pos rfl, if_pos rfl]

end Single

/-- The float, and one fixed float for all that are no numbers. -/
def Double.upToNan (x : Double) : Double :=
  if x.classify.isNan then ⟨0x7ff8000000000000⟩ else x

end MessagePack
