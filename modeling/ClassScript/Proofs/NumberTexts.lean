import ClassScript.Program.Printer
import Mathlib.Algebra.Order.Field.Power
import Mathlib.Data.List.TakeWhile
import Mathlib.Data.Nat.Cast.Field
import Mathlib.Data.Rat.Cast.Order
import Mathlib.Data.Set.Function
import Mathlib.Order.Monotone.Basic
import Mathlib.Tactic.FieldSimp
import Mathlib.Tactic.Linarith
import Mathlib.Tactic.Positivity
import Mathlib.Tactic.Ring

namespace ClassScript

/-!
# Texts of numbers

The text of a finite number determines the number, its sign included.

The magnitudes of the finite numbers are ranked by their bits without the sign. Around each
magnitude lies the interval of the decimals that read back as it. The upper end of one interval is
the lower end of the next (`Magnitude.high_ofRank`), and an end belongs to an interval only if the
rank is even, so no value lies in two of them (`Magnitude.rank_unique`). The value that a text
denotes always lies in the interval of the number that the text is written for
(`Magnitude.around_text`).

* `textValue`: the value that digits with at most one point denote;
* `Magnitude.text`: the text of a magnitude, which is made of digits and a point;
* `Literal.render_number_injOn`: texts of distinct finite numbers are distinct.
-/

namespace Number

/-- The number is neither infinite nor undefined. -/
def IsFinite (x : Float) : Prop := ∃ negative a, Parts.of x = .finite negative a

/-- Whether the parts are those of a finite number. -/
def Parts.isFinite : Parts → Bool
  | .finite _ _ => true
  | _ => false

instance (x : Float) : Decidable (IsFinite x) :=
  decidable_of_iff ((Parts.of x).isFinite = true) (by
    unfold IsFinite
    cases Parts.of x <;> simp [Parts.isFinite])

/-! ### Exact values -/

/-- The value of a decimal. -/
def Decimal.value (d : Decimal) : ℚ := d.digits * (10 : ℚ) ^ d.exponent

/-- The value of a magnitude. -/
def Magnitude.value (x : Magnitude) : ℚ := x.m * (2 : ℚ) ^ x.q

/-- A power with an integer exponent, as a quotient of powers with natural ones. -/
theorem zpow_mul_pow_neg {b : ℚ} (hb : b ≠ 0) (i : Int) :
    b ^ i * b ^ (-i).toNat = b ^ i.toNat := by
  rw [← zpow_natCast, ← zpow_natCast, ← zpow_add₀ hb]
  congr 1
  omega

theorem zpow_eq_pow {i : Int} (hi : 0 ≤ i) (b : ℚ) : b ^ i = b ^ i.toNat := by
  rw [← zpow_natCast, Int.toNat_of_nonneg hi]

theorem zpow_eq_inv_pow {i : Int} (hi : i < 0) (b : ℚ) : b ^ i = (b ^ (-i).toNat)⁻¹ := by
  rw [← zpow_natCast, Int.toNat_of_nonneg (by omega), zpow_neg, inv_inv]

/-- The comparison of scaled naturals is the comparison of the values they stand for. -/
theorem compareScaled_eq_iff (a : Nat) (i : Int) (n : Nat) (j : Int) :
    (compareScaled a i n j = .lt ↔ (a : ℚ) * 10 ^ i < n * 2 ^ j) ∧
      (compareScaled a i n j = .eq ↔ (a : ℚ) * 10 ^ i = n * 2 ^ j) ∧
      (compareScaled a i n j = .gt ↔ (n : ℚ) * 2 ^ j < a * 10 ^ i) := by
  -- Both sides are scaled by the same positive factor.
  have hscale : (0 : ℚ) < 10 ^ (-i).toNat * 2 ^ (-j).toNat := by positivity
  have hten := zpow_mul_pow_neg (b := 10) (by norm_num) i
  have htwo := zpow_mul_pow_neg (b := 2) (by norm_num) j
  have hleft : (a : ℚ) * 10 ^ i * (10 ^ (-i).toNat * 2 ^ (-j).toNat)
      = ((a * Nat.pow 10 i.toNat * Nat.pow 2 (-j).toNat : Nat) : ℚ) := by
    simp only [Nat.pow_eq, Nat.cast_mul, Nat.cast_pow, Nat.cast_ofNat, ← hten]
    ring
  have hright : (n : ℚ) * 2 ^ j * (10 ^ (-i).toNat * 2 ^ (-j).toNat)
      = ((n * Nat.pow 2 j.toNat * Nat.pow 10 (-i).toNat : Nat) : ℚ) := by
    simp only [Nat.pow_eq, Nat.cast_mul, Nat.cast_pow, Nat.cast_ofNat, ← htwo]
    ring
  unfold compareScaled
  refine ⟨?_, ?_, ?_⟩
  · rw [← mul_lt_mul_iff_of_pos_right hscale, hleft, hright, Nat.cast_lt]
    exact Nat.compare_eq_lt
  · rw [← mul_left_inj' hscale.ne', hleft, hright, Nat.cast_inj]
    exact Nat.compare_eq_eq
  · rw [← mul_lt_mul_iff_of_pos_right hscale, hleft, hright, Nat.cast_lt]
    exact Nat.compare_eq_gt

namespace Magnitude

/-- The lower end of the interval of a magnitude. -/
def low (x : Magnitude) : ℚ :=
  (if x.narrowBelow then 4 * x.m - 1 else 4 * x.m - 2 : Nat) * (2 : ℚ) ^ (x.q - 2)

/-- The upper end of the interval of a magnitude. -/
def high (x : Magnitude) : ℚ := (4 * x.m + 2 : Nat) * (2 : ℚ) ^ (x.q - 2)

/-- The value `v` lies in the interval of `x`, whose ends belong to it if `m` is even. -/
def Around (x : Magnitude) (v : ℚ) : Prop :=
  (x.low < v ∨ x.m % 2 = 0 ∧ v = x.low) ∧ (v < x.high ∨ x.m % 2 = 0 ∧ v = x.high)

theorem around_of_readsBack {x : Magnitude} {d : Decimal} (h : x.readsBack d = true) :
    x.Around d.value := by
  unfold readsBack at h
  simp only [Bool.and_eq_true, Bool.or_eq_true, beq_iff_eq] at h
  obtain ⟨hlow, hhigh⟩ := h
  constructor
  · obtain ⟨-, heq, hgt⟩ := compareScaled_eq_iff d.digits d.exponent
      (if x.narrowBelow then 4 * x.m - 1 else 4 * x.m - 2) (x.q - 2)
    exact hlow.imp hgt.mp (And.imp_right heq.mp)
  · obtain ⟨hlt, heq, -⟩ := compareScaled_eq_iff d.digits d.exponent (4 * x.m + 2) (x.q - 2)
    exact hhigh.imp hlt.mp (And.imp_right heq.mp)

theorem value_eq (x : Magnitude) : x.value = (4 * x.m : Nat) * (2 : ℚ) ^ (x.q - 2) := by
  rw [value, zpow_sub₀ (by norm_num)]
  push_cast
  ring

/-- The interval of a magnitude is not empty. -/
theorem low_lt_high (x : Magnitude) : x.low < x.high := by
  have hpos : (0 : ℚ) < 2 ^ (x.q - 2) := by positivity
  unfold low high
  apply mul_lt_mul_of_pos_right _ hpos
  rw [Nat.cast_lt]
  split <;> omega

/-- A magnitude lies in its own interval. -/
theorem around_value (x : Magnitude) : x.Around x.value := by
  have hpos : (0 : ℚ) < 2 ^ (x.q - 2) := by positivity
  rw [value_eq]
  refine ⟨?_, .inl ?_⟩
  · by_cases hm : x.m = 0
    · right
      simp [low, hm]
    · left
      apply mul_lt_mul_of_pos_right _ hpos
      rw [Nat.cast_lt]
      split <;> omega
  · apply mul_lt_mul_of_pos_right _ hpos
    rw [Nat.cast_lt]
    omega

/-! ### Ranks -/

/-- The magnitude with the exponent bits `e` and the fraction bits `f`. -/
def ofFields (e f : Nat) : Magnitude :=
  if e = 0 then ⟨f, -1074, false⟩
  else ⟨Nat.pow 2 52 + f, (e : Int) - 1075, f == 0 && 1 < e⟩

/-- The magnitude of the numbers whose bits without the sign are `rank`. -/
def ofRank (rank : Nat) : Magnitude := ofFields (rank / 2 ^ 52) (rank % 2 ^ 52)

theorem ofRank_m_mod_two (rank : Nat) : (ofRank rank).m % 2 = rank % 2 := by
  have hpow : Nat.pow 2 52 = 2 ^ 52 := rfl
  unfold ofRank ofFields
  split <;> simp only <;> omega

/-- The ends meet where the two magnitudes have one exponent. -/
theorem high_eq_low_of_q_eq {x y : Magnitude} (hm : y.m = x.m + 1) (hq : y.q = x.q)
    (hnarrow : y.narrowBelow = false) : x.high = y.low := by
  have hlow : 4 * (x.m + 1) - 2 = 4 * x.m + 2 := by omega
  simp [high, low, hm, hq, hnarrow, hlow]

/-- The ends meet where the next magnitude is the first one with its exponent: the gap below it is
    half the gap above. -/
theorem high_eq_low_of_q_succ {x y : Magnitude} (hm : 2 * y.m = x.m + 1) (hq : y.q = x.q + 1)
    (hnarrow : y.narrowBelow = true) : x.high = y.low := by
  have hlow : 4 * x.m + 2 = 2 * (4 * y.m - 1) := by omega
  have hexponent : x.q + 1 - 2 = x.q - 2 + 1 := by omega
  rw [high, low, hnarrow, if_pos rfl, hq, hlow, hexponent, zpow_add_one₀ (by norm_num)]
  push_cast
  ring

theorem high_ofFields (e f : Nat) : (ofFields e f).high = (ofFields e (f + 1)).low := by
  by_cases he : e = 0 <;> apply high_eq_low_of_q_eq <;> simp [ofFields, he, Nat.add_assoc]

theorem high_ofFields_last (e : Nat) :
    (ofFields e (2 ^ 52 - 1)).high = (ofFields (e + 1) 0).low := by
  by_cases he : e = 0
  · -- The two lowest exponents stand for the same power of two.
    apply high_eq_low_of_q_eq <;> simp [ofFields, he]
  · apply high_eq_low_of_q_succ <;> simp [ofFields, he]
    · omega
    · omega

/-- The interval of a magnitude ends where the next one begins. -/
theorem high_ofRank (rank : Nat) : (ofRank rank).high = (ofRank (rank + 1)).low := by
  unfold ofRank
  by_cases hlast : rank % 2 ^ 52 = 2 ^ 52 - 1
  · have hquot : (rank + 1) / 2 ^ 52 = rank / 2 ^ 52 + 1 := by omega
    have hrest : (rank + 1) % 2 ^ 52 = 0 := by omega
    rw [hquot, hrest, hlast]
    exact high_ofFields_last _
  · have hquot : (rank + 1) / 2 ^ 52 = rank / 2 ^ 52 := by omega
    have hrest : (rank + 1) % 2 ^ 52 = rank % 2 ^ 52 + 1 := by omega
    rw [hquot, hrest]
    exact high_ofFields _ _

/-- Larger ranks have intervals that end later. -/
theorem high_strictMono : StrictMono fun rank => (ofRank rank).high := by
  apply strictMono_nat_of_lt_succ
  intro rank
  rw [high_ofRank]
  exact low_lt_high _

/-- No value lies in the intervals of two magnitudes. -/
theorem rank_unique {v : ℚ} {r s : Nat} (hr : (ofRank r).Around v) (hs : (ofRank s).Around v) :
    r = s := by
  wlog hle : r ≤ s generalizing r s
  · exact (this hs hr (by omega)).symm
  by_contra hne
  obtain ⟨n, rfl⟩ : ∃ n, s = n + 1 := ⟨s - 1, by omega⟩
  obtain ⟨-, hbelow⟩ := hr
  obtain ⟨habove, -⟩ := hs
  have hends : (ofRank r).high ≤ (ofRank (n + 1)).low := by
    rw [← high_ofRank]
    exact high_strictMono.monotone (by omega)
  rcases hbelow with hbelow | ⟨hreven, hbelow⟩ <;> rcases habove with habove | ⟨hseven, habove⟩
  · linarith
  · linarith
  · linarith
  · -- The value is an end of both, so the two are neighbours, and only one of them is even.
    have hsame : (ofRank r).high = (ofRank n).high := by
      rw [high_ofRank n, ← hbelow, habove]
    have hrn : r = n := high_strictMono.injective hsame
    rw [ofRank_m_mod_two] at hreven hseven
    omega

end Magnitude

/-! ### Decimals as text -/

/-- The value that digits with at most one point denote. -/
def textValue (text : List Char) : ℚ :=
  let whole := text.takeWhile (· ≠ '.')
  let part := (text.dropWhile (· ≠ '.')).drop 1
  Nat.ofDigitChars 10 (whole ++ part) 0 / (10 : ℚ) ^ part.length

theorem ne_point {whole : List Char} (h : '.' ∉ whole) :
    ∀ c ∈ whole, decide (c ≠ '.') = true :=
  fun _ hc => decide_eq_true fun heq => h (heq ▸ hc)

/-- The value of a text without a point. -/
theorem textValue_whole {whole : List Char} (h : '.' ∉ whole) :
    textValue whole = Nat.ofDigitChars 10 whole 0 := by
  have hall := ne_point h
  unfold textValue
  rw [List.takeWhile_eq_self_iff.mpr hall, List.dropWhile_eq_nil_iff.mpr hall]
  simp

/-- The value of a text with a point. -/
theorem textValue_point {whole : List Char} (part : List Char) (h : '.' ∉ whole) :
    textValue (whole ++ '.' :: part)
      = Nat.ofDigitChars 10 (whole ++ part) 0 / (10 : ℚ) ^ part.length := by
  have hall := ne_point h
  unfold textValue
  rw [List.takeWhile_append_of_pos hall, List.dropWhile_append_of_pos hall]
  simp

/-- Digits of a number are digits. -/
theorem isDigit_of_mem_digitsOf {n : Nat} {c : Char} (h : c ∈ digitsOf n) : c.isDigit = true :=
  Nat.isDigit_of_mem_toDigits (by decide) (by decide) h

theorem digitsOf_ne_nil (n : Nat) : digitsOf n ≠ [] := Nat.toDigits_ne_nil

theorem point_notMem_digitsOf (n : Nat) : '.' ∉ digitsOf n :=
  fun h => absurd (isDigit_of_mem_digitsOf h) (by decide)

/-- The digits of a number read as the number. -/
theorem ofDigitChars_digitsOf (n : Nat) : Nat.ofDigitChars 10 (digitsOf n) 0 = n :=
  Nat.ofDigitChars_toDigits (by decide) (by decide)

/-- The text of a decimal denotes its value. -/
theorem Decimal.textValue_positional (d : Decimal) : textValue d.positional = d.value := by
  unfold positional value
  simp only
  split
  · next hexponent =>
    -- There is no point, and zeros follow the digits.
    rw [zpow_eq_pow hexponent]
    split
    · next hzero =>
      rw [textValue_whole (point_notMem_digitsOf _), ofDigitChars_digitsOf, hzero]
      simp
    · have hpoint : '.' ∉ digitsOf d.digits ++ List.replicate d.exponent.toNat '0' := by
        simp [point_notMem_digitsOf]
      rw [textValue_whole hpoint, Nat.ofDigitChars_append, Nat.ofDigitChars_replicate_zero,
        ofDigitChars_digitsOf]
      push_cast
      ring
  · next hexponent =>
    rw [zpow_eq_inv_pow (by omega)]
    split
    · next hplaces =>
      -- The point stands among the digits.
      have hpoint : '.' ∉ (digitsOf d.digits).take
          ((digitsOf d.digits).length - (-d.exponent).toNat) :=
        fun h => point_notMem_digitsOf _ (List.mem_of_mem_take h)
      rw [textValue_point _ hpoint, List.take_append_drop, ofDigitChars_digitsOf, List.length_drop,
        Nat.sub_sub_self hplaces.le, div_eq_mul_inv]
    · next hplaces =>
      -- All digits stand behind the point, after zeros that fill the gap.
      have hlength : (List.replicate ((-d.exponent).toNat - (digitsOf d.digits).length) '0'
          ++ digitsOf d.digits).length = (-d.exponent).toNat := by
        simp
        omega
      rw [← List.singleton_append, textValue_point _ (by decide), hlength, List.singleton_append,
        Nat.ofDigitChars_cons, Nat.ofDigitChars_append, Nat.ofDigitChars_replicate_zero,
        div_eq_mul_inv]
      simp only [Nat.mul_zero, Char.reduceToNat, Nat.sub_self, Nat.add_zero, ofDigitChars_digitsOf]

/-- Digits with at most one point, which does not come first. -/
def IsNumeral (text : List Char) : Prop :=
  ∃ whole part : List Char, whole ≠ [] ∧ (∀ c ∈ whole ++ part, c.isDigit = true) ∧
    (text = whole ∨ text = whole ++ '.' :: part)

/-- A numeral starts with a digit. -/
theorem IsNumeral.exists_cons {text : List Char} (h : IsNumeral text) :
    ∃ c rest, text = c :: rest ∧ c.isDigit = true := by
  obtain ⟨whole, part, hne, hdigits, htext⟩ := h
  obtain ⟨c, rest, rfl⟩ := List.exists_cons_of_ne_nil hne
  have hc := hdigits c (by simp)
  rcases htext with rfl | rfl
  · exact ⟨c, rest, rfl, hc⟩
  · exact ⟨c, _, List.cons_append, hc⟩

/-- A numeral has digits and a point only. -/
theorem IsNumeral.isDigit_or_eq {text : List Char} (h : IsNumeral text) {c : Char}
    (hc : c ∈ text) : c.isDigit = true ∨ c = '.' := by
  obtain ⟨whole, part, -, hdigits, rfl | rfl⟩ := h
  · exact .inl (hdigits c (List.mem_append_left _ hc))
  · rw [List.mem_append, List.mem_cons] at hc
    rcases hc with hc | rfl | hc
    · exact .inl (hdigits c (List.mem_append_left _ hc))
    · exact .inr rfl
    · exact .inl (hdigits c (List.mem_append_right _ hc))

/-- A decimal is written as a numeral. -/
theorem Decimal.isNumeral_positional (d : Decimal) : IsNumeral d.positional := by
  have hdigits : ∀ c ∈ digitsOf d.digits, c.isDigit = true := fun c => isDigit_of_mem_digitsOf
  have hzeros : ∀ k, ∀ c ∈ List.replicate k '0', c.isDigit = true := by
    intro k c hc
    rw [List.eq_of_mem_replicate hc]
    decide
  unfold positional
  simp only
  split
  · split
    · exact ⟨digitsOf d.digits, [], digitsOf_ne_nil _, by simpa using hdigits, .inl rfl⟩
    · refine ⟨_, [], ?_, ?_, .inl rfl⟩
      · simp [digitsOf_ne_nil]
      · rw [List.append_nil, List.forall_mem_append]
        exact ⟨hdigits, hzeros _⟩
  · split
    · next hplaces =>
      refine ⟨_, _, ?_, ?_, .inr rfl⟩
      · rw [Ne, List.take_eq_nil_iff]
        simp only [digitsOf_ne_nil, or_false]
        omega
      · rw [List.take_append_drop]
        exact hdigits
    · refine ⟨['0'], _, List.cons_ne_nil _ _, ?_, .inr rfl⟩
      rw [List.forall_mem_append, List.forall_mem_append]
      exact ⟨hzeros 1, hzeros _, hdigits⟩

/-- To strip zeros does not change the value. -/
theorem Decimal.value_strip (fuel : Nat) (d : Decimal) : (d.strip fuel).value = d.value := by
  induction fuel generalizing d with
  | zero => rfl
  | succ fuel ih =>
    unfold strip
    split
    · next hzeros =>
      have hdigits : (d.digits : ℚ) = (d.digits / 10 : Nat) * 10 := by
        have hcancel := Nat.div_mul_cancel (Nat.dvd_of_mod_eq_zero hzeros.2)
        exact_mod_cast hcancel.symm
      rw [ih, value, value, hdigits, zpow_add_one₀ (by norm_num)]
      ring
    · rfl

namespace Magnitude

/-- A whole magnitude is its floor. -/
theorem floor_eq_value {x : Magnitude} (h : x.isWhole = true) : (x.floor : ℚ) = x.value := by
  unfold isWhole at h
  unfold floor value
  simp only [Bool.or_eq_true, decide_eq_true_eq, beq_iff_eq] at h
  split
  · next hq =>
    rw [zpow_eq_pow hq]
    simp
  · next hq =>
    rw [zpow_eq_inv_pow (by omega),
      Nat.cast_div (Nat.dvd_of_mod_eq_zero (h.resolve_left hq)) (by simp), div_eq_mul_inv]
    simp

theorem readsBack_of_onGrid? {tie : Tie} {x : Magnitude} {g : Int} {d : Decimal}
    (h : x.onGrid? tie g = some d) : x.readsBack d = true := by
  unfold onGrid? at h
  simp only at h
  split at h
  · next hbelow habove =>
    split at h <;> cases h
    · exact hbelow
    · exact habove
    · exact habove
    · split
      · exact hbelow
      · exact habove
  · next hbelow _ =>
    cases h
    exact hbelow
  · next _ habove =>
    cases h
    exact habove
  · cases h

/-- The fewest digits that read back denote a value in the interval. -/
theorem around_shortest (tie : Tie) (x : Magnitude) : x.Around (x.shortest tie).value := by
  unfold shortest
  split
  · next hzero =>
    have hvalue : (⟨0, 0⟩ : Decimal).value = x.value := by simp [Decimal.value, value, hzero]
    rw [hvalue]
    exact x.around_value
  · simp only
    split
    · next d hhit =>
      obtain ⟨n, -, hn⟩ := List.exists_of_findSome?_eq_some hhit
      rw [Decimal.value_strip]
      exact around_of_readsBack (readsBack_of_onGrid? hn)
    · -- No number of digits up to the limit reads back, and all digits of the value are taken.
      have hvalue : (⟨x.m * Nat.pow 2 x.q.toNat * Nat.pow 5 (-x.q).toNat, min x.q 0⟩
          : Decimal).value = x.value := by
        have htwo := zpow_mul_pow_neg (b := 2) (by norm_num) x.q
        have hten : (10 : ℚ) ^ min x.q 0 = (2 ^ (-x.q).toNat * 5 ^ (-x.q).toNat)⁻¹ := by
          have hmin : min x.q 0 = -((-x.q).toNat : Int) := by omega
          rw [hmin, zpow_neg, zpow_natCast, ← mul_pow]
          norm_num
        rw [Decimal.value, value, hten]
        simp only [Nat.pow_eq, Nat.cast_mul, Nat.cast_pow, Nat.cast_ofNat, ← htwo]
        field_simp
      rw [hvalue]
      exact x.around_value

/-- The text of a magnitude: every digit of an integer, and else the fewest digits that read
    back. -/
def text (x : Magnitude) : List Char :=
  if x.isWhole then digitsOf x.floor ++ ['.', '0'] else (x.shortest .up).positional

/-- The text of a magnitude denotes a value in its interval. -/
theorem around_text (x : Magnitude) : x.Around (textValue x.text) := by
  unfold text
  split
  · next hwhole =>
    have hvalue : textValue (digitsOf x.floor ++ ['.', '0']) = x.value := by
      rw [textValue_point _ (point_notMem_digitsOf _), Nat.ofDigitChars_append,
        ofDigitChars_digitsOf, ← floor_eq_value hwhole]
      simp [Nat.ofDigitChars_cons]
    rw [hvalue]
    exact x.around_value
  · rw [Decimal.textValue_positional]
    exact x.around_shortest .up

/-- The text of a magnitude consists of digits and at most one point between them. -/
theorem isNumeral_text (x : Magnitude) : IsNumeral x.text := by
  unfold text
  split
  · refine ⟨digitsOf x.floor, ['0'], digitsOf_ne_nil _, ?_, .inr rfl⟩
    intro c hc
    rw [List.mem_append, List.mem_singleton] at hc
    rcases hc with hc | rfl
    · exact isDigit_of_mem_digitsOf hc
    · decide
  · exact Decimal.isNumeral_positional _

end Magnitude

/-! ### Bits -/

/-- What the bits of a finite number say: the sign, and the rank of the magnitude. -/
theorem Parts.ofBits_eq_finite {bits : UInt64} {negative : Bool} {a : Magnitude}
    (h : ofBits bits = .finite negative a) :
    a = .ofRank (bits.toNat % 2 ^ 63) ∧ (negative = true ↔ 2 ^ 63 ≤ bits.toNat) := by
  have hbits := bits.toNat_lt
  -- Exponent and fraction are the two digits of the rank in base `2 ^ 52`, below the sign.
  have he : ((bits >>> 52) &&& 0x7FF).toNat = bits.toNat % 2 ^ 63 / 2 ^ 52 := by
    rw [UInt64.toNat_and, UInt64.toNat_shiftRight, show (52 : UInt64).toNat % 64 = 52 from rfl,
      show (0x7FF : UInt64).toNat = 2 ^ 11 - 1 from rfl, Nat.and_two_pow_sub_one_eq_mod,
      Nat.shiftRight_eq_div_pow]
    omega
  have hf : (bits &&& 0xFFFFFFFFFFFFF).toNat = bits.toNat % 2 ^ 63 % 2 ^ 52 := by
    rw [UInt64.toNat_and, show (0xFFFFFFFFFFFFF : UInt64).toNat = 2 ^ 52 - 1 from rfl,
      Nat.and_two_pow_sub_one_eq_mod]
    omega
  have hsign : (bits >>> 63 == 1) = true ↔ 2 ^ 63 ≤ bits.toNat := by
    rw [beq_iff_eq, ← UInt64.toNat_inj, UInt64.toNat_shiftRight,
      show (63 : UInt64).toNat % 64 = 63 from rfl, show (1 : UInt64).toNat = 1 from rfl,
      Nat.shiftRight_eq_div_pow]
    omega
  unfold ofBits at h
  simp only [he, hf] at h
  split at h
  · split at h <;> cases h
  · split at h
    · next hzero =>
      cases h
      exact ⟨by rw [Magnitude.ofRank, Magnitude.ofFields, if_pos hzero], hsign⟩
    · next hzero =>
      cases h
      exact ⟨by rw [Magnitude.ofRank, Magnitude.ofFields, if_neg hzero], hsign⟩

/-- Numbers with the same bits are the same. -/
theorem eq_of_toBits_eq {x y : Float} (h : x.toBits = y.toBits) : x = y := by
  cases x with
  | ofModel a =>
    cases y with
    | ofModel b =>
      obtain ⟨bits, valid⟩ := a
      obtain ⟨bits', valid'⟩ := b
      obtain rfl : bits = bits' := h
      rfl

/-- A finite number is determined by its sign and by any value in the interval of its magnitude. -/
theorem eq_of_around {x y : Float} {negative : Bool} {a b : Magnitude} {v : ℚ}
    (hx : Parts.of x = .finite negative a) (hy : Parts.of y = .finite negative b)
    (ha : a.Around v) (hb : b.Around v) : x = y := by
  obtain ⟨rfl, hxsign⟩ := Parts.ofBits_eq_finite hx
  obtain ⟨rfl, hysign⟩ := Parts.ofBits_eq_finite hy
  have hrank := Magnitude.rank_unique ha hb
  have hsign : 2 ^ 63 ≤ x.toBits.toNat ↔ 2 ^ 63 ≤ y.toBits.toNat := hxsign.symm.trans hysign
  have hx := x.toBits.toNat_lt
  have hy := y.toBits.toNat_lt
  apply eq_of_toBits_eq
  rw [← UInt64.toNat_inj]
  by_cases hlarge : 2 ^ 63 ≤ x.toBits.toNat
  · have := hsign.mp hlarge
    omega
  · have := fun h => hlarge (hsign.mpr h)
    omega

end Number

namespace Literal

/-- The text of a finite number is that of its magnitude, behind a minus sign or not. -/
theorem render_number {x : Float} {negative : Bool} {a : Number.Magnitude}
    (h : Number.Parts.of x = .finite negative a) :
    (number x).render.toList = (if negative then ['-'] else []) ++ a.text := by
  rw [render, Number.exactWhole?, Number.positional, h, Number.Magnitude.text]
  cases hwhole : a.isWhole <;> cases negative <;> simp [Number.withSign, hwhole]

/-- The text of a finite number starts with a digit or a minus sign. -/
theorem exists_cons_of_isFinite {x : Float} (h : Number.IsFinite x) :
    ∃ c rest, (number x).render.toList = c :: rest ∧ (c.isDigit = true ∨ c = '-') := by
  obtain ⟨negative, a, hx⟩ := h
  obtain ⟨c, rest, htext, hc⟩ := a.isNumeral_text.exists_cons
  rw [render_number hx, htext]
  cases negative with
  | false => exact ⟨c, rest, rfl, .inl hc⟩
  | true => exact ⟨'-', c :: rest, rfl, .inr rfl⟩

/-- The texts of distinct finite numbers are distinct. -/
theorem render_number_injOn :
    Set.InjOn (fun x => (number x).render) {x | Number.IsFinite x} := by
  rintro x ⟨signx, a, hx⟩ y ⟨signy, b, hy⟩ htext
  have htexts := congrArg String.toList htext
  simp only [render_number hx, render_number hy] at htexts
  -- A text without a sign starts with a digit, so the signs agree.
  obtain ⟨c, as, ha, hc⟩ := a.isNumeral_text.exists_cons
  obtain ⟨d, bs, hb, hd⟩ := b.isNumeral_text.exists_cons
  have hminus : ('-').isDigit ≠ true := by decide
  have hboth : signx = signy ∧ a.text = b.text := by
    cases signx <;> cases signy
    · exact ⟨rfl, htexts⟩
    · rw [ha] at htexts
      exact absurd (List.cons.inj htexts).1 fun heq => hminus (heq ▸ hc)
    · rw [hb] at htexts
      exact absurd (List.cons.inj htexts).1 fun heq => hminus (heq.symm ▸ hd)
    · exact ⟨rfl, (List.cons.inj htexts).2⟩
  obtain ⟨rfl, hab⟩ := hboth
  exact Number.eq_of_around hx hy a.around_text (hab ▸ b.around_text)

end Literal

end ClassScript
