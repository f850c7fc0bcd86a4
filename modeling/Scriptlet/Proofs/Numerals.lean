import Mathlib
import Scriptlet.Number

/-! Finite numbers are told apart by their texts. The digits that are written stand for a rational in the
rounding span of the double, and the spans of two doubles have no number in common: where they meet, the
mantissas are of different parity, and only the even one has its ends. -/
namespace Scriptlet

namespace Number

/-- What digits with at most one point among them stand for. -/
def numeral (cs : List Char) : ℚ :=
  let whole := cs.takeWhile (· != '.')
  let fraction := (cs.dropWhile (· != '.')).drop 1
  digitsValue (whole ++ fraction) / 10 ^ fraction.length

theorem ne_point {text : List Char} (plain : '.' ∉ text) : ∀ c ∈ text, (c != '.') = true := by
  intro c member
  simpa using ne_of_mem_of_not_mem member plain

theorem numeral_whole {digits : List Char} (plain : '.' ∉ digits) :
    numeral digits = digitsValue digits := by
  have all := ne_point plain
  rw [numeral, List.takeWhile_eq_self_iff.2 all, List.dropWhile_eq_nil_iff.2 all]
  simp

theorem numeral_point {whole fraction : List Char} (plain : '.' ∉ whole) :
    numeral (whole ++ '.' :: fraction) = digitsValue (whole ++ fraction) / 10 ^ fraction.length := by
  have all := ne_point plain
  rw [numeral, List.takeWhile_append_of_pos all, List.dropWhile_append_of_pos all]
  simp

theorem digitsValue_toDigits (n : Nat) : digitsValue (Nat.toDigits 10 n) = n :=
  Nat.ofDigitChars_ten_toDigits

theorem digitsValue_zeros_append (k : Nat) (digits : List Char) :
    digitsValue (List.replicate k '0' ++ digits) = digitsValue digits := by
  have := @Nat.ofDigitChars_append 10 (List.replicate k '0') digits 0
  rwa [Nat.ofDigitChars_replicate_zero, Nat.mul_zero] at this

theorem digitsValue_append_zeros (digits : List Char) (k : Nat) :
    digitsValue (digits ++ List.replicate k '0') = 10 ^ k * digitsValue digits := by
  have := @Nat.ofDigitChars_append 10 digits (List.replicate k '0') 0
  rwa [Nat.ofDigitChars_replicate_zero] at this

end Number

namespace Decimal

open Number

def value (d : Decimal) : ℚ :=
  d.digits * 10 ^ d.exponent

theorem pointed_eq (places : Nat) (digits : List Char) :
    ∃ whole fraction zeros, pointed places digits = whole ++ '.' :: fraction ∧ whole ≠ [] ∧
      whole ++ fraction = List.replicate zeros '0' ++ digits ∧ fraction.length = places := by
  let padded := List.replicate (places + 1 - digits.length) '0' ++ digits
  have length : places < padded.length := by
    simp only [padded, List.length_append, List.length_replicate]
    omega
  refine ⟨padded.take (padded.length - places), padded.drop (padded.length - places), _, rfl, ?_,
    List.take_append_drop _ _, ?_⟩
  · rw [← List.length_pos_iff, List.length_take]
    omega
  · rw [List.length_drop]
    omega

theorem digit_of_mem {n k : Nat} {c : Char} (member : c ∈ List.replicate k '0' ++ Nat.toDigits 10 n) :
    c.isDigit := by
  rcases List.mem_append.1 member with zero | digit
  · rw [List.eq_of_mem_replicate zero]
    rfl
  · exact Nat.isDigit_of_mem_toDigits (by decide) (by decide) digit

theorem point_not_mem {text : List Char} (digits : ∀ c ∈ text, c.isDigit) : '.' ∉ text :=
  fun member => absurd (digits '.' member) (by decide)

theorem numeral_chars : (d : Decimal) → numeral d.chars = d.value
  | ⟨digits, .ofNat zeros⟩ => by
    have all : ∀ c ∈ Nat.toDigits 10 digits ++ List.replicate zeros '0', c.isDigit := fun c member =>
      digit_of_mem (List.perm_append_comm.subset member)
    simp only [chars, value]
    rw [numeral_whole (point_not_mem all), digitsValue_append_zeros, digitsValue_toDigits]
    push_cast
    simp [mul_comm]
  | ⟨digits, .negSucc n⟩ => by
    obtain ⟨whole, fraction, zeros, shape, -, same, length⟩ := pointed_eq (n + 1) (Nat.toDigits 10 digits)
    have all : ∀ c ∈ whole, c.isDigit := fun c member =>
      digit_of_mem (same ▸ List.mem_append_left fraction member)
    simp only [chars, value]
    rw [shape, numeral_point (point_not_mem all), same, digitsValue_zeros_append, digitsValue_toDigits,
      length, zpow_negSucc, div_eq_mul_inv]

theorem chars_form : (d : Decimal) → d.chars ≠ [] ∧ ∀ c ∈ d.chars, c.isDigit ∨ c = '.'
  | ⟨digits, .ofNat zeros⟩ => by
    refine ⟨List.append_ne_nil_of_left_ne_nil Nat.toDigits_ne_nil _, fun c member => .inl ?_⟩
    exact digit_of_mem (List.perm_append_comm.subset member)
  | ⟨digits, .negSucc n⟩ => by
    obtain ⟨whole, fraction, zeros, shape, some, same, -⟩ := pointed_eq (n + 1) (Nat.toDigits 10 digits)
    simp only [chars]
    rw [shape]
    refine ⟨List.append_ne_nil_of_left_ne_nil some _, fun c member => ?_⟩
    obtain point | digit : c = '.' ∨ c ∈ whole ++ fraction := by
      simp only [List.mem_append, List.mem_cons] at member ⊢
      tauto
    · exact .inr point
    · exact .inl (digit_of_mem (same ▸ digit))

end Decimal

namespace RoundingSpan

def Within (s : RoundingSpan) (q : ℚ) : Prop :=
  if s.closed then s.low ≤ q * s.unit ∧ q * s.unit ≤ s.high
  else s.low < q * s.unit ∧ q * s.unit < s.high

theorem holds_iff (s : RoundingSpan) (n : Nat) : s.holds n ↔ s.Within n := by
  unfold holds Within
  split <;> simp only [Bool.and_eq_true, decide_eq_true_eq] <;> norm_cast

theorem holds_of_nearest? {s : RoundingSpan} {n : Nat} (found : s.nearest? = some n) : s.holds n := by
  unfold nearest? at found
  dsimp only at found
  split at found
  · obtain rfl := Option.some.inj found
    split <;> assumption
  · obtain rfl := Option.some.inj found
    assumption
  · obtain rfl := Option.some.inj found
    assumption
  · nomatch found

theorem zpow_mul_toNat {b : ℚ} (positive : 0 < b) (p : Int) : b ^ p * b ^ (-p).toNat = b ^ p.toNat := by
  rw [← zpow_natCast, ← zpow_natCast, ← zpow_add₀ positive.ne']
  congr 1
  omega

theorem within_measured (s : RoundingSpan) (power : Int) (q : ℚ) :
    (s.measured power).Within q ↔ s.Within (q * 10 ^ power) := by
  have finer : (0 : ℚ) < 10 ^ (-power).toNat := by positivity
  have scaled : q * (s.unit * 10 ^ power.toNat) = q * 10 ^ power * s.unit * 10 ^ (-power).toNat := by
    rw [← zpow_mul_toNat (by norm_num) power]
    ring
  unfold Within measured
  simp only [Nat.pow_eq, Nat.cast_mul, Nat.cast_pow, Nat.cast_ofNat, scaled,
    mul_le_mul_iff_left₀ finer, mul_lt_mul_iff_left₀ finer]

/-- The mantissas and exponents of doubles. -/
structure Canonical (m : Nat) (e : Int) : Prop where
  positive : 0 < m
  bounded : m < 2 ^ 53
  least : -1074 ≤ e
  full : e = -1074 ∨ 2 ^ 52 ≤ m

def reach (m : Nat) (e : Int) : Nat :=
  if m = 2 ^ 52 ∧ -1074 < e then 1 else 2

theorem reach_bounds (m : Nat) (e : Int) : 1 ≤ reach m e ∧ reach m e ≤ 2 := by
  unfold reach
  split <;> decide

theorem cast_low {m : Nat} (positive : 0 < m) (e : Int) :
    ((4 * m - reach m e : Nat) : ℚ) = 4 * m - reach m e := by
  have le : reach m e ≤ 4 * m := by
    have := reach_bounds m e
    omega
  rw [Nat.cast_sub le]
  push_cast
  rfl

theorem within_of {m : Nat} {e : Int} {q : ℚ} (positive : 0 < m) :
    (of m e).Within q ↔
      if m % 2 = 0 then (4 * m - reach m e) * 2 ^ (e - 2) ≤ q ∧ q ≤ (4 * m + 2) * 2 ^ (e - 2)
      else (4 * m - reach m e) * 2 ^ (e - 2) < q ∧ q < (4 * m + 2) * 2 ^ (e - 2) := by
  have unit : (0 : ℚ) < 2 ^ (2 - e).toNat := by positivity
  have scale : (2 : ℚ) ^ (e - 2).toNat = 2 ^ (e - 2) * 2 ^ (2 - e).toNat := by
    rw [← zpow_mul_toNat (by norm_num), neg_sub]
  have low : ((4 * m - (if m = 2 ^ 52 ∧ -1074 < e then 1 else 2) : Nat) : ℚ) = 4 * m - reach m e :=
    cast_low positive e
  unfold Within of
  simp only [Nat.pow_eq, Nat.cast_mul, low, Nat.cast_pow, Nat.cast_add, scale, Nat.cast_ofNat,
    ← mul_assoc, mul_le_mul_iff_left₀ unit, mul_lt_mul_iff_left₀ unit, decide_eq_true_eq]

theorem within_self {m : Nat} (positive : 0 < m) (e : Int) : (of m e).Within (m * 2 ^ e) := by
  have split : (m : ℚ) * 2 ^ e = 4 * m * 2 ^ (e - 2) := by
    rw [zpow_sub₀ (by norm_num)]
    ring
  have quarter : (0 : ℚ) < 2 ^ (e - 2) := by positivity
  have reach : (1 : ℚ) ≤ reach m e := by exact_mod_cast (reach_bounds m e).1
  rw [within_of positive, split]
  split
  · constructor <;> gcongr <;> linarith
  · constructor <;> gcongr <;> linarith

theorem Within.pos {m : Nat} {e : Int} {q : ℚ} (within : (of m e).Within q) (positive : 0 < m) :
    0 < q := by
  have low : (0 : ℚ) < (4 * m - reach m e) * 2 ^ (e - 2) := by
    have : (reach m e : ℚ) ≤ 2 := by exact_mod_cast (reach_bounds m e).2
    have : (1 : ℚ) ≤ m := by exact_mod_cast positive
    apply mul_pos
    · linarith
    · positivity
  rw [within_of positive] at within
  split at within
  · exact low.trans_le within.1
  · exact low.trans within.1

/-- Of two doubles the span of the smaller ends before that of the larger begins; where they meet, one
of the two is open. -/
theorem upper_le_lower {m n : Nat} {e f : Int} (first : Canonical m e) (second : Canonical n f)
    (smaller : e < f ∨ e = f ∧ m < n) :
    (4 * m + 2) * (2 : ℚ) ^ (e - 2) ≤ (4 * n - reach n f) * 2 ^ (f - 2) ∧
      (m % 2 = 0 → n % 2 = 0 →
        (4 * m + 2) * (2 : ℚ) ^ (e - 2) < (4 * n - reach n f) * 2 ^ (f - 2)) := by
  obtain ⟨k, rfl⟩ : ∃ k : Nat, f = e + k := ⟨(f - e).toNat, by omega⟩
  have shift : (2 : ℚ) ^ (e + k - 2) = 2 ^ k * 2 ^ (e - 2) := by
    rw [← zpow_natCast, ← zpow_add₀ (by norm_num)]
    congr 1
    omega
  have quarter : (0 : ℚ) < 2 ^ (e - 2) := by positivity
  rw [shift, ← mul_assoc, mul_le_mul_iff_left₀ quarter, mul_lt_mul_iff_left₀ quarter]
  rw [← cast_low second.positive]
  norm_cast
  obtain ⟨-, bounded, least, -⟩ := first
  obtain ⟨-, -, -, full⟩ := second
  unfold reach
  rcases smaller with finer | ⟨same, less⟩
  · -- the larger one has a full mantissa, and its last bit counts at least twice
    have twice : 2 ≤ 2 ^ k := Nat.le_self_pow (by omega) 2
    have step : (4 * n - reach n (e + k)) * 2 ≤ (4 * n - reach n (e + k)) * 2 ^ k :=
      Nat.mul_le_mul_left _ twice
    unfold reach at step
    split at step <;> split <;> omega
  · obtain rfl : k = 0 := by omega
    split <;> omega

theorem within_unique {m n : Nat} {e f : Int} {q : ℚ} (first : Canonical m e) (second : Canonical n f)
    (here : (of m e).Within q) (there : (of n f).Within q) : m = n ∧ e = f := by
  have apart {m n : Nat} {e f : Int} (first : Canonical m e) (second : Canonical n f)
      (here : (of m e).Within q) (there : (of n f).Within q) : ¬ (e < f ∨ e = f ∧ m < n) := by
    intro smaller
    obtain ⟨meet, between⟩ := upper_le_lower first second smaller
    rw [within_of first.positive] at here
    rw [within_of second.positive] at there
    split at here <;> split at there
    · linarith [between ‹_› ‹_›, here.2, there.1]
    · linarith [here.2, there.1]
    · linarith [here.2, there.1]
    · linarith [here.2, there.1]
  have below := apart first second here there
  have above := apart second first there here
  omega

end RoundingSpan

namespace Decimal

theorem value_exact (m : Nat) (e : Int) : (exact m e).value = m * 2 ^ e := by
  cases e with
  | ofNat n => simp [exact, value]
  | negSucc n =>
    simp only [exact, value, Nat.pow_eq, zpow_negSucc]
    push_cast
    have : (10 : ℚ) ^ (n + 1) = 5 ^ (n + 1) * 2 ^ (n + 1) := by
      rw [← mul_pow]
      norm_num
    rw [this]
    field_simp

/-- The digits that are written for a double round to it. -/
theorem within_shortest {m : Nat} (positive : 0 < m) (e : Int) :
    (RoundingSpan.of m e).Within (shortest m e).value := by
  unfold shortest
  dsimp only
  generalize tried : (List.range 20).findSome? _ = found
  cases found with
  | none =>
    rw [Option.getD_none, value_exact]
    exact RoundingSpan.within_self positive e
  | some d =>
    obtain ⟨i, -, nearest⟩ := List.exists_of_findSome?_eq_some tried
    obtain ⟨n, found, rfl⟩ := Option.map_eq_some_iff.1 nearest
    have holds := (RoundingSpan.holds_iff _ n).1 (RoundingSpan.holds_of_nearest? found)
    exact (RoundingSpan.within_measured _ _ _).1 holds

end Decimal

namespace Number

open Float.Model

theorem toNat_one_append (stored : BitVec 52) : (1#1 ++ stored).toNat = 2 ^ 52 + stored.toNat := by
  have sum := Nat.two_pow_add_eq_or_of_lt stored.isLt 1
  rw [Nat.mul_one] at sum
  rw [BitVec.toNat_append, sum]
  rfl

theorem canonical_of_unpack {x : Float} {sign : UnpackedFloat.Sign} {m : Nat} {e : Int} {positive : 0 < m}
    (finite : x.toModel.unpack = .finite sign m e positive) : RoundingSpan.Canonical m e := by
  unfold Float.Model.unpack UnpackedFloat.unpack at finite
  dsimp only at finite
  have bounded : (@UnpackedFloat.unpackMantissa .binary64 x.toModel.toBits.toBitVec).toNat < 2 ^ 52 :=
    BitVec.isLt _
  split at finite
  · split at finite <;> nomatch finite
  split at finite
  · split at finite
    · nomatch finite
    · rename_i zero _
      obtain ⟨-, rfl, rfl⟩ := UnpackedFloat.finite.inj finite
      refine ⟨positive, bounded.trans (by norm_num), ?_, .inl ?_⟩ <;> simp [zero, Format.exponentBias]
  · rename_i zero
    obtain ⟨-, rfl, rfl⟩ := UnpackedFloat.finite.inj finite
    have exponent := BitVec.toNat_pos_of_ne_zero zero
    refine ⟨positive, ?_, ?_, .inr ?_⟩
    · rw [toNat_one_append]
      omega
    · simp [Format.exponentBias]
      omega
    · rw [toNat_one_append]
      omega

theorem eq_of_unpack {x y : Float} (same : x.toModel.unpack = y.toModel.unpack) : x = y := by
  have bits := (UnpackedFloat.unpack_inj_of_valid x.toModel.valid y.toModel.valid).1 same
  exact Float.toBits_inj.1 (UInt64.toBitVec_inj.1 bits)

/-- A number of this sign rounds to the double, which has the sign even if it is zero. -/
inductive Rounds : UnpackedFloat → UnpackedFloat.Sign → ℚ → Prop
  | zero (sign : UnpackedFloat.Sign) : Rounds (.zero sign) sign 0
  | finite {sign : UnpackedFloat.Sign} {m : Nat} {e : Int} {positive : 0 < m} {q : ℚ} :
      RoundingSpan.Canonical m e → (RoundingSpan.of m e).Within q →
      Rounds (.finite sign m e positive) sign q

theorem Rounds.unique {u v : UnpackedFloat} {sign : UnpackedFloat.Sign} {q : ℚ} (here : Rounds u sign q)
    (there : Rounds v sign q) : u = v := by
  cases here with
  | zero =>
    cases there with
    | zero => rfl
    | finite canonical within => exact absurd (within.pos canonical.positive) (lt_irrefl 0)
  | finite canonical within =>
    cases there with
    | zero => exact absurd (within.pos canonical.positive) (lt_irrefl 0)
    | finite canonical' within' =>
      obtain ⟨rfl, rfl⟩ := RoundingSpan.within_unique canonical canonical' within within'
      rfl

theorem text_of_finite {x : Float} (finite : x.isFinite) (infinity : String) :
    ∃ sign digits, text infinity x = signText sign ++ String.ofList digits ∧ digits ≠ [] ∧
      (∀ c ∈ digits, c.isDigit ∨ c = '.') ∧ Rounds x.toModel.unpack sign (numeral digits) := by
  unfold text
  change x.toModel.unpack.isFinite at finite
  cases unpacked : x.toModel.unpack with
  | notANumber => simp [unpacked, UnpackedFloat.isFinite] at finite
  | infinity sign => simp [unpacked, UnpackedFloat.isFinite] at finite
  | zero sign =>
    have none : numeral ['0'] = 0 := by
      rw [numeral_whole (by decide)]
      rfl
    exact ⟨sign, ['0'], rfl, by simp, by simp, none ▸ .zero sign⟩
  | finite sign m e positive =>
    obtain ⟨some, form⟩ := (Decimal.shortest m e).chars_form
    refine ⟨sign, (Decimal.shortest m e).chars, rfl, some, form, ?_⟩
    rw [Decimal.numeral_chars]
    exact .finite (canonical_of_unpack unpacked) (Decimal.within_shortest positive e)

theorem signText_injective {sign sign' : UnpackedFloat.Sign} {digits digits' : List Char}
    (plain : '-' ∉ digits) (plain' : '-' ∉ digits')
    (same : signText sign ++ String.ofList digits = signText sign' ++ String.ofList digits') :
    sign = sign' ∧ digits = digits' := by
  have chars := congrArg String.toList same
  rw [String.toList_append, String.toList_append, String.toList_ofList, String.toList_ofList] at chars
  cases sign <;> cases sign' <;> simp only [signText] at chars
  · exact ⟨rfl, by simpa using chars⟩
  · obtain rfl : '-' :: digits = digits' := by simpa using chars
    exact absurd List.mem_cons_self plain'
  · obtain rfl : digits = '-' :: digits' := by simpa using chars
    exact absurd List.mem_cons_self plain
  · exact ⟨rfl, by simpa using chars⟩

/-- Finite numbers with one text are the same number, zeros of either sign included. -/
theorem text_injective {x y : Float} (finite : x.isFinite) (finite' : y.isFinite) {infinity : String}
    (same : text infinity x = text infinity y) : x = y := by
  obtain ⟨sign, digits, written, -, form, rounds⟩ := text_of_finite finite infinity
  obtain ⟨sign', digits', written', -, form', rounds'⟩ := text_of_finite finite' infinity
  have plain {digits : List Char} (form : ∀ c ∈ digits, c.isDigit ∨ c = '.') : '-' ∉ digits :=
    fun member => absurd (form '-' member) (by decide)
  rw [written, written'] at same
  obtain ⟨rfl, rfl⟩ := signText_injective (plain form) (plain form') same
  exact eq_of_unpack (rounds.unique rounds')

end Number

end Scriptlet
