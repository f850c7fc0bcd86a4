import Scriptlet.Proofs.Numerals
import Scriptlet.Proofs.Semantics

/-! Remainders are exact. Both numbers are counted in the smaller of their two units; what is left of the
first count has no more bits than a mantissa, so it is rounded to itself. -/
namespace Scriptlet

namespace Number

open Float.Model UnpackedFloat
open RoundingSpan (Canonical)

theorem shiftToTargetExponent_of_fits {m : Nat} {e : Int} (bounded : m < 2 ^ 53) (least : -1074 ≤ e) :
    shiftToTargetExponent .binary64 m e .exact = (⟨m, false, false⟩, e) := by
  have short : m.log2 ≤ 52 := by
    by_cases zero : m = 0
    · simp [zero]
    · exact Nat.le_of_lt_succ ((Nat.log2_lt zero).2 bounded)
  have target : Format.binary64.targetExponent (totalExponent m e) ≤ e := by
    simp only [Format.targetExponent, totalExponent, Format.mantissaBits, Format.minExponent]
    omega
  have still : (Format.binary64.targetExponent (totalExponent m e) - e).toNat = 0 :=
    Int.toNat_of_nonpos (by omega)
  simp only [shiftToTargetExponent, shiftToExponent, still, Nat.cast_zero, add_zero]
  rfl

theorem roundWithAccuracy_of_fits (sign : Sign) {m : Nat} {e : Int} (bounded : m < 2 ^ 53)
    (least : -1074 ≤ e) : roundWithAccuracy .binary64 sign m e .exact =
      if zero : m = 0 then .zero sign else .finite sign m e (Nat.pos_of_ne_zero zero) := by
  have fits := shiftToTargetExponent_of_fits bounded least
  have whole : (ExtendedMantissa.mk m false false).roundedMantissa = m := rfl
  simp only [roundWithAccuracy, fits, whole]

theorem round_zero (sign : Sign) {e : Int} (least : -1074 ≤ e) :
    UnpackedFloat.round .binary64 sign 0 e = .zero sign := by
  have target : Format.binary64.targetExponent (totalExponent 0 e) = max (e - 52) (-1074) := by
    simp only [Format.targetExponent, totalExponent, Format.mantissaBits, Format.minExponent]
    simp
    omega
  simp only [UnpackedFloat.round, decreaseExponent, Nat.zero_shiftLeft]
  rw [roundWithAccuracy_of_fits sign (by norm_num) (by omega), dif_pos rfl]

theorem round_of_fits (sign : Sign) {m : Nat} {e : Int} (positive : 0 < m) (bounded : m < 2 ^ 53)
    (least : -1074 ≤ e) (greatest : e ≤ 971) :
    ∃ n f, ∃ canonical : Canonical n f, (n * 2 ^ f : ℚ) = m * 2 ^ e ∧ f ≤ 971 ∧
      UnpackedFloat.round .binary64 sign m e = .finite sign n f canonical.positive := by
  have short : m.log2 ≤ 52 := Nat.le_of_lt_succ ((Nat.log2_lt positive.ne').2 bounded)
  have target : Format.binary64.targetExponent (totalExponent m e) = max (m.log2 + e - 52) (-1074) := by
    simp only [Format.targetExponent, totalExponent, Format.mantissaBits, Format.minExponent]
    omega
  obtain ⟨k, shift⟩ : ∃ k : Nat, e - Format.binary64.targetExponent (totalExponent m e) = k :=
    Int.eq_ofNat_of_zero_le (by omega)
  have room : m.log2 + k ≤ 52 := by omega
  have canonical : Canonical (m * 2 ^ k) (e - k) := by
    refine ⟨by positivity, ?_, by omega, ?_⟩
    · calc m * 2 ^ k < 2 ^ (m.log2 + 1) * 2 ^ k := by gcongr; exact Nat.lt_log2_self
        _ = 2 ^ (m.log2 + 1 + k) := (Nat.pow_add ..).symm
        _ ≤ 2 ^ 53 := Nat.pow_le_pow_right (by norm_num) (by omega)
    · by_cases lowest : e - k = -1074
      · exact .inl lowest
      · refine .inr ?_
        calc 2 ^ 52 = 2 ^ m.log2 * 2 ^ k := by rw [← Nat.pow_add]; congr 1; omega
          _ ≤ m * 2 ^ k := by gcongr; exact Nat.log2_self_le positive.ne'
  refine ⟨m * 2 ^ k, e - k, canonical, ?_, by omega, ?_⟩
  · rw [Nat.cast_mul, Nat.cast_pow, Nat.cast_ofNat, mul_assoc, ← zpow_natCast,
      ← zpow_add₀ (by norm_num), add_sub_cancel]
  · rw [UnpackedFloat.round, decreaseExponent, shift, Int.toNat_natCast, Nat.shiftLeft_eq]
    exact (roundWithAccuracy_of_fits sign canonical.bounded canonical.least).trans
      (dif_neg canonical.positive.ne')

theorem ofBitVec_unpackSign {spec : Format} (sign : Sign) (exponent : BitVec spec.exponentBits)
    (mantissa : BitVec spec.mantissaBitsWithoutImplicit) :
    Sign.ofBitVec (unpackSign (packComponents spec sign exponent mantissa)) = sign := by
  have bit : unpackSign (packComponents spec sign exponent mantissa) = sign.toBitVec := by
    refine BitVec.eq_of_getLsbD_eq fun i inside => ?_
    obtain rfl : i = 0 := by omega
    simp [unpackSign, packComponents, BitVec.getLsbD_append, BitVec.getElem_append]
  rw [bit]
  cases sign <;> rfl

theorem unpack_pack (sign : Sign) {m : Nat} {e : Int} (canonical : Canonical m e)
    (greatest : e ≤ 971) :
    (Float.Model.pack (.finite sign m e canonical.positive)).unpack =
      .finite sign m e canonical.positive := by
  obtain ⟨positive, bounded, least, full⟩ := canonical
  obtain ⟨b, biased⟩ : ∃ b : Nat, e + 1075 = b := Int.eq_ofNat_of_zero_le (by omega)
  have exponent : (e + (Format.binary64.exponentBias : Int) + (52 : Nat)).toNat = b := by
    simp only [Format.exponentBias]
    omega
  have inside : ¬ 2 ^ 11 ≤ b + 1 := by omega
  have leads : m.log2 + 1 = 53 ↔ 2 ^ 52 ≤ m := by
    rw [← Nat.le_log2 positive.ne']
    have := (Nat.log2_lt positive.ne').2 bounded
    omega
  unfold Float.Model.unpack Float.Model.pack
  simp only [UnpackedFloat.pack, Format.mantissaBits, exponent, inside, if_false, leads]
  split
  · rename_i large
    have kept : (BitVec.ofNat 11 b).toNat = b := by
      rw [BitVec.toNat_ofNat, Nat.mod_eq_of_lt (by omega)]
    have zero : BitVec.ofNat 11 b ≠ 0#11 := by
      rw [ne_eq, ← BitVec.toNat_inj, kept, BitVec.toNat_zero]
      omega
    have ones : BitVec.ofNat 11 b ≠ -1#11 := by
      rw [ne_eq, ← BitVec.toNat_inj, kept]
      exact fun same => inside (by rw [same]; decide)
    have mantissa : (1#1 ++ BitVec.ofNat 52 m).toNat = m := by
      rw [toNat_one_append, BitVec.toNat_ofNat]
      omega
    simp only [UnpackedFloat.unpack, unpackMantissa_packComponents, unpackExponent_packComponents,
      ofBitVec_unpackSign, zero, ones, if_false, kept, mantissa]
    congr 1
    simp [Format.exponentBias]
    omega
  · rename_i small
    have kept : (BitVec.ofNat 52 m).toNat = m := by
      rw [BitVec.toNat_ofNat, Nat.mod_eq_of_lt (by omega)]
    have zero : BitVec.ofNat 52 m ≠ 0#52 := by
      rw [ne_eq, ← BitVec.toNat_inj, kept, BitVec.toNat_zero]
      omega
    obtain rfl : e = -1074 := full.resolve_right small
    simp only [UnpackedFloat.unpack, unpackMantissa_packComponents, unpackExponent_packComponents,
      ofBitVec_unpackSign, zero, kept]
    rfl

theorem unpack_pack_zero (sign : Sign) : (Float.Model.pack (.zero sign)).unpack = .zero sign := by
  cases sign <;> rfl

theorem unpack_notANumber : notANumber.toModel.unpack = .notANumber := rfl

theorem greatest_of_unpack {x : Float} {sign : Sign} {m : Nat} {e : Int} {positive : 0 < m}
    (finite : x.toModel.unpack = .finite sign m e positive) : e ≤ 971 := by
  unfold Float.Model.unpack UnpackedFloat.unpack at finite
  dsimp only at finite
  split at finite
  · split at finite <;> nomatch finite
  rename_i inside
  have below : (@unpackExponent .binary64 x.toModel.toBits.toBitVec).toNat < 2047 := by
    refine Nat.lt_of_le_of_ne (Nat.le_of_lt_succ (BitVec.isLt _)) fun same => inside ?_
    exact BitVec.eq_of_toNat_eq same
  split at finite
  · split at finite
    · nomatch finite
    · rename_i zero _
      obtain ⟨-, -, rfl⟩ := UnpackedFloat.finite.inj finite
      simp [zero, Format.exponentBias]
  · obtain ⟨-, -, rfl⟩ := UnpackedFloat.finite.inj finite
    simp only [Format.exponentBias]
    omega

end Number

namespace Reference

open Float.Model UnpackedFloat Number

namespace Measures

variable {x y : Float} {sign sign' : Sign} {a b : ℚ}

theorem rounds (measures : Measures x sign a) : Rounds x.toModel.unpack sign a := by
  cases measures with
  | zero unpacked => exact unpacked ▸ .zero sign
  | finite unpacked =>
    rename_i m e positive
    exact unpacked ▸ .finite (canonical_of_unpack unpacked) (RoundingSpan.within_self positive e)

theorem injective (here : Measures x sign a) (there : Measures y sign a) : x = y :=
  eq_of_unpack (here.rounds.unique there.rounds)

theorem unpack_eq_zero (measures : Measures x sign a) (none : a = 0) :
    x.toModel.unpack = .zero sign := by
  cases measures with
  | zero unpacked => exact unpacked
  | @finite m e positive unpacked =>
    have some : (0 : ℚ) < m * 2 ^ e := by positivity
    exact absurd none some.ne'

theorem nonneg (measures : Measures x sign a) : 0 ≤ a := by
  cases measures with
  | zero => exact le_rfl
  | finite => positivity

theorem exists_of_finite (finite : x.isFinite) : ∃ sign a, Measures x sign a := by
  change x.toModel.unpack.isFinite at finite
  cases unpacked : x.toModel.unpack with
  | notANumber => simp [unpacked, UnpackedFloat.isFinite] at finite
  | infinity sign => simp [unpacked, UnpackedFloat.isFinite] at finite
  | zero sign => exact ⟨sign, 0, .zero unpacked⟩
  | finite sign m e positive => exact ⟨sign, m * 2 ^ e, .finite unpacked⟩

theorem of_round (sign : Sign) {m : Nat} {e : Int} (bounded : m < 2 ^ 53) (least : -1074 ≤ e)
    (greatest : e ≤ 971) :
    Measures (.ofModel (.pack (.round .binary64 sign m e))) sign (m * 2 ^ e) := by
  obtain rfl | positive := Nat.eq_zero_or_pos m
  · rw [round_zero sign least, Nat.cast_zero, zero_mul]
    exact .zero (unpack_pack_zero sign)
  · obtain ⟨n, f, canonical, same, below, rounded⟩ :=
      round_of_fits sign positive bounded least greatest
    rw [rounded, ← same]
    exact .finite (unpack_pack sign canonical below)

/-- Two numbers in the smaller of their units. -/
theorem remainder_of_finite {s s' : Sign} {m n : Nat} {e f : Int} {positive : 0 < m}
    {positive' : 0 < n} (first : x.toModel.unpack = .finite s m e positive)
    (second : y.toModel.unpack = .finite s' n f positive') :
    ∃ (c : ℚ) (times : Nat), Measures (Number.remainder x y) s c ∧
      (m * 2 ^ e : ℚ) = times * (n * 2 ^ f) + c ∧ c < n * 2 ^ f := by
  have canonical := canonical_of_unpack first
  have canonical' := canonical_of_unpack second
  have greatest := greatest_of_unpack first
  obtain ⟨unit, least⟩ : ∃ unit, unit = min e f := ⟨_, rfl⟩
  obtain ⟨k, above⟩ : ∃ k : Nat, e - unit = k := Int.eq_ofNat_of_zero_le (by omega)
  obtain ⟨l, above'⟩ : ∃ l : Nat, f - unit = l := Int.eq_ofNat_of_zero_le (by omega)
  have inUnits {j : Nat} {g : Int} {i : Nat} (more : g - unit = j) :
      (i * 2 ^ g : ℚ) = ((i * 2 ^ j : Nat) : ℚ) * 2 ^ unit := by
    rw [Nat.cast_mul, Nat.cast_pow, Nat.cast_ofNat, mul_assoc, ← zpow_natCast, ← more,
      ← zpow_add₀ (by norm_num), sub_add_cancel]
  have some : 0 < n * 2 ^ l := by positivity
  -- one of the two is counted in its own unit, so the rest fits into a mantissa
  have bounded : m * 2 ^ k % (n * 2 ^ l) < 2 ^ 53 := by
    obtain rfl | rfl : k = 0 ∨ l = 0 := by omega
    · exact lt_of_le_of_lt (Nat.mod_le _ _) (by simpa using canonical.bounded)
    · exact lt_trans (Nat.mod_lt _ some) (by simpa using canonical'.bounded)
  have result : Number.remainder x y =
      .ofModel (.pack (.round .binary64 s (m * 2 ^ k % (n * 2 ^ l)) unit)) := by
    simp only [Number.remainder, first, second, ← least, above, above', Int.toNat_natCast,
      Nat.shiftLeft_eq]
  refine ⟨(m * 2 ^ k % (n * 2 ^ l) : Nat) * 2 ^ unit, m * 2 ^ k / (n * 2 ^ l), ?_, ?_, ?_⟩
  · rw [result]
    exact of_round s bounded (by have := canonical.least; have := canonical'.least; omega) (by omega)
  · have split := congrArg (Nat.cast (R := ℚ)) (Nat.div_add_mod' (m * 2 ^ k) (n * 2 ^ l))
    rw [inUnits above, inUnits above', ← split, Nat.cast_add, Nat.cast_mul]
    ring
  · rw [inUnits above']
    exact mul_lt_mul_of_pos_right (Nat.cast_lt.2 (Nat.mod_lt _ some)) (by positivity)

theorem remainder (first : Measures x sign a) (second : Measures y sign' b) (some : 0 < b) :
    ∃ (c : ℚ) (times : Nat), Measures (Number.remainder x y) sign c ∧ a = times * b + c ∧ c < b := by
  cases second with
  | zero => exact absurd some (lt_irrefl 0)
  | finite unpacked' =>
    cases first with
    | zero unpacked =>
      have same : Number.remainder x y = x := by simp only [Number.remainder, unpacked, unpacked']
      exact ⟨0, 0, same.symm ▸ .zero unpacked, by simp, some⟩
    | finite unpacked => exact remainder_of_finite unpacked unpacked'

end Measures

namespace Remainder

variable {x y r : Float}

/-- A number fits only so often into another that less than it is left. -/
theorem left_unique {b c d : ℚ} {s t : Nat} (same : s * b + c = t * b + d) (positive : 0 ≤ c)
    (positive' : 0 ≤ d) (below : c < b) (below' : d < b) : c = d := by
  obtain less | equal | more := lt_trichotomy s t
  · have next : ((s + 1 : Nat) : ℚ) ≤ t := Nat.cast_le.2 less
    push_cast at next
    nlinarith
  · rw [equal] at same
    exact add_left_cancel same
  · have next : ((t + 1 : Nat) : ℚ) ≤ s := Nat.cast_le.2 more
    push_cast at next
    nlinarith

theorem remainder_of_infinite (finite : x.isFinite) (infinite : y.isInf) :
    Number.remainder x y = x := by
  change x.toModel.unpack.isFinite at finite
  change y.toModel.unpack.isInf at infinite
  rw [Number.remainder]
  cases unpacked : x.toModel.unpack <;> cases unpacked' : y.toModel.unpack <;>
    simp_all [UnpackedFloat.isFinite, UnpackedFloat.isInf]

theorem remainder_of_undefined
    (without : x.isFinite = false ∨ y.isNaN ∨ ∃ sign, Measures y sign 0) :
    Number.remainder x y = Number.notANumber := by
  have forms : x.toModel.unpack.isFinite = false ∨ y.toModel.unpack.isNaN ∨
      ∃ sign, y.toModel.unpack = .zero sign :=
    without.imp_right fun other =>
      other.imp_right fun ⟨sign, measures⟩ => ⟨sign, measures.unpack_eq_zero rfl⟩
  clear without
  rw [Number.remainder]
  cases unpacked : x.toModel.unpack <;> cases unpacked' : y.toModel.unpack <;>
    simp_all [UnpackedFloat.isFinite, UnpackedFloat.isNaN]

theorem eq_remainder (rule : Remainder x y r) : r = Number.remainder x y := by
  cases rule with
  | exact first second last split below =>
    have some := lt_of_le_of_lt last.nonneg below
    obtain ⟨c, times, result, split', below'⟩ := first.remainder second some
    have same := left_unique (split.symm.trans split') last.nonneg result.nonneg below below'
    exact last.injective (same ▸ result)
  | all finite infinite => exact (remainder_of_infinite finite infinite).symm
  | undefined without none =>
    rw [remainder_of_undefined without]
    refine eq_of_unpack ?_
    change r.toModel.unpack.isNaN at none
    rw [unpack_notANumber]
    cases unpacked : r.toModel.unpack <;> simp_all [UnpackedFloat.isNaN]

theorem of_remainder (x y : Float) : Remainder x y (Number.remainder x y) := by
  by_cases without : x.isFinite = false ∨ y.isNaN ∨ ∃ sign, Measures y sign 0
  · rw [remainder_of_undefined without]
    exact .undefined without rfl
  push Not at without
  obtain ⟨finite, number, zero⟩ := without
  have finite : x.isFinite := by simpa using finite
  by_cases infinite : y.isInf
  · rw [remainder_of_infinite finite infinite]
    exact .all finite infinite
  have finite' : y.isFinite := by
    change y.toModel.unpack.isFinite
    change ¬ y.toModel.unpack.isInf at infinite
    change ¬ y.toModel.unpack.isNaN at number
    cases unpacked : y.toModel.unpack <;>
      simp_all [UnpackedFloat.isNaN, UnpackedFloat.isInf, UnpackedFloat.isFinite]
  obtain ⟨sign, a, first⟩ := Measures.exists_of_finite finite
  obtain ⟨sign', b, second⟩ := Measures.exists_of_finite finite'
  have some : 0 < b := lt_of_le_of_ne second.nonneg (by rintro rfl; exact zero sign' second)
  obtain ⟨c, times, result, split, below⟩ := first.remainder second some
  exact .exact first second result split below

end Remainder

end Reference

end Scriptlet
