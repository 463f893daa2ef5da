import Mathlib

/- Counts in single precision. `UInt64.toFloat32` rounds a count to 24 bits, to the nearest
   number and to an even one where two are as near; a power of two it keeps, and dividing
   by a power of two rounds nothing any more. `le_div_two_pow_iff` puts this together: a
   ratio of that kind is compared with a constant as the integers are, but for half a unit
   in the last place of the count. -/
namespace Binary32
open Float.Model (Format UnpackedFloat totalExponent)
open Float.Model.UnpackedFloat (Sign Accuracy ExtendedMantissa packComponents roundWithAccuracy
  shiftToTargetExponent shiftToExponent unpackSign_packComponents unpackExponent_packComponents
  unpackMantissa_packComponents unpack_packedZero)

theorem log2_eq {m k : ℕ} (hlow : 2^k ≤ m) (hhigh : m < 2^(k + 1)) : m.log2 = k :=
  (Nat.log2_eq_iff (Nat.ne_of_gt (Nat.lt_of_lt_of_le (Nat.two_pow_pos k) hlow))).mpr ⟨hlow, hhigh⟩

/-- The exponent of a number cut to 24 bits. -/
theorem targetExponent_eq {t : ℤ} (h : -125 ≤ t) : Format.binary32.targetExponent t = t - 24 := by
  have hbits : Format.mantissaBits Format.binary32 = 24 := rfl
  have hleast : Format.minExponent Format.binary32 = -149 := rfl
  simp only [Format.targetExponent, hbits, hleast]
  omega

/-! Rounding. -/

/-- A number without its last `s` bits, and what they say about rounding. -/
theorem shift_eq (n s : ℕ) : (⟨n, false, false⟩ : ExtendedMantissa) >>> s =
    ⟨n / 2^s, 2^s ≤ 2 * (n % 2^s), 2 * n % 2^s ≠ 0⟩ := by
  induction s with
  | zero => simp [HShiftRight.hShiftRight, Nat.repeat, Nat.mod_one]
  | succ s ih =>
    have hstep : (⟨n, false, false⟩ : ExtendedMantissa) >>> (s + 1) =
        ((⟨n, false, false⟩ : ExtendedMantissa) >>> s).shiftRightOne := rfl
    have hpow : 2^(s + 1) = 2 * 2^s := Nat.pow_succ'
    have hlast : 2 * n % 2^(s + 1) = 2 * (n % 2^s) := by rw [hpow, Nat.mul_mod_mul_left]
    have hcut : 2 * n % 2^s = 2 * (n % 2^s) % 2^s := by
      rw [Nat.mul_mod, Nat.mul_mod 2 (n % 2^s), Nat.mod_mod]
    have hr : n % 2^s < 2^s := Nat.mod_lt _ (Nat.two_pow_pos s)
    have hbits : n % 2^(s + 1) = n % 2^s + 2^s * (n / 2^s % 2) := by rw [Nat.pow_succ, Nat.mod_mul]
    rw [hstep, ih]
    simp only [ExtendedMantissa.shiftRightOne, ExtendedMantissa.mk.injEq]
    refine ⟨by rw [Nat.pow_succ, Nat.div_div_eq_div_mul], ?_, ?_⟩
    · rw [hbits, hpow]
      rcases Nat.mod_two_eq_zero_or_one (n / 2^s) with h | h
      · simp [h, hr]
      · simp [h]
    · rw [hlast, hcut]
      by_cases h0 : n % 2^s = 0
      · simp [h0]
      · by_cases hhalf : 2^s ≤ 2 * (n % 2^s)
        · simp [hhalf, h0]
        · rw [Nat.mod_eq_of_lt (by omega : 2 * (n % 2^s) < 2^s)]
          simp [h0]

/-- A number without its last `s` bits, rounded. -/
def rounded (n s : ℕ) : ℕ := ((⟨n, false, false⟩ : ExtendedMantissa) >>> s).roundedMantissa

theorem roundedMantissa_mk (m : ℕ) (half more : Bool) :
    (⟨m, half, more⟩ : ExtendedMantissa).roundedMantissa =
      if half then if more then m + 1 else m + m % 2 else m := by
  cases half <;> cases more <;> rfl

theorem rounded_eq (n s : ℕ) : rounded n s =
    if 2 * (n % 2^s) < 2^s then n / 2^s
    else if 2 * (n % 2^s) = 2^s then n / 2^s + n / 2^s % 2
    else n / 2^s + 1 := by
  have hr : n % 2^s < 2^s := Nat.mod_lt _ (Nat.two_pow_pos s)
  unfold rounded
  rw [shift_eq, Nat.mul_mod, ← Nat.mod_mod n, ← Nat.mul_mod, Nat.mod_mod, roundedMantissa_mk]
  generalize n % 2^s = r at *
  generalize 2^s = p at *
  rcases Nat.lt_trichotomy (2 * r) p with hless | htie | hmore
  · simp [hless, Nat.not_le.mpr hless]
  · simp [htie]
  · have hmod : 2 * r % p = 2 * r - p := by
      rw [Nat.mod_eq_sub_mod (by omega), Nat.mod_eq_of_lt (by omega)]
    simp [hmod, Nat.not_lt.mpr hmore.le, hmore.le, hmore.ne', Nat.sub_ne_zero_of_lt hmore]

/-- It is a nearest number, and an even one where there are two. -/
theorem rounded_spec (n s : ℕ) :
    2 * (rounded n s * 2^s) ≤ 2 * n + 2^s ∧ 2 * n ≤ 2 * (rounded n s * 2^s) + 2^s ∧
      (2 * (rounded n s * 2^s) = 2 * n + 2^s ∨ 2 * n = 2 * (rounded n s * 2^s) + 2^s →
        Even (rounded n s)) := by
  have hn := Nat.div_add_mod' n (2^s)
  have hr : n % 2^s < 2^s := Nat.mod_lt _ (Nat.two_pow_pos s)
  rw [rounded_eq]
  generalize n / 2^s = q at *
  generalize n % 2^s = r at *
  generalize 2^s = p at *
  split_ifs with hless htie
  · exact ⟨by omega, by omega, by omega⟩
  · have heven : Even (q + q % 2) := by
      rw [Nat.even_iff]
      omega
    rcases Nat.mod_two_eq_zero_or_one q with h | h
    · rw [h, add_zero] at heven ⊢
      exact ⟨by omega, by omega, fun _ => heven⟩
    · rw [h] at heven ⊢
      rw [Nat.add_mul, one_mul]
      exact ⟨by omega, by omega, fun _ => heven⟩
  · rw [Nat.add_mul, one_mul]
    exact ⟨by omega, by omega, by omega⟩

theorem rounded_bounds {n s : ℕ} (hlow : 2^(23 + s) ≤ n) (hhigh : n < 2^(24 + s)) :
    2^23 ≤ rounded n s ∧ rounded n s ≤ 2^24 := by
  have hp := Nat.two_pow_pos s
  have hq : n / 2^s < 2^24 := Nat.div_lt_of_lt_mul (by rw [mul_comm, ← Nat.pow_add]; exact hhigh)
  have hq' : 2^23 ≤ n / 2^s := (Nat.le_div_iff_mul_le hp).mpr (by rw [← Nat.pow_add]; exact hlow)
  rw [rounded_eq]
  split_ifs <;> omega

/-- A number is rounded to an even one, or beyond, from half a unit below it on. -/
theorem le_rounded_iff {t : ℕ} (ht : Even t) (hpos : 0 < t) (n s : ℕ) :
    t ≤ rounded n s ↔ (2 * t - 1) * 2^s ≤ 2 * n := by
  obtain ⟨hup, hdown, htie⟩ := rounded_spec n s
  have hp := Nat.two_pow_pos s
  have hodd : (2 * t - 1) * 2^s + 2^s = 2 * (t * 2^s) := by
    rw [← Nat.succ_mul, show (2 * t - 1).succ = 2 * t by omega, Nat.mul_assoc]
  constructor
  · intro hle
    have hmul := Nat.mul_le_mul_right (2^s) hle
    omega
  · intro hle
    by_contra hless
    have hmul : rounded n s * 2^s + 2^s ≤ t * 2^s := by
      rw [← Nat.succ_mul]
      exact Nat.mul_le_mul_right _ (by omega)
    -- only a tie is left, and it goes to the even number
    have heven := htie (by omega)
    have hnext : (rounded n s + 1) * 2^s = t * 2^s := by
      rw [Nat.succ_mul]
      omega
    rw [← Nat.mul_right_cancel hp hnext] at ht
    exact (Nat.even_add_one.mp ht) heven

/-! Numbers with all their 24 bits. -/

/-- The positive number `m · 2^e`. -/
structure Normal (u : UnpackedFloat) (m : ℕ) (e : ℤ) : Prop where
  low : 2^23 ≤ m
  high : m < 2^24
  eq : ∃ h, u = .finite .positive m e h

theorem two_pow_normal (e : ℤ) : Normal (.finite .positive (2^23) e (Nat.two_pow_pos 23)) (2^23) e :=
  ⟨Nat.le_refl _, Nat.pow_lt_pow_right (by decide) (by decide), Nat.two_pow_pos 23, rfl⟩

/-- Rounding up may have given one bit too much. -/
def carry (m : ℕ) (e : ℤ) : ℕ × ℤ := if m < 2^24 then (m, e) else (2^23, e + 1)

theorem carry_cases (m : ℕ) (e : ℤ) :
    m < 2^24 ∧ carry m e = (m, e) ∨ ¬m < 2^24 ∧ carry m e = (2^23, e + 1) := by
  unfold carry
  split_ifs with h
  · exact .inl ⟨h, rfl⟩
  · exact .inr ⟨h, rfl⟩

theorem shiftToTargetExponent_eq {m s : ℕ} {e : ℤ} (hlow : 2^(23 + s) ≤ m) (hhigh : m < 2^(24 + s))
    (hmin : -149 ≤ e + s) : shiftToTargetExponent Format.binary32 m e .exact =
      ((⟨m, false, false⟩ : ExtendedMantissa) >>> s, e + s) := by
  have hlog : m.log2 = 23 + s := log2_eq hlow (by rw [show 23 + s + 1 = 24 + s by omega]; exact hhigh)
  have htarget : Format.binary32.targetExponent (totalExponent m e) = e + s := by
    rw [totalExponent, hlog, targetExponent_eq (by omega)]
    omega
  have hamount : (e + s - e).toNat = s := by omega
  unfold shiftToTargetExponent shiftToExponent
  simp only [htarget, hamount]
  rfl

/-- Rounding shifts once, rounds, and shifts once more. -/
theorem roundWithAccuracy_of_shifts {spec : Format} (sign : Sign) {m : ℕ} {e e₁ e₂ : ℤ}
    {accuracy : Accuracy} {em₁ em₂ : ExtendedMantissa}
    (h₁ : shiftToTargetExponent spec m e accuracy = (em₁, e₁))
    (h₂ : shiftToTargetExponent spec em₁.roundedMantissa e₁ .exact = (em₂, e₂))
    (hpos : 0 < em₂.mantissa) :
    roundWithAccuracy spec sign m e accuracy = .finite sign em₂.mantissa e₂ hpos := by
  unfold roundWithAccuracy
  simp only [h₁, h₂]
  rw [dif_neg (Nat.ne_of_gt hpos)]

theorem roundWithAccuracy_normal {m s : ℕ} {e : ℤ} (hlow : 2^(23 + s) ≤ m) (hhigh : m < 2^(24 + s))
    (hmin : -149 ≤ e + s) : Normal (roundWithAccuracy Format.binary32 .positive m e .exact)
      (carry (rounded m s) (e + s)).1 (carry (rounded m s) (e + s)).2 := by
  obtain ⟨hlow', hhigh'⟩ := rounded_bounds hlow hhigh
  have hfirst := shiftToTargetExponent_eq hlow hhigh hmin
  unfold carry
  by_cases hcarry : rounded m s < 2^24
  · have hsecond := shiftToTargetExponent_eq (s := 0) (e := e + s) hlow' hcarry (by omega)
    have hpos : 0 < rounded m s := by omega
    have hround := roundWithAccuracy_of_shifts .positive hfirst hsecond hpos
    rw [if_pos hcarry]
    refine ⟨hlow', hcarry, hpos, hround.trans ?_⟩
    simp only [Nat.cast_zero, add_zero]
    rfl
  · have hsecond := shiftToTargetExponent_eq (s := 1) (e := e + s) (m := rounded m s) (by omega)
      (by omega) (by omega)
    have hhalf : ((⟨rounded m s, false, false⟩ : ExtendedMantissa) >>> 1).mantissa = 2^23 := by
      rw [shift_eq]
      show rounded m s / 2^1 = 2^23
      omega
    have hround := roundWithAccuracy_of_shifts .positive hfirst hsecond (by rw [hhalf]; decide)
    rw [if_neg hcarry, hround]
    simp only [hhalf]
    exact two_pow_normal _

theorem ofNat_normal {n : ℕ} (hpos : 0 < n) : Normal (UnpackedFloat.ofNat Format.binary32 n)
    (carry (rounded (n * 2^(23 - n.log2)) (n.log2 - 23)) (n.log2 - 23)).1
    (carry (rounded (n * 2^(23 - n.log2)) (n.log2 - 23)) (n.log2 - 23)).2 := by
  have hlow : 2^n.log2 ≤ n := Nat.log2_self_le (Nat.ne_of_gt hpos)
  have hhigh : n < 2^(n.log2 + 1) := Nat.lt_log2_self
  have htarget : Format.binary32.targetExponent (totalExponent n 0) = n.log2 - 23 := by
    rw [totalExponent, targetExponent_eq (by omega)]
    omega
  have hnormalize : UnpackedFloat.ofNat Format.binary32 n = roundWithAccuracy Format.binary32 .positive
      (n * 2^(23 - n.log2)) (-((23 - n.log2 : ℕ) : ℤ)) .exact := by
    have hcompare : compare (n : ℤ) 0 = .gt := by
      rw [compare_gt_iff_gt]
      omega
    have hamount : (-((n.log2 : ℤ) - 23)).toNat = 23 - n.log2 := by omega
    unfold UnpackedFloat.ofNat UnpackedFloat.ofInt UnpackedFloat.normalize
    simp only [hcompare, UnpackedFloat.round, Int.toNat_natCast, htarget, UnpackedFloat.decreaseExponent,
      Nat.shiftLeft_eq, zero_sub, hamount]
  have hround := roundWithAccuracy_normal (m := n * 2^(23 - n.log2)) (s := n.log2 - 23)
    (e := -((23 - n.log2 : ℕ) : ℤ))
    (by
      rw [show 23 + (n.log2 - 23) = n.log2 + (23 - n.log2) by omega, Nat.pow_add]
      exact Nat.mul_le_mul_right _ hlow)
    (by
      rw [show 24 + (n.log2 - 23) = n.log2 + 1 + (23 - n.log2) by omega, Nat.pow_add]
      exact Nat.mul_lt_mul_of_pos_right hhigh (Nat.two_pow_pos _))
    (by omega)
  rw [hnormalize]
  rwa [show -((23 - n.log2 : ℕ) : ℤ) + (n.log2 - 23 : ℕ) = n.log2 - 23 by omega] at hround

/-! Packing. -/

variable {u v : UnpackedFloat} {m m' : ℕ} {e e' : ℤ}

theorem Normal.unpack_pack (h : Normal u m e) (hmin : -149 ≤ e) (hmax : e ≤ 104) :
    Normal (UnpackedFloat.unpack Format.binary32 (UnpackedFloat.pack Format.binary32 u)) m e := by
  obtain ⟨hpos, rfl⟩ := h.eq
  have hlow := h.low
  have hhigh := h.high
  refine ⟨hlow, hhigh, hpos, ?_⟩
  obtain ⟨b, rfl⟩ : ∃ b : ℕ, e = b - 150 := ⟨(e + 150).toNat, by omega⟩
  have hpack : UnpackedFloat.pack Format.binary32 (.finite .positive m (b - 150) hpos) =
      packComponents Format.binary32 .positive (BitVec.ofNat 8 b) (BitVec.ofNat 23 m) := by
    have hb : ((b : ℤ) - 150 + (127 : ℕ) + (23 : ℕ)).toNat = b := by omega
    have hbias : Format.exponentBias Format.binary32 = 127 := rfl
    simp only [UnpackedFloat.pack, hbias, log2_eq hlow hhigh, hb, Format.mantissaBits]
    rw [if_neg (by omega), if_pos (by decide)]
  have hexponent : (BitVec.ofNat 8 b).toNat = b := by
    rw [BitVec.toNat_ofNat]
    exact Nat.mod_eq_of_lt (by omega)
  have hmantissa : (1#1 ++ BitVec.ofNat 23 m).toNat = m := by
    rw [BitVec.toNat_append, BitVec.toNat_ofNat, BitVec.toNat_ofNat,
      ← Nat.shiftLeft_add_eq_or_of_lt (Nat.mod_lt _ (by decide)), Nat.shiftLeft_eq]
    omega
  have hfinite : BitVec.ofNat 8 b ≠ -1#8 := by
    intro h
    have hb := congrArg BitVec.toNat h
    rw [hexponent] at hb
    simp at hb
    omega
  have hnonzero : BitVec.ofNat 8 b ≠ 0#8 := by
    intro h
    have hb := congrArg BitVec.toNat h
    rw [hexponent] at hb
    simp at hb
    omega
  rw [hpack]
  simp only [UnpackedFloat.unpack, unpackExponent_packComponents, unpackMantissa_packComponents,
    unpackSign_packComponents]
  rw [if_neg hfinite, if_neg hnonzero]
  simp only [hmantissa, hexponent]
  congr 1

/-! Division and order. -/

/-- A power of two divides exactly. -/
theorem Normal.div_two_pow (hu : Normal u m e) (hv : Normal v (2^23) e') (hmin : -125 ≤ e - e') :
    Normal (UnpackedFloat.div Format.binary32 u v) m (e - e' - 23) := by
  obtain ⟨hpos, rfl⟩ := hu.eq
  obtain ⟨hpos', rfl⟩ := hv.eq
  have htarget : Format.binary32.targetExponent (totalExponent m e - totalExponent (2^23) e') =
      e - e' - 24 := by
    rw [totalExponent, totalExponent, log2_eq hu.low hu.high, log2_eq hv.low hv.high,
      targetExponent_eq (by omega)]
    omega
  have hcore : UnpackedFloat.divCore Format.binary32 m e (2^23) e' = (m * 2, e - e' - 24, .exact) := by
    have hleast : min (e - e') (e - e' - 24) = e - e' - 24 := by omega
    have hamount : (e - e' - (e - e' - 24)).toNat = 24 := by omega
    have hquot : m * 2^24 / 2^23 = m * 2 := by omega
    have hrem : m * 2^24 % 2^23 = 0 := by omega
    simp only [UnpackedFloat.divCore, htarget, hleast, hamount, Nat.shiftLeft_eq, hquot, hrem,
      UnpackedFloat.accuracyOfFraction, if_true]
  have hround := roundWithAccuracy_normal (m := m * 2) (s := 1) (e := e - e' - 24)
    (by have := hu.low; omega) (by have := hu.high; omega) (by omega)
  have hexact : rounded (m * 2) 1 = m := by
    rw [rounded_eq, if_pos (by omega)]
    omega
  have hcarry : carry m (e - e' - 24 + (1 : ℕ)) = (m, e - e' - 23) := by
    unfold carry
    rw [if_pos hu.high]
    congr 1
    omega
  rw [hexact, hcarry] at hround
  have hdiv : UnpackedFloat.div Format.binary32 (.finite .positive m e hpos)
      (.finite .positive (2^23) e' hpos') =
      roundWithAccuracy Format.binary32 .positive (m * 2) (e - e' - 24) .exact := by
    simp only [UnpackedFloat.div, hcore]
    rfl
  rw [hdiv]
  exact hround

theorem Normal.le_iff (hu : Normal u m e) (hv : Normal v m' e') :
    UnpackedFloat.le u v = true ↔ e < e' ∨ e = e' ∧ m ≤ m' := by
  obtain ⟨hpos, rfl⟩ := hu.eq
  obtain ⟨hpos', rfl⟩ := hv.eq
  simp only [UnpackedFloat.le, UnpackedFloat.compare, Option.any_some]
  rcases lt_trichotomy e e' with h | h | h
  · simp [compare_lt_iff_lt.mpr h, h]
  · subst h
    simp [Ordering.then, Nat.isLE_compare]
  · simp [compare_gt_iff_gt.mpr h, h.not_gt, h.ne']

theorem le_unpack_iff (a b : Float32) :
    a ≤ b ↔ UnpackedFloat.le a.toModel.unpack b.toModel.unpack = true :=
  decide_eq_true_iff

theorem unpack_div (a b : Float32) : (a / b).toModel.unpack =
    UnpackedFloat.unpack Format.binary32 (UnpackedFloat.pack Format.binary32
      (UnpackedFloat.div Format.binary32 a.toModel.unpack b.toModel.unpack)) := rfl

/-! Counts. -/

theorem toFloat32_normal {n : ℕ} (hpos : 0 < n) (hlt : n < 2^64) :
    Normal (UInt64.ofNat n).toFloat32.toModel.unpack
      (carry (rounded (n * 2^(23 - n.log2)) (n.log2 - 23)) (n.log2 - 23)).1
      (carry (rounded (n * 2^(23 - n.log2)) (n.log2 - 23)) (n.log2 - 23)).2 := by
  have hlog : n.log2 < 64 := (Nat.log2_lt (Nat.ne_of_gt hpos)).mpr hlt
  have hnormal := ofNat_normal hpos
  have hcarry := carry_cases (rounded (n * 2^(23 - n.log2)) (n.log2 - 23)) (n.log2 - 23)
  have hto : (UInt64.ofNat n).toNat = n := by
    rw [UInt64.toNat_ofNat']
    exact Nat.mod_eq_of_lt hlt
  show Normal (UnpackedFloat.unpack Format.binary32 (UnpackedFloat.pack Format.binary32
    (UnpackedFloat.ofNat Format.binary32 (UInt64.ofNat n).toNat))) _ _
  rw [hto]
  generalize carry (rounded (n * 2^(23 - n.log2)) (n.log2 - 23)) (n.log2 - 23) = float at *
  obtain ⟨m, e⟩ := float
  simp only [Prod.mk.injEq] at hcarry hnormal ⊢
  exact hnormal.unpack_pack (by omega) (by omega)

theorem toFloat32_two_pow {k : ℕ} (hk : k < 64) :
    Normal (UInt64.ofNat (2^k)).toFloat32.toModel.unpack (2^23) (k - 23) := by
  have hnormal := toFloat32_normal (Nat.two_pow_pos k) (Nat.pow_lt_pow_right (by decide) hk)
  have hrounded : rounded (2^k * 2^(23 - k)) (k - 23) = 2^23 := by
    have hshift : 2^k * 2^(23 - k) = 2^23 * 2^(k - 23) := by
      rw [← Nat.pow_add, ← Nat.pow_add]
      congr 1
      omega
    have hpos := Nat.two_pow_pos (k - 23)
    rw [rounded_eq, hshift, Nat.mul_mod_left, if_pos (by omega), Nat.mul_div_cancel _ hpos]
  rw [Nat.log2_two_pow, hrounded] at hnormal
  exact hnormal

variable {c : Float32} {t n k : ℕ}

theorem Normal.not_le_zero_div (hc : Normal c.toModel.unpack t (-24)) (hk : k < 64) :
    ¬c ≤ (UInt64.ofNat 0).toFloat32 / (UInt64.ofNat (2^k)).toFloat32 := by
  obtain ⟨_, hpow⟩ := (toFloat32_two_pow hk).eq
  obtain ⟨_, hconstant⟩ := hc.eq
  have hzero : UnpackedFloat.unpack Format.binary32
      (UnpackedFloat.pack Format.binary32 (.zero .positive)) = .zero .positive := unpack_packedZero
  rw [le_unpack_iff, unpack_div, hpow, hconstant]
  show ¬UnpackedFloat.le _ (UnpackedFloat.unpack Format.binary32
    (UnpackedFloat.pack Format.binary32 (.zero .positive))) = true
  rw [hzero]
  exact Bool.false_ne_true

/-- Where the count is less than a factor of two below the power of two, rounding decides. -/
theorem le_rounded_mantissa_iff (ht : Even t) (hpos : 0 < t) (hk : n.log2 + 1 = k) :
    t ≤ rounded (n * 2^(23 - n.log2)) (n.log2 - 23) ↔ (2 * t - 1) * 2^k ≤ 2^25 * n := by
  have hscale : 2^(23 - n.log2) * 2^k = 2^24 * 2^(n.log2 - 23) := by
    rw [← Nat.pow_add, ← Nat.pow_add]
    congr 1
    omega
  calc t ≤ rounded (n * 2^(23 - n.log2)) (n.log2 - 23)
      ↔ (2 * t - 1) * 2^(n.log2 - 23) ≤ 2 * (n * 2^(23 - n.log2)) := le_rounded_iff ht hpos _ _
    _ ↔ (2 * t - 1) * 2^(n.log2 - 23) * 2^k ≤ 2 * (n * 2^(23 - n.log2)) * 2^k :=
        (Nat.mul_le_mul_right_iff (Nat.two_pow_pos k)).symm
    _ ↔ (2 * t - 1) * 2^k * 2^(n.log2 - 23) ≤ 2^25 * n * 2^(n.log2 - 23) := by
        rw [Nat.mul_right_comm, ← Nat.mul_assoc 2 n, Nat.mul_assoc (2 * n), hscale, ← Nat.mul_assoc,
          show 2 * n * 2^24 = 2^25 * n by omega]
    _ ↔ (2 * t - 1) * 2^k ≤ 2^25 * n := Nat.mul_le_mul_right_iff (Nat.two_pow_pos _)

/-- A count divided by a power of two against a constant between a half and one, whose last
    bit is 0. -/
theorem Normal.le_div_two_pow_iff (hc : Normal c.toModel.unpack t (-24)) (ht : Even t) (hhalf : 2^23 < t)
    (hn : n < 2^64) (hk : k < 64) :
    c ≤ (UInt64.ofNat n).toFloat32 / (UInt64.ofNat (2^k)).toFloat32 ↔
      (2 * t - 1) * 2^k ≤ 2^25 * n := by
  have hhigh := hc.high
  have hk' := Nat.two_pow_pos k
  rcases Nat.eq_zero_or_pos n with rfl | hpos
  · refine ⟨fun h => absurd h (hc.not_le_zero_div hk), fun h => ?_⟩
    have := Nat.mul_pos (show 0 < 2 * t - 1 by omega) hk'
    omega
  · have hlog : n.log2 < 64 := (Nat.log2_lt (Nat.ne_of_gt hpos)).mpr hn
    have habove : k ≤ n.log2 → (2 * t - 1) * 2^k ≤ 2^25 * n := by
      intro h
      exact Nat.mul_le_mul (by omega)
        ((Nat.pow_le_pow_right (by decide) h).trans (Nat.log2_self_le (Nat.ne_of_gt hpos)))
    have hbelow : n.log2 + 2 ≤ k → ¬(2 * t - 1) * 2^k ≤ 2^25 * n := by
      intro h
      have hlt : n < 2^(n.log2 + 1) := Nat.lt_log2_self
      have hpow : 2 * 2^(n.log2 + 1) ≤ 2^k := by
        rw [← Nat.pow_succ']
        exact Nat.pow_le_pow_right (by decide) h
      have hmul : 2^24 * 2^k ≤ (2 * t - 1) * 2^k := Nat.mul_le_mul_right _ (by omega)
      omega
    have hat := le_rounded_mantissa_iff (n := n) (k := k) ht (by omega)
    have hquotient := (toFloat32_normal hpos hn).div_two_pow (toFloat32_two_pow hk)
    have hcarry := carry_cases (rounded (n * 2^(23 - n.log2)) (n.log2 - 23)) (n.log2 - 23)
    generalize carry (rounded (n * 2^(23 - n.log2)) (n.log2 - 23)) (n.log2 - 23) = float at *
    obtain ⟨m, e⟩ := float
    simp only [Prod.mk.injEq] at hcarry hquotient
    rw [le_unpack_iff, unpack_div, hc.le_iff ((hquotient (by omega)).unpack_pack (by omega) (by omega))]
    rcases Nat.lt_trichotomy (n.log2 + 1) k with hlt | heq | hgt
    · simp only [hbelow hlt, iff_false]
      omega
    · rw [← hat heq]
      omega
    · simp only [habove (by omega), iff_true]
      omega

end Binary32
