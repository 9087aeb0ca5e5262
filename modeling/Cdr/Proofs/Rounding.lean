import Cdr.Real.FloatFormat

/-! Rounding is exact where the format has the number.  A format stores a finite number by a
significand of limited size and a scale in a range; bits and stored numbers determine each other,
and a magnitude that equals a stored one is rounded to its bits.  So a float of thirty-two bits that
is widened to sixty-four bits and narrowed again is the same float. -/

namespace Cdr.Real

theorem roundHalfEven_mul (k : Nat) {d : Nat} (hd : 0 < d) : roundHalfEven (k * d) d = k := by
  simp [roundHalfEven, Nat.mul_div_cancel _ hd, hd]

theorem log2_mul_two_pow {m : Nat} (hm : m ≠ 0) (a : Nat) : (m * 2 ^ a).log2 = m.log2 + a := by
  have hpos : m * 2 ^ a ≠ 0 := Nat.mul_ne_zero hm (Nat.ne_of_gt (Nat.two_pow_pos a))
  rw [Nat.log2_eq_iff hpos, Nat.pow_add, show m.log2 + a + 1 = m.log2 + 1 + a by omega, Nat.pow_add]
  exact ⟨Nat.mul_le_mul_right _ (Nat.log2_self_le hm),
    Nat.mul_lt_mul_of_pos_right ((Nat.log2_lt hm).mp (Nat.lt_succ_self _)) (Nat.two_pow_pos a)⟩

theorem floorLog2_scaled {m : Nat} (hm : m ≠ 0) (scale : Int) :
    floorLog2 (m * 2 ^ scale.toNat) (2 ^ (-scale).toNat) = m.log2 + scale := by
  unfold floorLog2
  rw [log2_mul_two_pow hm, Nat.log2_two_pow]
  have he : ((m.log2 + scale.toNat : Nat) : Int) - ((-scale).toNat : Nat) = m.log2 + scale := by
    omega
  rw [he, if_pos]
  have hpow : (-scale).toNat + ((m.log2 : Int) + scale).toNat =
      m.log2 + (scale.toNat + (-((m.log2 : Int) + scale)).toNat) := by omega
  rw [← Nat.pow_add, hpow, Nat.pow_add, Nat.mul_assoc, ← Nat.pow_add 2 scale.toNat]
  exact Nat.mul_le_mul_right _ (Nat.log2_self_le hm)

namespace FloatFormat

variable (f : FloatFormat)

/-- The bits, without the sign, of a finite number whose significand and scale are stored. -/
def body (x : Finite) : Nat := (x.scale - f.leastScale).toNat * 2 ^ f.fraction + x.significand

/-- The bits of a finite number whose significand and scale are stored. -/
def pack (x : Finite) : Nat := f.signed x.negative (f.body x)

/-- The significand and the scale are those that the format stores for the number. -/
structure Stored (x : Finite) : Prop where
  significand : x.significand < 2 ^ (f.fraction + 1)
  least : f.leastScale ≤ x.scale
  greatest : f.body x < f.infinity
  /-- Only at the least scale may the significand be short. -/
  full : x.scale = f.leastScale ∨ 2 ^ f.fraction ≤ x.significand

theorem infinity_lt_signBit : f.infinity < f.signBit := by
  unfold infinity signBit
  rw [Nat.pow_add]
  exact Nat.mul_lt_mul_of_pos_right (by have := Nat.two_pow_pos f.exponent; omega)
    (Nat.two_pow_pos f.fraction)

theorem signed_mod {body : Nat} (h : body < f.signBit) (negative : Bool) :
    f.signed negative body % f.signBit = body ∧
      decide (f.signBit ≤ f.signed negative body) = negative := by
  cases negative
  · simp [signed, Nat.mod_eq_of_lt h, h]
  · simp [signed, Nat.mod_eq_of_lt h]

theorem mod_signBit_mod (n : Nat) : n % f.signBit % 2 ^ f.fraction = n % 2 ^ f.fraction :=
  Nat.mod_mod_of_dvd n (Nat.pow_dvd_pow 2 (Nat.le_add_left _ _))

/-- The bits of a stored number stand for it. -/
theorem datum_pack {x : Finite} (h : f.Stored x) : f.datum (f.pack x) = .finite x := by
  obtain ⟨negative, m, scale⟩ := x
  obtain ⟨hsig, hleast, hgreatest, hfull⟩ := h
  have hpos := Nat.two_pow_pos f.fraction
  obtain ⟨hmod, hneg⟩ :=
    f.signed_mod (Nat.lt_trans hgreatest f.infinity_lt_signBit) negative
  have hexp : f.body ⟨negative, m, scale⟩ / 2 ^ f.fraction < 2 ^ f.exponent - 1 :=
    Nat.div_lt_of_lt_mul (by rw [Nat.mul_comm]; exact hgreatest)
  unfold pack datum
  simp only [← f.mod_signBit_mod (f.signed _ _), hmod, hneg]
  rw [if_neg (Nat.ne_of_lt hexp)]
  simp only at hsig hleast hfull
  rw [Nat.pow_succ] at hsig
  by_cases hm : m < 2 ^ f.fraction
  · -- a short significand stands at the least scale, where the exponent field is zero
    have hscale : scale = f.leastScale := hfull.resolve_right (by omega)
    have hbody : f.body ⟨negative, m, scale⟩ = m := by simp [body, hscale]
    rw [hbody, Nat.div_eq_of_lt hm, Nat.mod_eq_of_lt hm, if_pos rfl, hscale]
  · have hbody : f.body ⟨negative, m, scale⟩ =
        2 ^ f.fraction * (scale - f.leastScale).toNat + m := by rw [Nat.mul_comm]; rfl
    have hdiv :
        f.body ⟨negative, m, scale⟩ / 2 ^ f.fraction = (scale - f.leastScale).toNat + 1 := by
      rw [hbody, Nat.mul_add_div hpos,
        Nat.div_eq_of_lt_le (k := 1) (by omega) (by omega)]
    have hrem : f.body ⟨negative, m, scale⟩ % 2 ^ f.fraction = m - 2 ^ f.fraction := by
      rw [hbody, Nat.mul_add_mod, Nat.mod_eq_sub_mod (by omega),
        Nat.mod_eq_of_lt (by omega)]
    rw [hdiv, hrem, if_neg (by omega)]
    simp only [Datum.finite.injEq, Finite.mk.injEq, true_and]
    omega

theorem signed_mod_signBit {bits : Nat} (h : bits < 2 * f.signBit) :
    f.signed (decide (f.signBit ≤ bits)) (bits % f.signBit) = bits := by
  by_cases hs : f.signBit ≤ bits
  · rw [Nat.mod_eq_sub_mod hs, Nat.mod_eq_of_lt (show bits - f.signBit < f.signBit by omega)]
    simp only [signed, hs, decide_true, if_true]
    omega
  · simp [signed, hs, Nat.mod_eq_of_lt (show bits < f.signBit by omega)]

/-- Finite bits are those of a stored number. -/
theorem pack_of_datum {f : FloatFormat} {bits : Nat} (hbits : bits < 2 * f.signBit) {x : Finite}
    (h : f.datum bits = .finite x) : f.Stored x ∧ f.pack x = bits := by
  have hpos := Nat.two_pow_pos f.fraction
  have hsigned := f.signed_mod_signBit hbits
  have hsplit := Nat.div_add_mod (bits % f.signBit) (2 ^ f.fraction)
  have hrem := Nat.mod_lt bits hpos
  have hlt : bits % f.signBit / 2 ^ f.fraction < 2 ^ f.exponent := by
    apply Nat.div_lt_of_lt_mul
    rw [← Nat.pow_add, Nat.add_comm]
    exact Nat.mod_lt _ (Nat.two_pow_pos _)
  have hfinite : bits % f.signBit / 2 ^ f.fraction < 2 ^ f.exponent - 1 →
      bits % f.signBit < f.infinity := fun he => by
    exact Nat.lt_mul_of_div_lt he hpos
  rw [f.mod_signBit_mod] at hsplit
  unfold datum at h
  simp only at h
  generalize bits % f.signBit / 2 ^ f.fraction = e at *
  split at h
  · split at h <;> cases h
  split at h
  · rename_i hmax h0
    subst h0
    cases h
    have hbody : f.body ⟨decide (f.signBit ≤ bits), bits % 2 ^ f.fraction, f.leastScale⟩ =
        bits % f.signBit := by
      simp only [body, Int.sub_self, Int.toNat_zero]
      omega
    refine ⟨⟨?_, Int.le_refl _, ?_, Or.inl rfl⟩, ?_⟩
    · exact Nat.lt_trans hrem (Nat.pow_lt_pow_right (by omega) (by omega))
    · rw [hbody]
      exact hfinite (by omega)
    · rw [pack, hbody]
      exact hsigned
  · rename_i hmax h0
    cases h
    have hbody : f.body ⟨decide (f.signBit ≤ bits), 2 ^ f.fraction + bits % 2 ^ f.fraction,
        f.leastScale + e - 1⟩ = bits % f.signBit := by
      simp only [body, show (f.leastScale + (e : Int) - 1 - f.leastScale).toNat = e - 1 by omega]
      rw [← hsplit, ← Nat.add_assoc, ← Nat.succ_mul, Nat.mul_comm, show (e - 1).succ = e by omega]
    refine ⟨⟨?_, ?_, ?_, Or.inr (Nat.le_add_right _ _)⟩, ?_⟩
    · rw [Nat.pow_succ]
      simp only
      omega
    · simp only
      omega
    · rw [hbody]
      exact hfinite (by omega)
    · rw [pack, hbody]
      exact hsigned

theorem pack_lt {f : FloatFormat} {x : Finite} (h : f.Stored x) : f.pack x < 2 * f.signBit := by
  have hbody := Nat.lt_trans h.greatest f.infinity_lt_signBit
  unfold pack signed
  split <;> omega

/-- The bits of an infinite number stand for it, and no other bits do. -/
theorem datum_eq_infinite {f : FloatFormat} {bits : Nat} (hbits : bits < 2 * f.signBit)
    {negative : Bool} :
    f.datum bits = .infinite negative ↔ bits = f.signed negative f.infinity := by
  have hpos := Nat.two_pow_pos f.fraction
  have hsplit := Nat.div_add_mod (bits % f.signBit) (2 ^ f.fraction)
  rw [f.mod_signBit_mod] at hsplit
  constructor
  · intro h
    have hsigned := f.signed_mod_signBit hbits
    unfold datum at h
    simp only at h
    split at h
    · rename_i he
      split at h
      · rename_i hm
        cases h
        rw [he, hm, Nat.add_zero, Nat.mul_comm] at hsplit
        rw [infinity, hsplit, hsigned]
      · cases h
    · split at h <;> cases h
  · rintro rfl
    obtain ⟨hmod, hneg⟩ := f.signed_mod f.infinity_lt_signBit negative
    unfold datum
    simp only [← f.mod_signBit_mod (f.signed _ _), hmod, hneg]
    rw [infinity, Nat.mul_div_cancel _ hpos, Nat.mul_mod_left, if_pos rfl, if_pos rfl]

theorem signed_infinity_lt (negative : Bool) : f.signed negative f.infinity < 2 * f.signBit := by
  have := f.infinity_lt_signBit
  unfold signed
  split <;> omega

theorem ofFinite_zero (negative : Bool) (scale : Int) :
    f.ofFinite ⟨negative, 0, scale⟩ = f.pack ⟨negative, 0, f.leastScale⟩ := by
  simp [ofFinite, pack, body, nearest]

/-- A number whose magnitude is that of a stored one is rounded to the bits of the stored one. -/
theorem ofFinite_eq_pack {f : FloatFormat} {x y : Finite} (hx : x.significand ≠ 0) (hy : f.Stored y)
    (hneg : y.negative = x.negative)
    (hscale : max f.leastScale (x.significand.log2 + x.scale - f.fraction) = y.scale)
    (hvalue : x.significand * 2 ^ (x.scale - y.scale).toNat =
      y.significand * 2 ^ (y.scale - x.scale).toNat) :
    f.ofFinite x = f.pack y := by
  have hnum : x.significand * 2 ^ x.scale.toNat ≠ 0 :=
    Nat.mul_ne_zero hx (Nat.ne_of_gt (Nat.two_pow_pos _))
  have hround : roundHalfEven (x.significand * 2 ^ x.scale.toNat * 2 ^ (-y.scale).toNat)
      (2 ^ (-x.scale).toNat * 2 ^ y.scale.toNat) = y.significand := by
    -- The quotient is exact, with the greater scale moved to the other side.
    have hexact : x.significand * 2 ^ x.scale.toNat * 2 ^ (-y.scale).toNat =
        y.significand * (2 ^ (-x.scale).toNat * 2 ^ y.scale.toNat) := by
      rcases Int.le_total x.scale y.scale with hle | hle
      · rw [show (x.scale - y.scale).toNat = 0 by omega, Nat.pow_zero, Nat.mul_one] at hvalue
        rw [hvalue, Nat.mul_assoc, Nat.mul_assoc, ← Nat.pow_add, ← Nat.pow_add, ← Nat.pow_add]
        congr 2
        omega
      · rw [show (y.scale - x.scale).toNat = 0 by omega, Nat.pow_zero, Nat.mul_one] at hvalue
        rw [← hvalue, Nat.mul_assoc, Nat.mul_assoc, ← Nat.pow_add, ← Nat.pow_add, ← Nat.pow_add]
        congr 2
        omega
    rw [hexact, roundHalfEven_mul _ (Nat.mul_pos (Nat.two_pow_pos _) (Nat.two_pow_pos _))]
  have hbody := hy.greatest
  unfold body at hbody
  unfold ofFinite nearest pack body
  rw [if_neg hnum, floorLog2_scaled hx, hscale, hneg]
  simp only [hround]
  rw [Nat.min_eq_right (Nat.le_of_lt hbody)]

end FloatFormat

section Widths

open FloatFormat

theorem fraction_single : single.fraction = 23 := rfl

theorem fraction_double : double.fraction = 52 := rfl

theorem leastScale_single : single.leastScale = -149 := by decide

theorem leastScale_double : double.leastScale = -1074 := by decide

theorem infinity_single : single.infinity = 255 * 2 ^ 23 := by decide

theorem infinity_double : double.infinity = 2047 * 2 ^ 52 := by decide

/-- A stored float of thirty-two bits, other than zero, is the same number in sixty-four bits, where
its significand is full. -/
theorem exists_stored_double {negative : Bool} {m : Nat} {scale : Int} (hm : m ≠ 0)
    (h : single.Stored ⟨negative, m, scale⟩) :
    ∃ shift : Nat, (m * 2 ^ shift).log2 = 52 ∧
      double.Stored ⟨negative, m * 2 ^ shift, scale - shift⟩ ∧
      double.ofFinite ⟨negative, m, scale⟩ =
        double.pack ⟨negative, m * 2 ^ shift, scale - shift⟩ := by
  obtain ⟨hsig, hleast, hgreatest, -⟩ := h
  simp only [body, leastScale_single, infinity_single, fraction_single] at hsig hleast hgreatest
  have hlog : m.log2 < 24 := (Nat.log2_lt hm).mpr hsig
  have hfull : (m * 2 ^ (52 - m.log2)).log2 = 52 := by
    rw [log2_mul_two_pow hm]
    omega
  have hpos : m * 2 ^ (52 - m.log2) ≠ 0 :=
    Nat.mul_ne_zero hm (Nat.ne_of_gt (Nat.two_pow_pos _))
  -- Moved up to 53 digits the significand is full, and the scale stays above the least one.
  obtain ⟨hlow, hhigh⟩ := (Nat.log2_eq_iff hpos).mp hfull
  have hstored : double.Stored
      ⟨negative, m * 2 ^ (52 - m.log2), scale - (52 - m.log2 : Nat)⟩ := by
    refine ⟨hhigh, ?_, ?_, Or.inr hlow⟩
    · simp only [leastScale_double]
      omega
    · simp only [body, leastScale_double, infinity_double, fraction_double]
      have hexp : (scale - (52 - m.log2 : Nat) - -1074).toNat + 2 ≤ 2047 := by omega
      have hmul := Nat.mul_le_mul_right (2 ^ 52) hexp
      rw [Nat.pow_succ] at hhigh
      rw [Nat.add_mul] at hmul
      generalize 2 ^ 52 = full at *
      omega
  refine ⟨52 - m.log2, hfull, hstored, ofFinite_eq_pack hm hstored rfl ?_ ?_⟩
  · simp only [leastScale_double, fraction_double]
    omega
  · simp only
    rw [show (scale - (scale - (52 - m.log2 : Nat))).toNat = 52 - m.log2 by omega,
      show (scale - (52 - m.log2 : Nat) - scale).toNat = 0 by omega, Nat.pow_zero, Nat.mul_one]

/-- The number of thirty-two bits that was widened is the one nearest to the result. -/
theorem ofFinite_shifted {negative : Bool} {m : Nat} {scale : Int} {shift : Nat} (hm : m ≠ 0)
    (hshift : (m * 2 ^ shift).log2 = 52) (h : single.Stored ⟨negative, m, scale⟩) :
    single.ofFinite ⟨negative, m * 2 ^ shift, scale - shift⟩ =
      single.pack ⟨negative, m, scale⟩ := by
  have hpos : m * 2 ^ shift ≠ 0 := Nat.mul_ne_zero hm (Nat.ne_of_gt (Nat.two_pow_pos _))
  obtain ⟨hsig, hleast, -, hfull⟩ := id h
  simp only [leastScale_single, fraction_single] at hsig hleast hfull
  have hlog : m.log2 < 24 := (Nat.log2_lt hm).mpr hsig
  have hsum := hshift
  rw [log2_mul_two_pow hm] at hsum
  refine ofFinite_eq_pack hpos h rfl ?_ ?_
  · simp only [leastScale_single, fraction_single, hshift]
    rcases hfull with hscale | hlow
    · omega
    · have := (Nat.le_log2 hm).mpr hlow
      omega
  · simp only
    rw [show (scale - shift - scale).toNat = 0 by omega,
      show (scale - (scale - shift)).toNat = shift by omega, Nat.pow_zero, Nat.mul_one]

/-- The bits of a number of thirty-two bits come back from its bits in sixty-four bits. -/
theorem convert_convert {bits : Nat} (hbits : bits < 2 * single.signBit)
    (h : single.datum bits ≠ .nan) :
    single.convert double bits < 2 * double.signBit ∧
      double.convert single (single.convert double bits) = bits := by
  unfold convert
  cases hd : single.datum bits with
  | nan => exact absurd hd h
  | infinite negative =>
    have hinf := double.signed_infinity_lt negative
    refine ⟨hinf, ?_⟩
    simp only [ofDatum]
    rw [(datum_eq_infinite hinf).mpr rfl]
    exact ((datum_eq_infinite hbits).mp hd).symm
  | finite x =>
    obtain ⟨hstored, hpack⟩ := pack_of_datum hbits hd
    obtain ⟨negative, m, scale⟩ := x
    simp only [ofDatum]
    -- Zero has no full significand, and keeps the least scale of each width.
    by_cases hm : m = 0
    · subst hm
      have hscale : scale = single.leastScale :=
        hstored.full.resolve_right (by simp [fraction_single])
      have hzero : double.Stored ⟨negative, 0, double.leastScale⟩ :=
        ⟨Nat.two_pow_pos _, Int.le_refl _, by rw [infinity_double]; simp [body], Or.inl rfl⟩
      rw [double.ofFinite_zero, double.datum_pack hzero]
      refine ⟨pack_lt hzero, ?_⟩
      simp only
      rw [single.ofFinite_zero, ← hscale, hpack]
    · obtain ⟨shift, hlog, hdouble, heq⟩ := exists_stored_double hm hstored
      rw [heq, double.datum_pack hdouble]
      refine ⟨pack_lt hdouble, ?_⟩
      simp only
      rw [ofFinite_shifted hm hlog hstored, hpack]

/-- A float of thirty-two bits that is a number survives being widened and narrowed. -/
theorem narrow_widen {bits : UInt32} (h : single.datum bits.toNat ≠ .nan) :
    narrow (widen bits) = bits := by
  obtain ⟨hlt, hback⟩ := convert_convert bits.toNat_lt h
  unfold narrow widen
  rw [UInt64.toNat_ofNat_of_lt' hlt, hback]
  exact UInt32.ofNat_toNat

end Widths

end Cdr.Real
