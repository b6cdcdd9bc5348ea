import Mathlib
import Drafting.Binary64

namespace Drafting.Double

open Float.Model Float.Model.UnpackedFloat

/-!
# The places of doubles

The bits of a double, read as a number, count the places of the positive doubles in ascending
order: zero has place 0, the subnormal numbers come first, and from one binade to the next the count
goes on without a gap.

* `place` — the place of `m · 2 ^ e`, and `Canonical` — the one way to write it;
* `bits_of_unpack` — the bits of a double that stands for `m · 2 ^ e`;
* `toNat_pack` — the bits that `m · 2 ^ e` is packed to, unless it is too large;
* `sign_unpack_pack` — packing keeps a positive sign.
-/

/-- The bits of a double, as a number. -/
def bits (x : Float) : Nat := x.toModel.toBits.toNat

/-- Doubles with the same bits are the same. -/
theorem bits_injective : Function.Injective bits := by
  intro x y h
  obtain ⟨⟨bx, _⟩⟩ := x
  obtain ⟨⟨bY, _⟩⟩ := y
  obtain rfl : bx = bY := UInt64.toNat_inj.mp h
  rfl

theorem bits_lt (x : Float) : bits x < 2 ^ 64 := x.toModel.toBits.toNat_lt

/-- The place of `m · 2 ^ e` among the doubles that are not negative. -/
def place (m : Nat) (e : Int) : Nat := (e + 1074).toNat * 2 ^ 52 + m

/-- The mantissa has 53 bits, or the exponent is least. -/
structure Canonical (m : Nat) (e : Int) : Prop where
  pos : 0 < m
  lt : m < 2 ^ 53
  le : -1074 ≤ e
  normal : e = -1074 ∨ 2 ^ 52 ≤ m

/-! ### Sign, exponent and fraction -/

/-- The bits of a double, read as one number: the sign, the exponent and the mantissa do not
    overlap. -/
theorem toNat_packComponents (s : Sign) (x : BitVec 11) (m : BitVec 52) :
    (packComponents Format.binary64 s x m).toNat =
      s.toBitVec.toNat * 2 ^ 63 + x.toNat * 2 ^ 52 + m.toNat := by
  have hx := x.isLt
  have hm := m.isLt
  rw [packComponents, BitVec.toNat_append, BitVec.toNat_append]
  rw [← Nat.shiftLeft_add_eq_or_of_lt hx, ← Nat.shiftLeft_add_eq_or_of_lt hm]
  simp only [Nat.shiftLeft_eq]
  omega

/-- Each pattern of bits is put together from its three parts. -/
theorem toNat_parts (b : BitVec Format.binary64.numBits) :
    b.toNat = (unpackSign b).toNat * 2 ^ 63 + (unpackExponent b).toNat * 2 ^ 52 +
      (unpackMantissa b).toNat := by
  have hb : b.toNat < 2 ^ 64 := b.isLt
  simp only [unpackSign, unpackExponent, unpackMantissa, BitVec.toNat_cast,
    BitVec.extractLsb_toNat, Nat.shiftRight_eq_div_pow]
  simp
  omega

/-- A positive double has no sign bit. -/
theorem toNat_sign {b : BitVec Format.binary64.numBits}
    (h : Sign.ofBitVec (unpackSign b) = .positive) : (unpackSign b).toNat = 0 := by
  unfold Sign.ofBitVec at h
  split at h
  · next hzero => rw [hzero]; rfl
  · cases h

/-- The number that the bits of a finite double stand for. -/
theorem unpack_cases (b : BitVec Format.binary64.numBits) {s : Sign} {m : Nat} {e : Int} {h : 0 < m}
    (hb : UnpackedFloat.unpack Format.binary64 b = .finite s m e h) :
    s = Sign.ofBitVec (unpackSign b) ∧ Canonical m e ∧ e ≤ 971 ∧
      (unpackExponent b).toNat * 2 ^ 52 + (unpackMantissa b).toNat = place m e := by
  have hm : (unpackMantissa b).toNat < 2 ^ 52 := (unpackMantissa b).isLt
  have hx : (unpackExponent b).toNat < 2 ^ 11 := (unpackExponent b).isLt
  unfold UnpackedFloat.unpack at hb
  dsimp only at hb
  split at hb
  · split at hb <;> cases hb
  next hinf =>
  have below : (unpackExponent b).toNat ≠ 2047 := fun heq => hinf (BitVec.eq_of_toNat_eq heq)
  split at hb
  · next hzero =>
    split at hb
    · cases hb
    · next hne =>
      -- subnormal
      cases hb
      have hzero : (unpackExponent b).toNat = 0 := congrArg BitVec.toNat hzero
      rw [hzero]
      refine ⟨rfl, ⟨h, by omega, ?_, Or.inl ?_⟩, ?_, ?_⟩
      all_goals norm_num [Format.exponentBias, place]
  · next hne =>
    -- normal
    have hmantissa : (1#1 ++ unpackMantissa b).toNat = 2 ^ 52 + (unpackMantissa b).toNat := by
      rw [BitVec.toNat_append, ← Nat.shiftLeft_add_eq_or_of_lt hm]
      rfl
    have above : (unpackExponent b).toNat ≠ 0 := fun heq => hne (BitVec.eq_of_toNat_eq heq)
    injection hb with hs hmant hexp
    have hexp : e = ((unpackExponent b).toNat : Int) - 1075 := by
      rw [← hexp]
      norm_num [Format.exponentBias]
    have hmant : m = 2 ^ 52 + (unpackMantissa b).toNat := hmant.symm.trans hmantissa
    refine ⟨hs.symm, ⟨h, by omega, by omega, Or.inr (by omega)⟩, by omega, ?_⟩
    unfold place
    omega

/-! ### The bits of a double -/

section Unpack

variable {x : Float} {m : Nat} {e : Int} {h : 0 < m}

/-- The bits of a positive finite double are the place of its mantissa and exponent. -/
theorem bits_of_unpack (hx : x.toModel.unpack = .finite .positive m e h) :
    Canonical m e ∧ bits x = place m e := by
  obtain ⟨hs, hc, -, hplace⟩ := unpack_cases _ hx
  have parts : bits x = _ := toNat_parts x.toModel.toBits.toBitVec
  rw [toNat_sign hs.symm, Nat.zero_mul, Nat.zero_add, hplace] at parts
  exact ⟨hc, parts⟩

/-- Only the pattern without bits is positive zero. -/
theorem bits_of_unpack_zero (hx : x.toModel.unpack = .zero .positive) : bits x = 0 := by
  have parts := toNat_parts x.toModel.toBits.toBitVec
  unfold Float.Model.unpack UnpackedFloat.unpack at hx
  dsimp only at hx
  split at hx
  · split at hx <;> cases hx
  split at hx
  · next hexp =>
    split at hx
    · next hmant =>
      rw [toNat_sign (zero.inj hx), hexp, hmant] at parts
      exact parts
    · cases hx
  · cases hx

end Unpack

/-! ### Packing -/

/-- A number that is canonical and not too large is packed to its place. -/
theorem toNat_pack {m : Nat} {e : Int} (h : Canonical m e) (he : e ≤ 971) :
    (Float.Model.pack (.finite .positive m e h.pos)).toBits.toNat = place m e := by
  have biased : (e + Format.binary64.exponentBias + (52 : Nat)).toNat = (e + 1075).toNat := by
    norm_num [Format.exponentBias]
    congr 1
    omega
  show (UnpackedFloat.pack Format.binary64 (.finite .positive m e h.pos)).toNat = place m e
  rw [UnpackedFloat.pack]
  dsimp only
  rw [biased]
  have hle := h.le
  rw [if_neg (by show ¬ 2 ^ 11 ≤ (e + 1075).toNat + 1; omega)]
  have bits53 : m.log2 + 1 = Format.binary64.mantissaBits ↔ 2 ^ 52 ≤ m := by
    show m.log2 + 1 = 53 ↔ 2 ^ 52 ≤ m
    have := Nat.le_log2 (n := m) (k := 52) (Nat.ne_of_gt h.pos)
    have := (Nat.log2_lt (Nat.ne_of_gt h.pos) (k := 53)).mpr h.lt
    omega
  unfold place
  have hlt := h.lt
  split
  · next hbits =>
    -- a normal number: the leading bit of the mantissa is not stored
    have hnormal := bits53.mp hbits
    rw [toNat_packComponents, BitVec.toNat_ofNat, BitVec.toNat_ofNat]
    show 0 * 2 ^ 63 + (e + 1075).toNat % 2 ^ 11 * 2 ^ 52 + m % 2 ^ 52 = _
    omega
  · next hbits =>
    -- a subnormal number has the least exponent, which is stored as zero
    have hsub : ¬ 2 ^ 52 ≤ m := fun hle => hbits (bits53.mpr hle)
    have hmin := h.normal.resolve_right hsub
    rw [toNat_packComponents, BitVec.toNat_ofNat]
    show 0 * 2 ^ 63 + 0 * 2 ^ 52 + m % 2 ^ 52 = _
    omega

/-- A number that is too large is packed to infinity. -/
theorem le_of_isFinite {s : Sign} {m : Nat} {e : Int} {h : 0 < m}
    (hfinite : (Float.Model.pack (.finite s m e h)).isFinite = true) : e ≤ 971 := by
  by_contra hlarge
  have biased : (e + Format.binary64.exponentBias + (52 : Nat)).toNat = (e + 1075).toNat := by
    norm_num [Format.exponentBias]
    congr 1
    omega
  have infinite : UnpackedFloat.pack Format.binary64 (.finite s m e h)
      = packedInfinity Format.binary64 s := by
    rw [UnpackedFloat.pack]
    dsimp only
    rw [biased]
    exact if_pos (by show 2 ^ 11 ≤ (e + 1075).toNat + 1; omega)
  have unpacked : (Float.Model.pack (.finite s m e h)).unpack.isFinite = false := by
    show (UnpackedFloat.unpack Format.binary64
      (UnpackedFloat.pack Format.binary64 (.finite s m e h))).isFinite = false
    rw [infinite]
    cases s <;> rfl
  exact absurd (hfinite.symm.trans unpacked) (by decide)

/-! ### Signs -/

/-- The sign of a number; an undefined one counts as positive. -/
def sign : UnpackedFloat → Sign
  | .infinity s => s
  | .zero s => s
  | .finite s .. => s
  | .notANumber => .positive

/-- The sign can be read off what has been packed. -/
theorem unpackSign_packComponents (s : Sign) (x : BitVec 11) (m : BitVec 52) :
    unpackSign (packComponents Format.binary64 s x m) = s.toBitVec := by
  have parts := toNat_parts (packComponents Format.binary64 s x m)
  rw [toNat_packComponents, unpackExponent_packComponents, unpackMantissa_packComponents] at parts
  exact BitVec.eq_of_toNat_eq (by omega)

/-- A double without a sign bit is positive. -/
theorem sign_unpack {b : BitVec Format.binary64.numBits} (h : unpackSign b = 0#1) :
    sign (UnpackedFloat.unpack Format.binary64 b) = .positive := by
  have positive : Sign.ofBitVec (unpackSign b) = .positive := by rw [h]; rfl
  unfold UnpackedFloat.unpack
  dsimp only
  split
  · split
    · exact positive
    · rfl
  split
  · split <;> exact positive
  · exact positive

/-- Packing keeps a positive sign. -/
theorem sign_unpack_pack {u : UnpackedFloat} (h : sign u = .positive) :
    sign (Float.Model.pack u).unpack = .positive := by
  refine sign_unpack ?_
  show unpackSign (UnpackedFloat.pack Format.binary64 u) = 0#1
  cases u with
  | notANumber => exact unpackSign_packComponents _ _ _
  | infinity s => cases h; exact unpackSign_packComponents _ _ _
  | zero s => cases h; exact unpackSign_packComponents _ _ _
  | finite s m e hm =>
    cases h
    unfold UnpackedFloat.pack
    dsimp only
    split
    · exact unpackSign_packComponents _ _ _
    split <;> exact unpackSign_packComponents _ _ _

end Drafting.Double
