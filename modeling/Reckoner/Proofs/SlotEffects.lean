import Reckoner.Evaluation.Precise
import Reckoner.Proofs.Reciprocal

/-!
# What wide operations write

Every number that wide evaluation computes fits its format, whatever the library. With a library
that writes the powers of all exponents but zero and one, a wide function writes its slot, with one
exception: a root of degree one of a finite number other than zero may leave the slot as it was, or
change its sign, because the exponent of the power it computes is one. No other degree has an
exponent of zero or one after rounding.

Main statement: `Wide.writes_of_callEffect`.
-/

set_option autoImplicit false

namespace Reckoner

/-! ### Results fit their format -/

namespace Format

variable (f : Format)

/-- A rounded size fits. -/
theorem fits_roundSize (size : Magnitude) : f.Fits (f.roundSize size) :=
  f.fits_round ⟨false, size⟩

/-- A decimal brought to the format fits. -/
theorem fits_ofDecimal (x : Decimal) : f.Fits (f.ofDecimal x) := by
  unfold ofDecimal
  split
  · trivial
  · split
    · trivial
    · split
      · trivial
      · split
        · exact f.fits_roundSize _
        · exact f.fits_roundSize _

/-- A result that is rounded fits. -/
theorem fits_of_map_round {result : Option Number} {x : Number}
    (h : result.map f.round = some x) : f.Fits x.size := by
  obtain ⟨unrounded, _, rfl⟩ := Option.map_eq_some_iff.mp h
  exact f.fits_round unrounded

end Format

/-- What is read to a wide format fits. -/
theorem Literal.fits_of_readWide {f : Format} {text : String} {x : Number}
    (h : readWide? f text = some x) : f.Fits x.size := by
  unfold readWide? at h
  split at h
  · rename_i y hinfinity
    cases h
    unfold wideInfinity? at hinfinity
    dsimp only at hinfinity
    split at hinfinity
    · cases hinfinity
      trivial
    · cases hinfinity
  · dsimp only at h
    split at h
    · split at h
      · cases h
        trivial
      · split at h
        · cases h
          exact f.fits_ofDecimal _
        · cases h
    · cases h

/-- Whether what an effect writes fits a format. -/
def SlotEffect.Fits (f : Format) : SlotEffect → Prop
  | write x => f.Fits x.size
  | _ => True

/-- The number in a fresh slot after an effect fits if what is written fits. -/
theorem SlotEffect.Fits.apply_zero {f : Format} {effect : SlotEffect} (h : effect.Fits f) :
    f.Fits (effect.apply Number.zero).size := by
  cases effect with
  | write x => exact h
  | keep => trivial
  | negate => trivial

/-- A change of sign does not affect what fits. -/
theorem SlotEffect.Fits.negated {f : Format} {effect : SlotEffect} (h : effect.Fits f) :
    effect.negated.Fits f := by
  cases effect with
  | write x => exact h
  | keep => trivial
  | negate => trivial

namespace Wide

variable {lib : Library} {f : Format} {span : Span}

/-- A power of a positive base fits. -/
theorem fits_powPositive (lib : Library) (f : Format) (base : Dyadic) (y : Number) :
    (powPositive lib f base y).Fits f := by
  unfold powPositive
  cases hpow : lib.pow f base y with
  | none => trivial
  | some x => exact lib.pow_fits hpow

/-- A power that is computed wide has a finite base and an exponent that is not infinite; its effect
is that of the positive base, up to a sign. -/
theorem pow_cases {x y : Number} {effect : SlotEffect} (h : pow lib f x y = some effect) :
    ∃ base, x.size = .finite base ∧ y.size ≠ .infinite ∧
      (effect = powPositive lib f base y ∨ effect = (powPositive lib f base y).negated) := by
  unfold pow at h
  split at h
  · rename_i base hbase
    split at h
    · cases h
    · rename_i hexponent
      have hfinite : y.size ≠ .infinite := by
        intro hinfinite
        simp [Number.isInfinite, hinfinite] at hexponent
      refine ⟨base, hbase, hfinite, ?_⟩
      split at h
      · exact Or.inl (Option.some.inj h).symm
      · split at h
        · cases h
        · split at h
          · exact Or.inr (Option.some.inj h).symm
          · exact Or.inl (Option.some.inj h).symm
  · cases h

/-- A power fits. -/
theorem fits_of_pow {x y : Number} {effect : SlotEffect} (h : pow lib f x y = some effect) :
    effect.Fits f := by
  obtain ⟨base, _, _, rfl | rfl⟩ := pow_cases h
  · exact fits_powPositive lib f base y
  · exact (fits_powPositive lib f base y).negated

/-- The effect of a wide function writes a number of the format, or the function is a root. -/
theorem applyWide_cases {function : Function} {args : List Number} {effect : SlotEffect}
    (h : function.applyWide lib f args = some effect) :
    (∃ x, effect = .write x ∧ f.Fits x.size) ∨
      ∃ degree x, function = .root ∧ args = [degree, x] ∧ root lib f degree x = some effect := by
  unfold Function.applyWide at h
  split at h
  · left
    simp only [log] at h
    split at h
    · split at h
      · cases h
      · split at h
        · cases h
        · obtain ⟨x, hx, rfl⟩ := Option.map_eq_some_iff.mp h
          exact ⟨x, rfl, f.fits_of_map_round hx⟩
    · cases h
  · rename_i degree x
    exact Or.inr ⟨degree, x, rfl, rfl, h⟩
  · left
    obtain ⟨x, hx, rfl⟩ := Option.map_eq_some_iff.mp h
    exact ⟨x, rfl, f.fits_of_map_round hx⟩
  · left
    simp only [deg, Option.bind_eq_bind, Option.bind_eq_some_iff] at h
    obtain ⟨turns, _, halfTurns, _, radians, hradians, heffect⟩ := h
    exact ⟨radians, (Option.some.inj heffect).symm, f.fits_of_map_round hradians⟩
  · left
    simp only [rad, Option.bind_eq_bind, Option.bind_eq_some_iff] at h
    obtain ⟨tau, _, turns, _, degrees, hdegrees, heffect⟩ := h
    exact ⟨degrees, (Option.some.inj heffect).symm, f.fits_of_map_round hdegrees⟩
  · cases h

/-- A root is a power with the reciprocal of its degree, which is not zero. -/
theorem root_cases {degree x : Number} {effect : SlotEffect}
    (h : root lib f degree x = some effect) :
    degree.size ≠ .zero ∧ ∃ y, f.div Number.one degree = some y ∧ pow lib f x y = some effect := by
  unfold root at h
  split at h
  · cases h
  · rename_i hdegree
    refine ⟨?_, Option.bind_eq_some_iff.mp h⟩
    intro hzero
    simp [Number.isZero, hzero] at hdegree

/-- What a wide function writes fits. -/
theorem fits_of_applyWide {function : Function} {args : List Number} {effect : SlotEffect}
    (h : function.applyWide lib f args = some effect) : effect.Fits f := by
  rcases applyWide_cases h with ⟨x, rfl, hfits⟩ | ⟨degree, x, _, _, hroot⟩
  · exact hfits
  · obtain ⟨_, y, _, hpow⟩ := root_cases hroot
    exact fits_of_pow hpow

/-- A 64-bit result that is taken over fits. -/
theorem fits_of_ofBinary64 {operation : String} {value : Binary64} {x : Number}
    (h : ofBinary64 f span operation value = .ok x) : f.Fits x.size := by
  cases value with
  | nan => cases h
  | number y _ =>
    cases h
    exact f.fits_round y

/-- A literal's value fits. -/
theorem fits_of_literal {text : String} {value : Binary64} {x : Number}
    (h : literal f text value span = .ok x) : f.Fits x.size := by
  unfold literal at h
  split at h
  · rename_i hread
    cases h
    exact Literal.fits_of_readWide hread
  · exact fits_of_ofBinary64 h

/-- A variable's value fits. -/
theorem fits_of_variableValue {env : Environment} {name : String} {x : Number}
    (h : variableValue f env name span = .ok x) : f.Fits x.size := by
  unfold variableValue at h
  split at h
  · cases h
  · cases h
  · rename_i y _ _
    cases h
    exact f.fits_round y

/-- A rounded result that exists fits. -/
theorem fits_of_elim {failure : EvalError} {result : Option Number} {x : Number}
    (h : (result.map f.round).elim (Except.error failure) Except.ok = .ok x) : f.Fits x.size := by
  cases result with
  | none => cases h
  | some y =>
    cases h
    exact f.fits_round y

/-- The result of an operation fits. -/
theorem fits_of_arithmetic {op : Operator} {x y z : Number}
    (h : arithmetic lib f span op x y = .ok z) : f.Fits z.size := by
  cases op with
  | add => exact fits_of_elim h
  | sub => exact fits_of_elim h
  | mul => exact fits_of_elim h
  | div => exact fits_of_elim h
  | pow =>
    simp only [arithmetic] at h
    split at h
    · rename_i effect heffect
      cases h
      exact (fits_of_pow heffect).apply_zero
    · exact fits_of_ofBinary64 h

/-- The effect of a call is that of the wide function on finite arguments, or it writes a number of
the format. -/
theorem callEffect_cases {function : Function} {args : List Number} {effect : SlotEffect}
    (h : callEffect lib f span function args = .ok effect) :
    (args.any Number.isInfinite = false ∧ function.applyWide lib f args = some effect) ∨
      ∃ x, effect = .write x ∧ f.Fits x.size := by
  simp only [callEffect] at h
  split at h
  · rename_i effect' hwide
    cases h
    left
    split at hwide
    · cases hwide
    · rename_i hfinite
      exact ⟨Bool.not_eq_true _ ▸ hfinite, hwide⟩
  · right
    generalize hresult :
      ofBinary64 f span function.name (function.apply (args.map Binary64.ofNumber)) = result at h
    cases result with
    | ok x =>
      cases h
      exact ⟨x, rfl, fits_of_ofBinary64 hresult⟩
    | error e => cases h

/-- What a call writes fits. -/
theorem fits_of_callEffect {function : Function} {args : List Number} {effect : SlotEffect}
    (h : callEffect lib f span function args = .ok effect) : effect.Fits f := by
  rcases callEffect_cases h with ⟨_, hwide⟩ | ⟨x, rfl, hfits⟩
  · exact fits_of_applyWide hwide
  · exact hfits

end Wide

/-! ### Which calls write -/

/-- Whether a call is a root of degree one of a finite number other than zero. -/
def Function.isUnitRoot : Function → List Number → Bool
  | .root, [degree, ⟨_, .finite _⟩] => decide (degree = Number.one)
  | _, _ => false

namespace Wide

variable {lib : Library}

/-- Assumes: a library that writes powers. A power writes its slot unless its exponent is zero or
one. -/
theorem writes_of_pow (hlib : lib.WritesPowers) {f : Format} {x y : Number} {effect : SlotEffect}
    (h : pow lib f x y = some effect) (hzero : y.size ≠ .zero) (hone : y ≠ Number.one) :
    ∃ z, effect = .write z := by
  obtain ⟨base, _, hinfinite, heffect⟩ := pow_cases h
  obtain ⟨z, hz⟩ := hlib f base y hzero hinfinite hone
  have hpower : powPositive lib f base y = .write z := by
    rw [powPositive, hz, Option.elim_some]
  rw [hpower] at heffect
  rcases heffect with rfl | rfl
  · exact ⟨z, rfl⟩
  · exact ⟨z.neg, rfl⟩

/-- The rounded reciprocal of a finite number other than zero. -/
theorem div_one_of_finite {bits : Nat} {degree y : Number} {d : Dyadic}
    (hsize : degree.size = .finite d)
    (h : (Format.wide bits).div Number.one degree = some y) :
    y = ⟨degree.negative, (Format.wide bits).roundSize
      (.finite (Dyadic.div (Format.widthOf bits) (Dyadic.twoPow 0) d))⟩ := by
  obtain ⟨negative, size⟩ := degree
  cases hsize
  cases h
  simp [Format.round, Format.wide, Number.one]

/-- Assumes: a library that writes powers. A root of a finite degree of the format writes its slot,
unless the degree is one. -/
theorem writes_of_root (hlib : lib.WritesPowers) {bits : Nat} {degree x : Number}
    {effect : SlotEffect} (hfits : (Format.wide bits).Fits degree.size)
    (hfinite : degree.size ≠ .infinite) (hone : degree ≠ Number.one)
    (h : root lib (Format.wide bits) degree x = some effect) :
    ∃ z, effect = .write z := by
  obtain ⟨hzero, y, hdiv, hpow⟩ := root_cases h
  cases hsize : degree.size with
  | zero => exact absurd hsize hzero
  | infinite => exact absurd hsize hfinite
  | finite d =>
    rw [hsize] at hfits
    have hy := div_one_of_finite hsize hdiv
    apply writes_of_pow hlib hpow
    · rw [hy]
      exact Format.reciprocal_ne_zero bits hfits
    · intro hunit
      rw [hunit] at hy
      have hd := Format.eq_one_of_reciprocal bits hfits (congrArg Number.size hy).symm
      have hnegative : degree.negative = false := (congrArg Number.negative hy).symm
      obtain ⟨negative, size⟩ := degree
      cases hsize
      cases hd
      cases hnegative
      exact hone rfl

/-- Assumes: a library that writes powers, and a call whose arguments are numbers of the format.
Unless it is a root of degree one of a finite number other than zero, it writes its slot. -/
theorem writes_of_callEffect (hlib : lib.WritesPowers) {bits : Nat} {span : Span}
    {function : Function} {args : List Number} {effect : SlotEffect}
    (hfits : ∀ x ∈ args, (Format.wide bits).Fits x.size)
    (hunit : function.isUnitRoot args = false)
    (h : callEffect lib (Format.wide bits) span function args = .ok effect) :
    ∃ z, effect = .write z := by
  rcases callEffect_cases h with ⟨hfinite, hwide⟩ | ⟨z, hz, _⟩
  · rcases applyWide_cases hwide with ⟨z, hz, _⟩ | ⟨degree, x, rfl, rfl, hroot⟩
    · exact ⟨z, hz⟩
    · obtain ⟨_, y, _, hpow⟩ := root_cases hroot
      obtain ⟨base, hbase, _⟩ := pow_cases hpow
      apply writes_of_root hlib (hfits degree (by simp)) _ _ hroot
      · intro hinfinite
        simp [Number.isInfinite, hinfinite] at hfinite
      · intro hone
        obtain ⟨negative, size⟩ := x
        cases hbase
        simp [Function.isUnitRoot, hone] at hunit
  · exact ⟨z, hz⟩

end Wide

end Reckoner
