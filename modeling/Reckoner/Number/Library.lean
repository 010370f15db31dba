import Reckoner.Number.Elementary

/-!
# The library of elementary functions

Wide powers, wide logarithms and the wide number pi come from a library, and everything that is
computed wide takes the library as a parameter. A logarithm and pi always write the slot they are
given, so a library has the number that they write. A power need not write: it has a number, or
none if it returns with the slot as it was.

What a power writes fits the format and is not negative, in every library. Two properties are said
apart, for those who rely on them: `Library.WritesPowers` and `Library.LeavesTrivialPowers`.

`Library.standard` is the library of the running program. It rounds correctly as far as its search
for agreeing bounds settles, and leaves a slot alone for the exponents zero and one.
-/

set_option autoImplicit false

namespace Reckoner

/-- A library of elementary functions for wide numbers: the power of a positive base, the logarithm
of a positive number, and pi. -/
structure Library where
  /-- What a power writes, or none if it leaves its slot unwritten. -/
  pow : Format → Dyadic → Number → Option Number
  log : Format → Dyadic → Number
  pi : Format → Number
  pow_fits : ∀ {f base y x}, pow f base y = some x → f.Fits x.size
  pow_nonneg : ∀ {f base y x}, pow f base y = some x → x.negative = false

namespace Library

/-- Whether powers are written for all finite exponents other than zero and one. -/
def WritesPowers (lib : Library) : Prop :=
  ∀ f base y, y.size ≠ .zero → y.size ≠ .infinite → y ≠ Number.one →
    ∃ x, lib.pow f base y = some x

/-- Whether powers are left unwritten for the exponents zero and one. -/
def LeavesTrivialPowers (lib : Library) : Prop :=
  ∀ f base y, y.size = .zero ∨ y = Number.one → lib.pow f base y = none

end Library

/-! ### Numbers between bounds -/

/-- The bounds of a ball have the sign of its midpoint. -/
theorem Bounds.negative_of_ofBall? {ball : Ball} {exp : Int} {b : Bounds}
    (h : Bounds.ofBall? ball exp = some b) : b.negative = decide (ball.mid < 0) := by
  unfold ofBall? at h
  split at h
  · rw [← Option.some.inj h]
  · cases h

namespace Format

variable (f : Format)

/-- What bounds settle on fits. -/
theorem fits_settleFrom (bounds? : Nat → Option Bounds) (fuel w : Nat) :
    f.Fits (f.settleFrom bounds? fuel w).size := by
  induction fuel generalizing w with
  | zero =>
    unfold settleFrom
    split
    · exact f.fits_round ⟨_, .finite _⟩
    · trivial
  | succ fuel ih =>
    unfold settleFrom
    split
    · split
      · exact f.fits_round ⟨_, .finite _⟩
      · exact ih _
    · exact ih _

/-- A power of a dyadic fits. -/
theorem fits_powDyadic (d : Dyadic) (negative : Bool) (y : Dyadic) :
    f.Fits (f.powDyadic d negative y).size := by
  unfold powDyadic
  split
  · exact f.fits_round ⟨_, .finite _⟩
  · exact f.fits_settleFrom _ _ _

/-- A number found from bounds that are not negative is not negative. -/
theorem negative_settleFrom {bounds? : Nat → Option Bounds}
    (h : ∀ w b, bounds? w = some b → b.negative = false) (fuel w : Nat) :
    (f.settleFrom bounds? fuel w).negative = false := by
  induction fuel generalizing w with
  | zero =>
    unfold settleFrom
    cases hbounds : bounds? w with
    | none => rfl
    | some b => exact h w b hbounds
  | succ fuel ih =>
    unfold settleFrom
    cases hbounds : bounds? w with
    | none => exact ih (2 * w)
    | some b =>
      dsimp only
      split
      · exact h w b hbounds
      · exact ih (2 * w)

/-- A power of a positive number is not negative. -/
theorem negative_powDyadic (base : Dyadic) (negative : Bool) (exponent : Dyadic) :
    (f.powDyadic base negative exponent).negative = false := by
  unfold powDyadic
  split
  · rfl
  · apply negative_settleFrom
    intro w b hb
    rw [Bounds.negative_of_ofBall? hb]
    exact decide_eq_false (Int.not_lt.mpr (Int.natCast_nonneg _))

end Format

/-! ### The library of the running program -/

namespace Library

/-- The power of a positive base, for a finite exponent other than zero and one. -/
def powStandard (f : Format) (base : Dyadic) (y : Number) : Option Number :=
  match y.size with
  | .finite exponent =>
    if y = Number.one then none else some (f.powDyadic base y.negative exponent)
  | _ => none

/-- A power that is written is the power of a dyadic. -/
theorem powStandard_cases {f : Format} {base : Dyadic} {y x : Number}
    (h : powStandard f base y = some x) : ∃ exponent, x = f.powDyadic base y.negative exponent := by
  unfold powStandard at h
  split at h
  · rename_i exponent _
    split at h
    · cases h
    · exact ⟨exponent, (Option.some.inj h).symm⟩
  · cases h

/-- The library of the running program. -/
def standard : Library where
  pow := powStandard
  log := Format.logDyadic
  pi := Format.pi
  pow_fits h := by
    obtain ⟨exponent, rfl⟩ := powStandard_cases h
    exact Format.fits_powDyadic _ _ _ _
  pow_nonneg h := by
    obtain ⟨exponent, rfl⟩ := powStandard_cases h
    exact Format.negative_powDyadic _ _ _ _

/-- The running program's library writes all powers but the trivial ones. -/
theorem writesPowers_standard : standard.WritesPowers := by
  intro f base y hzero hinfinite hone
  change ∃ x, powStandard f base y = some x
  unfold powStandard
  cases hsize : y.size with
  | zero => exact absurd hsize hzero
  | infinite => exact absurd hsize hinfinite
  | finite exponent => exact ⟨_, if_neg hone⟩

/-- The running program's library leaves the trivial powers unwritten. -/
theorem leavesTrivialPowers_standard : standard.LeavesTrivialPowers := by
  intro f base y htrivial
  change powStandard f base y = none
  unfold powStandard
  rcases htrivial with hzero | rfl
  · rw [hzero]
  · rfl

end Library

end Reckoner
