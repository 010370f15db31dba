import Reckoner.Proofs.NegativeBase
import Reckoner.Proofs.Nodes

/-!
# Roots and logarithms of negative numbers

A number below zero has neither a square root nor a logarithm. Both functions decline such an
argument and leave it to 64 bits, where it is rounded first. There all but the smallest arguments
have no result, so the call fails; but what is at most half of the least number of 64 bits is
rounded to a negative zero (`Magnitude.Vanishes`), which is its own root and has the logarithm minus
infinity. That is divided by the logarithm of the base, which is finite for the finite numbers above
zero (`Binary64.isFinite_log`): a bound of the series behind it is enough to see that it is never
too large.

Main statement: `Expr.evalPrecise_of_negative_argument`.
-/

set_option autoImplicit false

namespace Reckoner

/-! ### Bounds of the logarithm -/

namespace Ball

/-- A sum of reciprocals has no term above the first. -/
theorem natAbs_reciprocalSeries_le (base fuel power i : ℕ) :
    (reciprocalSeries 1 base fuel power i).natAbs ≤ fuel * power := by
  induction fuel generalizing power i with
  | zero => simp [reciprocalSeries]
  | succ fuel ih =>
    unfold reciprocalSeries
    split
    · simp
    · have hfirst : power / (2 * i + 1) ≤ power := Nat.div_le_self _ _
      have hnext : fuel * (power / (base * base)) ≤ fuel * power :=
        Nat.mul_le_mul_left _ (Nat.div_le_self _ _)
      have hrest := ih (power / (base * base)) (i + 1)
      have hsucc : (fuel + 1) * power = fuel * power + power := Nat.succ_mul ..
      rw [one_mul]
      refine (Int.natAbs_add_le _ _).trans ?_
      rw [Int.natAbs_natCast]
      omega

/-- A sum of odd powers of a number of one at most has no term above the first. -/
theorem oddPowerSeries_le {w square : ℕ} (h : square ≤ 2 ^ w) (fuel power i : ℕ) :
    oddPowerSeries w square fuel power i ≤ fuel * power := by
  induction fuel generalizing power i with
  | zero => simp [oddPowerSeries]
  | succ fuel ih =>
    unfold oddPowerSeries
    split
    · simp
    · have hfirst : power / (2 * i + 1) ≤ power := Nat.div_le_self _ _
      have hpower : (power * square) >>> w ≤ power := by
        rw [Nat.shiftRight_eq_div_pow]
        exact Nat.div_le_of_le_mul (by rw [Nat.mul_comm]; exact Nat.mul_le_mul_right _ h)
      have hnext : fuel * ((power * square) >>> w) ≤ fuel * power := Nat.mul_le_mul_left _ hpower
      have hrest := ih ((power * square) >>> w) (i + 1)
      have hsucc : (fuel + 1) * power = fuel * power + power := Nat.succ_mul ..
      omega

/-- The logarithm of two is at most twice the number of terms of its series. -/
theorem natAbs_ln2_le (w : ℕ) : (ln2 w).mid.natAbs ≤ 2 * ((w + 2) * 2 ^ w) := by
  have hseries := natAbs_reciprocalSeries_le 3 (w + 2) (2 ^ w / 3) 0
  have hpower : (w + 2) * (2 ^ w / 3) ≤ (w + 2) * 2 ^ w :=
    Nat.mul_le_mul_left _ (Nat.div_le_self _ _)
  change (2 * reciprocalSeries 1 3 (w + 2) (2 ^ w / 3) 0).natAbs ≤ _
  omega

/-- The logarithm of a dyadic, by that of two and a series. -/
theorem natAbs_log_le (w : ℕ) (d : Dyadic) :
    (log w d).mid.natAbs ≤ 2 * ((w + 2) * 2 ^ w) * ((d.exp + factorShift d).natAbs + 1) := by
  let difference : ℤ := (d.mant : ℤ) - (2 ^ factorShift d : ℕ)
  let ratio := (difference.natAbs <<< w) / (d.mant + 2 ^ factorShift d)
  let sum : ℤ := 2 * (oddPowerSeries w ((ratio * ratio) >>> w) (w + 2) ratio 0 : ℕ)
  have hratio : ratio ≤ 2 ^ w := by
    apply Nat.div_le_of_le_mul
    rw [Nat.shiftLeft_eq]
    exact Nat.mul_le_mul_right _ (Int.natAbs_sub_le _ _)
  have hsquare : (ratio * ratio) >>> w ≤ 2 ^ w := by
    rw [Nat.shiftRight_eq_div_pow]
    exact Nat.div_le_of_le_mul (Nat.mul_le_mul hratio hratio)
  have hseries := oddPowerSeries_le hsquare (w + 2) ratio 0
  have hterms : (w + 2) * ratio ≤ (w + 2) * 2 ^ w := Nat.mul_le_mul_left _ hratio
  have hsum : (if difference < 0 then -sum else sum).natAbs ≤ 2 * ((w + 2) * 2 ^ w) := by
    split <;> omega
  calc (log w d).mid.natAbs
      ≤ ((d.exp + factorShift d) * (ln2 w).mid).natAbs +
          (if difference < 0 then -sum else sum).natAbs := Int.natAbs_add_le _ _
    _ ≤ (d.exp + factorShift d).natAbs * (2 * ((w + 2) * 2 ^ w)) + 2 * ((w + 2) * 2 ^ w) := by
        rw [Int.natAbs_mul]
        exact Nat.add_le_add (Nat.mul_le_mul_left _ (natAbs_ln2_le w)) hsum
    _ = 2 * ((w + 2) * 2 ^ w) * ((d.exp + factorShift d).natAbs + 1) := by ring

/-- The exponent that is taken out of a dyadic is that of its first bit or of the one above. -/
theorem factorShift_le (d : Dyadic) : factorShift d ≤ d.bits ∧ d.bits ≤ factorShift d + 1 := by
  unfold factorShift
  split <;> omega

end Ball

/-- The lower bound that a ball gives is at most its midpoint. -/
theorem Bounds.toRat_lo_le {ball : Ball} {w : ℕ} {b : Bounds}
    (h : Bounds.ofBall? ball (-w) = some b) : b.lo.toRat * 2 ^ w ≤ ball.mid.natAbs := by
  unfold ofBall? at h
  split at h
  · rw [← Option.some.inj h, Dyadic.toRat_ofScaled, zpow_neg, zpow_natCast, mul_assoc,
      inv_mul_cancel₀ (by positivity), mul_one]
    exact_mod_cast Nat.sub_le _ _
  · cases h

namespace Format

variable {f : Format} {k : ℤ}

/-- Assumes: bounds whose lower one is at most a power of two of the format, at all working
precisions up to the greatest that is tried. What both bounds round to is at most that power. -/
theorem atMost_settleFrom {bounds? : ℕ → Option Bounds} (greatest : ℕ) (hunit : f.unitFloor ≤ k)
    (hceil : k < f.sizeCeil)
    (h : ∀ w ≤ greatest, ∀ b, bounds? w = some b → (Magnitude.finite b.lo).AtMost (2 ^ k))
    (fuel w : ℕ)
    (hw : w * 2 ^ fuel ≤ greatest) : (f.settleFrom bounds? fuel w).size.AtMost (2 ^ k) := by
  induction fuel generalizing w with
  | zero =>
    unfold settleFrom
    cases hbounds : bounds? w with
    | none => trivial
    | some b => exact atMost_roundSize hunit hceil (h w (by simpa using hw) b hbounds)
  | succ fuel ih =>
    have hdouble : 2 * w * 2 ^ fuel ≤ greatest := by
      calc 2 * w * 2 ^ fuel = w * 2 ^ (fuel + 1) := by ring
        _ ≤ greatest := hw
    unfold settleFrom
    cases hbounds : bounds? w with
    | none => exact ih (2 * w) hdouble
    | some b =>
      have hle : w ≤ greatest := (Nat.le_mul_of_pos_right w (Nat.two_pow_pos _)).trans hw
      dsimp only
      split
      · exact atMost_roundSize hunit hceil (h w hle b hbounds)
      · exact ih (2 * w) hdouble

/-- The logarithm of a number of 64 bits is far from being too large for 64 bits. -/
theorem atMost_logDyadic {d : Dyadic} (hfits : binary64.Fits (.finite d)) :
    (binary64.logDyadic d).size.AtMost (2 ^ (30 : ℤ)) := by
  obtain ⟨hshift, hshift'⟩ := Ball.factorShift_le d
  have hbits : d.bits ≤ 53 := Dyadic.bits_le_iff.mpr hfits.1
  have hexp : -1074 ≤ d.exp := hfits.2.1
  have htop : d.exp + (d.bits : ℤ) ≤ 1024 := hfits.2.2
  have hscale : (d.exp + Ball.factorShift d).natAbs ≤ 1074 := by omega
  have hcancellation : Ball.cancellation d ≤ 53 := (Nat.sub_le _ _).trans (hshift.trans hbits)
  unfold logDyadic
  split
  · trivial
  · -- the working precision starts at 154 bits at most and is doubled ten times at most
    apply atMost_settleFrom (154 * 2 ^ 10) (by decide) (by decide)
    · intro w hw b hb
      have hmid : (Ball.log w d).mid.natAbs ≤ 2 ^ 30 * 2 ^ w := by
        calc (Ball.log w d).mid.natAbs
            ≤ 2 * ((w + 2) * 2 ^ w) * ((d.exp + Ball.factorShift d).natAbs + 1) :=
              Ball.natAbs_log_le w d
          _ ≤ 2 * ((w + 2) * 2 ^ w) * 1075 := Nat.mul_le_mul_left _ (by omega)
          _ = 2150 * (w + 2) * 2 ^ w := by ring
          _ ≤ 2 ^ 30 * 2 ^ w := Nat.mul_le_mul_right _ (by omega)
      have hscaled : b.lo.toRat * 2 ^ w ≤ 2 ^ 30 * 2 ^ w :=
        (Bounds.toRat_lo_le hb).trans (by exact_mod_cast hmid)
      exact le_of_mul_le_mul_right hscaled (by positivity)
    · change (53 + 48 + Ball.cancellation d) * 2 ^ 10 ≤ 154 * 2 ^ 10
      omega

end Format

/-! ### Roots and logarithms in 64 bits -/

/-- Whether a size is at most half of the least one of 64 bits. -/
def Magnitude.Vanishes (size : Magnitude) : Prop :=
  size.AtMost (2 ^ (-1075 : ℤ))

/-- What vanishes is what 64 bits round to zero. -/
theorem Format.roundSize_eq_zero_iff_vanishes {size : Magnitude} :
    binary64.roundSize size = .zero ↔ size.Vanishes := by
  cases size with
  | zero => exact ⟨fun _ ↦ trivial, fun _ ↦ rfl⟩
  | infinite => exact ⟨fun h ↦ (nomatch h), False.elim⟩
  | finite d => exact roundSize_eq_zero_iff

namespace Binary64

/-- Whether a value is a finite number. -/
def isFinite (x : Binary64) : Bool :=
  x.toNumber?.any fun z ↦ !z.isInfinite

/-- The finite numbers above zero have a finite logarithm, and no others. -/
theorem isFinite_log {x : Number} (hfits : Format.binary64.Fits x.size) :
    (log (.number x hfits)).isFinite = (x.isOrdinary && !x.negative) := by
  obtain ⟨negative, size⟩ := x
  cases size with
  | zero => rfl
  | infinite => cases negative <;> rfl
  | finite d =>
    cases negative with
    | true => rfl
    | false =>
      have hsize := Format.atMost_roundSize (f := Format.binary64) (k := 30) (by decide) (by decide)
        (Format.atMost_logDyadic hfits)
      change (!(Format.binary64.round (Format.binary64.logDyadic d)).isInfinite) = true
      unfold Number.isInfinite Format.round
      cases hround : Format.binary64.roundSize (Format.binary64.logDyadic d).size with
      | zero => rfl
      | finite d' => rfl
      | infinite =>
        rw [hround] at hsize
        exact hsize.elim

/-- The square root of a number with a minus sign: a zero is its own root, and others have none. -/
theorem sqrt_of_negative (size : Magnitude) :
    (ofNumber ⟨true, size⟩).sqrt =
      if Format.binary64.roundSize size = .zero then ofNumber ⟨true, .zero⟩ else .nan := by
  change ofResult (Number.sqrt _ ⟨true, Format.binary64.roundSize size⟩) = _
  cases Format.binary64.roundSize size <;> rfl

/-- The logarithm of a number with a minus sign: minus infinity at zero, and none for others. -/
theorem log_of_negative (size : Magnitude) :
    (ofNumber ⟨true, size⟩).log =
      if Format.binary64.roundSize size = .zero then ofNumber ⟨true, .infinite⟩ else .nan := by
  change ofResult (logNumber ⟨true, Format.binary64.roundSize size⟩) = _
  cases Format.binary64.roundSize size <;> rfl

/-- Minus infinity, divided by a number that is finite, is infinite, and by nothing else. -/
theorem minusInfinity_div (y : Binary64) :
    if y.isFinite then
      ∃ negative, (ofNumber ⟨true, .infinite⟩).div y = ofNumber ⟨negative, .infinite⟩
    else (ofNumber ⟨true, .infinite⟩).div y = .nan := by
  cases y with
  | nan => rfl
  | number z fits =>
    obtain ⟨negative, size⟩ := z
    cases size with
    | infinite => rfl
    | zero => exact ⟨_, rfl⟩
    | finite d => exact ⟨_, rfl⟩

end Binary64

/-! ### Calls with a negative argument -/

/-- A number below zero has a minus sign and is not zero. -/
theorem Number.eq_of_isNegative {x : Number} (h : x.isNegative = true) :
    ∃ size, x = ⟨true, size⟩ ∧ size ≠ .zero := by
  obtain ⟨negative, size⟩ := x
  cases negative with
  | false => cases h
  | true =>
    refine ⟨size, rfl, ?_⟩
    rintro rfl
    cases h

namespace Wide

variable {v : Number} (lib : Library) (f : Format) (span : Span)

/-- A function that declines its arguments is computed in 64 bits. -/
theorem callEffect_of_declined {function : Function} {args : List Number}
    (h : function.applyWide lib f args = none) :
    callEffect lib f span function args =
      (ofBinary64 f span function.name (function.apply (args.map Binary64.ofNumber))).map
        SlotEffect.write := by
  simp only [callEffect, h, ite_self]

/-- Square root and logarithm decline a negative argument. -/
theorem applyWide_of_negative {size : Magnitude} (hsize : size ≠ .zero) (b : Number) :
    Function.applyWide lib f .sqrt [⟨true, size⟩] = none ∧
      Function.applyWide lib f .log [b, ⟨true, size⟩] = none := by
  constructor
  · cases size with
    | zero => exact absurd rfl hsize
    | infinite => rfl
    | finite d => rfl
  · change log lib f b ⟨true, size⟩ = none
    unfold log
    cases b.size <;> cases size <;> simp

/-- The square root of a negative argument is a negative zero if the argument vanishes, and fails if
it does not. -/
theorem callEffect_sqrt_of_negative (hv : v.isNegative = true) :
    (v.size.Vanishes → callEffect lib f span .sqrt [v] = .ok (.write ⟨true, .zero⟩)) ∧
    (¬ v.size.Vanishes →
      callEffect lib f span .sqrt [v] = .error ⟨span, .notANumber "sqrt"⟩) := by
  obtain ⟨size, rfl, hsize⟩ := Number.eq_of_isNegative hv
  have hcall : callEffect lib f span .sqrt [⟨true, size⟩] =
      (ofBinary64 f span "sqrt" (Binary64.ofNumber ⟨true, size⟩).sqrt).map SlotEffect.write :=
    callEffect_of_declined lib f span (applyWide_of_negative lib f hsize Number.zero).1
  rw [hcall, Binary64.sqrt_of_negative, ← Format.roundSize_eq_zero_iff_vanishes]
  constructor
  · intro hzero
    rw [if_pos hzero]
    rfl
  · intro hzero
    rw [if_neg hzero]
    rfl

/-- The logarithm of a negative argument is infinite if the argument vanishes and the base is in 64
bits a finite number above zero, and fails if not. -/
theorem callEffect_log_of_negative (hv : v.isNegative = true) (b : Number) :
    (v.size.Vanishes ∧ (Format.binary64.round b).isOrdinary = true ∧ b.negative = false →
      ∃ negative, callEffect lib f span .log [b, v] = .ok (.write ⟨negative, .infinite⟩)) ∧
    (¬ (v.size.Vanishes ∧ (Format.binary64.round b).isOrdinary = true ∧ b.negative = false) →
      callEffect lib f span .log [b, v] = .error ⟨span, .notANumber "log"⟩) := by
  obtain ⟨size, rfl, hsize⟩ := Number.eq_of_isNegative hv
  have hquotient := Binary64.minusInfinity_div (Binary64.ofNumber b).log
  have hfinite : (Binary64.ofNumber b).log.isFinite = true ↔
      (Format.binary64.round b).isOrdinary = true ∧ b.negative = false := by
    have hlog := Binary64.isFinite_log (Format.fits_round _ b)
    change (Binary64.ofNumber b).log.isFinite = _ at hlog
    rw [hlog, Bool.and_eq_true, Bool.not_eq_true']
    rfl
  have hcall : callEffect lib f span .log [b, ⟨true, size⟩] =
      (ofBinary64 f span "log" ((Binary64.ofNumber ⟨true, size⟩).log.div
        (Binary64.ofNumber b).log)).map SlotEffect.write :=
    callEffect_of_declined lib f span (applyWide_of_negative lib f hsize b).2
  rw [hcall, Binary64.log_of_negative, ← Format.roundSize_eq_zero_iff_vanishes, ← hfinite]
  constructor
  · rintro ⟨hzero, hb⟩
    rw [if_pos hb] at hquotient
    obtain ⟨negative, hquotient⟩ := hquotient
    rw [if_pos hzero, hquotient]
    exact ⟨negative, rfl⟩
  · intro hnot
    by_cases hzero : Format.binary64.roundSize size = .zero
    · rw [if_neg fun hb ↦ hnot ⟨hzero, hb⟩] at hquotient
      rw [if_pos hzero, hquotient]
      rfl
    · rw [if_neg hzero]
      rfl

end Wide

namespace Expr

variable {lib : Library} {f : Format} {env : Environment} {callee : String}
  {calleeSpan span : Span} {args : List Expr} {slots filled : Slots Number} {function : Function}

/-- There are as many values of arguments as arguments. -/
theorem length_lastTaken
    (hargs : evalPreciseAll lib f env args (slots.take Number.zero) = .ok filled) :
    (filled.lastTaken args.length).length = args.length := by
  obtain ⟨values, hlength, hlive⟩ := exists_live_evalPreciseAll hargs
  simp [Slots.lastTaken, hlive, hlength]

/-- A call that writes a number leaves it on top of the slots that were in use. -/
theorem evalPrecise_call_of_write
    (hresolve : Function.resolve callee calleeSpan args.length span = .ok function)
    (hargs : evalPreciseAll lib f env args (slots.take Number.zero) = .ok filled) {x : Number}
    (heffect :
      Wide.callEffect lib f span function (filled.lastTaken args.length) = .ok (.write x)) :
    ∃ after, (call callee calleeSpan args span).evalPrecise lib f env slots = .ok after ∧
      after.live = x :: slots.live := by
  obtain ⟨values, hlength, hlive⟩ := exists_live_evalPreciseAll hargs
  obtain ⟨old, hold⟩ := slots.exists_live_take Number.zero
  have hrelease : (filled.releaseMany args.length).live = old :: slots.live := by
    rw [Slots.live_releaseMany, hlive, ← hlength, List.drop_left, hold]
  refine ⟨_, ?_, Slots.live_modifyTop hrelease (SlotEffect.write x).apply⟩
  simp only [evalPrecise, hresolve, hargs, heffect, bind, Except.bind, pure, Except.pure]

/-- A call fails as its function does. -/
theorem evalPrecise_call_of_error
    (hresolve : Function.resolve callee calleeSpan args.length span = .ok function)
    (hargs : evalPreciseAll lib f env args (slots.take Number.zero) = .ok filled) {e : EvalError}
    (heffect : Wide.callEffect lib f span function (filled.lastTaken args.length) = .error e) :
    (call callee calleeSpan args span).evalPrecise lib f env slots = .error e := by
  simp only [evalPrecise, hresolve, hargs, heffect, bind, Except.bind]

/-- Assumes: a call whose arguments have values, the last one below zero. With every library, at
every number of bits and on all slots, a square root fails unless its argument is so small that it
vanishes in 64 bits; then it leaves a negative zero. A logarithm fails unless its argument vanishes
and its base is, in 64 bits, a finite number above zero; then it leaves an infinity. -/
theorem evalPrecise_of_negative_argument (bits : ℕ) {v : Number} (hv : v.isNegative = true)
    (hargs : evalPreciseAll lib (Format.wide bits) env args (slots.take Number.zero) = .ok filled)
    (calleeSpan span : Span) :
    (filled.lastTaken args.length = [v] →
      (v.size.Vanishes → ∃ after,
        (call "sqrt" calleeSpan args span).evalPrecise lib (Format.wide bits) env slots =
          .ok after ∧ after.live = ⟨true, .zero⟩ :: slots.live) ∧
      (¬ v.size.Vanishes →
        (call "sqrt" calleeSpan args span).evalPrecise lib (Format.wide bits) env slots =
          .error ⟨span, .notANumber "sqrt"⟩)) ∧
    ∀ b : Number, filled.lastTaken args.length = [b, v] →
      (v.size.Vanishes ∧ (Format.binary64.round b).isOrdinary = true ∧ b.negative = false →
        ∃ negative after,
          (call "log" calleeSpan args span).evalPrecise lib (Format.wide bits) env slots =
            .ok after ∧ after.live = ⟨negative, .infinite⟩ :: slots.live) ∧
      (¬ (v.size.Vanishes ∧ (Format.binary64.round b).isOrdinary = true ∧ b.negative = false) →
        (call "log" calleeSpan args span).evalPrecise lib (Format.wide bits) env slots =
          .error ⟨span, .notANumber "log"⟩) := by
  have hlength := length_lastTaken hargs
  constructor
  · intro hvalues
    have hresolve : Function.resolve "sqrt" calleeSpan args.length span = .ok .sqrt := by
      rw [← hlength, hvalues]
      rfl
    have heffect := Wide.callEffect_sqrt_of_negative lib (Format.wide bits) span hv
    rw [← hvalues] at heffect
    exact ⟨fun h ↦ evalPrecise_call_of_write hresolve hargs (heffect.1 h),
      fun h ↦ evalPrecise_call_of_error hresolve hargs (heffect.2 h)⟩
  · intro b hvalues
    have hresolve : Function.resolve "log" calleeSpan args.length span = .ok .log := by
      rw [← hlength, hvalues]
      rfl
    have heffect := Wide.callEffect_log_of_negative lib (Format.wide bits) span hv b
    rw [← hvalues] at heffect
    constructor
    · intro h
      obtain ⟨negative, hwrite⟩ := heffect.1 h
      exact ⟨negative, evalPrecise_call_of_write hresolve hargs hwrite⟩
    · intro h
      exact evalPrecise_call_of_error hresolve hargs (heffect.2 h)

/-- An environment where `x` is minus four. -/
def minusFourInX : Environment :=
  Environment.empty.set "x" (Binary64.ofInt (-4))

/-- Minus four has no square root, and no logarithm in any base such as itself. -/
theorem evalPrecise_of_negative_argument_minusFour :
    (call "sqrt" ⟨0, 4⟩ [.var "x" ⟨5, 6⟩] ⟨0, 7⟩).evalPrecise Library.standard (Format.wide 64)
        minusFourInX Slots.empty = .error ⟨⟨0, 7⟩, .notANumber "sqrt"⟩ ∧
      (call "log" ⟨0, 3⟩ [.var "x" ⟨4, 5⟩, .var "x" ⟨6, 7⟩] ⟨0, 8⟩).evalPrecise Library.standard
        (Format.wide 64) minusFourInX Slots.empty = .error ⟨⟨0, 8⟩, .notANumber "log"⟩ := by
  have hfour : (Dyadic.twoPow 2).toRat = 4 := by norm_num [Dyadic.toRat, Dyadic.twoPow]
  have hsize : ¬ (Magnitude.finite (Dyadic.twoPow 2)).Vanishes := by
    change ¬ (Dyadic.twoPow 2).toRat ≤ 2 ^ (-1075 : ℤ)
    have hle : (2 : ℚ) ^ (-1075 : ℤ) ≤ 1 := zpow_le_one_of_nonpos₀ one_le_two (by decide)
    linarith
  exact ⟨((evalPrecise_of_negative_argument 64 (v := ⟨true, .finite (Dyadic.twoPow 2)⟩) rfl rfl
      ⟨0, 4⟩ ⟨0, 7⟩).1 rfl).2 hsize,
    ((evalPrecise_of_negative_argument 64 (v := ⟨true, .finite (Dyadic.twoPow 2)⟩) rfl rfl
      ⟨0, 3⟩ ⟨0, 8⟩).2 ⟨true, .finite (Dyadic.twoPow 2)⟩ rfl).2 fun h ↦ hsize h.1⟩

/-- The expression `2^-600`, from a place on. -/
def tinyPower (start : Int) : Expr :=
  .binary .pow (.literal "2" (Binary64.ofInt 2) ⟨start, start + 1⟩)
    (.binary .sub (signZero ⟨start + 2, start + 3⟩)
      (.literal "600" (Binary64.ofInt 600) ⟨start + 3, start + 6⟩))

/-- A number below zero that is too small for 64 bits: `0-2^-600*2^-600`. -/
def tinyBelowZero : Expr :=
  .binary .sub (.literal "0" Binary64.zero ⟨5, 6⟩) (.binary .mul (tinyPower 7) (tinyPower 14))

/-- It has a square root. -/
theorem preciseValue_sqrt_tinyBelowZero :
    (tinyBelowZero.preciseValue Library.standard (Format.wide 64) Environment.empty).map
        Number.isNegative = .ok true ∧
      (call "sqrt" ⟨0, 4⟩ [tinyBelowZero] ⟨0, 21⟩).preciseValue Library.standard (Format.wide 64)
        Environment.empty = .ok ⟨true, .zero⟩ := by
  decide +kernel

end Expr

end Reckoner
