import Reckoner.Proofs.Parsing
import Reckoner.Proofs.SlotEffects

/-!
# Wide evaluation without old numbers

`Expr.evalFresh` evaluates an expression wide by recursion alone: there are no slots, and a call's
effect is applied to a fresh zero. `Expr.calls` lists the calls that this evaluation makes, each
with the values of its arguments, up to the place where it fails.

Evaluation in slots starts from any slots in use and any numbers in the slots given back. It agrees
with evaluation without slots if every call that is made writes its slot (`Expr.live_evalPrecise`).
With a library that writes powers, every call does that is no root of degree one of a finite number
other than zero, so no other call can show an old number.

Main statement: evaluation in slots fails as evaluation without slots does, or puts its value on top
of the slots in use (`Expr.evalPrecise_refines_evalFresh`).
-/

set_option autoImplicit false

namespace Reckoner

/-! ### Slots in use -/

namespace Slots

variable {α : Type}

/-- Taking a slot puts one number, old or new, on top of those in use. -/
theorem exists_live_take (slots : Slots α) (fresh : α) :
    ∃ old, (slots.take fresh).live = old :: slots.live := by
  unfold take
  split
  · exact ⟨fresh, rfl⟩
  · rename_i old spare _
    exact ⟨old, rfl⟩

/-- Changing the top changes one number. -/
theorem live_modifyTop {slots : Slots α} {top : α} {rest : List α}
    (h : slots.live = top :: rest) (change : α → α) :
    (slots.modifyTop change).live = change top :: rest := by
  simp only [modifyTop, h]

/-- Writing a number puts it on top of those in use, whatever the slot held. -/
theorem live_put (slots : Slots Number) (x : Number) : (slots.put x).live = x :: slots.live := by
  obtain ⟨old, hold⟩ := slots.exists_live_take Number.zero
  exact live_modifyTop hold _

/-- Giving a slot back takes one number away. -/
theorem live_release (slots : Slots α) : slots.release.live = slots.live.tail := by
  unfold release
  split
  · rename_i h
    simp [h]
  · rename_i h
    simp [h]

/-- Giving slots back takes as many numbers away. -/
theorem live_releaseMany (count : Nat) (slots : Slots α) :
    (releaseMany count slots).live = slots.live.drop count := by
  induction count generalizing slots with
  | zero => rfl
  | succ count ih =>
    rw [releaseMany, ih, live_release, List.drop_tail]

/-- The numbers taken last are those on top, the first one deepest. -/
theorem lastTaken_of_live {slots : Slots α} {values rest : List α}
    (h : slots.live = values.reverse ++ rest) : slots.lastTaken values.length = values := by
  have hlength : values.reverse.length = values.length := List.length_reverse
  rw [lastTaken, h, ← hlength, List.take_left, List.reverse_reverse]

end Slots

/-! ### Evaluation without slots -/

namespace Expr

mutual

/-- The wide value of an expression where every result is computed from a fresh zero. -/
def evalFresh (lib : Library) (f : Format) (env : Environment) : Expr → Except EvalError Number
  | literal text value span => Wide.literal f text value span
  | var name span => Wide.variableValue f env name span
  | call callee calleeSpan args span => do
    let function ← Function.resolve callee calleeSpan args.length span
    let values ← evalFreshAll lib f env args
    let effect ← Wide.callEffect lib f span function values
    return effect.apply Number.zero
  | binary op left right => do
    let x ← left.evalFresh lib f env
    let y ← right.evalFresh lib f env
    Wide.arithmetic lib f (left.span.union right.span) op x y

/-- The wide values of arguments where every result is computed from a fresh zero. -/
def evalFreshAll (lib : Library) (f : Format) (env : Environment) :
    List Expr → Except EvalError (List Number)
  | [] => .ok []
  | arg :: rest => do
    let value ← arg.evalFresh lib f env
    let values ← evalFreshAll lib f env rest
    return value :: values

end

mutual

/-- The calls that evaluating an expression makes, with the values of their arguments. -/
def calls (lib : Library) (f : Format) (env : Environment) : Expr → List (Function × List Number)
  | literal _ _ _ => []
  | var _ _ => []
  | call callee calleeSpan args span =>
    match Function.resolve callee calleeSpan args.length span with
    | .error _ => []
    | .ok function =>
      callsAll lib f env args ++
        match evalFreshAll lib f env args with
        | .error _ => []
        | .ok values => [(function, values)]
  | binary _ left right =>
    left.calls lib f env ++
      match left.evalFresh lib f env with
      | .error _ => []
      | .ok _ => right.calls lib f env

/-- The calls that evaluating arguments makes; those behind a failure are not made. -/
def callsAll (lib : Library) (f : Format) (env : Environment) :
    List Expr → List (Function × List Number)
  | [] => []
  | arg :: rest =>
    arg.calls lib f env ++
      match arg.evalFresh lib f env with
      | .error _ => []
      | .ok _ => callsAll lib f env rest

end

variable {lib : Library} {f : Format} {env : Environment}

/-- The value of an expression fits the format. -/
theorem fits_of_evalFresh {e : Expr} {x : Number}
    (h : e.evalFresh lib f env = .ok x) : f.Fits x.size := by
  cases e with
  | literal text value span =>
    rw [evalFresh] at h
    exact Wide.fits_of_literal h
  | var name span =>
    rw [evalFresh] at h
    exact Wide.fits_of_variableValue h
  | call callee calleeSpan args span =>
    rw [evalFresh] at h
    obtain ⟨function, _, h⟩ := bind_eq_ok.mp h
    obtain ⟨values, _, h⟩ := bind_eq_ok.mp h
    obtain ⟨effect, heffect, hreturn⟩ := bind_eq_ok.mp h
    cases hreturn
    exact (Wide.fits_of_callEffect heffect).apply_zero
  | binary op left right =>
    rw [evalFresh] at h
    obtain ⟨y, _, h⟩ := bind_eq_ok.mp h
    obtain ⟨z, _, h⟩ := bind_eq_ok.mp h
    exact Wide.fits_of_arithmetic h

/-- There are as many values as arguments, and all of them fit the format. -/
theorem fits_of_evalFreshAll {args : List Expr} {values : List Number}
    (h : evalFreshAll lib f env args = .ok values) :
    values.length = args.length ∧ ∀ x ∈ values, f.Fits x.size := by
  induction args generalizing values with
  | nil =>
    cases h
    exact ⟨rfl, by simp⟩
  | cons arg rest ih =>
    rw [evalFreshAll] at h
    obtain ⟨value, hvalue, h⟩ := bind_eq_ok.mp h
    obtain ⟨others, hothers, hreturn⟩ := bind_eq_ok.mp h
    cases hreturn
    obtain ⟨hlength, hfits⟩ := ih hothers
    refine ⟨congrArg (· + 1) hlength, ?_⟩
    intro x hx
    rcases List.mem_cons.mp hx with rfl | hx
    · exact fits_of_evalFresh hvalue
    · exact hfits x hx

mutual

/-- The arguments of the calls that evaluating an expression makes fit the format. -/
theorem fits_of_mem_calls (e : Expr) :
    ∀ call ∈ e.calls lib f env, ∀ x ∈ call.2, f.Fits x.size := by
  cases e with
  | literal text value span => simp [calls]
  | var name span => simp [calls]
  | call callee calleeSpan args span =>
    rw [calls]
    split
    · simp
    · refine List.forall_mem_append.mpr ⟨fits_of_mem_callsAll args, ?_⟩
      split
      · simp
      · rename_i values hvalues
        exact List.forall_mem_singleton.mpr (fits_of_evalFreshAll hvalues).2
  | binary op left right =>
    rw [calls]
    refine List.forall_mem_append.mpr ⟨fits_of_mem_calls left, ?_⟩
    split
    · simp
    · exact fits_of_mem_calls right

/-- The arguments of the calls that evaluating arguments makes fit the format. -/
theorem fits_of_mem_callsAll (args : List Expr) :
    ∀ call ∈ callsAll lib f env args, ∀ x ∈ call.2, f.Fits x.size := by
  cases args with
  | nil => simp [callsAll]
  | cons arg rest =>
    rw [callsAll]
    refine List.forall_mem_append.mpr ⟨fits_of_mem_calls arg, ?_⟩
    split
    · simp
    · exact fits_of_mem_callsAll rest

end

/-! ### Calls that write -/

/-- Whether all calls that have an effect write their slots. -/
def AllWrite (lib : Library) (f : Format) (calls : List (Function × List Number)) : Prop :=
  ∀ call ∈ calls, ∀ span effect, Wide.callEffect lib f span call.1 call.2 = .ok effect →
    ∃ z, effect = .write z

/-- Calls made one after the other write if both parts do. -/
theorem allWrite_append {front back : List (Function × List Number)} :
    AllWrite lib f (front ++ back) ↔ AllWrite lib f front ∧ AllWrite lib f back :=
  List.forall_mem_append

/-- Whether none of the calls is a root of degree one of a finite number other than zero. -/
def WithoutUnitRoot (calls : List (Function × List Number)) : Prop :=
  ∀ call ∈ calls, call.1.isUnitRoot call.2 = false

/-- Assumes: a library that writes powers. The calls of an evaluation write if no such root is among
them. -/
theorem allWrite_of_withoutUnitRoot (hlib : lib.WritesPowers) {bits : Nat} {e : Expr}
    (h : WithoutUnitRoot (e.calls lib (Format.wide bits) env)) :
    AllWrite lib (Format.wide bits) (e.calls lib (Format.wide bits) env) := by
  intro call hcall span effect heffect
  exact Wide.writes_of_callEffect hlib (fits_of_mem_calls e call hcall) (h call hcall) heffect

/-! ### Evaluation in slots -/

/-- Two evaluations one after the other, in slots and without: each leaves the slots in use that the
other says. -/
theorem map_live_bind {α β : Type} {result : Except EvalError (Slots Number)}
    {value : Except EvalError α} {next : Slots Number → Except EvalError (Slots Number)}
    {nextValue : α → Except EvalError β} {first : α → List Number} {second : β → List Number}
    (h : result.map Slots.live = value.map first)
    (hnext : ∀ slots x, value = .ok x → slots.live = first x →
      (next slots).map Slots.live = (nextValue x).map second) :
    (result >>= next).map Slots.live = (value >>= nextValue).map second := by
  cases result with
  | error e =>
    cases value with
    | error e' =>
      cases h
      rfl
    | ok x => cases h
  | ok slots =>
    cases value with
    | error e' => cases h
    | ok x => exact hnext slots x rfl (Except.ok.inj h)

/-- A step that both evaluations take. -/
theorem map_live_bind_same {α β : Type} {common : Except EvalError α}
    {next : α → Except EvalError (Slots Number)} {nextValue : α → Except EvalError β}
    {second : β → List Number}
    (hnext : ∀ x, common = .ok x → (next x).map Slots.live = (nextValue x).map second) :
    (common >>= next).map Slots.live = (common >>= nextValue).map second := by
  cases common with
  | error e => rfl
  | ok x => exact hnext x rfl

mutual

/-- Assumes: every call that evaluating the expression makes writes its slot. Whatever slots it
starts from, evaluation in slots fails as evaluation without slots does, or puts the same value on
top of the slots in use. -/
theorem live_evalPrecise (e : Expr) (hcalls : AllWrite lib f (e.calls lib f env))
    (slots : Slots Number) :
    (e.evalPrecise lib f env slots).map Slots.live =
      (e.evalFresh lib f env).map (· :: slots.live) := by
  cases e with
  | literal text value span =>
    rw [evalPrecise, evalFresh]
    cases Wide.literal f text value span with
    | error e => rfl
    | ok x => exact congrArg Except.ok (slots.live_put x)
  | var name span =>
    rw [evalPrecise, evalFresh]
    cases Wide.variableValue f env name span with
    | error e => rfl
    | ok x => exact congrArg Except.ok (slots.live_put x)
  | call callee calleeSpan args span =>
    rw [evalPrecise, evalFresh]
    refine map_live_bind_same ?_
    intro function hfunction
    rw [calls, hfunction] at hcalls
    obtain ⟨hargs, hthis⟩ := allWrite_append.mp hcalls
    obtain ⟨old, hold⟩ := slots.exists_live_take Number.zero
    refine map_live_bind (live_evalPreciseAll args hargs _) ?_
    intro slots' values hvalues hlive
    have hlength := (fits_of_evalFreshAll hvalues).1
    rw [hvalues] at hthis
    rw [← hlength, Slots.lastTaken_of_live hlive]
    refine map_live_bind_same ?_
    intro effect heffect
    -- the call writes, so what its slot held does not matter
    obtain ⟨z, rfl⟩ := hthis _ List.mem_cons_self span effect heffect
    have hreleased : (slots'.releaseMany values.length).live = old :: slots.live := by
      rw [Slots.live_releaseMany, hlive, hold, ← List.length_reverse, List.drop_left]
    exact congrArg Except.ok (Slots.live_modifyTop hreleased _)
  | binary op left right =>
    rw [evalPrecise, evalFresh]
    rw [calls] at hcalls
    obtain ⟨hleft, hright⟩ := allWrite_append.mp hcalls
    refine map_live_bind (live_evalPrecise left hleft slots) ?_
    intro slots₁ x hx hlive₁
    rw [hx] at hright
    refine map_live_bind (live_evalPrecise right hright slots₁) ?_
    intro slots₂ y _ hlive₂
    rw [hlive₁] at hlive₂
    simp only [hlive₂]
    cases Wide.arithmetic lib f (left.span.union right.span) op x y with
    | error e => rfl
    | ok result =>
      have hreleased : slots₂.release.live = x :: slots.live := by
        rw [Slots.live_release, hlive₂]
        rfl
      exact congrArg Except.ok (Slots.live_modifyTop hreleased _)

/-- Assumes: every call that evaluating the arguments makes writes its slot. Evaluation in slots
fails as evaluation without slots does, or puts the same values on top of the slots in use, the last
one uppermost. -/
theorem live_evalPreciseAll (args : List Expr)
    (hcalls : AllWrite lib f (callsAll lib f env args)) (slots : Slots Number) :
    (evalPreciseAll lib f env args slots).map Slots.live =
      (evalFreshAll lib f env args).map (·.reverse ++ slots.live) := by
  cases args with
  | nil => rfl
  | cons arg rest =>
    rw [evalPreciseAll, evalFreshAll]
    rw [callsAll] at hcalls
    obtain ⟨harg, hrest⟩ := allWrite_append.mp hcalls
    refine map_live_bind (live_evalPrecise arg harg slots) ?_
    intro slots₁ x hx hlive₁
    rw [hx] at hrest
    rw [live_evalPreciseAll rest hrest slots₁, hlive₁]
    cases evalFreshAll lib f env rest with
    | error e => rfl
    | ok values =>
      have hreverse : values.reverse ++ x :: slots.live = (x :: values).reverse ++ slots.live := by
        simp
      exact congrArg Except.ok hreverse

end

/-- Whether an evaluation in slots has the outcome of one without: the same failure, or the same
value on top of the slots in use. -/
def Pushes (live : List Number) (result : Except EvalError (Slots Number)) :
    Except EvalError Number → Prop
  | .error fault => result = .error fault
  | .ok x => ∃ spare, result = .ok ⟨x :: live, spare⟩

/-- An evaluation has an outcome if its slots in use are those of the outcome. -/
theorem pushes_of_map_live {live : List Number} {result : Except EvalError (Slots Number)}
    {value : Except EvalError Number} (h : result.map Slots.live = value.map (· :: live)) :
    Pushes live result value := by
  cases result with
  | error fault =>
    cases value with
    | error fault' => exact congrArg Except.error (Except.error.inj h)
    | ok x => cases h
  | ok slots =>
    cases value with
    | error fault' => cases h
    | ok x =>
      have hlive : slots.live = x :: live := Except.ok.inj h
      refine ⟨slots.spare, ?_⟩
      rw [← hlive]

/-- Assumes: a library that writes the powers of all finite exponents but zero and one. At every
precision, evaluation in slots is evaluation without slots as long as no call that is made is a root
of degree one of a finite number other than zero: from any slots, it fails in the same way or puts
the same value on top of the slots in use. So if the numbers in slots that were given back make a
difference, such a root is among the calls. -/
theorem evalPrecise_refines_evalFresh (lib : Library) (hlib : lib.WritesPowers) (bits : Nat)
    (env : Environment) (e : Expr) :
    (WithoutUnitRoot (e.calls lib (Format.wide bits) env) →
      ∀ slots, Pushes slots.live (e.evalPrecise lib (Format.wide bits) env slots)
        (e.evalFresh lib (Format.wide bits) env)) ∧
    (∀ live spare spare',
      (e.evalPrecise lib (Format.wide bits) env ⟨live, spare⟩).map Slots.live ≠
        (e.evalPrecise lib (Format.wide bits) env ⟨live, spare'⟩).map Slots.live →
      ∃ call ∈ e.calls lib (Format.wide bits) env, call.1.isUnitRoot call.2 = true) := by
  constructor
  · intro hcalls slots
    exact pushes_of_map_live (live_evalPrecise e (allWrite_of_withoutUnitRoot hlib hcalls) slots)
  · intro live spare spare' hdifferent
    apply Classical.byContradiction
    intro hnone
    have hcalls : WithoutUnitRoot (e.calls lib (Format.wide bits) env) := by
      intro call hcall
      rw [← Bool.not_eq_true]
      exact fun hunit ↦ hnone ⟨call, hcall, hunit⟩
    have hwrite := allWrite_of_withoutUnitRoot hlib hcalls
    apply hdifferent
    rw [live_evalPrecise e hwrite, live_evalPrecise e hwrite]

/-- The expression `root(n, x)`. -/
def rootOfVariables : Expr :=
  call "root" ⟨0, 4⟩ [var "n" ⟨5, 6⟩, var "x" ⟨8, 9⟩] ⟨0, 10⟩

/-- An environment with a degree in `n` and four in `x`. -/
def degreeAndFour (degree : Int) : Environment :=
  (Environment.empty.set "n" (Binary64.ofInt degree)).set "x" (Binary64.ofInt 4)

/-- With the library of the running program, the square root of four is two, also in a slot that
still holds a three. -/
theorem evalPrecise_refines_evalFresh_root :
    Library.standard.WritesPowers ∧
    WithoutUnitRoot (rootOfVariables.calls Library.standard (Format.wide 64) (degreeAndFour 2)) ∧
    Pushes [] (rootOfVariables.evalPrecise Library.standard (Format.wide 64) (degreeAndFour 2)
      ⟨[], [Number.ofInt 3]⟩) (.ok (Number.ofInt 2)) := by
  have hcalls : rootOfVariables.calls Library.standard (Format.wide 64) (degreeAndFour 2) =
      [(.root, [Number.ofInt 2, Number.ofInt 4])] := rfl
  have hvalue : rootOfVariables.evalFresh Library.standard (Format.wide 64) (degreeAndFour 2) =
      .ok (Number.ofInt 2) := rfl
  have hunit : WithoutUnitRoot
      (rootOfVariables.calls Library.standard (Format.wide 64) (degreeAndFour 2)) := by
    intro call hcall
    rw [hcalls, List.mem_singleton] at hcall
    rw [hcall]
    rfl
  have hpushes := (evalPrecise_refines_evalFresh Library.standard Library.writesPowers_standard 64
    (degreeAndFour 2) rootOfVariables).1 hunit ⟨[], [Number.ofInt 3]⟩
  rw [hvalue] at hpushes
  exact ⟨Library.writesPowers_standard, hunit, hpushes⟩

-- the first root of four leaves the three where it is
example : (rootOfVariables.evalPrecise Library.standard (Format.wide 64) (degreeAndFour 1)
    ⟨[], [Number.ofInt 3]⟩).map Slots.live = .ok [Number.ofInt 3] := rfl

end Expr

end Reckoner
