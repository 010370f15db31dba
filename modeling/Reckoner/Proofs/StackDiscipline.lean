import Reckoner.Proofs.StackMachine

/-!
# The stack of wide evaluation

The machine with cells does what evaluation in slots does, on every stack whose cells have the
context's width: the numbers in use, the last one first, are the live slots, and those in the cells
behind are the spare ones (`Stack.slots`). Each step of the machine is a step on slots, so both ways
of evaluation agree by the recursion of the expression (`Expr.simulates_run`).

So executing a statement never comes to a breach, a value that is shown has the width that was asked
for, up to the greatest one, and a failure leaves every variable as it was.

Main statement: `Statement.run_disciplined`.
-/

set_option autoImplicit false

namespace Reckoner

/-! ### The stack as slots -/

namespace Stack

variable {s : Stack} {n : Nat} {cell : Cell}

/-- The last cell in use holds the last number, above those of the cells below it. -/
theorem live_slots (hheight : s.height = n + 1) (hcell : s.cells[n]? = some cell) :
    s.slots.live = cell.value :: (s.lower n).slots.live := by
  have hlower : (s.lower n).height = n := height_lower (by omega)
  have htake : s.cells.take (n + 1) = s.cells.take n ++ [cell] := by
    rw [List.take_add_one, hcell, Option.toList_some]
  simp only [slots, hlower, hheight]
  rw [htake, List.map_append, List.reverse_append]
  rfl

/-- A cell that is given back comes first among those behind. -/
theorem spare_slots_lower (hheight : s.height = n + 1) (hcell : s.cells[n]? = some cell) :
    (s.lower n).slots.spare = cell.value :: s.slots.spare := by
  have hlower : (s.lower n).height = n := height_lower (by omega)
  obtain ⟨hlt, hget⟩ := List.getElem?_eq_some_iff.mp hcell
  have hdrop : s.cells.drop n = cell :: s.cells.drop (n + 1) := by
    rw [List.drop_eq_getElem_cons hlt, hget]
  simp only [slots, hlower, hheight]
  change (s.cells.drop n).map Cell.value = _
  rw [hdrop, List.map_cons]

/-- Giving the last cell back is giving the last slot back. -/
theorem slots_lower (hheight : s.height = n + 1) : (s.lower n).slots = s.slots.release := by
  obtain ⟨cell, hcell⟩ := s.exists_cell (show n < s.height by omega)
  have hspare := spare_slots_lower hheight hcell
  simp only [Slots.release, live_slots hheight hcell]
  rw [← hspare]

/-- Giving cells back is giving as many slots back. -/
theorem slots_lower_many (count : Nat) (hheight : s.height = n + count) :
    (s.lower n).slots = s.slots.releaseMany count := by
  induction count generalizing s with
  | zero =>
    have hsame : s.lower n = s := by
      obtain ⟨cells, height, height_le⟩ := s
      cases hheight
      simp [lower]
    rw [hsame]
    rfl
  | succ count ih =>
    have hstep : (s.lower (n + count)).height = n + count := height_lower (by omega)
    have hboth : (s.lower (n + count)).lower n = s.lower n := by
      simp only [lower]
      congr 1
      omega
    rw [← hboth, ih hstep, slots_lower (n := n + count) hheight]
    rfl

/-- Taking a cell into use is taking the next slot. -/
theorem slots_push (s : Stack) (fresh : Cell) :
    (s.push fresh).slots = s.slots.take fresh.value := by
  by_cases h : s.height < s.cells.length
  · have hpush : s.push fresh = ⟨s.cells, s.height + 1, h⟩ := dif_pos h
    have hback : (s.push fresh).lower s.height = s := by
      rw [hpush]
      obtain ⟨cells, height, height_le⟩ := s
      simp [lower]
    have hheight := s.height_push fresh
    obtain ⟨cell, hcell⟩ := (s.push fresh).exists_cell (show s.height < _ by omega)
    have hlive := live_slots hheight hcell
    have hspare := spare_slots_lower hheight hcell
    rw [hback] at hlive hspare
    simp only [Slots.take, hspare, ← hlive]
  · have hfull : s.height = s.cells.length := by
      have := s.height_le
      omega
    have hpush : (s.push fresh).cells = s.cells ++ [fresh] := by
      rw [push, dif_neg h]
    have hall : (s.cells ++ [fresh]).take (s.cells.length + 1) = s.cells ++ [fresh] :=
      List.take_of_length_le (by simp)
    simp [slots, Slots.take, hpush, hfull, hall]

/-- Writing to the last cell in use is writing to the last slot. -/
theorem slots_write (hheight : s.height = n + 1) (x : Number) :
    (s.write n x).slots = s.slots.setTop x := by
  obtain ⟨cell, hcell⟩ := s.exists_cell (show n < s.height by omega)
  have hwritten : (s.write n x).cells[n]? = some { cell with value := x } := by
    simp [write, hcell]
  have hbelow : ((s.write n x).lower n).slots.live = (s.lower n).slots.live := by
    have hlower : (s.lower n).height = n := height_lower (by omega)
    simp only [slots, hlower]
    change ((((s.cells.modify n _).take (min n s.height)).map Cell.value)).reverse = _
    rw [Nat.min_eq_left (by omega), List.take_modify, List.modify_eq_self]
    · rfl
    · rw [List.length_take]
      exact Nat.min_le_left _ _
  have hspare : (s.write n x).slots.spare = s.slots.spare := by
    simp only [slots, height_write]
    rw [write, List.drop_modify_of_lt _ _ _ _ (by omega)]
  have hlive : (s.write n x).slots.live = x :: ((s.write n x).lower n).slots.live :=
    live_slots (s := s.write n x) hheight hwritten
  simp only [Slots.setTop, Slots.modifyTop, live_slots hheight hcell]
  rw [← hspare, ← hbelow, ← hlive]

/-- The cells in use from a position on hold the numbers taken last. -/
theorem map_value_drop {start count : Nat} (hheight : s.height = start + count) :
    ((s.cells.take s.height).drop start).map Cell.value = s.slots.lastTaken count := by
  have hlength : ((s.cells.take s.height).map Cell.value).length = start + count := by
    rw [List.length_map, List.length_take, Nat.min_eq_left s.height_le, hheight]
  rw [Slots.lastTaken, slots, List.take_reverse, List.reverse_reverse, hlength,
    Nat.add_sub_cancel, List.map_drop]

end Stack

/-! ### Evaluation in slots -/

/-- The cells of a uniform stack round to the context's format. -/
theorem Stack.Uniform.format_eq {bits position : Nat} {s : Stack} {cell : Cell}
    (h : s.Uniform bits) (hcell : s.cells[position]? = some cell) :
    cell.format = Format.wide bits := by
  rw [Cell.format, h cell (List.mem_of_getElem? hcell), Format.wide_widthOf]

/-- Whether the numbers in all slots fit a format. -/
def Slots.Fit (f : Format) (slots : Slots Number) : Prop :=
  ∀ x ∈ slots.live ++ slots.spare, f.Fits x.size

/-- The numbers of a uniform stack fit their cells if they fit the context's format. -/
theorem Stack.Uniform.fits_iff {bits : Nat} {s : Stack} (h : s.Uniform bits) :
    s.Fits ↔ s.slots.Fit (Format.wide bits) := by
  have hvalues (x : Number) : x ∈ s.slots.live ++ s.slots.spare ↔ ∃ c ∈ s.cells, c.value = x := by
    rw [slots, List.mem_append, List.mem_reverse, ← List.mem_append, ← List.map_append,
      List.take_append_drop, List.mem_map]
  have hformat (c : Cell) (hc : c ∈ s.cells) : c.format = Format.wide bits := by
    rw [Cell.format, h c hc, Format.wide_widthOf]
  constructor
  · intro hfits x hx
    obtain ⟨c, hc, rfl⟩ := (hvalues x).mp hx
    rw [← hformat c hc]
    exact hfits c hc
  · intro hfit c hc
    rw [Cell.Fits, hformat c hc]
    exact hfit c.value ((hvalues c.value).mpr ⟨c, hc, rfl⟩)

/-- A stack of cells of the context's width that holds the numbers of slots. -/
def Stack.ofSlots (bits : Nat) (slots : Slots Number) : Stack :=
  ⟨(slots.live.reverse ++ slots.spare).map (Cell.mk (Format.widthOf bits)), slots.live.length,
    by simp⟩

/-- It has these slots. -/
theorem Stack.slots_ofSlots (bits : Nat) (slots : Slots Number) :
    (ofSlots bits slots).slots = slots := by
  have hvalues : ((slots.live.reverse ++ slots.spare).map (Cell.mk (Format.widthOf bits))).map
      Cell.value = slots.live.reverse ++ slots.spare := by
    rw [List.map_map]
    exact List.map_id _
  have hlength : slots.live.length = slots.live.reverse.length := by simp
  unfold ofSlots Stack.slots
  dsimp only
  rw [List.map_take, List.map_drop, hvalues, hlength, List.take_left, List.drop_left,
    List.reverse_reverse]

/-- It is uniform. -/
theorem Stack.uniform_ofSlots (bits : Nat) (slots : Slots Number) :
    (ofSlots bits slots).Uniform bits := by
  intro c hc
  obtain ⟨x, -, rfl⟩ := List.mem_map.mp hc
  rfl

namespace Action

/-- Whether an action on a machine does what an evaluation in slots says: it fails in the same way
and changes no variable, or leaves these slots. -/
def Simulates (action : Action Unit) (m : Machine) : Except EvalError (Slots Number) → Prop
  | .error e => ∃ stack, action.on m = (.error (.fault e), ⟨m.env, stack⟩)
  | .ok slots => ∃ stack, action.on m = (.ok (), ⟨m.env, stack⟩) ∧ stack.slots = slots

variable {bits count : Nat} {m : Machine} {action : Action Unit}

/-- The stack that is left by an action that succeeds has grown. -/
theorem Grows.grown_of_on {stack : Stack} (h : action.Grows bits count m)
    (hon : action.on m = (.ok (), ⟨m.env, stack⟩)) : m.stack.Grown bits count stack := by
  rcases h with ⟨e, stack', hon'⟩ | ⟨stack', hon', hgrown⟩
  · rw [hon] at hon'
    cases hon'
  · rw [hon] at hon'
    cases hon'
    exact hgrown

/-- One evaluation after another, the second one on the stack that the first one has grown. -/
theorem Simulates.bind {next : Unit → Action Unit} {expected : Except EvalError (Slots Number)}
    {nextExpected : Slots Number → Except EvalError (Slots Number)}
    (h : action.Simulates m expected) (hgrows : action.Grows bits count m)
    (hnext : ∀ stack, m.stack.Grown bits count stack →
      (next ()).Simulates ⟨m.env, stack⟩ (nextExpected stack.slots)) :
    (action >>= next).Simulates m (expected >>= nextExpected) := by
  cases expected with
  | error e =>
    obtain ⟨stack, hon⟩ := h
    exact ⟨stack, on_bind_error hon⟩
  | ok slots =>
    obtain ⟨stack, hon, rfl⟩ := h
    have hboth := hnext stack (hgrows.grown_of_on hon)
    change (action >>= next).Simulates m (nextExpected stack.slots)
    unfold Simulates at hboth ⊢
    rw [on_bind_ok hon]
    exact hboth

/-- Assumes: cells of the context's width. Writing a number to a cell that is taken for it is
putting the number into a slot. -/
theorem simulates_push_update {compute : Cell → Except EvalError Number}
    {result : Except EvalError Number} (hm : m.stack.Uniform bits)
    (hresult : ∀ cell : Cell, cell.format = Format.wide bits → compute cell = result) :
    (push bits >>= fun position ↦ update position compute).Simulates m
      (result >>= fun x ↦ pure (m.stack.slots.put x)) := by
  have hheight := m.stack.height_push (Cell.fresh bits)
  obtain ⟨cell, hcell⟩ := (m.stack.push (Cell.fresh bits)).exists_cell
    (show m.stack.height < _ by omega)
  have hformat := ((m.stack.grown_push bits).uniform hm).format_eq hcell
  have hcompute := hresult cell hformat
  cases result with
  | error e =>
    exact ⟨m.stack.push (Cell.fresh bits),
      on_update_error (m := ⟨m.env, m.stack.push (Cell.fresh bits)⟩) hcell hcompute⟩
  | ok x =>
    refine ⟨(m.stack.push (Cell.fresh bits)).write m.stack.height x,
      on_update_ok (m := ⟨m.env, m.stack.push (Cell.fresh bits)⟩) hcell hcompute, ?_⟩
    rw [Stack.slots_write hheight, Stack.slots_push]
    rfl

/-- Assumes: cells of the context's width, with the arguments of a call in the last ones and the
cell for its result below them. The call changes what is in that cell, and the arguments are given
back. -/
theorem simulates_call {lib : Library} {position : Nat} {span : Span} {function : Function}
    (hm : m.stack.Uniform bits) (hheight : m.stack.height = position + 1 + count) :
    (do
      let values ← window (position + 1)
      update position fun cell ↦
        (Wide.callEffect lib cell.format span function (values.map Cell.value)).map
          fun effect ↦ effect.apply cell.value
      truncate (position + 1) : Action Unit).Simulates m
    (do
      let effect ←
        Wide.callEffect lib (Format.wide bits) span function (m.stack.slots.lastTaken count)
      return (m.stack.slots.releaseMany count).modifyTop effect.apply) := by
  obtain ⟨cell, hcell⟩ := m.stack.exists_cell (show position < m.stack.height by omega)
  have hlower : (m.stack.lower (position + 1)).height = position + 1 :=
    Stack.height_lower (by omega)
  unfold Simulates
  rw [on_bind_ok (on_window (by omega))]
  cases heffect : Wide.callEffect lib (Format.wide bits) span function
      (m.stack.slots.lastTaken count) with
  | error e =>
    refine ⟨m.stack, on_bind_error (on_update_error hcell ?_)⟩
    rw [hm.format_eq hcell, Stack.map_value_drop hheight, heffect]
    rfl
  | ok effect =>
    refine ⟨(m.stack.lower (position + 1)).write position (effect.apply cell.value), ?_, ?_⟩
    · refine (on_bind_ok (on_update_ok (x := effect.apply cell.value) hcell ?_)).trans
        (on_truncate (show position + 1 ≤ m.stack.height by omega))
      rw [hm.format_eq hcell, Stack.map_value_drop hheight, heffect]
      rfl
    · rw [Stack.slots_write hlower, ← Stack.slots_lower_many count hheight]
      simp only [Slots.setTop, Slots.modifyTop, Stack.live_slots hlower hcell]

/-- Assumes: cells of the context's width, with two operands in the last ones. The result of an
operation goes over the first one, and the second one is given back. -/
theorem simulates_combine {lib : Library} {position : Nat} {span : Span} {op : Operator}
    (hm : m.stack.Uniform bits) (hheight : m.stack.height = position + 1 + 1) :
    (do
      let second ← pop
      let first ← top
      let y ← cellAt second
      update first fun x ↦ Wide.arithmetic lib x.format span op x.value y.value :
        Action Unit).Simulates m
    (match m.stack.slots.live with
      | y :: x :: _ => do
        let result ← Wide.arithmetic lib (Format.wide bits) span op x y
        return m.stack.slots.release.setTop result
      | _ => return m.stack.slots) := by
  obtain ⟨x, hx⟩ := m.stack.exists_cell (show position < m.stack.height by omega)
  obtain ⟨y, hy⟩ := m.stack.exists_cell (show position + 1 < m.stack.height by omega)
  have hlower : (m.stack.lower (position + 1)).height = position + 1 :=
    Stack.height_lower (by omega)
  have hfirst : (m.stack.lower (position + 1)).cells[position]? = some x := hx
  have hsecond : (m.stack.lower (position + 1)).cells[position + 1]? = some y := hy
  simp only [Stack.live_slots hheight hy, Stack.live_slots hlower hfirst]
  unfold Simulates
  rw [on_bind_ok (on_pop hheight), on_bind_ok (on_top hlower),
    on_bind_ok (on_cellAt (m := ⟨m.env, m.stack.lower (position + 1)⟩) hsecond)]
  cases hresult : Wide.arithmetic lib (Format.wide bits) span op x.value y.value with
  | error e =>
    refine ⟨_, on_update_error hfirst ?_⟩
    rw [hm.format_eq hx, hresult]
  | ok z =>
    refine ⟨_, on_update_ok hfirst (by rw [hm.format_eq hx, hresult]), ?_⟩
    rw [Stack.slots_write hlower, Stack.slots_lower hheight]

end Action

namespace Expr

open Reckoner.Action

variable {lib : Library} {bits : Nat}

mutual

/-- Assumes: cells of the context's width. The machine evaluates an expression as evaluation in
slots does. -/
theorem simulates_run (lib : Library) (e : Expr) (m : Machine) (hm : m.stack.Uniform bits) :
    (e.run lib bits).Simulates m (e.evalPrecise lib (Format.wide bits) m.env m.stack.slots) := by
  cases e with
  | literal text value span =>
    rw [run, evalPrecise]
    exact simulates_push_update hm fun cell hformat ↦ by rw [hformat]
  | var name span =>
    rw [run, evalPrecise, Wide.variableValue]
    unfold Simulates
    rw [on_bind_ok (on_machine m)]
    cases m.env.lookup? name with
    | none => exact ⟨m.stack, rfl⟩
    | some value =>
      cases value with
      | nan => exact ⟨m.stack, rfl⟩
      | number x fits =>
        have hround : ∀ cell : Cell, cell.format = Format.wide bits →
            (.ok (cell.format.round x) : Except EvalError Number) =
              .ok ((Format.wide bits).round x) := by
          intro cell hformat
          rw [hformat]
        exact simulates_push_update hm hround
  | call callee calleeSpan args span =>
    rw [run, evalPrecise]
    cases hresolve : Function.resolve callee calleeSpan args.length span with
    | error e => exact ⟨m.stack, rfl⟩
    | ok function =>
      have hpush := m.stack.grown_push bits
      have hargs := simulates_runAll lib args ⟨m.env, m.stack.push (Cell.fresh bits)⟩
        (hpush.uniform hm)
      rw [Stack.slots_push] at hargs
      refine hargs.bind (grows_runAll args _) ?_
      intro stack hgrown
      refine simulates_call (hgrown.uniform (hpush.uniform hm)) ?_
      rw [hgrown.height_eq, hpush.height_eq]
  | binary op left right =>
    rw [run, evalPrecise]
    refine Simulates.bind (left.simulates_run lib m hm) (left.grows_run m) ?_
    intro first hfirst
    refine Simulates.bind (right.simulates_run lib ⟨m.env, first⟩ (hfirst.uniform hm))
      (right.grows_run ⟨m.env, first⟩) ?_
    intro second hsecond
    have hheight : second.height = m.stack.height + 1 + 1 := by
      rw [hsecond.height_eq, hfirst.height_eq]
    exact simulates_combine (hsecond.uniform (hfirst.uniform hm)) hheight

/-- Assumes: cells of the context's width. The machine evaluates arguments as evaluation in slots
does. -/
theorem simulates_runAll (lib : Library) (args : List Expr) (m : Machine)
    (hm : m.stack.Uniform bits) :
    (runAll lib bits args).Simulates m
      (evalPreciseAll lib (Format.wide bits) m.env args m.stack.slots) := by
  cases args with
  | nil => exact ⟨m.stack, rfl, rfl⟩
  | cons arg rest =>
    rw [runAll, evalPreciseAll]
    refine Simulates.bind (arg.simulates_run lib m hm) (arg.grows_run m) ?_
    intro stack hgrown
    exact simulates_runAll lib rest ⟨m.env, stack⟩ (hgrown.uniform hm)

end

/-- Evaluation in slots puts one number on top of those in use, whatever slots it starts from, and
numbers that fit are followed by numbers that fit. -/
theorem fit_of_evalPrecise {e : Expr} {env : Environment} {slots filled : Slots Number}
    (h : e.evalPrecise lib (Format.wide bits) env slots = .ok filled)
    (hfit : slots.Fit (Format.wide bits)) : filled.Fit (Format.wide bits) := by
  have huniform := Stack.uniform_ofSlots bits slots
  have hsimulates := e.simulates_run lib ⟨env, Stack.ofSlots bits slots⟩ huniform
  rw [Stack.slots_ofSlots, h] at hsimulates
  obtain ⟨stack, hon, rfl⟩ := hsimulates
  have hgrows : (e.run lib bits).Grows bits 1 ⟨env, Stack.ofSlots bits slots⟩ := e.grows_run _
  have hgrown := hgrows.grown_of_on hon
  rw [← Stack.slots_ofSlots bits slots] at hfit
  exact (hgrown.uniform huniform).fits_iff.mp (hgrown.fits (huniform.fits_iff.mpr hfit))

/-- Without cells there is none of another width. -/
theorem uniform_empty (bits : Nat) : Stack.empty.Uniform bits := by
  intro c hc
  cases hc

/-- An expression without a value fails on an empty stack, and changes no variable. -/
theorem on_run_of_error {e : Expr} {env : Environment} {fault : EvalError}
    (h : e.preciseValue lib (Format.wide bits) env = .error fault) :
    ∃ stack, (e.run lib bits).on ⟨env, Stack.empty⟩ = (.error (.fault fault), ⟨env, stack⟩) := by
  have hsimulates := e.simulates_run lib ⟨env, Stack.empty⟩ (uniform_empty bits)
  rw [show Stack.empty.slots = Slots.empty from rfl] at hsimulates
  unfold preciseValue at h
  cases hslots : e.evalPrecise lib (Format.wide bits) env Slots.empty with
  | error fault' =>
    rw [hslots] at h hsimulates
    cases h
    exact hsimulates
  | ok slots =>
    rw [hslots] at h
    cases h

/-- An expression that has a value leaves it on an empty stack: the only cell in use has the width
of the context and holds the value, which fits. -/
theorem on_run_of_ok {e : Expr} {env : Environment} {x : Number}
    (h : e.preciseValue lib (Format.wide bits) env = .ok x) :
    (Format.wide bits).Fits x.size ∧
      ∃ stack, (e.run lib bits).on ⟨env, Stack.empty⟩ = (.ok (), ⟨env, stack⟩) ∧ stack.height = 1 ∧
        stack.cells[0]? = some ⟨Format.widthOf bits, x⟩ := by
  obtain ⟨slots, hslots, hreturn⟩ := bind_eq_ok.mp h
  have hsimulates := e.simulates_run lib ⟨env, Stack.empty⟩ (uniform_empty bits)
  rw [show Stack.empty.slots = Slots.empty from rfl, hslots] at hsimulates
  obtain ⟨stack, hon, rfl⟩ := hsimulates
  have hgrows : (e.run lib bits).Grows bits 1 ⟨env, Stack.empty⟩ := e.grows_run _
  have hgrown := hgrows.grown_of_on hon
  have huniform := hgrown.uniform (uniform_empty bits)
  have hheight : stack.height = 0 + 1 := hgrown.height_eq
  obtain ⟨cell, hcell⟩ := stack.exists_cell (show 0 < stack.height by omega)
  have hmem := List.mem_of_getElem? hcell
  have hvalue : cell.value = x := by
    rw [Stack.live_slots hheight hcell] at hreturn
    exact Except.ok.inj hreturn
  have hfits : cell.Fits := hgrown.fits (fun c hc ↦ by cases hc) cell hmem
  rw [Cell.Fits, huniform.format_eq hcell, hvalue] at hfits
  refine ⟨hfits, stack, hon, hheight, ?_⟩
  rw [hcell, ← huniform cell hmem, ← hvalue]

end Expr

/-! ### Statements -/

namespace Statement

/-- Whether running a statement on a machine ends as executing it does: the same failure, with the
variables that there were, or the same variables and the same number, which fits, in a cell of the
context's width. -/
def EndsAs (bits : Nat) (env : Environment)
    (outcome : Except (Stop EvalError) (Option Cell) × Machine) :
    Except EvalError (Environment × Option Number) → Prop
  | .error e => ∃ stack, outcome = (.error (.fault e), ⟨env, stack⟩)
  | .ok (after, shown) =>
    (∃ stack, outcome = (.ok (shown.map (Cell.mk (Format.widthOf bits))), ⟨after, stack⟩)) ∧
      ∀ x ∈ shown, (Format.wide bits).Fits x.size

/-- A statement is run from an empty stack as it is executed. -/
theorem endsAs_run (lib : Library) (bits : Nat) (env : Environment) (s : Statement) :
    EndsAs bits env ((s.run lib bits).on ⟨env, Stack.empty⟩) (s.executePrecise lib env bits) := by
  cases s with
  | expression value =>
    rw [run, executePrecise]
    cases hvalue : value.preciseValue lib (Format.wide bits) env with
    | error fault =>
      obtain ⟨stack, hon⟩ := Expr.on_run_of_error hvalue
      exact ⟨stack, Action.on_bind_error hon⟩
    | ok x =>
      obtain ⟨hfits, stack, hon, hheight, hcell⟩ := Expr.on_run_of_ok hvalue
      refine ⟨⟨stack, ?_⟩, by simpa using hfits⟩
      exact (Action.on_bind_ok hon).trans (Action.on_bind_ok (Action.on_result hheight hcell))
  | assignment target targetSpan value =>
    rw [run, executePrecise]
    cases hvalue : value.preciseValue lib (Format.wide bits) env with
    | error fault =>
      obtain ⟨stack, hon⟩ := Expr.on_run_of_error hvalue
      exact ⟨stack, Action.on_bind_error hon⟩
    | ok x =>
      obtain ⟨-, stack, hon, hheight, hcell⟩ := Expr.on_run_of_ok hvalue
      refine ⟨⟨stack, (Action.on_bind_ok hon).trans ?_⟩, by simp⟩
      rw [Action.on_bind_ok (Action.on_result (m := ⟨env, stack⟩) hheight hcell)]
      rfl

/-- The discipline of the stack, with every library, at every number of bits and with any variables.
On every stack, evaluating an expression comes to no breach and changes no variable; if it succeeds,
one more cell is in use, the cells that were in use are what they were, and cells of the context's
width whose numbers fit are followed by such cells. Where all cells have that width it is evaluation
in slots, which from any slots puts one number on top of those in use and keeps to numbers that fit.

From an empty stack a statement is executed without a breach. A number that is shown has the width
that was asked for, 64 bits if none was, and never more than the greatest width. A failure leaves
all variables as they were, whatever is left on the stack. -/
theorem run_disciplined (lib : Library) (bits : Nat) (env : Environment) :
    (∀ (e : Expr) (stack : Stack), (e.run lib bits).Grows bits 1 ⟨env, stack⟩) ∧
    (∀ (e : Expr) (stack : Stack), stack.Uniform bits →
      (e.run lib bits).Simulates ⟨env, stack⟩
        (e.evalPrecise lib (Format.wide bits) env stack.slots)) ∧
    (∀ (e : Expr) (slots filled : Slots Number),
      e.evalPrecise lib (Format.wide bits) env slots = .ok filled →
      (∃ x, filled.live = x :: slots.live) ∧
        (slots.Fit (Format.wide bits) → filled.Fit (Format.wide bits))) ∧
    (∀ s : Statement,
      EndsAs bits env ((s.run lib bits).on ⟨env, Stack.empty⟩) (s.executePrecise lib env bits)) ∧
    Format.widthOf bits = if bits = 0 then 64 else min bits 4294967295 :=
  ⟨fun e stack ↦ e.grows_run ⟨env, stack⟩, fun e stack ↦ e.simulates_run lib ⟨env, stack⟩,
    fun _ _ _ h ↦ ⟨Expr.exists_live_evalPrecise h, Expr.fit_of_evalPrecise h⟩,
    endsAs_run lib bits env, rfl⟩

/-- A stack with a seven in use and a three in the cell behind it. -/
def sevenBeforeThree : Stack :=
  ⟨[⟨64, Number.ofInt 7⟩, ⟨64, Number.ofInt 3⟩], 1, by decide⟩

/-- The square root of four goes over the three, and the seven stays. -/
theorem run_disciplined_root :
    sevenBeforeThree.Uniform 64 ∧
      ∃ stack, (Expr.rootOfVariables.run Library.standard 64).on
          ⟨Expr.degreeAndFour 2, sevenBeforeThree⟩ = (.ok (), ⟨Expr.degreeAndFour 2, stack⟩) ∧
        stack.slots.live = [Number.ofInt 2, Number.ofInt 7] := by
  have huniform : sevenBeforeThree.Uniform 64 := by
    intro c hc
    simp only [sevenBeforeThree, List.mem_cons, List.not_mem_nil, or_false] at hc
    rcases hc with rfl | rfl <;> rfl
  have hslots : Expr.rootOfVariables.evalPrecise Library.standard (Format.wide 64)
      (Expr.degreeAndFour 2) sevenBeforeThree.slots = .ok ⟨[Number.ofInt 2, Number.ofInt 7],
        [Number.ofInt 2, Number.ofInt 4]⟩ := rfl
  have hsimulates := (run_disciplined Library.standard 64 (Expr.degreeAndFour 2)).2.1
    Expr.rootOfVariables sevenBeforeThree huniform
  rw [hslots] at hsimulates
  obtain ⟨stack, hon, hstack⟩ := hsimulates
  exact ⟨huniform, stack, hon, congrArg Slots.live hstack⟩

/-- The statement `1`. -/
def unit : Statement :=
  expression (.literal "1" Binary64.one ⟨0, 1⟩)

/-- Asked for one bit more than the greatest width, one is shown with the greatest width. -/
theorem width_run_beyondGreatest :
    ∃ cell stack, (unit.run Library.standard 4294967296).on ⟨Environment.empty, Stack.empty⟩ =
        (.ok (some cell), ⟨Environment.empty, stack⟩) ∧ cell.width ≠ 4294967296 := by
  have hvalue : unit.executePrecise Library.standard Environment.empty 4294967296 =
      .ok (Environment.empty, some Number.one) := rfl
  have hends := endsAs_run Library.standard 4294967296 Environment.empty unit
  rw [hvalue] at hends
  obtain ⟨⟨stack, hon⟩, -⟩ := hends
  exact ⟨_, stack, hon, by decide⟩

end Statement

end Reckoner
