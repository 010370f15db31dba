import Reckoner.Proofs.Nodes

/-!
# The machine behind wide evaluation

Evaluation in slots is a recursion on lists of numbers, which has no way to go wrong. The machine
behind it has a row of cells of which the first so many are in use. A cell knows how many bits it is
rounded to. What is done to the cells is done in steps that name a cell by its position, and a step
that reaches past the cells in use is a breach. A failure leaves the machine as it stands.

`Expr.run` evaluates an expression by such steps, and `Statement.run` executes a statement.

Main statement: on every stack, evaluation comes to no breach and changes no variable; if it
succeeds there is one more cell in use, and the cells that were in use are what they were
(`Expr.grows_run`).
-/

set_option autoImplicit false

namespace Reckoner

/-! ### Cells -/

/-- A number in memory, with the number of bits that it is rounded to. -/
structure Cell where
  width : Nat
  value : Number
  deriving DecidableEq, Repr

namespace Cell

/-- A new cell, for a number of bits that is asked for. -/
def fresh (bits : Nat) : Cell :=
  ⟨Format.widthOf bits, Number.zero⟩

/-- The format that a cell rounds to. -/
def format (c : Cell) : Format :=
  Format.wide c.width

/-- Whether a cell holds what it can: zero, an infinity, or a number of its own width. -/
def Fits (c : Cell) : Prop :=
  c.format.Fits c.value.size

end Cell

/-- The width of a format is not changed by asking for it. -/
theorem Format.wide_widthOf (bits : Nat) : wide (widthOf bits) = wide bits := by
  have hwidth : widthOf (widthOf bits) = widthOf bits := by
    unfold widthOf defaultWidth greatestWidth
    split <;> split <;> omega
  simp only [wide, hwidth]

/-! ### Stacks -/

/-- Cells in the order in which they were made, of which the first ones are in use. -/
structure Stack where
  cells : List Cell
  height : Nat
  height_le : height ≤ cells.length

namespace Stack

/-- No cells. -/
def empty : Stack :=
  ⟨[], 0, Nat.le_refl 0⟩

/-- Takes one more cell into use, with whatever it holds. If there is none left, a new one. -/
def push (s : Stack) (fresh : Cell) : Stack :=
  if h : s.height < s.cells.length then ⟨s.cells, s.height + 1, h⟩
  else ⟨s.cells ++ [fresh], s.height + 1, by
    have := s.height_le
    simp only [List.length_append, List.length_singleton]
    omega⟩

/-- Leaves fewer cells in use. -/
def lower (s : Stack) (height : Nat) : Stack :=
  ⟨s.cells, min height s.height, Nat.le_trans (Nat.min_le_right _ _) s.height_le⟩

/-- Writes a number to the cell at a position, which keeps its width. -/
def write (s : Stack) (position : Nat) (value : Number) : Stack :=
  ⟨s.cells.modify position fun c ↦ { c with value := value }, s.height, by
    rw [List.length_modify]
    exact s.height_le⟩

/-- The stack as slots: the numbers in use, the last one first, and those in the cells behind. -/
def slots (s : Stack) : Slots Number :=
  ⟨((s.cells.take s.height).map Cell.value).reverse, (s.cells.drop s.height).map Cell.value⟩

/-- Whether all cells have the width that a number of bits leads to. -/
def Uniform (bits : Nat) (s : Stack) : Prop :=
  ∀ c ∈ s.cells, c.width = Format.widthOf bits

/-- Whether all cells hold what they can. -/
def Fits (s : Stack) : Prop :=
  ∀ c ∈ s.cells, c.Fits

end Stack

/-! ### The machine -/

/-- The variables and the stack. -/
structure Machine where
  env : Environment
  stack : Stack

/-- A step of the machine, or several. One that has no result leaves the machine as it stands. -/
abbrev Action : Type → Type :=
  ExceptT (Stop EvalError) (StateM Machine)

namespace Action

variable {α β : Type}

/-- The result of an action and the machine after it. -/
def on (action : Action α) (m : Machine) : Except (Stop EvalError) α × Machine :=
  action.run.run m

/-- The machine as it stands. -/
def machine : Action Machine :=
  get

/-- A result that does not touch the machine. -/
def ofResult (result : Except EvalError α) : Action α :=
  ExceptT.mk (pure (Stop.free result))

/-- Ends in a breach. -/
def breach (b : Breach) : Action α :=
  throw (.breach b)

/-- Takes a cell into use and gives its position. -/
def push (bits : Nat) : Action Nat :=
  modifyGet fun m ↦ (m.stack.height, { m with stack := m.stack.push (Cell.fresh bits) })

/-- The position of the last cell in use. -/
def top : Action Nat := do
  let m ← machine
  if m.stack.height = 0 then breach .looseSlots else return m.stack.height - 1

/-- Gives the last cell back; its position is still known. -/
def pop : Action Nat := do
  let position ← top
  modify fun m ↦ { m with stack := m.stack.lower position }
  return position

/-- The cell at a position. -/
def cellAt (position : Nat) : Action Cell := do
  let m ← machine
  match m.stack.cells[position]? with
  | some cell => return cell
  | none => breach (.noPosition position)

/-- The cells in use from a position on. -/
def window (start : Nat) : Action (List Cell) := do
  let m ← machine
  if start ≤ m.stack.height then return (m.stack.cells.take m.stack.height).drop start
  else breach (.noPart start m.stack.height)

/-- Gives all cells from a position on back. -/
def truncate (height : Nat) : Action Unit := do
  let m ← machine
  if height ≤ m.stack.height then set { m with stack := m.stack.lower height }
  else breach (.noPart 0 height)

/-- Writes a number to the cell at a position. -/
def write (position : Nat) (value : Number) : Action Unit := do
  let _ ← cellAt position
  modify fun m ↦ { m with stack := m.stack.write position value }

/-- The only cell in use. -/
def result : Action Cell := do
  let m ← machine
  if m.stack.height = 1 then cellAt 0 else breach .looseSlots

/-- Computes a number from the cell at a position and writes it there. -/
def update (position : Nat) (compute : Cell → Except EvalError Number) : Action Unit := do
  let cell ← cellAt position
  let x ← ofResult (compute cell)
  write position x

/-- Stores a number under a name. -/
def store (target : String) (value : Binary64) : Action Unit :=
  modify fun m ↦ { m with env := m.env.set target value }

end Action

open Reckoner.Action in
mutual

/-- Evaluates an expression into one more cell. A call takes the cell for its result first and keeps
its position while the arguments are evaluated above it; an operation writes its result over its
left operand. -/
def Expr.run (lib : Library) (bits : Nat) : Expr → Action Unit
  | literal text value span => do
    let position ← push bits
    update position fun cell ↦ Wide.literal cell.format text value span
  | var name span => do
    let m ← machine
    match m.env.lookup? name with
    | none => ofResult (.error ⟨span, .undefinedVariable name⟩)
    | some .nan => ofResult (.error ⟨span, .noPreciseValue name⟩)
    | some (.number x _) => do
      let position ← push bits
      update position fun cell ↦ .ok (cell.format.round x)
  | call callee calleeSpan args span => do
    let function ← ofResult (Function.resolve callee calleeSpan args.length span)
    let position ← push bits
    Expr.runAll lib bits args
    let values ← window (position + 1)
    update position fun cell ↦
      (Wide.callEffect lib cell.format span function (values.map Cell.value)).map
        fun effect ↦ effect.apply cell.value
    truncate (position + 1)
  | binary op left right => do
    left.run lib bits
    right.run lib bits
    let second ← pop
    let first ← top
    let y ← cellAt second
    update first fun x ↦
      Wide.arithmetic lib x.format (left.span.union right.span) op x.value y.value

/-- Evaluates arguments into as many more cells. -/
def Expr.runAll (lib : Library) (bits : Nat) : List Expr → Action Unit
  | [] => pure ()
  | arg :: rest => do
    arg.run lib bits
    Expr.runAll lib bits rest

end

/-- Executes a statement: its value is computed, and shown or stored. -/
def Statement.run (lib : Library) (bits : Nat) : Statement → Action (Option Cell)
  | expression value => do
    value.run lib bits
    let cell ← Action.result
    return some cell
  | assignment target _ value => do
    value.run lib bits
    let cell ← Action.result
    Action.store target (Binary64.ofNumber cell.value)
    return none

/-! ### What the steps do -/

namespace Stack

variable {s : Stack} {n : Nat}

/-- There is a cell at each position in use. -/
theorem exists_cell {position : Nat} (h : position < s.height) :
    ∃ cell, s.cells[position]? = some cell :=
  ⟨_, List.getElem?_eq_getElem (Nat.lt_of_lt_of_le h s.height_le)⟩

/-- A push takes one more cell into use. -/
@[simp] theorem height_push (s : Stack) (fresh : Cell) :
    (s.push fresh).height = s.height + 1 := by
  unfold push
  split <;> rfl

/-- The cells after a push are those before it, or one new cell stands behind them. -/
theorem cells_push (s : Stack) (fresh : Cell) :
    (s.push fresh).cells = s.cells ∨
      s.height = s.cells.length ∧ (s.push fresh).cells = s.cells ++ [fresh] := by
  have hle := s.height_le
  unfold push
  split
  · exact Or.inl rfl
  · exact Or.inr ⟨by omega, rfl⟩

/-- A write changes no height. -/
@[simp] theorem height_write (s : Stack) (position : Nat) (value : Number) :
    (s.write position value).height = s.height :=
  rfl

/-- A write changes one cell. -/
theorem getElem?_write_of_ne {position i : Nat} (h : position ≠ i) (value : Number) :
    (s.write position value).cells[i]? = s.cells[i]? := by
  simp [write, h]

/-- A cell after a write is one of those before it, or that at the position with the new number. -/
theorem mem_write {position : Nat} {value : Number} {c : Cell}
    (h : c ∈ (s.write position value).cells) :
    c ∈ s.cells ∨ ∃ old, s.cells[position]? = some old ∧ c = { old with value := value } := by
  obtain ⟨i, hi⟩ := List.mem_iff_getElem?.mp h
  by_cases hposition : position = i
  · subst hposition
    simp only [write, List.getElem?_modify, if_true, Option.map_eq_map,
      Option.map_eq_some_iff] at hi
    obtain ⟨old, hold, rfl⟩ := hi
    exact Or.inr ⟨old, hold, rfl⟩
  · rw [getElem?_write_of_ne hposition] at hi
    exact Or.inl (List.mem_of_getElem? hi)

/-- Lowering to fewer cells leaves as many in use. -/
theorem height_lower (h : n ≤ s.height) : (s.lower n).height = n :=
  Nat.min_eq_left h

end Stack

namespace Action

variable {α β : Type} {m m' : Machine}

/-- One action after another. -/
theorem on_bind (action : Action α) (next : α → Action β) (m : Machine) :
    (action >>= next).on m = match action.on m with
      | (.ok x, m') => (next x).on m'
      | (.error e, m') => (.error e, m') := by
  change (match action.on m with | (result, m') => ExceptT.bindCont next result m') = _
  rcases action.on m with ⟨result, m'⟩
  cases result <;> rfl

/-- What follows a result goes on with it, on the machine that is left. -/
theorem on_bind_ok {action : Action α} {next : α → Action β} {x : α}
    (h : action.on m = (.ok x, m')) : (action >>= next).on m = (next x).on m' := by
  rw [on_bind, h]

/-- Nothing follows a failure. -/
theorem on_bind_error {action : Action α} {next : α → Action β} {e : Stop EvalError}
    (h : action.on m = (.error e, m')) : (action >>= next).on m = (.error e, m') := by
  rw [on_bind, h]

/-- Looking at the machine changes nothing. -/
theorem on_machine (m : Machine) : machine.on m = (.ok m, m) :=
  rfl

/-- The last cell in use, of at least one. -/
theorem on_top {n : Nat} (h : m.stack.height = n + 1) : top.on m = (.ok n, m) := by
  have htop : top.on m = if m.stack.height = 0 then (.error (.breach .looseSlots), m)
      else (.ok (m.stack.height - 1), m) := by
    refine (on_bind_ok (on_machine m)).trans ?_
    split <;> rfl
  rw [htop, h, if_neg (Nat.succ_ne_zero n), Nat.add_sub_cancel]

/-- The last cell in use is given back. -/
theorem on_pop {n : Nat} (h : m.stack.height = n + 1) :
    pop.on m = (.ok n, { m with stack := m.stack.lower n }) :=
  on_bind_ok (on_top h)

/-- The cell at a position that there is. -/
theorem on_cellAt {position : Nat} {cell : Cell} (h : m.stack.cells[position]? = some cell) :
    (cellAt position).on m = (.ok cell, m) := by
  refine (on_bind_ok (on_machine m)).trans ?_
  rw [h]
  rfl

/-- The cells in use from a position on. -/
theorem on_window {start : Nat} (h : start ≤ m.stack.height) :
    (window start).on m = (.ok ((m.stack.cells.take m.stack.height).drop start), m) := by
  refine (on_bind_ok (on_machine m)).trans ?_
  rw [if_pos h]
  rfl

/-- Cells are given back down to a height that was passed. -/
theorem on_truncate {height : Nat} (h : height ≤ m.stack.height) :
    (truncate height).on m = (.ok (), { m with stack := m.stack.lower height }) := by
  refine (on_bind_ok (on_machine m)).trans ?_
  rw [if_pos h]
  rfl

/-- The only cell in use. -/
theorem on_result {cell : Cell} (hheight : m.stack.height = 1)
    (hcell : m.stack.cells[0]? = some cell) : result.on m = (.ok cell, m) := by
  refine (on_bind_ok (on_machine m)).trans ?_
  rw [if_pos hheight]
  exact on_cellAt hcell

/-- A number is written to a cell that there is. -/
theorem on_update_ok {position : Nat} {cell : Cell} {compute : Cell → Except EvalError Number}
    {x : Number} (hcell : m.stack.cells[position]? = some cell) (hcompute : compute cell = .ok x) :
    (update position compute).on m =
      (.ok (), { m with stack := m.stack.write position x }) := by
  refine (on_bind_ok (on_cellAt hcell)).trans ?_
  rw [hcompute]
  exact on_bind_ok (on_cellAt hcell)

/-- A computation that fails writes nothing. -/
theorem on_update_error {position : Nat} {cell : Cell} {compute : Cell → Except EvalError Number}
    {e : EvalError} (hcell : m.stack.cells[position]? = some cell)
    (hcompute : compute cell = .error e) :
    (update position compute).on m = (.error (.fault e), m) := by
  refine (on_bind_ok (on_cellAt hcell)).trans ?_
  rw [hcompute]
  rfl

end Action

/-! ### Frames -/

/-- What an evaluation makes of a stack: more cells are in use, and those that were in use are what
they were. Cells that are made have the context's width, and what is written to a cell fits it. -/
structure Stack.Grown (bits count : Nat) (s s' : Stack) : Prop where
  height_eq : s'.height = s.height + count
  kept : ∀ i < s.height, s'.cells[i]? = s.cells[i]?
  uniform : s.Uniform bits → s'.Uniform bits
  fits : s.Fits → s'.Fits

namespace Stack

variable {bits count : Nat} {s s' s'' : Stack}

/-- Nothing happens to a stack. -/
theorem Grown.refl (bits : Nat) (s : Stack) : s.Grown bits 0 s :=
  ⟨rfl, fun _ _ ↦ rfl, id, id⟩

/-- A stack grows on. -/
theorem Grown.trans {more : Nat} (h : s.Grown bits count s') (h' : s'.Grown bits more s'') :
    s.Grown bits (count + more) s'' where
  height_eq := by rw [h'.height_eq, h.height_eq, Nat.add_assoc]
  kept i hi := by
    rw [h'.kept i (by rw [h.height_eq]; omega), h.kept i hi]
  uniform hs := h'.uniform (h.uniform hs)
  fits hs := h'.fits (h.fits hs)

/-- A push takes a cell into use. -/
theorem grown_push (bits : Nat) (s : Stack) : s.Grown bits 1 (s.push (Cell.fresh bits)) := by
  refine ⟨s.height_push _, ?_, ?_, ?_⟩
  · intro i hi
    rcases s.cells_push (Cell.fresh bits) with hcells | ⟨hheight, hcells⟩
    · rw [hcells]
    · rw [hcells, List.getElem?_append_left (by omega)]
  · intro hs c hc
    rcases s.cells_push (Cell.fresh bits) with hcells | ⟨_, hcells⟩
    · rw [hcells] at hc
      exact hs c hc
    · rw [hcells, List.mem_append, List.mem_singleton] at hc
      rcases hc with hc | rfl
      · exact hs c hc
      · rfl
  · intro hs c hc
    rcases s.cells_push (Cell.fresh bits) with hcells | ⟨_, hcells⟩
    · rw [hcells] at hc
      exact hs c hc
    · rw [hcells, List.mem_append, List.mem_singleton] at hc
      rcases hc with hc | rfl
      · exact hs c hc
      · trivial

/-- A number that fits is written above the cells that are kept. -/
theorem Grown.write {position : Nat} {cell : Cell} {value : Number} (h : s.Grown bits count s')
    (hposition : s.height ≤ position) (hcell : s'.cells[position]? = some cell)
    (hfits : cell.Fits → cell.format.Fits value.size) :
    s.Grown bits count (s'.write position value) := by
  refine ⟨h.height_eq, ?_, ?_, ?_⟩
  · intro i hi
    rw [getElem?_write_of_ne (by omega), h.kept i hi]
  · intro hs c hc
    rcases mem_write hc with hc | ⟨old, hold, rfl⟩
    · exact h.uniform hs c hc
    · exact h.uniform hs old (List.mem_of_getElem? hold)
  · intro hs c hc
    rcases mem_write hc with hc | ⟨old, hold, rfl⟩
    · exact h.fits hs c hc
    · rw [hcell] at hold
      cases hold
      exact hfits (h.fits hs cell (List.mem_of_getElem? hcell))

/-- Some of the new cells are given back. -/
theorem Grown.lower {fewer : Nat} (h : s.Grown bits count s') (hle : fewer ≤ count) :
    s.Grown bits fewer (s'.lower (s.height + fewer)) :=
  ⟨height_lower (by rw [h.height_eq]; omega), h.kept, h.uniform, h.fits⟩

end Stack

namespace Action

/-- Whether an action on a machine ends without a breach and changes no variable, and leaves a stack
grown from a given one if it succeeds. -/
def GrowsFrom (bits : Nat) (s : Stack) (count : Nat) (action : Action Unit) (m : Machine) : Prop :=
  (∃ e stack, action.on m = (.error (.fault e), ⟨m.env, stack⟩)) ∨
    ∃ stack, action.on m = (.ok (), ⟨m.env, stack⟩) ∧ s.Grown bits count stack

/-- Whether an action on a machine ends without a breach, changes no variable and lets the stack
grow if it succeeds. -/
def Grows (bits count : Nat) (action : Action Unit) (m : Machine) : Prop :=
  action.GrowsFrom bits m.stack count m

variable {bits count : Nat} {s : Stack} {m : Machine} {action : Action Unit}

/-- A stack that has grown grows on. -/
theorem Grows.growsFrom {more : Nat} (h : action.Grows bits more m)
    (hs : s.Grown bits count m.stack) : action.GrowsFrom bits s (count + more) m := by
  rcases h with hfails | ⟨stack, hon, hgrown⟩
  · exact Or.inl hfails
  · exact Or.inr ⟨stack, hon, hs.trans hgrown⟩

/-- What follows an action starts from a stack that has grown. -/
theorem GrowsFrom.bind {final : Nat} {next : Unit → Action Unit}
    (h : action.GrowsFrom bits s count m)
    (hnext : ∀ stack, s.Grown bits count stack →
      (next ()).GrowsFrom bits s final ⟨m.env, stack⟩) :
    (action >>= next).GrowsFrom bits s final m := by
  rcases h with ⟨e, stack, hon⟩ | ⟨stack, hon, hgrown⟩
  · exact Or.inl ⟨e, stack, on_bind_error hon⟩
  · rw [GrowsFrom, on_bind_ok hon]
    exact hnext stack hgrown

/-- Assumes: a stack that has grown, a position among the new cells, and a computation whose result
fits the cell there. Writing the result leaves the rest. -/
theorem growsFrom_update {position : Nat} {compute : Cell → Except EvalError Number}
    (hs : s.Grown bits count m.stack) (hlow : s.height ≤ position)
    (hhigh : position < m.stack.height)
    (hfits : ∀ cell x, cell.Fits → compute cell = .ok x → cell.format.Fits x.size) :
    (update position compute).GrowsFrom bits s count m := by
  obtain ⟨cell, hcell⟩ := Stack.exists_cell hhigh
  cases hcompute : compute cell with
  | error e => exact Or.inl ⟨e, m.stack, on_update_error hcell hcompute⟩
  | ok x =>
    exact Or.inr ⟨_, on_update_ok hcell hcompute,
      hs.write hlow hcell fun h ↦ hfits cell x h hcompute⟩

/-- A number is written to a cell that is taken for it. -/
theorem grows_push_update {compute : Cell → Except EvalError Number}
    (hfits : ∀ cell x, compute cell = .ok x → cell.format.Fits x.size) :
    (push bits >>= fun position ↦ update position compute).Grows bits 1 m :=
  growsFrom_update (m.stack.grown_push bits) (Nat.le_refl _)
    (by rw [Stack.height_push]; exact Nat.lt_succ_self _) fun cell x _ ↦ hfits cell x

end Action

/-- What an effect leaves in a cell fits, if what was there did. -/
theorem SlotEffect.Fits.apply {f : Format} {effect : SlotEffect} {old : Number}
    (h : effect.Fits f) (hold : f.Fits old.size) : f.Fits (effect.apply old).size := by
  cases effect with
  | write x => exact h
  | keep => exact hold
  | negate => exact hold

namespace Expr

open Reckoner.Action

variable {lib : Library} {bits : Nat}

mutual

/-- On every machine, evaluating an expression comes to no breach, changes no variable and, if it
succeeds, takes one more cell into use and keeps those in use. -/
theorem grows_run (e : Expr) (m : Machine) : (e.run lib bits).Grows bits 1 m := by
  cases e with
  | literal text value span => exact grows_push_update fun _ _ ↦ Wide.fits_of_literal
  | var name span =>
    rw [run, Grows, GrowsFrom, on_bind_ok (on_machine m)]
    split
    · exact Or.inl ⟨_, m.stack, rfl⟩
    · exact Or.inl ⟨_, m.stack, rfl⟩
    · refine grows_push_update ?_
      intro cell x hx
      cases hx
      exact cell.format.fits_round _
  | call callee calleeSpan args span =>
    rw [run]
    cases hresolve : Function.resolve callee calleeSpan args.length span with
    | error e => exact Or.inl ⟨e, m.stack, rfl⟩
    | ok function =>
      -- the cell for the result is the first of the new ones, the arguments are above it
      have hpush := m.stack.grown_push bits
      refine GrowsFrom.bind ((grows_runAll args ⟨m.env, _⟩).growsFrom hpush) ?_
      intro stack hgrown
      have hheight := hgrown.height_eq
      rw [GrowsFrom, on_bind_ok (on_window (show m.stack.height + 1 ≤ stack.height by omega))]
      refine GrowsFrom.bind (growsFrom_update hgrown (Nat.le_refl _)
        (show m.stack.height < stack.height by omega) ?_) ?_
      · intro cell x hcell hx
        cases heffect : Wide.callEffect lib cell.format span function
            (((stack.cells.take stack.height).drop (m.stack.height + 1)).map Cell.value) with
        | error e =>
          rw [heffect] at hx
          cases hx
        | ok effect =>
          rw [heffect] at hx
          cases hx
          exact (Wide.fits_of_callEffect heffect).apply hcell
      · intro stack' hgrown'
        have hheight' := hgrown'.height_eq
        exact Or.inr ⟨_, on_truncate (show m.stack.height + 1 ≤ stack'.height by omega),
          hgrown'.lower (by omega)⟩
  | binary op left right =>
    rw [run]
    refine GrowsFrom.bind (left.grows_run m) ?_
    intro first hfirst
    refine GrowsFrom.bind ((right.grows_run ⟨m.env, first⟩).growsFrom hfirst) ?_
    intro second hsecond
    have hheight : second.height = m.stack.height + 1 + 1 := hsecond.height_eq
    have hlower := hsecond.lower (Nat.le_succ 1)
    obtain ⟨y, hy⟩ := second.exists_cell (show m.stack.height + 1 < second.height by omega)
    rw [GrowsFrom, on_bind_ok (on_pop hheight),
      on_bind_ok (on_top (hlower.height_eq)), on_bind_ok (on_cellAt hy)]
    exact growsFrom_update hlower (Nat.le_refl _)
      (show m.stack.height < (second.lower (m.stack.height + 1)).height by
        rw [hlower.height_eq]; exact Nat.lt_succ_self _)
      fun _ _ _ ↦ Wide.fits_of_arithmetic

/-- On every machine, evaluating arguments comes to no breach, changes no variable and, if it
succeeds, takes as many more cells into use and keeps those in use. -/
theorem grows_runAll (args : List Expr) (m : Machine) :
    (runAll lib bits args).Grows bits args.length m := by
  cases args with
  | nil => exact Or.inr ⟨m.stack, rfl, Stack.Grown.refl bits m.stack⟩
  | cons arg rest =>
    rw [runAll, List.length_cons, Nat.add_comm]
    refine GrowsFrom.bind (arg.grows_run m) ?_
    intro stack hstack
    exact (grows_runAll rest ⟨m.env, stack⟩).growsFrom hstack

end

end Expr

end Reckoner
