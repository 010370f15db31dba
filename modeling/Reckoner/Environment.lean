import Reckoner.Number.Binary64

/-!
# Environments

An environment gives 64-bit numbers to names. It is a list of entries in strictly increasing order
of names, so that an environment is determined by what its names stand for. Names are never
removed.

Main statements: looking up the name that was set gives the value, and other names are not affected
(`Environment.lookup?_set_self`, `Environment.lookup?_set_of_ne`).
-/

set_option autoImplicit false

namespace Reckoner

/-- Entries in strictly increasing order of names. -/
def Increasing (entries : List (String × Binary64)) : Prop :=
  entries.Pairwise fun a b ↦ a.1 < b.1

/-- A finite map from names to values. -/
structure Environment where
  entries : List (String × Binary64)
  increasing : Increasing entries

/-- Puts an entry in its place among increasing ones, in the place of an entry of the same name. -/
def insertEntry (name : String) (value : Binary64) :
    List (String × Binary64) → List (String × Binary64)
  | [] => [(name, value)]
  | entry :: rest =>
    if name < entry.1 then (name, value) :: entry :: rest
    else if name = entry.1 then (name, value) :: rest
    else entry :: insertEntry name value rest

/-- The entries after an insertion are the inserted one and old ones. -/
theorem mem_insertEntry {name : String} {value : Binary64} {entries : List (String × Binary64)}
    {entry : String × Binary64} (h : entry ∈ insertEntry name value entries) :
    entry = (name, value) ∨ entry ∈ entries := by
  induction entries with
  | nil => exact Or.inl (by simpa [insertEntry] using h)
  | cons first rest ih =>
    simp only [insertEntry] at h
    split at h
    · rcases List.mem_cons.mp h with rfl | h
      · exact Or.inl rfl
      · exact Or.inr h
    · split at h
      · rcases List.mem_cons.mp h with rfl | h
        · exact Or.inl rfl
        · exact Or.inr (List.mem_cons_of_mem _ h)
      · rcases List.mem_cons.mp h with rfl | h
        · exact Or.inr List.mem_cons_self
        · rcases ih h with h | h
          · exact Or.inl h
          · exact Or.inr (List.mem_cons_of_mem _ h)

/-- Of two names that neither is below the other nor equal, there are none. -/
theorem lt_of_not_lt_of_ne {a b : String} (hlt : ¬ a < b) (hne : a ≠ b) : b < a := by
  have hle : b ≤ a := String.not_lt.mp hlt
  rcases Classical.em (b < a) with h | h
  · exact h
  · exact absurd (String.le_antisymm (String.not_lt.mp h) hle) hne

/-- An insertion keeps the order of names. -/
theorem Increasing.insertEntry {entries : List (String × Binary64)} (h : Increasing entries)
    (name : String) (value : Binary64) : Increasing (insertEntry name value entries) := by
  induction entries with
  | nil => simp [Reckoner.insertEntry, Increasing]
  | cons first rest ih =>
    have hfirst := (List.pairwise_cons.mp h).1
    have hrest : Increasing rest := (List.pairwise_cons.mp h).2
    simp only [Reckoner.insertEntry]
    split
    · rename_i hlt
      refine List.pairwise_cons.mpr ⟨?_, h⟩
      intro entry hentry
      rcases List.mem_cons.mp hentry with rfl | hentry
      · exact hlt
      · exact String.lt_trans hlt (hfirst entry hentry)
    · rename_i hlt
      split
      · rename_i heq
        refine List.pairwise_cons.mpr ⟨?_, hrest⟩
        intro entry hentry
        rw [heq]
        exact hfirst entry hentry
      · rename_i hne
        refine List.pairwise_cons.mpr ⟨?_, ih hrest⟩
        intro entry hentry
        rcases mem_insertEntry hentry with rfl | hentry
        · exact lt_of_not_lt_of_ne hlt hne
        · exact hfirst entry hentry

namespace Environment

/-- The environment without names. -/
def empty : Environment :=
  ⟨[], List.Pairwise.nil⟩

/-- Gives a value to a name, in the place of the one it had. -/
def set (env : Environment) (name : String) (value : Binary64) : Environment :=
  ⟨insertEntry name value env.entries, env.increasing.insertEntry name value⟩

/-- The value of a name in a list of entries. -/
def lookupIn? (name : String) : List (String × Binary64) → Option Binary64
  | [] => none
  | entry :: rest => if name = entry.1 then some entry.2 else lookupIn? name rest

/-- The value of a name. -/
def lookup? (env : Environment) (name : String) : Option Binary64 :=
  lookupIn? name env.entries

/-- The names in increasing order. -/
def names (env : Environment) : List String :=
  env.entries.map Prod.fst

/-- The inserted name has the inserted value. -/
theorem lookupIn?_insertEntry_self (name : String) (value : Binary64)
    (entries : List (String × Binary64)) :
    lookupIn? name (insertEntry name value entries) = some value := by
  induction entries with
  | nil => simp [insertEntry, lookupIn?]
  | cons first rest ih =>
    simp only [insertEntry]
    split
    · simp [lookupIn?]
    · split
      · simp [lookupIn?]
      · rename_i hne
        simp [lookupIn?, hne, ih]

/-- Other names keep their values. -/
theorem lookupIn?_insertEntry_of_ne {name other : String} (hne : other ≠ name) (value : Binary64)
    (entries : List (String × Binary64)) :
    lookupIn? other (insertEntry name value entries) = lookupIn? other entries := by
  induction entries with
  | nil => simp [insertEntry, lookupIn?, hne]
  | cons first rest ih =>
    simp only [insertEntry]
    split
    · simp [lookupIn?, hne]
    · split
      · rename_i heq
        have hfirst : other ≠ first.1 := heq ▸ hne
        simp [lookupIn?, hne, hfirst]
      · simp [lookupIn?, ih]

/-- The name that was set has the value it was set to. -/
@[simp] theorem lookup?_set_self (env : Environment) (name : String) (value : Binary64) :
    (env.set name value).lookup? name = some value :=
  lookupIn?_insertEntry_self name value env.entries

/-- Setting a name does not affect others. -/
theorem lookup?_set_of_ne (env : Environment) {name other : String} (hne : other ≠ name)
    (value : Binary64) : (env.set name value).lookup? other = env.lookup? other :=
  lookupIn?_insertEntry_of_ne hne value env.entries

/-! ### Making environments -/

/-- The names that every new environment starts with. -/
def constants : Environment :=
  ((((empty.set "pi" Binary64.pi).set "e" Binary64.e).set "inf" Binary64.infinity).set
    "nan" .nan).set "tau" Binary64.tau

/-- A change to make to a new environment. -/
inductive Adjustment where
  | nothing
  | define (name : String) (value : Binary64)
  | defineAll (entries : List (String × Binary64))
  | unknown

/-- The failure of a change that is not known. -/
structure UnknownAdjustment where
  deriving DecidableEq, Repr

/-- The description of the failure. -/
def UnknownAdjustment.message (_ : UnknownAdjustment) : String :=
  "calc: unknown option type"

/-- Gives values to several names, one after the other. -/
def setAll (env : Environment) (entries : List (String × Binary64)) : Environment :=
  entries.foldl (fun env entry ↦ env.set entry.1 entry.2) env

/-- An environment changed as told, one change after the other; the given one stays as it is. -/
def adjust (env : Environment) : List Adjustment → Except UnknownAdjustment Environment
  | [] => .ok env
  | .nothing :: rest => env.adjust rest
  | .define name value :: rest => (env.set name value).adjust rest
  | .defineAll entries :: rest => (env.setAll entries).adjust rest
  | .unknown :: _ => .error {}

end Environment

end Reckoner
