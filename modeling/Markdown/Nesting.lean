import Markdown.Text

set_option autoImplicit false

namespace Markdown

/-- A bound on nesting as it is configured: a number, or a truth value in its place, which counts as
one or zero. -/
inductive Bound where
  | levels (count : Int)
  | flag (on : Bool)
deriving DecidableEq

namespace Bound

def value : Bound → Int
  | .levels count => count
  | .flag on => if on then 1 else 0

def text : Bound → Text
  | .levels count => (toString count).toList
  | .flag true => "True".toList
  | .flag false => "False".toList

def standard : Bound := .levels 64

end Bound

/-- What limits nesting: the bound that is configured, and the number of levels that can be open at
a time at all, which depends on the machine. -/
structure Limit where
  bound : Bound
  capacity : Nat
deriving DecidableEq

namespace Limit

def value (limit : Limit) : Int :=
  limit.bound.value

/-- A bound on a machine that can open that many levels. -/
def ofBound (bound : Bound) : Limit :=
  ⟨bound, bound.value.toNat⟩

def levels (count : Int) : Limit :=
  .ofBound (.levels count)

def standard : Limit :=
  .ofBound .standard

@[simp] theorem value_levels (count : Int) : (levels count).value = count := rfl

@[simp] theorem capacity_levels (count : Int) : (levels count).capacity = count.toNat := rfl

/-- So many levels can be open at a time. -/
def Holds (limit : Limit) (count : Nat) : Prop :=
  count ≤ limit.value ∧ count ≤ limit.capacity

instance (limit : Limit) (count : Nat) : Decidable (limit.Holds count) :=
  inferInstanceAs (Decidable (_ ∧ _))

end Limit

/-- Why nesting was refused. -/
inductive NestingError where
  /-- A level of the given depth would be past the bound. -/
  | pastLimit (bound : Bound) (depth : Nat)
  /-- The machine could not open another level below the bound. -/
  | outOfLevels (bound : Bound) (deepest : Nat)
deriving DecidableEq

namespace NestingError

def bound : NestingError → Bound
  | .pastLimit bound _ => bound
  | .outOfLevels bound _ => bound

def depth : NestingError → Nat
  | .pastLimit _ depth => depth
  | .outOfLevels _ deepest => deepest + 1

def message : NestingError → Text
  | .pastLimit bound _ =>
    "nesting depth limit (".toList ++ bound.text ++ ") exceeded".toList
  | .outOfLevels bound deepest =>
    "nesting depth limit exceeded after ".toList ++ (toString deepest).toList ++
      " levels (configured limit ".toList ++ bound.text ++ ")".toList

/-- A message about nesting with its file, its depth and the bound. -/
def reportOf (message depth bound file : Text) : Text :=
  "error: ".toList ++ message ++ "\n  --> ".toList ++ file ++ "\n   |\n   = note: ".toList ++
    depth ++ " levels of nested quotes or lists were opened (limit ".toList ++ bound ++
    ")".toList

def standardFile : Text := "input.md".toList

def report (error : NestingError) (file : Text) : Text :=
  reportOf error.message (toString error.depth).toList error.bound.text file

end NestingError

/-- How many levels are open, and how many have been open at most. -/
structure Level where
  depth : Nat
  deepest : Nat
deriving DecidableEq

namespace Level

def outermost : Level := ⟨0, 0⟩

/-- One level more, unless the limit is reached. -/
def enter (limit : Limit) (level : Level) : Except NestingError Level :=
  if limit.value ≤ level.depth then .error (.pastLimit limit.bound (level.depth + 1))
  else .ok ⟨level.depth + 1, max level.deepest (level.depth + 1)⟩

def leave (level : Level) : Level :=
  ⟨level.depth - 1, level.deepest⟩

end Level

end Markdown
