import Markdown.Decimal.Integer
import Markdown.Decimal.Shortest
import Markdown.Text.Quoted

set_option autoImplicit false

namespace Markdown.Toml

inductive Number where
  | finite (negative : Bool) (magnitude : Decimal.Binary)
  | infinite (negative : Bool)
  | notANumber
deriving DecidableEq

structure Date where
  year : Nat
  month : Nat
  day : Nat
deriving DecidableEq

structure Time where
  hour : Nat
  minute : Nat
  second : Nat
  microsecond : Nat
deriving DecidableEq

/-- A value of a configuration. A table keeps its entries in the order in which they were written;
an offset is given in minutes. -/
inductive Value where
  | text (value : Text)
  | integer (value : Int)
  | number (value : Number)
  | truth (value : Bool)
  | date (value : Date)
  | time (value : Time)
  | moment (date : Date) (time : Time) (offset : Option Int)
  | array (items : List Value)
  | table (entries : List (Text × Value))

abbrev Table := List (Text × Value)

def Table.get? (table : Table) (key : Text) : Option Value :=
  (table.find? fun entry => entry.1 == key).map (·.2)

/-- The table with another value for a key that it has. -/
def Table.replace (table : Table) (key : Text) (value : Value) : Table :=
  table.map fun entry => if entry.1 == key then (key, value) else entry

/-- A change made to the table at the end of a path; tables that are missing on the way come about.
A path may lead through arrays, into their last item, if that is allowed. -/
def Table.edit? (throughArrays : Bool) (change : Table → Option Table) :
    List Text → Table → Option Table
  | [], table => change table
  | name :: rest, table =>
    match table.get? name with
    | none => (edit? throughArrays change rest []).map fun inner =>
      table ++ [(name, .table inner)]
    | some (.table inner) => (edit? throughArrays change rest inner).map fun inner =>
      table.replace name (.table inner)
    | some (.array items) =>
      match throughArrays, items.getLast? with
      | true, some (.table inner) => (edit? throughArrays change rest inner).map fun inner =>
        table.replace name (.array (items.dropLast ++ [.table inner]))
      | _, _ => none
    | some _ => none

/-- The table with a value at the end of a path, where there must be none yet. -/
def Table.insert? (table : Table) (throughArrays : Bool) (path : List Text) (value : Value) :
    Option Table := do
  let last ← path.getLast?
  Table.edit? throughArrays
    (fun inner => if (inner.get? last).isSome then none else some (inner ++ [(last, value)]))
    path.dropLast table

/-- A number in decimal, filled up with zeros. -/
def padded (width value : Nat) : Text :=
  let digits := (toString value).toList
  List.replicate (width - digits.length) '0' ++ digits

def decimal (value : Int) : Text :=
  (toString value).toList

/-- Decimals go without an exponent part from 0.0001 to below 10 ^ 16; exponents have at least two
digits. -/
def numberLayout : Decimal.Layout := ⟨-4, 16, 2⟩

def Number.text : Number → Text
  | .finite negative magnitude =>
    (if negative then ['-'] else []) ++ numberLayout.render magnitude.shortest
  | .infinite negative => if negative then "-inf".toList else "inf".toList
  | .notANumber => "nan".toList

def Date.text (date : Date) : Text :=
  padded 4 date.year ++ '-' :: padded 2 date.month ++ '-' :: padded 2 date.day

def Time.text (time : Time) : Text :=
  padded 2 time.hour ++ ':' :: padded 2 time.minute ++ ':' :: padded 2 time.second ++
    (if time.microsecond = 0 then [] else '.' :: padded 6 time.microsecond)

def offsetText (offset : Int) : Text :=
  (if offset < 0 then '-' else '+') :: padded 2 (offset.natAbs / 60) ++
    ':' :: padded 2 (offset.natAbs % 60)

def truthText (value : Bool) : Text :=
  if value then "True".toList else "False".toList

/-- The parts of a time that are named inside a value: seconds and microseconds only as far as they
are not zero. -/
def Time.parts (time : Time) : List Text :=
  let parts := [time.hour, time.minute] ++
    (if time.second = 0 ∧ time.microsecond = 0 then [] else [time.second]) ++
    (if time.microsecond = 0 then [] else [time.microsecond])
  parts.map fun part : Nat => decimal part

def Date.parts (date : Date) : List Text :=
  [date.year, date.month, date.day].map fun part : Nat => decimal part

def offsetPart (offset : Int) : Text :=
  "tzinfo=".toList ++
    if offset = 0 then "datetime.timezone.utc".toList
    else "datetime.timezone(datetime.timedelta(".toList ++
      (if offset < 0 then "days=-1, seconds=".toList ++ decimal (86400 + 60 * offset)
        else "seconds=".toList ++ decimal (60 * offset)) ++ "))".toList

def called (name : Text) (arguments : List Text) : Text :=
  name ++ '(' :: Text.join ", ".toList arguments ++ [')']

mutual

def Value.inner : Value → Text
  | .text value => value.quoted
  | .integer value => decimal value
  | .number value => value.text
  | .truth value => truthText value
  | .date value => called "datetime.date".toList value.parts
  | .time value => called "datetime.time".toList value.parts
  | .moment day clock offset =>
    called "datetime.datetime".toList
      (day.parts ++ clock.parts ++ (offset.map offsetPart).toList)
  | .array items => '[' :: Text.join ", ".toList (innerItems items) ++ [']']
  | .table entries => '\x7b' :: Text.join ", ".toList (innerEntries entries) ++ ['\x7d']

def innerItems : List Value → List Text
  | [] => []
  | item :: rest => item.inner :: innerItems rest

def innerEntries : List (Text × Value) → List Text
  | [] => []
  | (key, value) :: rest => (key.quoted ++ ": ".toList ++ value.inner) :: innerEntries rest

end

def Value.shown : Value → Text
  | .text value => value
  | .date value => value.text
  | .time value => value.text
  | .moment day clock offset =>
    day.text ++ ' ' :: clock.text ++ (offset.map offsetText).getD []
  | value => value.inner

mutual

/-- A whole number in the value has more digits than can be shown. -/
def Value.isTooLong : Value → Bool
  | .integer value => decide (Nat.pow 10 Decimal.mostDigits ≤ value.natAbs)
  | .array items => isTooLongItem items
  | .table entries => isTooLongEntry entries
  | _ => false

def isTooLongItem : List Value → Bool
  | [] => false
  | item :: rest => item.isTooLong || isTooLongItem rest

def isTooLongEntry : List (Text × Value) → Bool
  | [] => false
  | (_, value) :: rest => value.isTooLong || isTooLongEntry rest

end

/-- The message for a number with more digits than are allowed. -/
def tooLongMessage (particulars : Text) : Text :=
  "Exceeds the limit (4300 digits) for integer string conversion".toList ++ particulars ++
    "; use sys.set_int_max_str_digits() to increase the limit".toList

/-- A value counts as true unless it is false, zero or empty. -/
def Value.isTrue : Value → Bool
  | .text value => !value.isEmpty
  | .integer value => value != 0
  | .number (.finite _ magnitude) => magnitude.significand != 0
  | .truth value => value
  | .array items => !items.isEmpty
  | .table entries => !entries.isEmpty
  | _ => true

end Markdown.Toml
