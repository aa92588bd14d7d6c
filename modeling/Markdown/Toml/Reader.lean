import Markdown.Decimal.Integer
import Markdown.Html.Escape
import Markdown.Toml.Value

set_option autoImplicit false

namespace Markdown.Toml

/-- Why a configuration cannot be read. -/
inductive Fault where
  /-- It is not well-formed where so many characters are left. -/
  | malformed (left : Nat)
  /-- A decimal number has more digits than are allowed. -/
  | numberTooLong (digits : Nat)
deriving DecidableEq

abbrev Reader (α : Type) := StateT Text (Except Fault) α

namespace Reader

def fail {α : Type} : Reader α := fun text => .error (.malformed text.length)

/-- What a result stands for, or failure if there is none. -/
def need {α : Type} : Option α → Reader α
  | some value => pure value
  | none => fail

/-- The next character is left in place. -/
def next? : Reader (Option Char) := do
  pure (← get).head?

/-- The given text is next. -/
def sees (text : Text) : Reader Bool := do
  pure (text.isPrefixOf (← get))

/-- Takes the given text or fails. -/
def expect (text : Text) : Reader Unit := do
  if ← sees text then modify (·.drop text.length) else fail

/-- Takes the given text if it is next, and tells whether it was. -/
def skip? (text : Text) : Reader Bool := do
  if ← sees text then
    modify (·.drop text.length)
    pure true
  else pure false

def takeWhile (within : Char → Bool) : Reader Text := do
  let text ← get
  set (text.dropWhile within)
  pure (text.takeWhile within)

def blanks : Reader Unit := modify (·.dropWhile Text.isBlank)

end Reader

def isControl (c : Char) : Bool :=
  (decide (c.toNat < 0x20) || c == '\x7f') && c != '\t'

/-- A control character other than the tab and the newline. -/
def isControlInLines (c : Char) : Bool :=
  isControl c && c != '\n'

/-- Passes over a comment, which may hold no control characters. -/
def comment : Reader Unit := do
  if ← Reader.skip? ['#'] then
    if (← Reader.takeWhile (· != '\n')).any isControl then Reader.fail

/-- Passes over blanks, newlines and comments. Each round takes at least one character. -/
def space : Nat → Reader Unit
  | 0 => pure ()
  | budget + 1 => do
    let before := (← get).length
    modify (·.dropWhile fun c => Text.isBlank c || c == '\n')
    comment
    if (← get).length < before then space budget

/-- The part of a text in front of a mark and the part behind it. -/
def cut? (mark : Text) : Text → Option (Text × Text)
  | [] => if mark.isEmpty then some ([], []) else none
  | c :: rest =>
    if mark.isPrefixOf (c :: rest) then some ([], (c :: rest).drop mark.length)
    else (cut? mark rest).map fun (front, behind) => (c :: front, behind)

/-- The text up to a mark, which is taken too. -/
def upToMark (mark : Text) (refused : Char → Bool) : Reader Text := do
  let (front, behind) ← Reader.need (cut? mark (← get))
  if front.any refused then Reader.fail
  set behind
  pure front

def literalText : Reader Text := do
  Reader.expect ['\'']
  upToMark ['\''] isControl

/-- A character given by its code in hexadecimal digits. -/
def coded (count : Nat) : Reader Text := do
  let digits := (← get).take count
  if digits.length < count || !digits.all Html.isHexDigit then Reader.fail
  let code := digits.foldl (fun sum c => 16 * sum + hexValue c) 0
  if h : code.isValidChar then
    modify (·.drop count)
    pure [Char.ofNatAux code h]
  else Reader.fail
where
  /-- The value of a hexadecimal digit. -/
  hexValue (c : Char) : Nat :=
    if c.isDigit then c.toNat - '0'.toNat
    else if c.isUpper then c.toNat - 'A'.toNat + 10
    else c.toNat - 'a'.toNat + 10

/-- What a backslash at the end of a line hides: the line break and all blanks and line breaks
behind it. -/
def lineContinuation : Reader Text := do
  Reader.blanks
  unless (← get).isEmpty do
    Reader.expect ['\n']
    modify (·.dropWhile fun c => Text.isBlank c || c == '\n')
  pure []

def escape (multiline : Bool) : Reader Text := do
  let c ← Reader.need (← Reader.next?)
  if multiline && (Text.isBlank c || c == '\n') then lineContinuation
  else
    modify (·.drop 1)
    match c with
    | 'b' => pure ['\x08']
    | 't' => pure ['\t']
    | 'n' => pure ['\n']
    | 'f' => pure ['\x0c']
    | 'r' => pure ['\r']
    | '"' => pure ['"']
    | '\\' => pure ['\\']
    | 'u' => coded 4
    | 'U' => coded 8
    | _ => Reader.fail

/-- The rest of a text in double quotes, put behind what was read of it. Each round takes at least
one character. -/
def basicRest (multiline : Bool) : Nat → Text → Reader Text
  | 0, _ => Reader.fail
  | budget + 1, found => do
    if ← Reader.skip? (if multiline then "\"\"\"".toList else ['"']) then pure found
    else
      let c ← Reader.need (← Reader.next?)
      if c == '\\' then
        modify (·.drop 1)
        basicRest multiline budget (found ++ (← escape multiline))
      else if (if multiline then isControlInLines c else isControl c) then Reader.fail
      else
        modify (·.drop 1)
        basicRest multiline budget (found ++ [c])

def basicText : Reader Text := do
  Reader.expect ['"']
  basicRest false ((← get).length + 1) []

/-- One or two further delimiters at the end of a text of several lines belong to the text. -/
def furtherDelimiters (delimiter : Char) (text : Text) : Reader Text := do
  if ← Reader.skip? [delimiter] then
    if ← Reader.skip? [delimiter] then pure (text ++ [delimiter, delimiter])
    else pure (text ++ [delimiter])
  else pure text

/-- A text of several lines behind its opening delimiters. -/
def multilineText (delimiter : Char) : Reader Text := do
  let mark := [delimiter, delimiter, delimiter]
  Reader.expect mark
  let _ ← Reader.skip? ['\n']
  let text ←
    if delimiter == '"' then basicRest true ((← get).length + 1) []
    else upToMark mark isControlInLines
  furtherDelimiters delimiter text

def isBareKeyChar (c : Char) : Bool :=
  c.isAlphanum || c == '-' || c == '_'

def keyPart : Reader Text := do
  match ← Reader.next? with
  | some '\'' => literalText
  | some '"' => basicText
  | some c => if isBareKeyChar c then Reader.takeWhile isBareKeyChar else Reader.fail
  | none => Reader.fail

/-- The parts of a key behind its first. -/
def furtherParts : Nat → Reader (List Text)
  | 0 => Reader.fail
  | budget + 1 => do
    Reader.blanks
    if ← Reader.skip? ['.'] then
      Reader.blanks
      let part ← keyPart
      pure (part :: (← furtherParts budget))
    else pure []

def key : Reader (List Text) := do
  let first ← keyPart
  pure (first :: (← furtherParts ((← get).length + 1)))

inductive Part where
  | hexadecimal | binary | octal
  | fraction | exponent
  | year | month | day
  | hour | minute | second | microsecond
  | universal | sign | offsetHour | offsetMinute
deriving DecidableEq

/-- A digit of a class, and more of them with single low lines between. -/
def digitRun (within : Char → Bool) : Pattern Part :=
  .seq (.one within) (.rounds (.seq (.optional (.char '_')) (.one within)))

/-- One character out of a few. -/
def oneOf (characters : String) : Pattern Part :=
  .one characters.toList.contains

def digit : Pattern Part :=
  .one Char.isDigit

def optionalSign : Pattern Part :=
  .optional (oneOf "+-")

/-- A whole number in another base, behind a zero and a letter. -/
def basedNumber (letter : Char) (part : Part) (within : Char → Bool) : Pattern Part :=
  .sequence [.char '0', .char letter, .capture part (digitRun within)]

/-- The digits of a decimal number; only the number zero starts with a zero. -/
def wholePart : Pattern Part :=
  .choice [.char '0', .seq (oneOf "123456789") (.rounds (.seq (.optional (.char '_')) digit))]

def fractionPart : Pattern Part :=
  .optional (.seq (.char '.') (digitRun Char.isDigit))

def exponentPart : Pattern Part :=
  .optional (.sequence [oneOf "eE", optionalSign, digitRun Char.isDigit])

/-- A whole number in another base, or a decimal number. -/
def numberPattern : Pattern Part :=
  .choice
    [basedNumber 'x' .hexadecimal Html.isHexDigit,
      basedNumber 'b' .binary "01".toList.contains,
      basedNumber 'o' .octal "01234567".toList.contains,
      .sequence
        [optionalSign, wholePart, .capture .fraction fractionPart,
          .capture .exponent exponentPart]]

/-- An hour from zero to 23. -/
def twoDigitHour : Pattern Part :=
  .choice [.seq (oneOf "01") digit, .seq (.char '2') (oneOf "0123")]

def sixtieth : Pattern Part :=
  .seq (oneOf "012345") digit

/-- A fraction of a second; the digits behind its sixth are passed over. -/
def secondFraction : Pattern Part :=
  .sequence
    [.char '.', .capture .microsecond (.seq digit (.upTo 5 digit)), .many Char.isDigit]

def timePattern : Pattern Part :=
  .sequence
    [.capture .hour twoDigitHour, .char ':', .capture .minute sixtieth, .char ':',
      .capture .second sixtieth, .optional secondFraction]

def offsetPattern : Pattern Part :=
  .choice
    [.capture .universal (oneOf "Zz"),
      .sequence
        [.capture .sign (oneOf "+-"), .capture .offsetHour twoDigitHour, .char ':',
          .capture .offsetMinute sixtieth]]

def twoDigitMonth : Pattern Part :=
  .choice [.seq (.char '0') (oneOf "123456789"), .seq (.char '1') (oneOf "012")]

def twoDigitDay : Pattern Part :=
  .choice
    [.seq (.char '0') (oneOf "123456789"), .seq (oneOf "12") digit, .seq (.char '3') (oneOf "01")]

/-- A date, alone or with a time, which may have an offset. -/
def datePattern : Pattern Part :=
  .sequence
    [.capture .year (.exactly 4 digit), .char '-', .capture .month twoDigitMonth, .char '-',
      .capture .day twoDigitDay,
      .optional (.sequence [oneOf "Tt ", timePattern, .optional offsetPattern])]

/-- The value of digits in a base, low lines left out. -/
def valueIn (base : Nat) (digits : Text) : Nat :=
  (digits.filter (· != '_')).foldl (fun sum c => base * sum + coded.hexValue c) 0

/-- A decimal number without sign, as far as its digits are allowed. -/
def decimalInteger (digits : Text) : Except Fault Nat :=
  let count := (digits.filter (· != '_')).length
  if count ≤ Decimal.mostDigits then .ok (valueIn 10 digits) else .error (.numberTooLong count)

/-- The sign in front of a number and the rest of it. -/
def splitSign : Text → Bool × Text
  | '-' :: rest => (true, rest)
  | '+' :: rest => (false, rest)
  | rest => (false, rest)

/-- The floating-point number with a whole part, a fraction behind its point, and an exponent behind
its letter. -/
def floating (negative : Bool) (whole fraction exponent : Text) : Number :=
  let whole := whole.filter (· != '_')
  let fraction := (fraction.drop 1).filter (· != '_')
  let (below, power) := splitSign (exponent.drop 1)
  let power : Int := if below then -(valueIn 10 power : Int) else valueIn 10 power
  let digits := (whole ++ fraction).dropWhile (· == '0')
  match Decimal.Binary.ofDecimal? (valueIn 10 digits) digits.length (power - fraction.length) with
  | some magnitude => .finite negative magnitude
  | none => .infinite negative

def numberValue (found : Match Part) : Except Fault Value :=
  match found.get? .hexadecimal, found.get? .binary, found.get? .octal with
  | some digits, _, _ => .ok (.integer (valueIn 16 digits))
  | _, some digits, _ => .ok (.integer (valueIn 2 digits))
  | _, _, some digits => .ok (.integer (valueIn 8 digits))
  | none, none, none => do
    let fraction := found.get .fraction
    let exponent := found.get .exponent
    let (negative, rest) := splitSign found.text
    let whole := rest.take (rest.length - fraction.length - exponent.length)
    if fraction.isEmpty && exponent.isEmpty then
      let value : Int ← decimalInteger whole
      pure (.integer (if negative then -value else value))
    else pure (.number (floating negative whole fraction exponent))

def numberOf (found : Match Part) (part : Part) : Nat :=
  valueIn 10 (found.get part)

def timeValue (found : Match Part) : Time :=
  let fraction := found.get .microsecond
  ⟨numberOf found .hour, numberOf found .minute, numberOf found .second,
    valueIn 10 (fraction ++ List.replicate (6 - fraction.length) '0')⟩

def isLeapYear (year : Nat) : Bool :=
  year % 4 == 0 && (year % 100 != 0 || year % 400 == 0)

def daysIn (year month : Nat) : Nat :=
  if month = 2 then (if isLeapYear year then 29 else 28)
  else if month = 4 ∨ month = 6 ∨ month = 9 ∨ month = 11 then 30 else 31

/-- A date of the calendar, which starts with the year one. -/
def dateValue? (found : Match Part) : Option Date :=
  let date : Date := ⟨numberOf found .year, numberOf found .month, numberOf found .day⟩
  if date.year = 0 ∨ daysIn date.year date.month < date.day then none else some date

/-- An offset in minutes. -/
def offsetValue? (found : Match Part) : Option Int :=
  match found.get? .sign with
  | some sign =>
    let minutes : Int := numberOf found .offsetHour * 60 + numberOf found .offsetMinute
    some (if sign == ['-'] then -minutes else minutes)
  | none => (found.get? .universal).map fun _ => 0

def dateOrMoment (found : Match Part) : Reader Value := do
  let date ← Reader.need (dateValue? found)
  if (found.get? .hour).isSome then
    pure (.moment date (timeValue found) (offsetValue? found))
  else pure (.date date)

/-- Takes what a pattern matches at the start of the text. -/
def matched? (pattern : Pattern Part) : Reader (Option (Match Part)) := do
  match pattern.matchStart? (← get) with
  | some found =>
    set found.stop.cursor.after
    pure (some found)
  | none => pure none

/-- The words for infinity and for no number. -/
def specialNumbers : List (Text × Number) :=
  [("inf".toList, .infinite false), ("nan".toList, .notANumber),
    ("-inf".toList, .infinite true), ("+inf".toList, .infinite false),
    ("-nan".toList, .notANumber), ("+nan".toList, .notANumber)]

def specialNumber : List (Text × Number) → Reader Value
  | [] => Reader.fail
  | (word, number) :: rest => do
    if ← Reader.skip? word then pure (.number number) else specialNumber rest

/-- A date, a time or a number. -/
def scalar : Reader Value := do
  match ← matched? datePattern with
  | some found => dateOrMoment found
  | none =>
  match ← matched? timePattern with
  | some found => pure (.time (timeValue found))
  | none =>
  match ← matched? numberPattern with
  | some found =>
    match numberValue found with
    | .ok value => pure value
    | .error fault => fun _ => .error fault
  | none => specialNumber specialNumbers

/-- Arrays and tables are closed where they are written. -/
def Value.isClosed : Value → Bool
  | .array _ => true
  | .table _ => true
  | _ => false

mutual

/-- A value. The budget bounds the nesting and the number of items; each item takes characters. -/
def value : Nat → Reader Value
  | 0 => Reader.fail
  | budget + 1 => do
    match ← Reader.next? with
    | some '"' =>
      if ← Reader.sees "\"\"\"".toList then .text <$> multilineText '"' else .text <$> basicText
    | some '\'' =>
      if ← Reader.sees "'''".toList then .text <$> multilineText '\'' else .text <$> literalText
    | some '[' => do
      Reader.expect ['[']
      .array <$> items budget
    | some '\x7b' => do
      Reader.expect ['\x7b']
      Reader.blanks
      if ← Reader.skip? ['\x7d'] then pure (.table []) else .table <$> entries budget [] []
    | _ =>
      if ← Reader.skip? "true".toList then pure (.truth true)
      else if ← Reader.skip? "false".toList then pure (.truth false)
      else scalar

/-- The items of an array from here to its closing bracket. -/
def items : Nat → Reader (List Value)
  | 0 => Reader.fail
  | budget + 1 => do
    space ((← get).length + 1)
    if ← Reader.skip? [']'] then pure []
    else
      let first ← value budget
      space ((← get).length + 1)
      if ← Reader.skip? [','] then pure (first :: (← items budget))
      else
        Reader.expect [']']
        pure [first]

/-- The entries of an inline table from here to its closing brace, put behind those in `table`.
Arrays and tables among the values take no further entries. -/
def entries : Nat → List (List Text) → Table → Reader Table
  | 0, _, _ => Reader.fail
  | budget + 1, closed, table => do
    let path ← key
    Reader.expect ['=']
    Reader.blanks
    let content ← value budget
    if closed.any (·.isPrefixOf path) then Reader.fail
    let table ← Reader.need (table.insert? false path content)
    Reader.blanks
    if ← Reader.skip? ['\x7d'] then pure table
    else
      Reader.expect [',']
      Reader.blanks
      entries budget (if content.isClosed then path :: closed else closed) table

end

def assignment : Reader (List Text × Value) := do
  let path ← key
  Reader.expect ['=']
  Reader.blanks
  pure (path, ← value ((← get).length + 1))

end Markdown.Toml
