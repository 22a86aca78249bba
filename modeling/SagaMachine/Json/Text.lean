import SagaMachine.Json.Basic

/-!
# JSON texts

Reading (`Json.ofText?`) and writing (`Json.toText`) of JSON values. The reader
accepts exactly one value between blanks; it takes one unit of fuel for every value
and every member, and the length of the text is always enough. Numbers without a
fraction or an exponent that fit an integer are integers, all others binary64; a text
with a number beyond the finite ones is refused.
-/

namespace SagaMachine.Json

/-! ## Writing -/

/-- A character inside a JSON string. -/
def escapeChar (c : Char) : List Char :=
  if c = '"' then ['\\', '"']
  else if c = '\\' then ['\\', '\\']
  else if c.toNat < 0x20 then
    let digits := Nat.toDigits 16 c.toNat
    ['\\', 'u'] ++ List.replicate (4 - digits.length) '0' ++ digits
  else [c]

/-- A JSON string between its quotes. -/
def quoteText (s : String) : String :=
  if s.toList.all (fun c => c ≠ '"' && c ≠ '\\' && 0x20 ≤ c.toNat) then "\"" ++ s ++ "\""
  else String.ofList ('"' :: s.toList.flatMap escapeChar ++ ['"'])

mutual

/-- Write a value behind the text already written. -/
def writeTo (out : String) : Json → String
  | null => out ++ "null"
  | bool b => out ++ (if b then "true" else "false")
  | num n => out ++ n.toText
  | str s => out ++ quoteText s
  | arr items => (writeItems (out ++ "[") true items).push ']'
  | obj fields => (writeFields (out ++ "\x7b") true fields).push '\x7d'

/-- Write the members of an array, with commas between them. -/
def writeItems (out : String) (first : Bool) : List Json → String
  | [] => out
  | x :: xs => writeItems (writeTo (if first then out else out.push ',') x) false xs

/-- Write the fields of an object, with commas between them. -/
def writeFields (out : String) (first : Bool) : List (String × Json) → String
  | [] => out
  | (k, x) :: xs =>
    let start := (if first then out else out.push ',') ++ quoteText k
    writeFields (writeTo (start.push ':') x) false xs

end

/-- The text of a value. -/
def toText (j : Json) : String := writeTo "" j

/-! ## Reading -/

/-- The characters that may stand between the parts of a JSON text. -/
def isSpace (c : Char) : Bool := c = ' ' || c = '\n' || c = '\r' || c = '\t'

/-- The text after its leading blanks. -/
def skipSpaces (cs : List Char) : List Char := cs.dropWhile isSpace

/-- The value of a hexadecimal digit. -/
def hexDigit? (c : Char) : Option Nat :=
  if '0' ≤ c ∧ c ≤ '9' then some (c.toNat - '0'.toNat)
  else if 'a' ≤ c ∧ c ≤ 'f' then some (c.toNat - 'a'.toNat + 10)
  else if 'A' ≤ c ∧ c ≤ 'F' then some (c.toNat - 'A'.toNat + 10)
  else none

/-- Four hexadecimal digits as a number, with the rest of the text. -/
def readHex4? : List Char → Option (Nat × List Char)
  | a :: b :: c :: d :: rest => do
    let a ← hexDigit? a
    let b ← hexDigit? b
    let c ← hexDigit? c
    let d ← hexDigit? d
    return (((a * 16 + b) * 16 + c) * 16 + d, rest)
  | _ => none

/-- The character after `\u`; the two halves of a surrogate pair make one character. -/
def readUnicode? (cs : List Char) : Option (Char × List Char) := do
  let (hi, rest) ← readHex4? cs
  if 0xD800 ≤ hi ∧ hi < 0xDC00 then
    match rest with
    | '\\' :: 'u' :: rest =>
      let (lo, rest) ← readHex4? rest
      if 0xDC00 ≤ lo ∧ lo < 0xE000 then
        return (Char.ofNat (0x10000 + (hi - 0xD800) * 0x400 + (lo - 0xDC00)), rest)
      else none
    | _ => none
  else if 0xDC00 ≤ hi ∧ hi < 0xE000 then none
  else return (Char.ofNat hi, rest)

/-- The escaped character behind a backslash. -/
def readEscape? : List Char → Option (Char × List Char)
  | 'n' :: rest => some ('\n', rest)
  | 't' :: rest => some ('\t', rest)
  | 'r' :: rest => some ('\r', rest)
  | 'b' :: rest => some ('\x08', rest)
  | 'f' :: rest => some ('\x0c', rest)
  | '/' :: rest => some ('/', rest)
  | '\\' :: rest => some ('\\', rest)
  | '"' :: rest => some ('"', rest)
  | 'u' :: rest => readUnicode? rest
  | _ => none

/-- The characters of a string up to its closing quote, and the rest of the text. -/
def readChars? : Nat → List Char → List Char → Option (String × List Char)
  | 0, _, _ => none
  | fuel + 1, acc, cs =>
    match cs with
    | [] => none
    | '"' :: rest => some (String.ofList acc.reverse, rest)
    | '\\' :: rest => do
      let (c, rest) ← readEscape? rest
      readChars? fuel (c :: acc) rest
    | c :: rest => readChars? fuel (c :: acc) rest

/-- The value of a run of decimal digits. -/
def digitsValue (cs : List Char) : Nat :=
  cs.foldl (fun n c => n * 10 + (c.toNat - '0'.toNat)) 0

/-- The sign and the digits of an exponent. -/
def readExponent? (cs : List Char) : Option (Int × List Char) :=
  let (negative, cs) :=
    match cs with
    | '-' :: rest => (true, rest)
    | '+' :: rest => (false, rest)
    | _ => (false, cs)
  let digits := cs.takeWhile Char.isDigit
  if digits.isEmpty then none
  else
    let n : Int := digitsValue digits
    some (if negative then -n else n, cs.dropWhile Char.isDigit)

/--
Digits appended to a significand as long as it stays within `Number.maxInt`, and the
number of digits left out from the first that does not fit.
-/
def appendDigits : Nat → List Char → Nat × Nat
  | n, [] => (n, 0)
  | n, c :: cs =>
    let next := n * 10 + (c.toNat - '0'.toNat)
    if (next : Int) ≤ Number.maxInt then appendDigits next cs else (n, cs.length + 1)

/--
The number with these digits. Digits left out before the point raise the exponent;
those left out behind it do not count.
-/
def numberOf? (negative : Bool) (whole fraction : List Char) (exponent : Option Int) :
    Option Number :=
  let (n, dropped) := appendDigits 0 whole
  let signed : Int := if negative then -(n : Int) else n
  if fraction.isEmpty && exponent.isNone && dropped == 0 && !(negative && n == 0) &&
      decide (Number.minInt ≤ signed) then
    some (.int signed)
  else
    let (significand, ignored) := appendDigits n fraction
    let places : Int := (dropped : Int) - ((fraction.length : Int) - ignored)
    (Binary64.ofScaled? negative significand (exponent.getD 0 + places)).map .real

/-- A number at the head of the text. -/
def readNumber? (cs : List Char) : Option (Number × List Char) := do
  let (negative, cs) :=
    match cs with
    | '-' :: rest => (true, rest)
    | _ => (false, cs)
  let whole := cs.takeWhile Char.isDigit
  let cs := cs.dropWhile Char.isDigit
  if whole.isEmpty || (whole.length > 1 && whole.head? == some '0') then none
  let (fraction, cs) ←
    match cs with
    | '.' :: rest =>
      let digits := rest.takeWhile Char.isDigit
      if digits.isEmpty then none else some (digits, rest.dropWhile Char.isDigit)
    | _ => some ([], cs)
  let (exponent, cs) ←
    match cs with
    | 'e' :: rest => (readExponent? rest).map fun r => (some r.1, r.2)
    | 'E' :: rest => (readExponent? rest).map fun r => (some r.1, r.2)
    | _ => some (none, cs)
  (numberOf? negative whole fraction exponent).map fun n => (n, cs)

/-- Drop an expected word from the head of the text. -/
def dropWord? : List Char → List Char → Option (List Char)
  | [], cs => some cs
  | w :: ws, c :: cs => if w = c then dropWord? ws cs else none
  | _ :: _, [] => none

mutual

/-- A value at the head of the text. -/
def readValue? : Nat → List Char → Option (Json × List Char)
  | 0, _ => none
  | fuel + 1, cs =>
    match skipSpaces cs with
    | 'n' :: rest => (dropWord? ['u', 'l', 'l'] rest).map fun r => (null, r)
    | 't' :: rest => (dropWord? ['r', 'u', 'e'] rest).map fun r => (bool true, r)
    | 'f' :: rest => (dropWord? ['a', 'l', 's', 'e'] rest).map fun r => (bool false, r)
    | '"' :: rest => (readChars? (rest.length + 1) [] rest).map fun r => (str r.1, r.2)
    | '[' :: rest =>
      match skipSpaces rest with
      | ']' :: rest => some (arr [], rest)
      | _ => (readItems? fuel [] rest).map fun r => (arr r.1, r.2)
    | '\x7b' :: rest =>
      match skipSpaces rest with
      | '\x7d' :: rest => some (obj [], rest)
      | _ => (readFields? fuel [] rest).map fun r => (obj r.1, r.2)
    | cs => (readNumber? cs).map fun r => (num r.1, r.2)

/-- The members of an array up to its closing bracket, the latest first in `acc`. -/
def readItems? : Nat → List Json → List Char → Option (List Json × List Char)
  | 0, _, _ => none
  | fuel + 1, acc, cs =>
    match readValue? fuel cs with
    | none => none
    | some (x, rest) =>
      match skipSpaces rest with
      | ',' :: rest => readItems? fuel (x :: acc) rest
      | ']' :: rest => some ((x :: acc).reverse, rest)
      | _ => none

/-- The fields of an object up to its closing brace, collected in order of their names. -/
def readFields? :
    Nat → List (String × Json) → List Char → Option (List (String × Json) × List Char)
  | 0, _, _ => none
  | fuel + 1, acc, cs =>
    match skipSpaces cs with
    | '"' :: rest =>
      match readChars? (rest.length + 1) [] rest with
      | none => none
      | some (k, rest) =>
        match skipSpaces rest with
        | ':' :: rest =>
          match readValue? fuel rest with
          | none => none
          | some (x, rest) =>
            match skipSpaces rest with
            | ',' :: rest => readFields? fuel (insertField k x acc) rest
            | '\x7d' :: rest => some (insertField k x acc, rest)
            | _ => none
        | _ => none
    | _ => none

end

/-- The value of a JSON text. -/
def ofText? (text : String) : Option Json :=
  let cs := text.toList
  match readValue? (2 * cs.length + 1) cs with
  | some (j, rest) => if (skipSpaces rest).isEmpty then some j else none
  | none => none

end SagaMachine.Json
