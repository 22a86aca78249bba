import SagaMachine.Text.Blank
import SagaMachine.Text.Layout
import SagaMachine.Text.Quoted

/-!
# Settings

The settings of a middleware are read from named texts. A missing text leaves the
default; a flag is one of eight words, a size a natural number below 2^64, both
between any amount of blanks. `Settings.summary` writes the settings in a form that
`Settings.ofLookup` reads back.
-/

namespace SagaMachine

/-- The settings of a middleware. -/
structure Settings where
  /-- Report the faults of root and spawned tasks. -/
  logUncaught : Bool := true
  /-- The initial capacity of the channels that a middleware makes. -/
  expandingBufferInitial : Nat := 10
  /-- Warn when this many puts and dispatches are queued at once. -/
  queueWarnThreshold : Nat := 1000
deriving DecidableEq, Repr

/-- A setting whose text is not valid. -/
structure SettingsFault where
  key : String
  expected : String
  raw : String
deriving DecidableEq, Repr

/-- The wording of a settings fault. -/
def SettingsFault.message (f : SettingsFault) : String :=
  f.key ++ " must be " ++ f.expected ++ ", got " ++ Text.quote f.raw

namespace Settings

/-- The name of the flag setting. -/
def logUncaughtKey : String := "SAGAFLOW_LOG_UNCAUGHT"

/-- The name of the buffer setting. -/
def expandingBufferInitialKey : String := "SAGAFLOW_EXPANDING_BUFFER_INITIAL"

/-- The name of the threshold setting. -/
def queueWarnThresholdKey : String := "SAGAFLOW_QUEUE_WARN_THRESHOLD"

/-- The lower-case form of the letters `A` to `Z`; other characters stay as they are. -/
def lowerAscii (s : String) : String :=
  String.ofList (s.toList.map Char.toLower)

/-- The flag that a text denotes. -/
def flag? (raw : String) : Option Bool :=
  let word := lowerAscii (Text.trim raw)
  if ["1", "true", "yes", "on"].contains word then some true
  else if ["0", "false", "no", "off"].contains word then some false
  else none

/-- The number that decimal digits denote; at least one digit is needed. -/
def digits? (cs : List Char) : Option Nat :=
  if cs.isEmpty || !cs.all Char.isDigit then none
  else some (cs.foldl (fun n c => n * 10 + (c.toNat - '0'.toNat)) 0)

/-- The size that a text denotes: digits after at most one plus sign, below 2^64. -/
def size? (raw : String) : Option Nat :=
  let cs := Text.trimChars raw.toList
  let digits :=
    match cs with
    | '+' :: rest => rest
    | _ => cs
  (digits? digits).filter (· < 18446744073709551616)

/-- Read one setting: the default if it is missing, a fault if its text is not valid. -/
def read {α : Type} (lookup : String → Option String) (key expected : String)
    (parse : String → Option α) (default : α) : Except SettingsFault α :=
  match lookup key with
  | none => .ok default
  | some raw =>
    match parse raw with
    | some v => .ok v
    | none => .error ⟨key, expected, raw⟩

/-- Read the settings; the first setting that is not valid decides the fault. -/
def ofLookup (lookup : String → Option String) : Except SettingsFault Settings := do
  let defaults : Settings := {}
  let logUncaught ← read lookup logUncaughtKey "a boolean" flag? defaults.logUncaught
  let expandingBufferInitial ← read lookup expandingBufferInitialKey
    "a non-negative integer" size? defaults.expandingBufferInitial
  let queueWarnThreshold ← read lookup queueWarnThresholdKey
    "a non-negative integer" size? defaults.queueWarnThreshold
  return { logUncaught, expandingBufferInitial, queueWarnThreshold }

/-- The text of each setting under its name, in order. -/
def toPairs (s : Settings) : List (String × String) :=
  [(logUncaughtKey, Text.showBool s.logUncaught),
   (expandingBufferInitialKey, toString s.expandingBufferInitial),
   (queueWarnThresholdKey, toString s.queueWarnThreshold)]

/-- The lines that announce the settings. -/
def summary (s : Settings) : List String :=
  "Saga config loaded:" :: s.toPairs.map fun p => "  " ++ p.1 ++ ": " ++ p.2

end Settings

end SagaMachine
