import PageLexing.Settings.Value

/-!
# Key paths

A key path names a place inside a table of settings: a key, then any number of keys of
inner tables, each after a dot, and positions in arrays, each in square brackets. Negative
positions count from the end of the array.

Putting a value at a path makes room for it on the way: what is no table where a key is
looked up, or no array where a position is, is replaced by an empty one, and an array that
is too short is extended. At a key the value is laid over what is there; at a position it
replaces the element.
-/

namespace PageLexing.Settings

/-- One step of a key path. -/
inductive PathStep where
  | key (name : String)
  | index (position : Int)
deriving DecidableEq

/-- A place inside a table. -/
structure KeyPath where
  root : String
  steps : List PathStep
deriving DecidableEq

namespace KeyPath

/-! ## Reading -/

/-- A character of a key. -/
def isKeyChar (c : Char) : Bool := c.isAlphanum || c == ' ' || c == '_' || c == '-'

/-- A key in front of a text, in lower case. -/
def readKey (text : List Char) : Option (String × List Char) :=
  match text.span isKeyChar with
  | ([], _) => none
  | (name, rest) => some (lowerText (String.ofList name), rest)

/-- A position in brackets, after the opening one. It has to fit 64 bits. -/
def readIndex (text : List Char) : Option (Int × List Char) := do
  let isSpace (c : Char) : Bool := c == ' ' || c == '\t'
  let text := text.dropWhile isSpace
  let (negative, text) := match text with
    | '-' :: rest => (true, rest)
    | _ => (false, text)
  let (digits, rest) := text.span Char.isDigit
  let magnitude := Nat.ofDigitChars 10 digits 0
  let position : Int := if negative then -(magnitude : Int) else magnitude
  match digits, rest.dropWhile isSpace with
  | _ :: _, ']' :: rest =>
      if Int64.minValue.toInt ≤ position ∧ position ≤ Int64.maxValue.toInt then
        some (position, rest)
      else none
  | _, _ => none

/-- The steps of a path behind its root. -/
def readSteps : (fuel : Nat) → List Char → Option (List PathStep)
  | 0, _ => none
  | fuel + 1, text =>
      match text with
      | [] => some []
      | '.' :: rest => do
          let (name, rest) ← readKey rest
          let steps ← readSteps fuel rest
          some (.key name :: steps)
      | '[' :: rest => do
          let (position, rest) ← readIndex rest
          let steps ← readSteps fuel rest
          some (.index position :: steps)
      | _ => none

/-- The path that a text names. Upper and lower case are the same. -/
def ofText? (text : String) : Option KeyPath := do
  let (root, rest) ← readKey text.toList
  let steps ← readSteps (rest.length + 1) rest
  some ⟨root, steps⟩

/-! ## Putting values in place -/

/-- The element that a position of an array of `length` elements means. -/
def element (length : Nat) (position : Int) : Nat :=
  if 0 ≤ position then position.toNat else ((length : Int) + position).toNat

/-- An array with at least `length` elements. -/
def extended (elements : List Value) (length : Nat) : List Value :=
  elements ++ List.replicate (length - elements.length) .nil

/-- Puts a value at the place that `steps` name inside `target`. -/
def place (value : Value) : (steps : List PathStep) → (target : Value) → Value
  | [], _ => value
  | [.key name], target => .table (Value.overlay name value target.entries)
  | .key name :: steps, target =>
      let entries := target.entries
      .table (Entries.insert name (place value steps ((Entries.find? name entries).getD .nil))
        entries)
  | .index position :: steps, target =>
      let elements := target.elements
      let index := element elements.length position
      let elements := extended elements (index + 1)
      .array (elements.set index (place value steps (elements[index]?.getD .nil)))

/-- Puts a value at a path of a table. -/
def set (path : KeyPath) (value : Value) (table : Table) : Table :=
  (place value (.key path.root :: path.steps) (.table table)).entries

end KeyPath

end PageLexing.Settings
