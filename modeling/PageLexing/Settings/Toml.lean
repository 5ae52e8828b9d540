import PageLexing.Settings.Toml.Moment
import PageLexing.Settings.Toml.Scalar
import PageLexing.Settings.Toml.Tree

/-!
# TOML files

Settings files are written in TOML: lines that assign a value to a key, under headers that
name the table the keys belong to. A file is malformed if a line is, or if it defines
anything twice. Dates and times stand for their texts.

Nesting is limited: no value is nested in arrays and inline tables as deep as `maxDepth`, and
no dotted key has that many parts.
-/

namespace PageLexing.Settings.Toml

/-! ## Keys -/

/-- A character of a key without quotes. -/
def isBareKeyChar (c : Char) : Bool := c.isAlphanum || c == '_' || c == '-'

/-- One part of a key. -/
def readKeyPart (text : List Char) : Option (String × List Char) :=
  match text with
  | '"' :: rest => (readBasic (text.length + 1) rest).map
      (fun found => (String.ofList found.1, found.2))
  | '\'' :: rest => (readLiteral rest).map (fun found => (String.ofList found.1, found.2))
  | _ =>
      match text.span isBareKeyChar with
      | ([], _) => none
      | (name, rest) => some (String.ofList name, rest)

/-- How many parts of a dotted key, or arrays and inline tables inside each other, are too
many. -/
def maxDepth : Nat := 80

/-- A key of at most `count` parts, from the first on, and the blanks behind it. -/
def readParts : (count : Nat) → List Char → Option ((List String × String) × List Char)
  | 0, _ => none
  | count + 1, text => do
      let (part, rest) ← readKeyPart (skipBlanks text)
      match skipBlanks rest with
      | '.' :: rest =>
          let ((path, key), rest) ← readParts count rest
          some ((part :: path, key), rest)
      | rest => some (([], part), rest)

/-- A key. -/
def readKey (text : List Char) : Option ((List String × String) × List Char) :=
  readParts (maxDepth - 1) text

/-! ## Values -/

/-- The text behind a comment, if one is in front. -/
def skipComment : List Char → Option (List Char)
  | '#' :: rest =>
      let (comment, rest) := rest.span (fun c => c != '\n' && c != '\r')
      if comment.any isControl then none else some rest
  | text => some text

/-- Skips blanks, newlines and comments, as they may stand inside an array. -/
def skipFill : (fuel : Nat) → List Char → Option (List Char)
  | 0, _ => none
  | fuel + 1, text => do
      let rest ← skipComment (skipBlanks text)
      match newline? rest with
      | some rest => skipFill fuel rest
      | none => some rest

/-- A character of a value that is one word. -/
def isWordChar (c : Char) : Bool :=
  c.isAlphanum || c == '+' || c == '-' || c == '_' || c == '.'

mutual

/-- A value, with room for `depth` arrays and inline tables inside each other. -/
def readValue : (fuel depth : Nat) → List Char → Option (Value × List Char)
  | 0, _, _ => none
  | fuel + 1, depth, text =>
      match text, depth with
      | '[' :: _, 0 => none
      | '\x7b' :: _, 0 => none
      | '[' :: rest, depth + 1 => do
          let (elements, rest) ← readElements fuel depth rest
          some (.array elements, rest)
      | '\x7b' :: rest, depth + 1 =>
          match skipBlanks rest with
          | '\x7d' :: rest => some (.table [], rest)
          | rest => do
              let (node, rest) ← readEntries fuel depth rest .empty
              some (node.toValue, rest)
      | _, _ =>
          match readString text with
          | some read => read.map (fun found => (.text (String.ofList found.1), found.2))
          | none =>
              match readMoment text with
              | some (moment, rest) => some (.text (String.ofList moment.toText), rest)
              | none => do
                  let (word, rest) := text.span isWordChar
                  let value ← word? word
                  some (value, rest)

/-- The elements of an array behind its opening bracket or a comma. -/
def readElements : (fuel depth : Nat) → List Char → Option (List Value × List Char)
  | 0, _, _ => none
  | fuel + 1, depth, text => do
      match ← skipFill (text.length + 1) text with
      | ']' :: rest => some ([], rest)
      | text =>
          let (head, rest) ← readValue fuel depth text
          match ← skipFill (rest.length + 1) rest with
          | ']' :: rest => some ([head], rest)
          | ',' :: rest =>
              let (elements, rest) ← readElements fuel depth rest
              some (head :: elements, rest)
          | _ => none

/-- The entries of an inline table, added to those already read. -/
def readEntries : (fuel depth : Nat) → List Char → Node → Option (Node × List Char)
  | 0, _, _, _ => none
  | fuel + 1, depth, text, node => do
      let ((path, key), rest) ← readKey text
      match rest with
      | '=' :: rest =>
          let (value, rest) ← readValue fuel depth (skipBlanks rest)
          let node ← node.define path key value
          match skipBlanks rest with
          | '\x7d' :: rest => some (node, rest)
          | ',' :: rest => readEntries fuel depth rest node
          | _ => none
      | _ => none

end

/-! ## Lines -/

/-- A line of a file. -/
inductive Line where
  | blank
  /-- A header: the table that the lines after it belong to. -/
  | table (path : List String) (key : String)
  /-- A header that adds a table to an array. -/
  | item (path : List String) (key : String)
  | entry (path : List String) (key : String) (value : Value)

/-- The content of a line. -/
def readLine (text : List Char) : Option (Line × List Char) :=
  match skipBlanks text with
  | '[' :: '[' :: rest => do
      let ((path, key), rest) ← readKey rest
      match rest with
      | ']' :: ']' :: rest => some (.item path key, rest)
      | _ => none
  | '[' :: rest => do
      let ((path, key), rest) ← readKey rest
      match rest with
      | ']' :: rest => some (.table path key, rest)
      | _ => none
  | text =>
      if text = [] ∨ text.head? = some '#' ∨ (newline? text).isSome then some (.blank, text)
      else do
        let ((path, key), rest) ← readKey text
        match rest with
        | '=' :: rest =>
            let (value, rest) ← readValue (rest.length + 1) (maxDepth - 1) (skipBlanks rest)
            some (.entry path key value, rest)
        | _ => none

/-- The lines of a file. -/
def readLines? : (fuel : Nat) → List Char → Option (List Line)
  | 0, _ => none
  | fuel + 1, text => do
      let (line, rest) ← readLine text
      let rest ← skipComment (skipBlanks rest)
      match rest, newline? rest with
      | [], _ => some [line]
      | _, some rest =>
          let lines ← readLines? fuel rest
          some (line :: lines)
      | _, none => none

/-- The table that the lines of a file define, with `header` leading to the table they
belong to. -/
def collect : (lines : List Line) → (header : List String) → Node → Option Node
  | [], _, node => some node
  | .blank :: lines, header, node => collect lines header node
  | .table path key :: lines, _, node => do
      let node ← node.openTable path key
      collect lines (path ++ [key]) node
  | .item path key :: lines, _, node => do
      let node ← node.openItem path key
      collect lines (path ++ [key]) node
  | .entry path key value :: lines, header, node => do
      let node ← node.change false (Node.define path key value) header
      collect lines header node

/-- The table that a file defines; none if the file is malformed. A byte order mark in
front is skipped. -/
def ofText? (text : List Char) : Option Table := do
  let text := match text with
    | '\ufeff' :: rest => rest
    | _ => text
  let lines ← readLines? (text.length + 1) text
  let node ← collect lines [] .empty
  match node.toValue with
  | .table entries => some entries
  | _ => none

end PageLexing.Settings.Toml
