import PageLexing.Settings.Value

/-!
# Tables under construction

A TOML file defines its tables piece by piece, and no piece may be defined twice. So while
a file is read, each table remembers how it came about: *implicit* if so far it was only
mentioned on the way to an inner table, and *dotted* if a dotted key created it. An
implicit table may still get a header of its own, once; a dotted one never, and dotted
keys in turn add to no table that has a header. Tables given inline are closed.
-/

namespace PageLexing.Settings.Toml

/-- A table of a file that is being read, or what stands in one. -/
inductive Node where
  | leaf (content : Value)
  | table (implicit dotted : Bool) (entries : List (String × Node))
  /-- The tables of an array, each with a header of its own. -/
  | tables (items : List Node)

namespace Node

/-- A table with a header and no entries. -/
def empty : Node := .table false false []

/-- Changes the table that `path` leads to. Tables on the way are created; in an array of
tables the way leads through the last. Dotted keys lead through no table that has a
header. -/
def change (viaDots : Bool) (f : Node → Option Node) : (path : List String) → Node → Option Node
  | [], node => f node
  | key :: path, .table implicit dotted entries =>
      match Entries.find? key entries with
      | none => do
          let inner ← change viaDots f path (.table true viaDots [])
          some (.table implicit dotted (Entries.insert key inner entries))
      | some (.leaf _) => none
      | some (.table innerImplicit innerDotted innerEntries) =>
          if viaDots ∧ ¬ innerImplicit then none
          else do
            let inner ← change viaDots f path (.table innerImplicit innerDotted innerEntries)
            some (.table implicit dotted (Entries.insert key inner entries))
      | some (.tables items) =>
          match items.getLast? with
          | none => none
          | some item => do
              let item ← change viaDots f path item
              some (.table implicit dotted
                (Entries.insert key (.tables (items.dropLast ++ [item])) entries))
  | _ :: _, _ => none

/-- Defines `key`, reached by the dotted `path`, in a table. -/
def define (path : List String) (key : String) (value : Value) (node : Node) : Option Node :=
  change (! path.isEmpty) (fun
    | .table implicit dotted entries =>
        if dotted = path.isEmpty ∨ (Entries.find? key entries).isSome then none
        else some (.table implicit dotted (Entries.insert key (.leaf value) entries))
    | _ => none) path node

/-- Gives the table `key`, reached by `path`, its header. -/
def openTable (path : List String) (key : String) (node : Node) : Option Node :=
  change false (fun
    | .table implicit dotted entries =>
        match Entries.find? key entries with
        | none => some (.table implicit dotted (Entries.insert key .empty entries))
        | some (.table true false inner) =>
            some (.table implicit dotted (Entries.insert key (.table false false inner) entries))
        | some _ => none
    | _ => none) path node

/-- Adds a table to the array `key`, reached by `path`. -/
def openItem (path : List String) (key : String) (node : Node) : Option Node :=
  change false (fun
    | .table implicit dotted entries =>
        match Entries.find? key entries with
        | none => some (.table implicit dotted (Entries.insert key (.tables [.empty]) entries))
        | some (.tables items) =>
            some (.table implicit dotted (Entries.insert key (.tables (items ++ [.empty])) entries))
        | some _ => none
    | _ => none) path node

mutual

/-- The value of a finished table. -/
def toValue : Node → Value
  | .leaf content => content
  | .table _ _ entries => .table (entriesToValues entries)
  | .tables items => .array (itemsToValues items)

/-- The values of the entries of a finished table. -/
def entriesToValues : List (String × Node) → List (String × Value)
  | [] => []
  | (key, node) :: rest => (key, toValue node) :: entriesToValues rest

/-- The values of the items of a finished array. -/
def itemsToValues : List Node → List Value
  | [] => []
  | node :: rest => toValue node :: itemsToValues rest

end

end Node

end PageLexing.Settings.Toml
