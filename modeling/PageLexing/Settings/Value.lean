import PageLexing.Binary64

/-!
# Values of settings

The values that a settings file or an override can hold. Tables are lists of entries with
distinct keys; the order of the entries has no meaning. Keys are stored in lower case.

One value is laid over another entry by entry: a table is merged into the table it meets,
and anything else replaces what was there. An empty table therefore changes nothing,
whatever it meets, while a table with entries turns what is no table into one.

## Main results

* `find?_insert` — an entry is found under its key, and the others are left alone.
-/

namespace PageLexing.Settings

/-! ## Entries -/

/-- Entries by key. Of several with one key, the first counts. -/
abbrev Entries (α : Type) := List (String × α)

namespace Entries

variable {α : Type}

/-- What stands under a key. -/
def find? (key : String) : Entries α → Option α
  | [] => none
  | (name, entry) :: rest => if name = key then some entry else find? key rest

/-- Puts something under a key, in place of what the key had. -/
def insert (key : String) (entry : α) : Entries α → Entries α
  | [] => [(key, entry)]
  | (name, old) :: rest =>
      if name = key then (key, entry) :: rest else (name, old) :: insert key entry rest

theorem find?_insert (key other : String) (entry : α) (entries : Entries α) :
    find? other (insert key entry entries) =
      if key = other then some entry else find? other entries := by
  induction entries with
  | nil => simp [insert, find?]
  | cons head rest ih =>
      simp only [insert]
      split
      · simp only [find?]
        grind
      · simp only [find?, ih]
        grind

end Entries

/-! ## Values -/

/-- A value of a settings file. -/
inductive Value where
  | nil
  | bool (value : Bool)
  | integer (value : Int)
  | float (value : Binary64)
  | text (value : String)
  | array (elements : List Value)
  | table (entries : List (String × Value))

/-- The entries of a table. -/
abbrev Table := Entries Value

/-! ## Keys -/

/-- A character in lower case. Outside ASCII only the Kelvin sign matters here: it is the
one other character whose lower case is an ASCII letter. -/
def lowerChar (c : Char) : Char := if c = '\u212a' then 'k' else c.toLower

/-- A text in lower case, as far as it is compared with ASCII. -/
def lowerText (text : String) : String := String.ofList (text.toList.map lowerChar)

/-! ## Laying one value over another -/

namespace Value

/-- The entries of a table; what is no table gives way to an empty one. -/
def entries : Value → Table
  | table entries => entries
  | _ => []

/-- The elements of an array; what is no array gives way to an empty one. -/
def elements : Value → List Value
  | array elements => elements
  | _ => []

mutual

/-- Lays `value` over the entry `key` of `target`. -/
def overlay (key : String) : (value : Value) → (target : Table) → Table
  | .table incoming, target =>
      let key := lowerText key
      target.insert key (overlayAll incoming ((target.find? key).getD (.table [])))
  | value, target => target.insert (lowerText key) value

/-- Lays the entries of a table over `target`. -/
def overlayAll : (incoming : List (String × Value)) → (target : Value) → Value
  | [], target => target
  | (key, value) :: rest, target =>
      overlayAll rest (.table (overlay key value target.entries))

end

end Value

end PageLexing.Settings
