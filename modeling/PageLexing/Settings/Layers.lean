import PageLexing.Settings
import PageLexing.Settings.KeyPath
import PageLexing.Settings.Toml
import PageLexing.Text.Utf8

/-!
# Settings in layers

Settings are gathered from layers: what holds by default, then settings files in order,
then single overrides, which come last wherever they were given. A file may be required
or optional; an optional one may be missing or hold no text, but not be malformed.

What the layers add up to is a table, and the settings are read from its entry `lexer`.
Files and overrides may write the values in several ways: numbers as texts or truth
values, texts as numbers, names in any case. Entries that mean nothing here are ignored.

## Main results

* `ofTable?_toTable` — settings that are written as a table are read back.
* `ofLayers_nil` — without layers the default settings hold.
-/

namespace PageLexing

namespace Variant

/-- The name of a variant. -/
def name : Variant → String
  | page => "page"
  | markup => "markup"

/-- The variant with a name, in any case. -/
def ofName? (text : String) : Option Variant :=
  [page, markup].find? (fun variant => variant.name == Settings.lowerText text)

@[simp] theorem ofName?_name (variant : Variant) : ofName? variant.name = some variant := by
  cases variant <;> decide

end Variant

namespace Settings

/-! ## Reading values -/

namespace Value

/-- A variant: its name, or a table whose only entry has that name. -/
def variant? : Value → Option Variant
  | text name => Variant.ofName? name
  | table [(name, _)] => Variant.ofName? name
  | _ => none

/-- The value of decimal digits, at least one, if it fits 64 bits. -/
def digits? (digits : List Char) : Option Nat :=
  if digits ≠ [] ∧ digits.all Char.isDigit ∧ Nat.ofDigitChars 10 digits 0 < UInt64.size then
    some (Nat.ofDigitChars 10 digits 0)
  else none

/-- A size: a natural number of 64 bits, or what can be taken for one. Floating-point
numbers are rounded, and truth values, also spelled out, are one and zero. -/
def size? : Value → Option Nat
  | integer n => n.toNat?.filter (· < UInt64.size)
  | bool value => some value.toNat
  | float value => some (value.toNatWithin (UInt64.size - 1))
  | text value =>
      let word := lowerText value
      if ["true", "on", "yes"].contains word then some 1
      else if ["false", "off", "no"].contains word then some 0
      else
        match word.toList with
        | '+' :: digits => digits? digits
        | digits => digits? digits
  | _ => none

/-- A text, or a number or truth value as it is printed. -/
def text? : Value → Option String
  | text value => some value
  | bool value => some (toString value)
  | integer n => some (toString n)
  | float value => some value.toText
  | _ => none

/-- The texts of an array. -/
def texts? : Value → Option (List String)
  | array elements => elements.mapM text?
  | _ => none

end Value

/-- The settings that three values mean. -/
def ofValues? (variant tagPrefixes chunkSize : Value) : Option Settings := do
  some ⟨← variant.variant?, ← tagPrefixes.texts?, ← chunkSize.size?⟩

/-- The settings that a table holds under `lexer`: each under its name, or one after the
other in an array, which may go on behind them. -/
def ofTable? (entries : Table) : Option Settings := do
  match ← entries.find? "lexer" with
  | .table lexer =>
      ofValues? (← Entries.find? "variant" lexer) (← Entries.find? "tag_prefixes" lexer)
        (← Entries.find? "chunk_size" lexer)
  | .array (variant :: tagPrefixes :: chunkSize :: _) => ofValues? variant tagPrefixes chunkSize
  | _ => none

/-- The table that holds given settings. -/
def toTable (settings : Settings) : Table :=
  [("lexer", .table
    [("variant", .text settings.variant.name),
      ("tag_prefixes", .array (settings.tagPrefixes.map Value.text)),
      ("chunk_size", .integer settings.chunkSize)])]

namespace Value

@[simp] theorem texts?_texts (texts : List String) :
    texts? (.array (texts.map text)) = some texts := by
  have key : (texts.map text).mapM text? = some texts := by
    induction texts with
    | nil => rfl
    | cons head rest ih =>
        rw [List.map_cons, List.mapM_cons, ih]
        rfl
  exact key

theorem size?_natCast {n : Nat} (h : n < UInt64.size) : size? (.integer (n : Int)) = some n := by
  have hnat : (n : Int).toNat? = some n := rfl
  simp only [size?, hnat, Option.filter, h, decide_true, if_true]

end Value

/-- Settings that are written as a table are read back. -/
theorem ofTable?_toTable {settings : Settings} (h : settings.chunkSize < UInt64.size) :
    ofTable? settings.toTable = some settings := by
  simp [ofTable?, ofValues?, toTable, Entries.find?, Value.variant?, Value.size?_natCast h]

/-! ## Layers -/

/-- A source of settings. -/
inductive Layer where
  /-- A file, without content if it does not exist. -/
  | file (required : Bool) (content : Option Bytes)
  /-- A value for a single key. -/
  | single (key : String) (value : Value)

/-- Why layers give no settings. -/
inductive LayerError where
  /-- An override has a key that is no key path. -/
  | malformedKey
  /-- A file is missing or malformed, or the table that the layers add up to holds no
  settings. -/
  | malformed
  /-- The settings are not valid. -/
  | invalid (cause : InvalidSettings)
deriving DecidableEq

namespace Layer

/-- Lays a table over another. A key of the incoming one may be a whole key path. -/
def overlayTable (incoming target : Table) : Table :=
  incoming.foldl (fun target entry =>
    match KeyPath.ofText? entry.1 with
    | some path => path.set entry.2 target
    | none => Value.overlay entry.1 entry.2 target) target

/-- Lays a file over a table; a layer of another kind changes nothing. An optional file that
is missing or holds no text counts as none. -/
def overlayFile (target : Table) : Layer → Except LayerError Table
  | file required content =>
      match content.bind Utf8.ofBytes? with
      | none => if required then .error .malformed else .ok target
      | some text =>
          match Toml.ofText? text with
          | some incoming => .ok (overlayTable incoming target)
          | none => .error .malformed
  | single _ _ => .ok target

/-- Adds a value for a path to others, in place of the one that the path had. -/
def setSingle (path : KeyPath) (value : Value) :
    List (KeyPath × Value) → List (KeyPath × Value)
  | [] => [(path, value)]
  | (other, old) :: rest =>
      if other = path then (path, value) :: rest
      else (other, old) :: setSingle path value rest

/-- The single values among layers, each path once. -/
def singles (layers : List Layer) : Except LayerError (List (KeyPath × Value)) :=
  layers.foldlM (fun found layer =>
    match layer with
    | file _ _ => .ok found
    | single key value =>
        match KeyPath.ofText? key with
        | some path => .ok (setSingle path value found)
        | none => .error .malformedKey) []

end Layer

/-- The settings that layers add up to. -/
def ofLayers (layers : List Layer) : Except LayerError Settings := do
  let singles ← Layer.singles layers
  let files ← layers.foldlM Layer.overlayFile default.toTable
  let table := singles.foldl (fun table entry => entry.1.set entry.2 table) files
  match ofTable? table with
  | none => .error .malformed
  | some settings =>
      match settings.validate with
      | .error cause => .error (.invalid cause)
      | .ok () => .ok settings

/-- Without layers the default settings hold. -/
theorem ofLayers_nil : ofLayers [] = .ok default := by
  have htable : ofTable? default.toTable = some default := ofTable?_toTable (by decide)
  have hvalid : default.validate = .ok () := (validate_eq_ok_iff _).mpr (by decide +kernel)
  simp [ofLayers, Layer.singles, htable, hvalid, pure, Except.pure, bind, Except.bind]

end Settings

end PageLexing
