import PageLexing.Page.Dialect
import PageLexing.Schedule

/-!
# Settings

What can be set for the lexing of pages: the variant, the tag prefixes, and the size of
the windows in which whole texts are lexed. Settings are valid if there are at most 32
prefixes, each a letter followed by letters, digits, `_`, `.` and `-`, and if windows are
not empty; of several faults the first of these is reported, and of several bad prefixes
the first in the list.

## Main results

* `validate_eq_ok_iff` — what valid settings are.
* `delimiters_eq_ofPrefixes` — the prefixes of valid settings can be kept apart.
-/

namespace PageLexing

/-- The settings of a lexer of pages. -/
structure Settings where
  variant : Variant
  tagPrefixes : List String
  chunkSize : Nat
deriving DecidableEq

/-- Why settings are not valid. -/
inductive InvalidSettings where
  | invalidTagPrefix (text : String)
  | tooManyTagPrefixes (count : Nat)
  | zeroChunkSize
deriving DecidableEq

/-- The text under which invalid settings are reported. -/
def InvalidSettings.message : InvalidSettings → String
  | invalidTagPrefix text =>
      "invalid tag prefix `" ++ text
        ++ "`: expected a letter followed by letters, digits, `_`, `-` or `.`"
  | tooManyTagPrefixes count =>
      toString count ++ " tag prefixes configured, at most 32 are supported"
  | zeroChunkSize => "chunk size must be positive"

namespace Settings

/-- The settings that hold where nothing else is said. -/
def default : Settings := ⟨.page, ["tpl"], 4096⟩

/-- Whether a character may stand in a tag prefix behind the first. -/
def isPrefixChar (c : Char) : Bool :=
  c.isAlphanum || c == '_' || c == '.' || c == '-'

/-- Whether a text is a tag prefix. -/
def isTagPrefix (text : String) : Bool :=
  match text.toList with
  | [] => false
  | first :: rest => first.isAlpha && rest.all isPrefixChar

/-- Checks settings. -/
def validate (settings : Settings) : Except InvalidSettings Unit :=
  if 32 < settings.tagPrefixes.length then
    .error (.tooManyTagPrefixes settings.tagPrefixes.length)
  else
    match settings.tagPrefixes.find? (fun text => ! isTagPrefix text) with
    | some bad => .error (.invalidTagPrefix bad)
    | none => if settings.chunkSize = 0 then .error .zeroChunkSize else .ok ()

theorem validate_eq_ok_iff (settings : Settings) :
    settings.validate = .ok () ↔
      settings.tagPrefixes.length ≤ 32 ∧ (∀ text ∈ settings.tagPrefixes, isTagPrefix text) ∧
        0 < settings.chunkSize := by
  unfold validate
  split
  · rename_i h
    simp only [reduceCtorEq, false_iff]
    omega
  · rename_i h
    split
    · rename_i bad hfind
      have hbad : isTagPrefix bad = false := by simpa using List.find?_some hfind
      simp only [reduceCtorEq, false_iff, not_and]
      intro _ hall
      simp [hall bad (List.mem_of_find?_eq_some hfind)] at hbad
    · rename_i hfind
      have hall : ∀ text ∈ settings.tagPrefixes, isTagPrefix text = true := by
        intro text hmem
        simpa using List.find?_eq_none.mp hfind text hmem
      split
      · rename_i hzero
        simp [hzero]
      · rename_i hzero
        simp only [true_iff]
        exact ⟨Nat.le_of_not_lt h, hall, Nat.pos_of_ne_zero hzero⟩

/-- The tag prefixes as they stand in a page. -/
def prefixBytes (settings : Settings) : List Bytes :=
  settings.tagPrefixes.map Bytes.ofString

/-- The delimiters of valid settings. -/
def delimiters (settings : Settings) : Except InvalidSettings Delimiters :=
  match h : settings.validate with
  | .error invalid => .error invalid
  | .ok () =>
      .ok ⟨settings.prefixBytes, by
        simpa [prefixBytes] using ((validate_eq_ok_iff settings).mp h).1⟩

/-- The dialect of valid settings. -/
def dialect (settings : Settings) : Except InvalidSettings Dialect :=
  settings.delimiters.map (Dialect.ofVariant settings.variant)

/-- A lexer for valid settings, over nothing yet. -/
def lexer (settings : Settings) : Except InvalidSettings (Reader Page.State) :=
  settings.dialect.map (fun dialect => Reader.new dialect.grammar)

/-- Lexes a text in windows of the set size, if the settings are valid. -/
def tokenize (settings : Settings) (source : Bytes) :
    Except Fault (Except InvalidSettings (List Span)) :=
  match settings.dialect with
  | .error invalid => .ok (.error invalid)
  | .ok dialect =>
      (dialect.grammar.lexChunked source settings.chunkSize).map
        (fun lexed => .ok (Span.ofTokens 0 lexed.1))

theorem delimiters_eq_ofPrefixes {settings : Settings} {delimiters : Delimiters}
    (h : settings.delimiters = .ok delimiters) :
    Delimiters.ofPrefixes settings.prefixBytes = .ok delimiters := by
  unfold Settings.delimiters at h
  split at h
  · simp at h
  · cases h
    rename_i hvalid
    have hlen : settings.prefixBytes.length ≤ 32 := by
      simpa [prefixBytes] using ((validate_eq_ok_iff settings).mp hvalid).1
    simp [Delimiters.ofPrefixes, hlen]

end Settings

end PageLexing
