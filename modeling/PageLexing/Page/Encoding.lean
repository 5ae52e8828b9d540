import PageLexing.Json.Reading
import PageLexing.Json.Record
import PageLexing.Page.State

/-!
# States as JSON

The state of a page, or of one of its languages, can be kept as a JSON text and read back
later. Every value of the types can be written; reading accepts a state in any of the
layouts of `Json.Record` and checks that its numbers fit: 64 bits for lengths, 32 for the
set of viable prefixes, 16 for token classes and 8 for bytes. Whether a run leads to the
state is not checked.
-/

namespace PageLexing

/-! ## Numbers -/

/-- A length, in 64 bits. -/
def Json.length? : Json → Option Nat := Json.nat? UInt64.size

/-- A byte. -/
def Json.byte? (json : Json) : Option UInt8 := (json.nat? UInt8.size).map UInt8.ofNat

/-- The JSON of a byte. -/
def Json.ofByte (b : UInt8) : Json := Json.ofNat b.toNat

/-! ## Markup -/

namespace Markup

/-- The name of a gap. -/
def Gap.name : Gap → String
  | tag => "Tag"
  | attr => "Attribute"
  | equals => "Equals"

def Gap.all : List Gap := [tag, attr, equals]

namespace State

/-- The name of a state, whatever it carries. -/
def name : State → String
  | content => "Content"
  | text => "Text"
  | afterLess => "AfterLt"
  | afterBang => "AfterLtBang"
  | afterBangDash => "AfterLtBangDash"
  | comment => "Comment"
  | commentDash => "CommentDash"
  | commentDashes => "CommentDashDash"
  | declaration => "Declaration"
  | charRef => "CharRef"
  | tagNameStart => "TagNameStart"
  | tagName => "TagName"
  | inTag => "InTag"
  | blank _ => "Blank"
  | attributeName => "AttrName"
  | afterAttribute => "AfterAttrName"
  | afterEquals => "AfterEquals"
  | quoted _ => "Quoted"
  | unquoted => "Unquoted"
  | afterSlash => "AfterSlash"
  | errorInTag => "ErrorInTag"

/-- The states that carry nothing. -/
def plain : List State :=
  [content, text, afterLess, afterBang, afterBangDash, comment, commentDash, commentDashes,
    declaration, charRef, tagNameStart, tagName, inTag, attributeName, afterAttribute,
    afterEquals, unquoted, afterSlash, errorInTag]

def toJson (state : State) : Json :=
  match state with
  | blank gap => .ofVariant state.name (.ofString gap.name)
  | quoted q => .ofVariant state.name (.ofByte q)
  | _ => .ofString state.name

def ofJson? (json : Json) : Option State :=
  (json.plain? plain name).or
    (((json.carried? "Blank" (Json.plain? Gap.all Gap.name)).map blank).or
      ((json.carried? "Quoted" Json.byte?).map quoted))

end State

end Markup

/-! ## Tags -/

namespace Tag

/-- The name of a gap. -/
def Gap.name : Gap → String
  | outside => "Outside"
  | directive => "Directive"
  | tag => "Tag"
  | attr => "Attribute"
  | equals => "Equals"

def Gap.all : List Gap := [outside, directive, tag, attr, equals]

namespace State

/-- The name of a state, whatever it carries. -/
def name : State → String
  | outside => "Init"
  | afterLess => "AfterLt"
  | afterPercent => "AfterLtPercent"
  | afterPercentDash => "AfterLtPercentDash"
  | directiveStart => "DirectiveStart"
  | tagNameStart => "TagNameStart"
  | tagName => "InTagName"
  | afterTagName => "AfterTagName"
  | attributeName => "InAttrName"
  | afterAttribute => "AfterAttrName"
  | afterEquals => "AfterEquals"
  | quoted _ => "InQuotedValue"
  | escaped _ => "InQuotedValueEscaped"
  | blank _ => "Blank"
  | closingSlash => "AfterEndSlash"
  | closingPercent => "AfterDirectiveEndPercent"
  | comment => "InComment"
  | commentDash => "InCommentDash"
  | commentDashes => "InCommentDashDash"
  | commentPercent => "InCommentDashDashPercent"
  | fragmentEnd => "EndOfFragment"
  | errorOutside => "ErrorOutside"
  | errorInTag => "ErrorInTag"

/-- The states that carry nothing. -/
def plain : List State :=
  [outside, afterLess, afterPercent, afterPercentDash, directiveStart, tagNameStart, tagName,
    afterTagName, attributeName, afterAttribute, afterEquals, closingSlash, closingPercent,
    comment, commentDash, commentDashes, commentPercent, fragmentEnd, errorOutside,
    errorInTag]

def toJson (state : State) : Json :=
  match state with
  | blank gap => .ofVariant state.name (.ofString gap.name)
  | quoted q | escaped q => .ofVariant state.name (.ofByte q)
  | _ => .ofString state.name

def ofJson? (json : Json) : Option State :=
  (json.plain? plain name).or
    (((json.carried? "Blank" (Json.plain? Gap.all Gap.name)).map blank).or
      (((json.carried? "InQuotedValue" Json.byte?).map quoted).or
        ((json.carried? "InQuotedValueEscaped" Json.byte?).map escaped)))

end State

end Tag

/-! ## Script -/

namespace Script.State

/-- The name of a state, whatever it carries. -/
def name : State → String
  | start => "Init"
  | blank => "Blank"
  | word => "Ident"
  | number => "Number"
  | quoted _ => "Quoted"
  | escaped _ => "QuotedEscape"
  | afterSlash => "AfterSlash"
  | lineComment => "LineComment"
  | blockComment => "BlockComment"
  | blockCommentStar => "BlockCommentStar"
  | operator _ => "Operator"

/-- The states that carry nothing. -/
def plain : List State :=
  [start, blank, word, number, afterSlash, lineComment, blockComment, blockCommentStar]

def toJson (state : State) : Json :=
  match state with
  | quoted b | escaped b | operator b => .ofVariant state.name (.ofByte b)
  | _ => .ofString state.name

def ofJson? (json : Json) : Option State :=
  (json.plain? plain name).or
    (((json.carried? "Quoted" Json.byte?).map quoted).or
      (((json.carried? "QuotedEscape" Json.byte?).map escaped).or
        ((json.carried? "Operator" Json.byte?).map operator)))

end Script.State

/-! ## Scans -/

namespace Scan

variable {σ : Type}

def toJson (write : σ → Json) (scan : Scan σ) : Json :=
  .ofFields [("state", write scan.state), ("prescan", .ofNat scan.read)]

def ofJson? (read : Json → Option σ) (json : Json) : Option (Scan σ) := do
  match ← json.fields? ["state", "prescan"] 0 with
  | [state, prescan] =>
      let state ← Json.required read state
      let prescan ← Json.required Json.length? prescan
      some ⟨state, prescan⟩
  | _ => none

end Scan

/-! ## Probes -/

namespace Token

def toJson (token : Token) : Json :=
  .ofFields [("id", .ofNat token.id), ("len", .ofNat token.len)]

def ofJson? (json : Json) : Option Token := do
  match ← json.fields? ["id", "len"] 0 with
  | [id, len] =>
      let id ← Json.required (Json.nat? UInt16.size) id
      let len ← Json.required Json.length? len
      some ⟨id, len⟩
  | _ => none

end Token

namespace Probe

/-- The name of a probe, whatever it carries. -/
def name : Probe → String
  | less => "Lt"
  | lessPercent => "LtPercent"
  | lessPercentDash => "LtPercentDash"
  | tagPrefix .. => "TagPrefix"
  | tagLess => "TagLt"
  | tagLessPercent => "TagLtPercent"
  | percent => "Percent"

/-- The probes that carry nothing. -/
def plain : List Probe := [less, lessPercent, lessPercentDash, tagLess, tagLessPercent, percent]

def toJson (probe : Probe) : Json :=
  match probe with
  | tagPrefix closing matched viable =>
      .ofVariant probe.name
        (.ofFields [("closing", .bool closing), ("matched", .ofNat matched),
          ("viable", .ofNat viable)])
  | _ => .ofString probe.name

/-- What the probe of a tag prefix carries. -/
def tagPrefixOfJson? (json : Json) : Option Probe := do
  match ← json.fields? ["closing", "matched", "viable"] 0 with
  | [closing, matched, viable] =>
      let closing ← Json.required Json.bool? closing
      let matched ← Json.required Json.length? matched
      let viable ← Json.required (Json.nat? UInt32.size) viable
      some (tagPrefix closing matched viable)
  | _ => none

def ofJson? (json : Json) : Option Probe :=
  (json.plain? plain name).or (json.carried? "TagPrefix" tagPrefixOfJson?)

end Probe

namespace Switch

def toJson : Switch → Json
  | enterTag => .ofString "EnterTag"
  | enterScript len => .ofVariant "EnterScript" (.ofFields [("len", .ofNat len)])
  | leaveScript len => .ofVariant "LeaveScript" (.ofFields [("len", .ofNat len)])

end Switch

namespace Page

namespace Lookahead

def toJson (lookahead : Lookahead) : Json :=
  .ofFields [("candidate", .ofOption Token.toJson lookahead.candidate),
    ("probe_at", .ofNat lookahead.probeAt), ("probe", lookahead.probe.toJson)]

def ofJson? (json : Json) : Option Lookahead := do
  match ← json.fields? ["candidate", "probe_at", "probe"] 0 with
  | [candidate, probeAt, probe] =>
      let candidate ← Json.nullable Token.ofJson? candidate
      let probeAt ← Json.required Json.length? probeAt
      let probe ← Json.required Probe.ofJson? probe
      some ⟨candidate, probeAt, probe⟩
  | _ => none

end Lookahead

/-! ## Pages -/

namespace State

def toJson (state : State) : Json :=
  .ofFields [("mode", .ofString state.nesting.name),
    ("host", state.host.toJson Markup.State.toJson),
    ("tag", .ofOption (Scan.toJson Tag.State.toJson) state.tag),
    ("script", .ofOption (Scan.toJson Script.State.toJson) state.script),
    ("lookahead", .ofOption Lookahead.toJson state.lookahead),
    ("prescan", .ofNat state.prescan),
    ("probed", .ofNat state.probed)]

/-- Where it is not said how far a token was searched, the search starts anew. -/
def ofJson? (json : Json) : Option State := do
  match ← json.fields?
      ["mode", "host", "tag", "script", "lookahead", "prescan", "probed"] 1 with
  | [mode, host, tag, script, lookahead, prescan, probed] =>
      let nesting ← Json.required (Json.plain? Nesting.all Nesting.name) mode
      let host ← Json.required (Scan.ofJson? Markup.State.ofJson?) host
      let tag ← Json.nullable (Scan.ofJson? Tag.State.ofJson?) tag
      let script ← Json.nullable (Scan.ofJson? Script.State.ofJson?) script
      let lookahead ← Json.nullable Lookahead.ofJson? lookahead
      let prescan ← Json.required Json.length? prescan
      let probed ← Json.defaulted 0 Json.length? probed
      some ⟨nesting, host, tag, script, lookahead, prescan, probed⟩
  | _ => none

/-- The state as a JSON text. -/
def toText (state : State) : String := state.toJson.toText

/-- The state that a JSON text holds. -/
def ofText? (text : String) : Option State := (Json.ofText? text).bind ofJson?

end State

end Page

end PageLexing
