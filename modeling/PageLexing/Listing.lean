import PageLexing.Schedule
import PageLexing.Text.Quoted
import PageLexing.Text.Utf8

/-!
# Listings of tokens

A listing shows one token a line: the name of its class, a space, and the text it covers
between quotes.
-/

namespace PageLexing.Listing

/-- The line of one token. A class without a name is shown as a question mark. -/
def line (name? : TokenId → Option String) (source : Bytes) (span : Span) : String :=
  (name? span.token.id).getD "?" ++ " "
    ++ String.ofList (Quoted.quote (Utf8.decode (span.text source)))

/-- The lines of the tokens of a text. -/
def render (name? : TokenId → Option String) (source : Bytes) (spans : List Span) : String :=
  "\n".intercalate (spans.map (line name? source))

end PageLexing.Listing
