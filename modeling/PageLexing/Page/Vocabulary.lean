import PageLexing.Markup
import PageLexing.Tag
import PageLexing.Script
import PageLexing.Vocabulary

/-!
# The vocabulary of a page

The token kinds of the three languages in one number space: markup first and unshifted,
then tags, then script. Kinds of tags and of script whose names markup (or tags) already
uses are shown under the name of their language as well.

## Main results

* `handle_host` — the numbers of markup are not shifted.
* `languageOf?_globalId` — a kind's number in the page tells its language.
-/

namespace PageLexing.Page

/-- The lexicon of each language. -/
def lexicon : Language → Lexicon
  | .host => Lexicon.ofKinds Markup.Kind
  | .tag => Lexicon.ofKinds Tag.Kind
  | .script => Lexicon.ofKinds Script.Kind

private def withHost : Vocabulary × Handle := Vocabulary.empty.register (lexicon .host)

private def withTag : Vocabulary × Handle := withHost.1.register (lexicon .tag)

private def withScript : Vocabulary × Handle := withTag.1.register (lexicon .script)

/-- Where each language stands in the number space. -/
def handle : Language → Handle
  | .host => withHost.2
  | .tag => withTag.2
  | .script => withScript.2

/-- The vocabulary of all pages. -/
def vocabulary : Vocabulary :=
  (withScript.1.separate (handle .tag) (lexicon .tag)).separate (handle .script)
    (lexicon .script)

/-- The number in the page of class `id` of `language`. -/
def globalId (language : Language) (id : TokenId) : TokenId := (handle language).toGlobal id

/-- The language that a number belongs to. -/
def languageOf? (id : TokenId) : Option Language :=
  (vocabulary.resolve id).bind (fun owner => Language.all[owner.1]?)

theorem handle_host : handle .host = ⟨0, 0⟩ := rfl

/-- The number of script delimiters. -/
def delimiterId : TokenId := globalId .tag Tag.Kind.scriptDelimiter.id

/-- A kind's number in the page tells its language. -/
theorem languageOf?_globalId {language : Language} {id : TokenId}
    (h : id ∈ Vocabulary.kindIds (lexicon language)) :
    languageOf? (globalId language id) = some language := by
  revert id
  cases language <;> decide

/-- No other kind has the number of script delimiters. -/
theorem globalId_eq_delimiterId_iff {language : Language} {id : TokenId}
    (h : id ∈ Vocabulary.kindIds (lexicon language)) :
    globalId language id = delimiterId ↔
      language = .tag ∧ id = Tag.Kind.scriptDelimiter.id := by
  revert id
  cases language <;> decide

end PageLexing.Page
