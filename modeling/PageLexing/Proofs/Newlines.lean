import PageLexing.Proofs.Delimiters
import PageLexing.Proofs.Reading
import PageLexing.Proofs.Sublanguages

/-!
# Newlines in tokens

A newline is a token of its own, in whatever language it stands, and no other token has a
newline: it ends the tokens of an automaton, a token that is cut short is a part of one of
these, and no script delimiter is spelled with one. The prefixes of a dialect do not matter
here, since their delimiters are no tokens.

## Main results

* `Automaton.keepsLines_of_step` — the tokens of one language respect the lines.
* `Dialect.keepsLines_of_step` — the tokens of a page do, too.
-/

namespace PageLexing

/-- A token with the bytes `word` respects the lines: it is the token of a newline and covers
one, or it has a kind of some language and no newline. -/
def Token.KeepsLines (token : Token) (word : Bytes) : Prop :=
  token = Token.endOfLine ∧ word = [Byte.newline] ∨
    TokenId.firstKind ≤ token.id ∧ Byte.newline ∉ word

/-- The token of a newline that comes next respects the lines. -/
theorem Token.keepsLines_endOfLine {text : Bytes} (h : text.head? = some Byte.newline) :
    Token.endOfLine.KeepsLines (text.take Token.endOfLine.len) := by
  obtain ⟨ahead, rfl⟩ := List.head?_eq_some_iff.mp h
  exact Or.inl ⟨rfl, rfl⟩

/-! ## One language -/

namespace Automaton

variable {σ κ : Type} [Automaton σ κ] [TokenKind κ] [Boundaries σ]

/-- The tokens of an automaton respect the lines. -/
theorem keepsLines_of_step (hkind : ∀ kind : κ, TokenId.firstKind ≤ TokenKind.id kind)
    {text : Bytes} {base next : Scan σ} {token : Token} (h : Starts text base)
    (hstep : Scan.step (View.whole text) base = .ok (.token token next)) :
    token.KeepsLines (text.take token.len) := by
  rw [← Scan.atBoundary_state h.1] at hstep
  rcases Scan.newline_of_step hstep with ⟨rfl, hhead⟩ | hnone
  · exact Token.keepsLines_endOfLine hhead
  · rcases Scan.id_of_step (yields_true σ) hstep with ⟨rfl, hhead⟩ | ⟨kind, -, hid⟩
    · exact Token.keepsLines_endOfLine hhead
    · exact Or.inr ⟨hid ▸ hkind kind, hnone⟩

end Automaton

/-! ## Pages -/

namespace Page

variable {dialect : Dialect} {text : Bytes} {base next : State} {token : Token}

/-- The languages of a page have no structural classes. -/
theorem firstKind_le_of_languageOf? {id : TokenId} {language : Language}
    (h : languageOf? id = some language) : TokenId.firstKind ≤ id := by
  match id with
  | 0 => exact absurd h (by cases language <;> decide)
  | 1 => exact absurd h (by cases language <;> decide)
  | id + 2 => exact Nat.le_add_left _ _

/-- A script delimiter has no newline. -/
theorem keepsLines_of_delimits (h : Delimits dialect.delimiters text base token next) :
    token.KeepsLines (text.take token.len) := by
  refine Or.inr ⟨?_, ?_⟩
  · rw [h.id]
    decide
  · rcases h.nesting with ⟨hopens, -⟩ | ⟨hcloses, -⟩
    · exact Delimiters.newline_notMem_of_spelled?
        (Delimiters.spelled?_of_delimiter? hopens nofun) (Or.inl rfl)
    · exact Delimiters.newline_notMem_of_spelled?
        (Delimiters.spelled?_of_delimiter? hcloses nofun) (Or.inr rfl)

/-- A token that the active language reads is a newline or has none. -/
theorem keepsLines_of_scans (h : Scans dialect text base token next) :
    token.KeepsLines (text.take token.len) := by
  rcases h.id with ⟨rfl, hhead⟩ | ⟨howner, -⟩
  · exact Token.keepsLines_endOfLine hhead
  · rcases h.line with rfl | hnone
    · rw [show Token.endOfLine.id = TokenId.endOfLine from rfl, languageOf?_endOfLine] at howner
      cases howner
    · exact Or.inr ⟨firstKind_le_of_languageOf? howner, hnone⟩

end Page

/-- The tokens of a page respect the lines. -/
theorem Dialect.keepsLines_of_step {dialect : Dialect} {text : Bytes} {base next : Page.State}
    {token : Token} (h : base.Ready text)
    (hstep : dialect.step (View.whole text) base = .ok (.token token next)) :
    token.KeepsLines (text.take token.len) := by
  have hne := dialect.resumption.ne_nil_of_step h hstep
  obtain ⟨inner, -, -, hdelimits | hscans⟩ := exists_reads h hne hstep
  · exact Page.keepsLines_of_delimits hdelimits
  · exact Page.keepsLines_of_scans hscans

end PageLexing
