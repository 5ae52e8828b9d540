import PageLexing.Page.Dialect
import PageLexing.Schedule

/-!
# Documents under edit

A document keeps its text, its tokens, and a *checkpoint* for every line: where the line
starts, which token is its first, and in which state it is lexed. Nothing before a line
can depend on what follows it, because every token and every probe is decided by the
newline at the latest.

After an edit, lexing restarts at the last line that starts at or before the edit. Behind
the edit, each line start of the new text that was one of the old text is compared: if
the state is the same, everything from there on is as it was, and lexing stops. So a
lexing pass is the same for a new document and for an edited one; only a pass over an
edited document has old checkpoints to meet.

## Main results

* `text_relex` — the text after a successful edit is the spliced text.
* `relex_eq_error_iff` — an edit is refused exactly if it does not fit the text.
-/

namespace PageLexing

/-! ## Edits -/

/-- The replacement of `removed` bytes at `offset` by other bytes. -/
structure Edit where
  offset : Nat
  removed : Nat
  inserted : Bytes
deriving DecidableEq

namespace Edit

/-- Inserts bytes at `offset`. -/
def insert (offset : Nat) (text : Bytes) : Edit := ⟨offset, 0, text⟩

/-- Replaces the bytes from `start` up to `stop`; none if `stop` is not behind `start`. -/
def replace (start stop : Nat) (text : Bytes) : Edit := ⟨start, stop - start, text⟩

/-- Removes the bytes from `start` up to `stop`. -/
def delete (start stop : Nat) : Edit := replace start stop []

/-- Where the removed bytes end in the old text. -/
def oldEnd (edit : Edit) : Nat := edit.offset + edit.removed

/-- Where the inserted bytes end in the new text. -/
def newEnd (edit : Edit) : Nat := edit.offset + edit.inserted.length

/-- The text after the edit. -/
def apply (edit : Edit) (text : Bytes) : Bytes :=
  text.take edit.offset ++ edit.inserted ++ text.drop edit.oldEnd

end Edit

/-- An edit that does not fit the text it is made to. -/
structure InvalidEdit where
  offset : Nat
  removed : Nat
  len : Nat
deriving DecidableEq

/-- The text under which an edit that does not fit is reported. -/
def InvalidEdit.message (invalid : InvalidEdit) : String :=
  "edit removing " ++ toString invalid.removed ++ " bytes at " ++ toString invalid.offset
    ++ " does not fit a document of " ++ toString invalid.len ++ " bytes"

/-! ## Checkpoints and reports -/

/-- The state in which a line is lexed. -/
structure Checkpoint where
  /-- Where the line starts. -/
  offset : Nat
  /-- How many tokens stand before it. -/
  tokenIndex : Nat
  state : Page.State
deriving DecidableEq

/-- The checkpoint of every text's first line. -/
def Checkpoint.first : Checkpoint := ⟨0, 0, Page.State.initial⟩

/-- A state compared with the old state of the same line. -/
structure Comparison where
  /-- Where the line starts in the new text. -/
  offset : Nat
  equal : Bool
deriving DecidableEq

/-- What lexing again after an edit amounted to. -/
structure RelexReport where
  restartOffset : Nat
  comparisons : List Comparison
  /-- Where the old tokens were found to go on unchanged, if anywhere. -/
  convergedAt : Option Nat
  /-- How many tokens were read. -/
  relexedTokens : Nat
deriving DecidableEq

/-! ## Passes -/

/-- What a lexing pass over the lines of a text brings. -/
structure Pass where
  tokens : List Token
  /-- The checkpoints of the lines behind the first. -/
  checkpoints : List Checkpoint
  comparisons : List Comparison
  /-- The old checkpoint whose state was met again, where the pass stopped. -/
  met : Option Checkpoint

namespace Pass

/-- A pass over nothing. -/
def empty : Pass := ⟨[], [], [], none⟩

/-- The pass that a token comes before. -/
def addToken (token : Token) (pass : Pass) : Pass :=
  { pass with tokens := token :: pass.tokens }

/-- The pass that a line start comes before. -/
def addCheckpoint (checkpoint : Checkpoint) (pass : Pass) : Pass :=
  { pass with checkpoints := checkpoint :: pass.checkpoints }

/-- The pass that a comparison with another outcome comes before. -/
def addDifference (offset : Nat) (pass : Pass) : Pass :=
  { pass with comparisons := ⟨offset, false⟩ :: pass.comparisons }

/-- Reads on, at most `fuel` tokens, with `tokenIndex` tokens before. At a line start for
which `old?` has a checkpoint the states are compared, and the pass stops if they are the
same. -/
def run (old? : Nat → Option Checkpoint) (reader : Reader Page.State) (tokenIndex : Nat) :
    (fuel : Nat) → Except Fault Pass
  | 0 => .ok empty
  | fuel + 1 => do
      let (token, reader) ← reader.next
      match token with
      | none => .ok empty
      | some token =>
          let tokenIndex := tokenIndex + 1
          if token.id = TokenId.endOfLine then
            let checkpoint : Checkpoint := ⟨reader.offset, tokenIndex, reader.store⟩
            match old? reader.offset with
            | none =>
                let rest ← run old? reader tokenIndex fuel
                .ok ((rest.addCheckpoint checkpoint).addToken token)
            | some old =>
                if old.state = checkpoint.state then
                  .ok ⟨[token], [checkpoint], [⟨reader.offset, true⟩], some old⟩
                else
                  let rest ← run old? reader tokenIndex fuel
                  .ok (((rest.addDifference reader.offset).addCheckpoint checkpoint).addToken
                    token)
          else
            let rest ← run old? reader tokenIndex fuel
            .ok (rest.addToken token)

/-- Lexes a text from a line start on. -/
def ofText (dialect : Dialect) (text : Bytes) (start : Checkpoint)
    (old? : Nat → Option Checkpoint) : Except Fault Pass := do
  let reader ← (Reader.new dialect.grammar).load (some start.state) text start.offset
    (text.length - start.offset) true
  run old? reader start.tokenIndex (text.length - start.offset + 1)

end Pass

/-! ## Documents -/

/-- A text with its tokens and checkpoints. -/
structure Document where
  dialect : Dialect
  text : Bytes
  tokens : List Token
  /-- A checkpoint for every line, in order; there always is a first line. -/
  checkpoints : List Checkpoint
deriving DecidableEq

namespace Document

/-- Lexes a text from scratch. -/
def lex (dialect : Dialect) (text : Bytes) : Except Fault Document := do
  let pass ← Pass.ofText dialect text .first (fun _ => none)
  .ok ⟨dialect, text, pass.tokens, .first :: pass.checkpoints⟩

/-- The tokens with their positions. -/
def spans (document : Document) : List Span := Span.ofTokens 0 document.tokens

/-- The checkpoints of the lines that start at or before `offset`. -/
def checkpointsUpTo (document : Document) (offset : Nat) : List Checkpoint :=
  document.checkpoints.takeWhile (fun checkpoint => checkpoint.offset ≤ offset)

/-- The old checkpoint that stands, after an edit, at `offset` of the new text; none before
the end of what was inserted. -/
def counterpart (document : Document) (edit : Edit) (offset : Nat) : Option Checkpoint :=
  if offset < edit.newEnd then none
  else
    document.checkpoints.find? (fun checkpoint =>
      checkpoint.offset = offset - edit.newEnd + edit.oldEnd)

/-- The old checkpoints behind `met`, moved to where they stand after an edit. -/
def movedCheckpoints (document : Document) (edit : Edit) (met : Checkpoint)
    (tokenIndex : Nat) : List Checkpoint :=
  (document.checkpoints.filter (fun checkpoint => met.offset < checkpoint.offset)).map
    (fun checkpoint =>
      { checkpoint with
        offset := checkpoint.offset - edit.oldEnd + edit.newEnd
        tokenIndex := checkpoint.tokenIndex - met.tokenIndex + tokenIndex })

/-- Whether an edit fits the text. -/
def Fits (document : Document) (edit : Edit) : Prop := edit.oldEnd ≤ document.text.length

instance (document : Document) (edit : Edit) : Decidable (document.Fits edit) :=
  inferInstanceAs (Decidable (_ ≤ _))

/-- The document that a pass from `start` on leads to. -/
def splice (document : Document) (edit : Edit) (start : Checkpoint) (pass : Pass) : Document :=
  let tokens := document.tokens.take start.tokenIndex ++ pass.tokens
  let checkpoints := document.checkpointsUpTo edit.offset ++ pass.checkpoints
  match pass.met with
  | none => ⟨document.dialect, edit.apply document.text, tokens, checkpoints⟩
  | some met =>
      ⟨document.dialect, edit.apply document.text,
        tokens ++ document.tokens.drop met.tokenIndex,
        checkpoints ++ document.movedCheckpoints edit met tokens.length⟩

/-- Applies an edit and lexes what it may have changed. -/
def relex (document : Document) (edit : Edit) :
    Except Fault (Except InvalidEdit (Document × RelexReport)) :=
  if document.Fits edit then do
    let start := ((document.checkpointsUpTo edit.offset).getLast?).getD .first
    let pass ← Pass.ofText document.dialect (edit.apply document.text) start
      (document.counterpart edit)
    let report : RelexReport := {
      restartOffset := start.offset
      comparisons := pass.comparisons
      convergedAt := if pass.met.isSome then pass.checkpoints.getLast?.map (·.offset) else none
      relexedTokens := pass.tokens.length }
    .ok (.ok (document.splice edit start pass, report))
  else .ok (.error ⟨edit.offset, edit.removed, document.text.length⟩)

/-- The text after a successful edit is the spliced text. -/
theorem text_relex {document edited : Document} {edit : Edit} {report : RelexReport}
    (h : document.relex edit = .ok (.ok (edited, report))) :
    edited.text = edit.apply document.text := by
  unfold relex at h
  split at h
  · simp only [bind, Except.bind] at h
    split at h
    · simp at h
    · simp only [Except.ok.injEq, Prod.mk.injEq] at h
      rw [← h.1]
      unfold splice
      dsimp only
      split <;> rfl
  · simp at h

/-- An edit is refused exactly if it does not fit the text. -/
theorem relex_eq_error_iff {document : Document} {edit : Edit} {invalid : InvalidEdit} :
    document.relex edit = .ok (.error invalid) ↔
      ¬ document.Fits edit ∧ invalid = ⟨edit.offset, edit.removed, document.text.length⟩ := by
  unfold relex
  split
  · rename_i hfits
    simp only [bind, Except.bind, hfits, not_true_eq_false, false_and, iff_false]
    split <;> simp
  · rename_i hfits
    simp [hfits, eq_comm]

end Document

end PageLexing
