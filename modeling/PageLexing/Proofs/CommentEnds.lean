import PageLexing.Proofs.Terminators

/-!
# Where the comments of one language end

Markup and script have comments that go over any number of lines: from `<!--` to the first `-->`
behind it, and from `/*` to the first `*/`. The terminator stands wholly behind the opener, so
`<!-->`, `<!--->` and `/*/` only open a comment. One that is never closed goes on to the end of the
text, and is no error.

The states of either automaton inside a comment stand for ends of what was read with which the
terminator begins, so both automata seek it. Read on its own, a language gives the tokens of its
automaton.

## Main results

* `Markup.commentSeeker`, `Script.commentSeeker` — the automata seek the end of a comment.
* `Seeker.readsComment` — what a language reads in a text that begins with a comment.
* `comments_close_first` — comments of markup and of script close at the first terminator.
-/

namespace PageLexing

open Automaton Byte

/-! ## The automata inside a comment -/

namespace Markup

/-- What opens a comment. -/
def opener : Bytes := [less, bang, dash, dash]

/-- What closes a comment. -/
def terminator : Bytes := [dash, dash, greater]

/-- What a state inside a comment has read of its end. -/
def terminatorRead? : State → Option Bytes
  | .comment => some []
  | .commentDash => some [dash]
  | .commentDashes => some [dash, dash]
  | _ => none

/-- Inside a comment the automaton falls back to the longest end of what was read with which the
terminator begins: of a run of dashes the last two count. -/
theorem fallsBack : FallsBack terminatorRead? terminator Kind.comment State.content
    State.comment [(.comment, []), (.commentDash, [dash]), (.commentDashes, [dash, dash])] where
  mem {s m} h := by cases s <;> cases h <;> decide
  read_of_mem := by decide
  read_idle := rfl
  foreign {s m b} h hb := by
    have hnot : b ≠ dash ∧ b ≠ greater := by
      simpa [terminator] using hb
    refine consume_of_transition ?_
    show transition s b = (.comment, .continue)
    cases s <;> cases h <;> simp [transition, hnot]
  last := by decide +kernel
  longest := by decide +kernel

/-- The automaton of markup seeks the end of a comment. -/
def commentSeeker : Seeker State where
  word := terminator
  kind := .comment
  closed := .content
  matched := terminatorRead?
  ne_nil := by decide
  newline_notMem := by decide
  closes h _ hends := fallsBack.consume_of_suffix (by decide) h hends
  grows h _ hends := fallsBack.consume_of_not_suffix h hends
  settles {s m} h := by cases s <;> first | rfl | cases h
  atLineEnd {s m} h := by cases s <;> first | rfl | cases h
  atEndOfInput {s m} h := by cases s <;> first | rfl | cases h
  refine _ := rfl

end Markup

namespace Script

/-- What opens a comment that may go over several lines. -/
def opener : Bytes := [slash, star]

/-- What closes it. -/
def terminator : Bytes := [star, slash]

/-- What a state inside a comment has read of its end. -/
def terminatorRead? : State → Option Bytes
  | .blockComment => some []
  | .blockCommentStar => some [star]
  | _ => none

/-- Inside a comment the automaton falls back to the longest end of what was read with which the
terminator begins: of a run of stars the last one counts. -/
theorem fallsBack : FallsBack terminatorRead? terminator Kind.comment State.start
    State.blockComment [(.blockComment, []), (.blockCommentStar, [star])] where
  mem {s m} h := by cases s <;> cases h <;> decide
  read_of_mem := by decide
  read_idle := rfl
  foreign {s m b} h hb := by
    have hnot : b ≠ star ∧ b ≠ slash := by
      simpa [terminator] using hb
    refine consume_of_transition ?_
    show transition s b = (.blockComment, .continue)
    cases s <;> cases h <;> simp [transition, hnot]
  last := by decide +kernel
  longest := by decide +kernel

/-- The automaton of scripts seeks the end of a comment. -/
def commentSeeker : Seeker State where
  word := terminator
  kind := .comment
  closed := .start
  matched := terminatorRead?
  ne_nil := by decide
  newline_notMem := by decide
  closes h _ hends := fallsBack.consume_of_suffix (by decide) h hends
  grows h _ hends := fallsBack.consume_of_not_suffix h hends
  settles {s m} h := by cases s <;> first | rfl | cases h
  atLineEnd {s m} h := by cases s <;> first | rfl | cases h
  atEndOfInput {s m} h := by cases s <;> first | rfl | cases h
  refine _ := rfl

end Script

/-! ## Languages on their own -/

variable {σ κ : Type} [Automaton σ κ] [TokenKind κ]

/-- How a language on its own reads a comment that `opener` begins, and the text `w` behind it. -/
structure ReadsComment (content : σ) (comment error : κ) (opener terminator w : Bytes)
    (passages : List (Passage (Scan σ))) : Prop where
  /-- Up to the first terminator in `w` the comment goes line by line, and behind it the language
  reads on from `content`. -/
  closed : ∀ place, FirstAt terminator w 0 place →
    ∃ inside rest final, passages = inside ++ rest ∧
      Span.ByLine (opener ++ w) (TokenKind.id comment) 0
        (opener.length + place + terminator.length) (inside.map Passage.span) ∧
      (grammar σ κ).Path (opener ++ w) (opener.length + place + terminator.length)
        (Scan.atBoundary content) rest (opener ++ w).length final
  /-- Without a terminator the comment goes line by line to the end of the text. -/
  unclosed : (∀ place, ¬ terminator <+: w.drop place) →
    Span.ByLine (opener ++ w) (TokenKind.id comment) 0 (opener ++ w).length
        (passages.map Passage.span) ∧
      ∀ passage ∈ passages, passage.token.id ≠ TokenKind.id error

/-- What occurs first in a text occurs first behind another text. -/
theorem FirstAt.append_left {word w : Bytes} {place : Nat} (front : Bytes)
    (h : FirstAt word w 0 place) :
    FirstAt word (front ++ w) front.length (front.length + place) where
  le := Nat.le_add_right _ _
  occurs := by
    rw [List.drop_length_add_append]
    exact h.occurs
  first before hle hlt := by
    obtain ⟨less, rfl⟩ := Nat.exists_eq_add_of_le hle
    rw [List.drop_length_add_append]
    exact h.first less (Nat.zero_le _) (Nat.lt_of_add_lt_add_left hlt)

/-- Comments and newlines are no errors. -/
theorem Span.ByLine.ne_error {source : Bytes} {id error : TokenId} {start stop : Nat}
    {spans : List Span} (h : ByLine source id start stop spans)
    (herror : error ≠ TokenId.endOfLine ∧ error ≠ id) {span : Span} (hmem : span ∈ spans) :
    span.token.id ≠ error := by
  by_cases hline : span.token.id = TokenId.endOfLine
  · rw [hline]
    exact herror.1.symm
  · rw [(h.run span hmem hline).1]
    exact herror.2.symm

namespace Seeker

variable [Boundaries σ] {seeker : Seeker σ} {opener w : Bytes} {s : σ}

/-- A language on its own is read by its automaton. -/
theorem hosted_alone (seeker : Seeker σ) (hid : TokenKind.id seeker.kind ≠ TokenId.endOfLine) :
    seeker.Hosted (resumption σ κ) (TokenKind.id seeker.kind) Scan.atBoundary
      (Scan.atBoundary seeker.closed) where
  ne := hid
  newline _ _ hhead := Scan.step_of_newline hhead
  follows _ _ := ⟨fun hstep _ => hstep, fun hstep => hstep⟩

/-- The bytes of `opener` open, at the start of a text, what the seeker closes: they lead to a state
in which nothing of the word was read. -/
structure OpensWith (seeker : Seeker σ) (opener : Bytes) : Prop where
  pos : 0 < opener.length
  inLine : newline ∉ opener
  leads : ∃ s, seeker.matched s = some [] ∧ ∀ w,
    Scan.step (View.whole (opener ++ w)) (Scan.atBoundary (initial : σ)) =
      Scan.step (View.whole (opener ++ w)) ⟨s, opener.length⟩

/-- What a language on its own reads in a text that begins with a comment. -/
theorem readsComment (hopener : seeker.OpensWith opener) {error : κ}
    (hid : TokenKind.id seeker.kind ≠ TokenId.endOfLine)
    (herror : TokenKind.id error ≠ TokenId.endOfLine ∧
      TokenKind.id error ≠ TokenKind.id seeker.kind)
    {passages : List (Passage (Scan σ))} {final : Scan σ}
    (hpath : (grammar σ κ).Path (opener ++ w) 0 (grammar σ κ).initial passages
      (opener ++ w).length final) (hfinal : (resumption σ κ).Ready [] final) :
    ReadsComment seeker.closed seeker.kind error opener seeker.word w passages := by
  obtain ⟨hpos, hline, s, hs, hleads⟩ := hopener
  have hhosted := hosted_alone seeker hid
  have hready := (resumption σ κ).initial ((opener ++ w).drop 0)
  have hopening : Opening seeker (grammar σ κ) (TokenKind.id seeker.kind) Scan.atBoundary
      (Scan.atBoundary seeker.closed) ((opener ++ w).drop 0) (grammar σ κ).initial s
      opener.length := by
    rw [List.drop_zero]
    refine ⟨hpos, ?_, ?_, seeks_nil hs, ?_⟩
    · rw [List.length_append]
      exact Nat.le_add_right _ _
    · rwa [List.take_left]
    · exact ⟨fun hstep _ => (hleads w).trans hstep, fun hstep => (hleads w).trans hstep⟩
  constructor
  · intro place hplace
    have hfirst := hplace.append_left opener
    rw [← Nat.zero_add opener.length] at hfirst
    obtain ⟨inside, -, -, hinside, hlines, -⟩ :=
      hhosted.closedAt_of_opening hpath hready hopening hfirst
    obtain ⟨rest, hsplit, hrest⟩ := (resumption σ κ).rest_of_path hinside hpath hfinal
    rw [Nat.zero_add] at hlines hrest
    exact ⟨inside, rest, final, hsplit, hlines, hrest⟩
  · intro hnone
    obtain ⟨hlines, -⟩ := hhosted.unclosed_of_opening hpath hready hopening (by
      intro place hle
      rw [Nat.zero_add] at hle
      obtain ⟨less, rfl⟩ := Nat.exists_eq_add_of_le hle
      rw [List.drop_length_add_append]
      exact hnone less)
    exact ⟨hlines, fun passage hmem => hlines.ne_error herror (List.mem_map_of_mem hmem)⟩

end Seeker

/-! ## Comments of markup and of script -/

theorem Markup.opensWith_opener : Markup.commentSeeker.OpensWith Markup.opener where
  pos := by decide
  inLine := by decide
  leads := ⟨.comment, rfl, fun _ => rfl⟩

theorem Script.opensWith_opener : Script.commentSeeker.OpensWith Script.opener where
  pos := by decide
  inLine := by decide
  leads := ⟨.blockComment, rfl, fun _ => rfl⟩

/-- A comment with which a text of markup or of script begins closes at the first terminator behind
its opener, or not at all. -/
theorem comments_close_first (w : Bytes) :
    (∃ passages, (grammar Markup.State Markup.Kind).Lexes (Markup.opener ++ w) passages ∧
        ReadsComment Markup.State.content Markup.Kind.comment Markup.Kind.error Markup.opener
          Markup.terminator w passages) ∧
      ∃ passages, (grammar Script.State Script.Kind).Lexes (Script.opener ++ w) passages ∧
        ReadsComment Script.State.start Script.Kind.comment Script.Kind.error Script.opener
          Script.terminator w passages := by
  constructor
  · obtain ⟨passages, final, hlexes, hpath, hfinal⟩ :=
      (resumption Markup.State Markup.Kind).exists_lexes (Markup.opener ++ w)
    exact ⟨passages, hlexes, Seeker.readsComment Markup.opensWith_opener (by decide) (by decide)
      hpath hfinal⟩
  · obtain ⟨passages, final, hlexes, hpath, hfinal⟩ :=
      (resumption Script.State Script.Kind).exists_lexes (Script.opener ++ w)
    exact ⟨passages, hlexes, Seeker.readsComment Script.opensWith_opener (by decide) (by decide)
      hpath hfinal⟩

/-- The dashes of an opener do not close the comment. -/
example : ((grammar Markup.State Markup.Kind).lexWhole (Bytes.ofString "<!--->-->a")).map Prod.fst
    = .ok [⟨Markup.Kind.comment.id, 9⟩, ⟨Markup.Kind.text.id, 1⟩] := by decide +kernel

end PageLexing
