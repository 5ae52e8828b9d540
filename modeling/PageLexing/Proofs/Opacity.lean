import PageLexing.Proofs.Candidates
import PageLexing.Proofs.Exactness
import PageLexing.Proofs.Terminators

/-!
# Tag comments are opaque

A tag comment starts where markup comes upon `<%--` and goes on to the first `--%>` behind these
four bytes, over any number of lines. Whatever else is between them is not looked at: no delimiter
changes the language there, and the page is in its tag until the comment is closed.

The automaton of tags has four states inside a comment. Each stands for an end of what was read
with which `--%>` begins, so the automaton is one that seeks this word.

## Main results

* `Tag.commentSeeker` — the automaton of tags seeks the end of a comment.
* `Page.attempt_of_comment` — a tag comment is the token of the page, whatever is in it.
* `Dialect.comments_opaque` — the comments of every page.
-/

namespace PageLexing

/-! ## The automaton inside a comment -/

namespace Tag

open Automaton Byte

/-- What closes a comment. -/
def terminator : Bytes := [dash, dash, percent, greater]

/-- What a state inside a comment has read of its end. -/
def terminatorRead? : State → Option Bytes
  | .comment => some []
  | .commentDash => some [dash]
  | .commentDashes => some [dash, dash]
  | .commentPercent => some [dash, dash, percent]
  | _ => none

variable {s : State} {m : Bytes}

/-- A state inside a comment leaves the fragment open. -/
theorem ne_fragmentEnd_of_terminatorRead? (h : terminatorRead? s = some m) : s ≠ .fragmentEnd := by
  rintro rfl
  cases h

/-- Inside a comment the automaton falls back to the longest end of what was read with which the
terminator begins: of a run of dashes the last two count. -/
theorem fallsBack : FallsBack terminatorRead? terminator Kind.comment State.fragmentEnd
    State.comment [(.comment, []), (.commentDash, [dash]), (.commentDashes, [dash, dash]),
      (.commentPercent, [dash, dash, percent])] where
  mem {s m} h := by cases s <;> cases h <;> decide
  read_of_mem := by decide
  read_idle := rfl
  foreign {s m b} h hb := by
    have hnot : b ≠ dash ∧ b ≠ percent ∧ b ≠ greater := by
      simpa [terminator] using hb
    refine consume_of_transition ?_
    show transition s b = (.comment, .continue)
    cases s <;> cases h <;> simp [transition, hnot]
  last := by decide +kernel
  longest := by decide +kernel

/-- The automaton of tags seeks the end of a comment. -/
def commentSeeker : Seeker State where
  word := terminator
  kind := .comment
  closed := .fragmentEnd
  matched := terminatorRead?
  ne_nil := by decide
  newline_notMem := by decide
  closes h _ hends := fallsBack.consume_of_suffix (by decide) h hends
  grows h _ hends := fallsBack.consume_of_not_suffix h hends
  settles {s m} h := by cases s <;> first | rfl | cases h
  atLineEnd {s m} h := by cases s <;> first | rfl | cases h
  atEndOfInput {s m} h := by cases s <;> first | rfl | cases h
  refine _ := rfl

/-- What opens a comment. -/
def opener : Bytes := [less, percent, dash, dash]

/-- Behind its opening a comment begins. -/
theorem step_of_opener {text : Bytes} (h : opener <+: text) :
    Scan.step (View.whole text) (Scan.atBoundary State.outside) =
      Scan.step (View.whole text) ⟨.comment, 4⟩ := by
  obtain ⟨rest, rfl⟩ := h
  rfl

end Tag

/-! ## Comments as tokens of a page -/

namespace Page

open Tag

variable {dialect : Dialect} {text : Bytes} {base state : State} {scan other : Scan Tag.State}
  {found : Token}

/-- A tag comment is the token of the page: it is not searched for delimiters. -/
theorem attempt_of_comment {after : Scan Tag.State} (h : base.Ready text)
    (hactive : base.active = .ok (.tag scan))
    (hstep : Scan.step (View.whole text) scan = .ok (.token found after))
    (hid : found.id = Tag.Kind.comment.id) {step : Step State}
    (hcommit : commit base found (.tag after) = .ok step) :
    dialect.attempt (View.whole text) base = .ok (.step step) := by
  have hwhole : (Frame.tag scan).step (View.whole text) = .ok (.token found (.tag after)) := by
    rw [Frame.step, hstep]
    rfl
  obtain ⟨finding, hholds, hattempt⟩ := exists_finding dialect h hactive hwhole
  have hclear := eq_clear_of_holds hholds (fun hsearched =>
    absurd ⟨found, after, hwhole, hid⟩ hsearched.2)
  rw [hattempt, hclear]
  simp only [conclude, hcommit, bind, Except.bind]

/-- The state behind a fragment. -/
def behindFragment (base : State) : State := { base.fresh with nesting := .host, tag := none }

/-- The state in a fragment whose language stands at `s`. -/
def inFragment (base : State) (s : Tag.State) : State := base.between (.tag (Scan.atBoundary s))

/-- A page reads a comment as the automaton of tags does. -/
theorem follows_of_tag (h : state.Ready text) (hactive : state.active = .ok (.tag scan))
    (hnesting : state.nesting = .hostTag)
    (hsame : ∀ frame, frame.language = .tag → state.between frame = base.between frame)
    (hscan : Scan.step (View.whole text) scan = Scan.step (View.whole text) other) :
    Seeker.Follows commentSeeker dialect.grammar commentId (inFragment base)
      (behindFragment base) text state other := by
  constructor
  · intro seen t len hstep hseeks
    obtain ⟨m, hm, -⟩ := hseeks.matched
    have hcommit := @commit_of_open state (.tag (Scan.atBoundary t))
      (ne_fragmentEnd_of_terminatorRead? hm) ⟨Tag.Kind.comment.id, len⟩
    rw [hsame _ rfl] at hcommit
    exact Dialect.step_of_attempt (attempt_of_comment h hactive (hscan.trans hstep) rfl hcommit)
  · intro len hstep
    have hcommit : commit state ⟨Tag.Kind.comment.id, len⟩ (.tag (Scan.atBoundary .fragmentEnd)) =
        .ok (.token ⟨commentId, len⟩ { state.between (.tag (Scan.atBoundary .fragmentEnd)) with
          nesting := .host, tag := none }) := by
      simp only [commit, hnesting]
      rfl
    rw [hsame _ rfl] at hcommit
    exact Dialect.step_of_attempt (attempt_of_comment h hactive (hscan.trans hstep) rfl hcommit)

/-- A newline inside a fragment is a token of its own. -/
theorem attempt_of_newline {s : Tag.State}
    (h : (inFragment base s).Ready text) (hnesting : base.nesting = .hostTag)
    (hopen : Automaton.settle s ≠ Tag.State.fragmentEnd)
    (hhead : text.head? = some Byte.newline) :
    dialect.attempt (View.whole text) (inFragment base s) =
      .ok (.step (.token Token.endOfLine (inFragment base (Automaton.settle s)))) := by
  have hactive : (inFragment base s).active = .ok (.tag (Scan.atBoundary s)) :=
    State.active_between (by rw [hnesting]; rfl)
  have hwhole : (Frame.tag (Scan.atBoundary s)).step (View.whole text) =
      .ok (.token Token.endOfLine (.tag (Scan.atBoundary (Automaton.settle s)))) := by
    rw [Frame.step, Scan.step_of_newline hhead]
    rfl
  have hfree : Free dialect.delimiters .tag text 0 1 := by
    obtain ⟨rest, rfl⟩ := List.head?_eq_some_iff.mp hhead
    intro offset _ hlt
    rw [Nat.lt_one_iff.mp hlt, List.drop_zero]
    exact Delimiters.delimiter?_of_start (Delimiters.start_newline .tag)
  have hbetween : (inFragment base s).between (.tag (Scan.atBoundary (Automaton.settle s))) =
      inFragment base (Automaton.settle s) := State.between_between base rfl
  rw [attempt_of_clear h hactive hwhole (fun _ => hfree) hopen, hbetween]
  rfl

/-- Inside a fragment a page reads comments as the automaton of tags does. -/
theorem hosted_comments (dialect : Dialect) (hnesting : base.nesting = .hostTag) :
    Seeker.Hosted commentSeeker dialect.resumption commentId (inFragment base)
      (behindFragment base) where
  ne := by decide
  newline hseeks hready hhead := by
    obtain ⟨m, hm, -⟩ := hseeks.matched
    exact Dialect.step_of_attempt (attempt_of_newline hready hnesting
      (ne_fragmentEnd_of_terminatorRead? (commentSeeker.settles hm)) hhead)
  follows {seen text s} _ hready :=
    follows_of_tag hready (State.active_between (by rw [hnesting]; rfl)) hnesting
      (fun _ hlanguage => State.between_between base hlanguage) rfl

/-! ## Openings -/

/-- The state in a fragment that has just been opened. -/
def opened (base : State) : State :=
  { base.fresh with nesting := .hostTag, tag := some (Scan.atBoundary Automaton.initial) }

/-- A fragment is opened in the host. -/
theorem attempt_of_enterTag (hswitching : dialect.switching = true) (h : base.Ready text)
    (hhost : base.nesting = .host)
    (hdelimiter : dialect.delimiters.delimiter? .host text = some .enterTag) :
    dialect.attempt (View.whole text) base = .ok (.opened (opened base)) ∧
      (opened base).Ready text := by
  obtain ⟨byte, ahead, htext, hbyte⟩ := Delimiters.head_of_delimiter? hdelimiter
  have hpos : 0 < text.length := by
    rw [htext]
    exact Nat.succ_pos _
  have hactive : base.active = .ok (.host base.host) := by
    rw [State.active, hhost]
    rfl
  have hsearched : Searched dialect text (.host base.host) := by
    refine ⟨hswitching, fun hcomments => ?_⟩
    obtain ⟨tag, htag⟩ := tag_of_comments hcomments
    cases htag
  have hchange : change base .enterTag = .ok (.opened (opened base)) := by
    simp only [change, hhost]
    rfl
  have hattempt : dialect.attempt (View.whole text) base = change base .enterTag := by
    rcases Frame.step_of_ready text.length true (h.of_active hactive).1 (Nat.le_refl _)
      (fun _ => rfl) with ⟨held, -, -, -, hzero⟩ | ⟨found, after, -, hwhole, hlen, -, -, -⟩
    · have := hzero rfl
      omega
    · exact attempt_of_delimiter h hactive hwhole hsearched hlen hdelimiter
  obtain ⟨outcome, houtcome, hadvances⟩ := @advances_change text text.length base .enterTag byte h
    (by rw [htext]; rfl) hbyte hpos (by rw [hhost]; rfl)
  rw [hchange] at houtcome hattempt
  cases houtcome
  exact ⟨hattempt, hadvances.2⟩

/-- What opens a comment opens a fragment. -/
theorem spelled?_of_opener (prefixes : List Bytes) (h : opener <+: text) :
    Delimiters.spelled? prefixes .host text = some .enterTag := by
  rw [Delimiters.spelled?]
  exact if_pos (Or.inr h)

theorem delimiter?_of_opener (delimiters : Delimiters) (h : opener <+: text) :
    delimiters.delimiter? .host text = some .enterTag := by
  rw [← spelled?_of_opener delimiters.prefixes h]
  obtain ⟨rest, rfl⟩ := h
  exact Delimiters.delimiter?_host_percent _

/-- Where markup comes upon the opening of a comment, the comment is read at once. -/
theorem opening_of_opener (hswitching : dialect.switching = true) (h : base.Ready text)
    (hhost : base.nesting = .host) (hopener : opener <+: text) :
    Seeker.Opening commentSeeker dialect.grammar commentId (inFragment (opened base))
      (behindFragment (opened base)) text base .comment 4 where
  pos := by decide
  le := hopener.length_le
  inLine := by
    obtain ⟨rest, rfl⟩ := hopener
    exact (by decide : Byte.newline ∉ opener)
  seeks := Seeker.seeks_nil rfl
  follows := by
    obtain ⟨hattempt, hready⟩ :=
      attempt_of_enterTag hswitching h hhost (delimiter?_of_opener dialect.delimiters hopener)
    have hfollows : Seeker.Follows commentSeeker dialect.grammar commentId
        (inFragment (opened base)) (behindFragment (opened base)) text (opened base)
        ⟨.comment, 4⟩ :=
      follows_of_tag hready rfl rfl (fun _ _ => rfl) (step_of_opener hopener)
    have hstep : dialect.grammar.step (View.whole text) base =
        dialect.grammar.step (View.whole text) (opened base) := Dialect.step_of_opened hattempt
    exact ⟨fun hfound hseeks => hstep.trans (hfollows.opened hfound hseeks),
      fun hfound => hstep.trans (hfollows.closes hfound)⟩

/-! ## Comments of a page -/

/-- The number of a token that one of the languages could not read. -/
def IsError (id : TokenId) : Prop :=
  id = globalId .host Markup.Kind.error.id ∨ id = globalId .tag Tag.Kind.error.id ∨
    id = globalId .script Script.Kind.error.id

/-- The passages from `start` on, where a comment begins, are tag comments and newlines, line by
line: up to the first `--%>` behind its opening, where the page is back in its markup, or to the
end of the text. -/
structure CommentOpaque (source : Bytes) (start : Nat) (passages : List (Passage State)) :
    Prop where
  closed : ∀ place, FirstAt terminator source (start + 4) place →
    ∃ inside behind, passages = inside ++ behind ∧
      Span.ByLine source commentId start (place + 4) (inside.map Passage.span) ∧
      ∀ passage ∈ inside, passage.after.nesting =
        if passage.span.stop = place + 4 then .host else .hostTag
  unclosed : (∀ place, start + 4 ≤ place → ¬ terminator <+: source.drop place) →
    Span.ByLine source commentId start source.length (passages.map Passage.span) ∧
      ∀ passage ∈ passages, passage.after.nesting = .hostTag ∧ ¬ IsError passage.token.id

variable {source : Bytes} {start : Nat} {passages : List (Passage State)} {final : State}

/-- Comments and newlines are no errors. -/
theorem not_isError_of_byLine {stop : Nat} {spans : List Span} {span : Span}
    (h : Span.ByLine source commentId start stop spans) (hmem : span ∈ spans) :
    ¬ IsError span.token.id := by
  by_cases hline : span.token.id = TokenId.endOfLine
  · rw [hline]
    rintro (herror | herror | herror) <;> exact absurd herror (by decide)
  · rw [(h.run span hmem hline).1]
    rintro (herror | herror | herror) <;> exact absurd herror (by decide)

/-- What is read from the opening of a comment on. -/
theorem commentOpaque_of_path (hswitching : dialect.switching = true)
    (hready : base.Ready (source.drop start)) (hhost : base.nesting = .host)
    (hopener : opener <+: source.drop start)
    (hpath : dialect.grammar.Path source start base passages source.length final) :
    CommentOpaque source start passages := by
  have hhosted := @hosted_comments (opened base) dialect rfl
  have hopening := opening_of_opener hswitching hready hhost hopener
  have hinside : ∀ t, (inFragment (opened base) t).nesting = .hostTag :=
    fun t => State.nesting_between (opened base) _
  constructor
  · intro place hplace
    obtain ⟨inside, behind, hsplit, -, hlines, hafter⟩ :=
      hhosted.closedAt_of_opening hpath hready hopening hplace
    rw [show commentSeeker.word.length = 4 from rfl] at hlines hafter
    refine ⟨inside, behind, hsplit, hlines, fun passage hmem => ?_⟩
    rcases hafter passage hmem with ⟨hstop, hclosed⟩ | ⟨hlt, t, hopen⟩
    · rw [if_pos hstop, hclosed]
      rfl
    · rw [if_neg (Nat.ne_of_lt hlt), hopen, hinside]
  · intro hnone
    obtain ⟨hlines, hafter⟩ := hhosted.unclosed_of_opening hpath hready hopening hnone
    refine ⟨hlines, fun passage hmem => ⟨?_, ?_⟩⟩
    · obtain ⟨t, hopen⟩ := hafter passage hmem
      rw [hopen, hinside]
    · exact not_isError_of_byLine hlines (List.mem_map_of_mem hmem)

/-- No token of markup goes over the opening of a comment. -/
theorem not_opener_of_exact {prefixes : List Bytes} {passage : Passage State}
    (h : Exact prefixes source passage) (hscanned : ScannedIn .host passage.token) {place : Nat}
    (hle : passage.start ≤ place) (hlt : place < passage.span.stop) :
    ¬ opener <+: source.drop place := by
  intro hopener
  have hcomment : passage.token.id ≠ commentId := by
    intro hid
    rcases hscanned.2 with hline | hlanguage
    · exact absurd (hid.symm.trans hline) (by decide)
    · rw [hid] at hlanguage
      exact absurd hlanguage (by decide)
  have hnone := h.clear .host hscanned hcomment place hle hlt
  rw [spelled?_of_opener prefixes hopener] at hnone
  cases hnone

end Page

namespace Dialect

open Page Tag

/-- Every tag comment of a page is opaque and ends with the first `--%>`, if the tag prefixes were
validated. Markup comes upon each of them between two tokens. -/
theorem comments_opaque (delimiters : Delimiters) (h : delimiters.Validated) (source : Bytes) :
    ∃ passages, (ofVariant .page delimiters).grammar.Lexes source passages ∧
      (∀ passage ∈ passages, ScannedIn .host passage.token → ∀ place, passage.start ≤ place →
        place < passage.span.stop → ¬ opener <+: source.drop place) ∧
      ∀ front passage rest, passages = front ++ passage :: rest →
        passage.before.nesting = .host → opener <+: source.drop passage.start →
        CommentOpaque source passage.start (passage :: rest) := by
  have hslash := Delimiters.noSlash_of_validated h
  obtain ⟨passages, final, hlexes, hpath, -⟩ :=
    (ofVariant .page delimiters).resumption.exists_lexes source
  have hinitial := State.ready_initial (source.drop 0)
  refine ⟨passages, hlexes, ?_, ?_⟩
  · intro passage hmem hscanned place hle hlt
    obtain ⟨hready, hstep⟩ := (resumption _).step_of_mem hpath hinitial passage hmem
    exact not_opener_of_exact (exact_of_step hslash rfl hready
      ((resumption _).ne_nil_of_step hready hstep) hstep) hscanned hle hlt
  · rintro front passage rest rfl hhost hopener
    obtain ⟨hfront, hrest⟩ := hpath.at_passage
    have hready := ((resumption _).ready_of_path hfront hinitial).1
    exact commentOpaque_of_path rfl hready hhost hopener hrest

/-- So it is with a comment that holds a script, a line end and the beginning of its own end. -/
theorem default_comments_opaque :
    Delimiters.default.Validated ∧
      ((default.grammar.lexWhole (Bytes.ofString "a<%--<%=%>\n--%--%>b")).map
        Prod.fst).toOption = some [⟨2, 1⟩, ⟨commentId, 9⟩, Token.endOfLine, ⟨commentId, 7⟩, ⟨2, 1⟩]
      ∧ ∃ passages, default.grammar.Lexes (Bytes.ofString "a<%--<%=%>\n--%--%>b") passages ∧
        ∀ front passage rest, passages = front ++ passage :: rest →
          passage.before.nesting = .host →
          opener <+: (Bytes.ofString "a<%--<%=%>\n--%--%>b").drop passage.start →
          CommentOpaque (Bytes.ofString "a<%--<%=%>\n--%--%>b") passage.start
            (passage :: rest) := by
  obtain ⟨passages, hlexes, -, hopaque⟩ := comments_opaque Delimiters.default
    Delimiters.validated_default (Bytes.ofString "a<%--<%=%>\n--%--%>b")
  exact ⟨Delimiters.validated_default, by decide +kernel, passages, hlexes, hopaque⟩

end Dialect

end PageLexing
