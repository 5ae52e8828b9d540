import PageLexing.Proofs.Fragments
import PageLexing.Proofs.TagErrors

/-!
# Where the fragments of a page close

A `>` behind an error of the tag language closes the fragment, and the page is back in its markup.
So an error would end before the next `>`, if it did not start with one: right behind the opening
symbol of a directive and right behind `=` the tag language takes a `>` as the first byte of an
error. It swallows this one and no other. Apart from that a `>` is part of an error only in a value
to the end of the text that no quote closes.

That the tag language is never in front of its fragment, and never in a value without quotes, holds
of all states of a page (`Dialect.guarding`). The rest is said of one token in its place among the
tokens of the text.

## Main results

* `Page.readsAs_of_stands` — how the tag language reads a token, and what it leaves behind.
* `Page.unterminated_iff`, `Page.error_of_swallows` — the errors with a `>`.
* `Page.closes_of_error` — a `>` behind an error.
* `Dialect.recovery_exact` — the errors of a whole page.
-/

namespace PageLexing

namespace Page

open Byte

variable {dialect : Dialect} {text : Bytes} {base next : State} {token : Token}

/-! ## What the tag language leaves -/

/-- What a token of the tag language leaves behind: markup, if the fragment is closed, and otherwise
the tag language where it goes on. -/
inductive Leaves (next : State) (after : Tag.State) : Prop where
  | closed (closes : after = .fragmentEnd) (nesting : next.nesting = .host)
  | open (goesOn : after ≠ .fragmentEnd) (nesting : next.nesting = .hostTag)
      (tag : next.tag = some (Scan.atBoundary after))

/-- How the tag language, which stands in the state `s`, reads a token. -/
structure ReadsAs (text : Bytes) (base : State) (token : Token) (next : State) (s : Tag.State)
    (kind : Tag.Kind) (after : Tag.State) : Prop where
  stands : base.tag = some (Scan.atBoundary s)
  id : token.id = globalId .tag kind.id
  ends : Tag.Ends s (text.drop token.len) (text.take token.len) kind after
  leaves : Leaves next after
  /-- At the end of the text it ends as on its own. -/
  alone : text.drop token.len = [] → ∃ scan, Scan.step (View.whole text) (Scan.atBoundary s) =
    .ok (.token ⟨kind.id, token.len⟩ scan)

theorem leaves_of_commit {found : Token} {scan : Scan Tag.State} (h : base.nesting = .hostTag)
    (hread : scan.read = 0)
    (hcommit : commit base found (.tag scan) = .ok (.token token next)) : Leaves next scan.state := by
  by_cases hend : scan.state = .fragmentEnd
  · rcases scan with ⟨s, read⟩
    cases hend
    rw [commit, h] at hcommit
    cases hcommit
    exact .closed rfl rfl
  · rw [commit_of_open (show (Frame.tag scan).Open from hend)] at hcommit
    cases hcommit
    exact .open hend h (congrArg some (Scan.atBoundary_state hread).symm)

/-- A delimiter of tags starts with `<`. -/
theorem head_of_tag {delimiters : Delimiters} {switch : Switch}
    (h : delimiters.delimiter? .tag text = some switch) : text.head? = some less := by
  cases text with
  | nil => cases h
  | cons b ahead =>
      by_cases hb : b = less
      · exact congrArg some hb
      · rw [Delimiters.delimiter?_of_start (show Delimiters.start .tag b = none from if_neg hb)] at h
        cases h

/-- How the active tag language reads a token. -/
theorem readsAs_of_attempt (h : base.Ready text) (hencloses : base.Encloses)
    (hactive : base.nesting.active = .tag) (hne : text ≠ [])
    (hattempt : dialect.attempt (View.whole text) base = .ok (.step (.token token next)))
    (howns : Owns .tag token.id) : ∃ s kind after, ReadsAs text base token next s kind after := by
  obtain ⟨s, htag, hstart⟩ := exists_tag_of_active h hactive
  have hready : Scan.Ready text s := (h.of_active hstart).1.2
  have hbase : Boundaries.isBoundary s = true → Tag.TagRead s s [] :=
    Tag.tagRead_nil (hencloses _ htag)
  have hnesting : base.nesting = .hostTag := Nesting.eq_hostTag_of_active hactive
  cases endsIn_of_attempt h hne hstart hattempt howns.2 with
  | @whole _ found hfound hcommit heq =>
      obtain ⟨scan, hscan, rfl⟩ := Step.exists_of_map hfound
      subst heq
      rcases Scan.ended_of_ready (Tag.tagRead_of_grow s) hbase hready hscan with
        ⟨rfl, -⟩ | ⟨kind, hid, hended⟩
      · have hline : languageOf? (globalId .tag TokenId.endOfLine) ≠ some .tag := by decide
        exact absurd howns.1 hline
      · have hid : found.id = kind.id := hid
        refine ⟨s, kind, scan.state, htag, congrArg (globalId .tag) hid, Tag.ends_of_ended hended,
          leaves_of_commit hnesting (Scan.read_of_token hscan) hcommit, fun _ => ?_⟩
        rw [← hid]
        exact ⟨scan, hscan⟩
  | @cut after held found switch id hfound hpos hlt hreads hread hfirst hpending heq hleaves =>
      cases held with
      | host held | script held => exact hreads.elim
      | tag held =>
          have hreads : Scan.Reads text s held := hreads
          have hread : held.read = token.len := hread
          have hlen : 0 < held.read := by omega
          have hhead : (text.drop token.len).head? = some less := head_of_tag hfirst.starts
          have hkind := Scan.pendingKind_of_le (View.whole text) hlen hreads.le
          rw [Frame.pendingId, hkind] at hpending
          cases hpending
          have hreached := hreads.preserves (Tag.tagRead_of_grow s)
            (hbase (Scan.isBoundary_of_reads hready hreads hlen))
          rw [hread] at hreached
          have hsettled : held.settled = Scan.atBoundary (Tag.settle held.state) := by
            rw [Scan.settled, if_neg (Nat.ne_of_gt hlen)]
            rfl
          have hopen := Tag.settle_ne_fragmentEnd (Tag.ne_fragmentEnd_of_tagRead hreached)
          subst hleaves
          refine ⟨s, _, _, htag, heq, Tag.ends_of_cut hreached hhead, .open hopen hnesting ?_,
            fun hnil => ?_⟩
          · exact congrArg some hsettled
          · rw [hnil] at hhead
            cases hhead

/-! ## What holds of all states -/

/-- A step keeps what every byte preserves. -/
theorem keeps_of_step {P : Tag.State → Prop} (hkept : Tag.Kept P) (hinitial : P .outside)
    {view : View} {state : State} {step : Step State} (h : state.Keeps P)
    (hstep : dialect.step view state = .ok step) : step.state.Keeps P := by
  induction hn : state.nesting.headroom using Nat.strongRecOn generalizing state with
  | ind n ih =>
      rw [Dialect.step_eq] at hstep
      obtain ⟨outcome, hattempt, hrest⟩ := exists_of_bind hstep
      cases outcome with
      | step found =>
          cases hrest
          exact keeps_of_attempt hkept h hattempt
      | opened inner =>
          have hless := dialect.headroom_of_opened hattempt
          obtain ⟨_, _, _, -, -, -, hconclude⟩ := Dialect.parts_of_attempt hattempt
          obtain ⟨-, -, rfl⟩ := opened_of_conclude hconclude
          refine ih _ (by omega) ?_ hrest rfl
          rintro scan hscan
          cases hscan
          exact hinitial

end Page

namespace Dialect

/-- No state of a page has the tag language before its fragment, or in a value without quotes. -/
def guarding (dialect : Dialect) (hvalid : dialect.delimiters.Validated) :
    dialect.grammar.Resumption :=
  (dialect.enclosing hvalid).keeping (Page.State.Keeps Tag.Quoted) (fun _ hscan => nomatch hscan)
    fun _ _ _ hkeeps _ _ _ hstep =>
      Page.keeps_of_step Tag.kept_quoted (fun _ h => h.elim nofun nofun) hkeeps hstep

end Dialect

namespace Page

open Byte

/-! ## The tokens of fragments -/

/-- The number of the errors of tags. -/
def errorId : TokenId := globalId .tag Tag.Kind.error.id

/-- The number of the values of tags. -/
def valueId : TokenId := globalId .tag Tag.Kind.value.id

variable {source : Bytes} {passage : Passage State} {rest : List (Passage State)} {final : State}
  {dialect : Dialect} {hvalid : dialect.delimiters.Validated}

/-- A token of the tag language is the first one of its fragment, or it is read inside. -/
theorem readsAs_of_stands (h : (dialect.guarding hvalid).Stands source passage rest final)
    (howns : Owns .tag passage.token.id) :
    passage.before.nesting = .host ∧
        Begins dialect.delimiters.prefixes source passage rest ∨
      passage.before.nesting = .hostTag ∧ ∃ s kind after,
        ReadsAs (source.drop passage.start) passage.before passage.token passage.after s kind
          after := by
  obtain ⟨⟨hready, hencloses⟩, -⟩ := h.ready
  have hne := (dialect.guarding hvalid).ne_nil_of_step h.ready h.step
  rcases attempt_of_step hready hne h.step with ⟨hattempt, hreads⟩ | ⟨hhost, -, -⟩
  · have hactive : passage.before.nesting.active = .tag := by
      rcases hreads with hdelimits | hscans
      · exact absurd hdelimits.id howns.2
      · exact active_of_owns hscans howns
    exact Or.inr ⟨Nesting.eq_hostTag_of_active hactive,
      readsAs_of_attempt hready hencloses hactive hne hattempt howns⟩
  · have hpath : dialect.grammar.Path source passage.start passage.before (passage :: rest)
        source.length final := .cons h.step h.behind
    exact Or.inl ⟨hhost, begins_of_path hvalid hready hpath ⟨hhost, Or.inr howns⟩⟩

/-- Where the tag language is active, it reads a `>`. -/
theorem owns_of_greater (h : (dialect.guarding hvalid).Stands source passage rest final)
    (hnesting : passage.before.nesting = .hostTag)
    (hhead : (source.drop passage.start).head? = some greater) : Owns .tag passage.token.id := by
  have hne := (dialect.guarding hvalid).ne_nil_of_step h.ready h.step
  have hactive : passage.before.nesting.active = .tag := by rw [hnesting]; rfl
  rcases attempt_of_step h.ready.1.1 hne h.step with ⟨-, hdelimits | hscans⟩ | ⟨hhost, -, -⟩
  · exfalso
    rcases hdelimits.nesting with ⟨hdelimiter, -⟩ | ⟨hdelimiter, -⟩ <;>
    · rw [hactive] at hdelimiter
      cases hhead.symm.trans (head_of_tag hdelimiter)
  · rcases hscans.id with ⟨-, hline⟩ | howns
    · cases hhead.symm.trans hline
    · rwa [hactive] at howns
  · rw [hhost] at hnesting
    cases hnesting

/-- No symbol that opens a fragment has a `>`. -/
theorem comment_of_begins {prefixes : List Bytes} (h : Begins prefixes source passage rest)
    (hgreater : greater ∈ passage.span.text source) : passage.token.id = commentId := by
  have hnone : ∀ symbol word : Bytes, passage.token.len = symbol.length → greater ∉ symbol →
      ¬ symbol ++ word <+: source.drop passage.start := by
    rintro symbol word hlen hsymbol ⟨tail, htail⟩
    refine hsymbol ?_
    rwa [Span.text, Passage.span, hlen, ← htail, List.append_assoc, List.take_left] at hgreater
  cases h.opens with
  | comment hword => exact h.comment hword
  | directive hword =>
      have hlen := congrArg Token.len (h.directive hword)
      exact absurd hword (hnone [less, percent, commercialAt] [] hlen (by decide))
  | @openingTag candidate hmem hword =>
      have hlen := congrArg Token.len (h.openingTag candidate hmem hword).1
      exact absurd hword (hnone [less] (candidate ++ [colon]) hlen (by decide))
  | @closingTag candidate hmem hword =>
      have hlen := congrArg Token.len (h.closingTag candidate hmem hword).1
      exact absurd hword (hnone [less, slash] (candidate ++ [colon]) hlen (by decide))

/-! ## Errors -/

/-- A `>` is the next byte where the tag language takes any byte as the start of an error. -/
def Swallows (source : Bytes) (passage : Passage State) : Prop :=
  passage.before.nesting = .hostTag ∧ (source.drop passage.start).head? = some greater ∧
    ∃ s, passage.before.tag = some (Scan.atBoundary s) ∧ Tag.TakesAny s

/-- The token is the last one of the text. It is a value, or goes on with one from a line before or
from behind a script, and no quote closes it. -/
structure Unterminated (source : Bytes) (passage : Passage State) : Prop where
  stop : passage.span.stop = source.length
  value : ∃ q w, (q = quote ∨ q = apostrophe) ∧ (∀ place, ¬ UnescapedQuote q w place) ∧
    (passage.before.tag = some (Scan.atBoundary .afterEquals) ∧
        passage.span.text source = q :: w ∨
      passage.before.tag = some (Scan.atBoundary (.quoted q)) ∧ passage.span.text source = w)

/-- An error that is part of a value to the end of the text is a value that is not closed. -/
theorem unterminated_of_stands (h : (dialect.guarding hvalid).Stands source passage rest final)
    {s after : Tag.State} {q : UInt8}
    (hreads : ReadsAs (source.drop passage.start) passage.before passage.token passage.after s
      .error after)
    (hend : source.drop passage.span.stop = [])
    (hvalue : Tag.InValue s q (passage.span.text source)) : Unterminated source passage := by
  have hle : passage.span.stop ≤ source.length := h.behind.offset_le
  have hge : source.length ≤ passage.span.stop := List.drop_eq_nil_iff.mp hend
  have htext : passage.span.text source = source.drop passage.start :=
    List.take_of_length_le (by
      rw [List.length_drop]
      show source.length - passage.start ≤ passage.token.len
      rw [Passage.span, Span.stop] at hge
      simp only at hge
      omega)
  refine ⟨Nat.le_antisymm hle hge, q, ?_⟩
  obtain ⟨scan, hscan⟩ := hreads.alone (by rwa [List.drop_drop])
  have hquoted := h.ready.2 _ hreads.stands
  have hnone : ∀ {w}, (q = quote ∨ q = apostrophe) →
      (s = .afterEquals ∧ source.drop passage.start = q :: w ∨
        s = .quoted q ∧ source.drop passage.start = w) → ∀ place, ¬ UnescapedQuote q w place :=
    fun hq hbase place => Tag.not_unescapedQuote_of_error hq hbase hscan rfl place
  rcases hvalue with rfl | ⟨rfl, hq, hhead⟩
  · have hq := hquoted q (Or.inl rfl)
    exact ⟨_, hq, hnone hq (Or.inr ⟨rfl, rfl⟩), Or.inr ⟨hreads.stands, htext⟩⟩
  · obtain ⟨w, hw⟩ := List.head?_eq_some_iff.mp hhead
    exact ⟨w, hq, hnone hq (Or.inl ⟨rfl, htext.symm.trans hw⟩), Or.inl ⟨hreads.stands, hw⟩⟩

/-- An error is read inside a fragment. -/
theorem readsAs_of_error (h : (dialect.guarding hvalid).Stands source passage rest final)
    (herror : passage.token.id = errorId) :
    passage.before.nesting = .hostTag ∧ ∃ s after,
      ReadsAs (source.drop passage.start) passage.before passage.token passage.after s .error
        after := by
  have howns : Owns .tag passage.token.id := by
    rw [herror]
    exact owns_tag nofun
  rcases readsAs_of_stands h howns with ⟨-, hbegins⟩ | ⟨hnesting, s, kind, after, hreads⟩
  · rcases hbegins.id with hid | hid
    · exact absurd (herror.symm.trans hid) (by decide)
    · exact absurd (herror.symm.trans hid) (by decide)
  · obtain rfl : kind = .error := by
      have hid := herror.symm.trans hreads.id
      cases kind <;> first | rfl | exact absurd hid (by decide)
    exact ⟨hnesting, s, after, hreads⟩

/-- An error has no `>` but in a value that is not closed, unless it swallows one. -/
theorem unterminated_iff (h : (dialect.guarding hvalid).Stands source passage rest final)
    (herror : passage.token.id = errorId) :
    (greater ∈ passage.span.text source → Unterminated source passage) ↔
      ¬ Swallows source passage := by
  constructor
  · rintro hall ⟨-, hhead, s, htag, hany⟩
    rw [← h.head?_text] at hhead
    obtain ⟨-, q, w, hq, -, hvalue⟩ := hall (List.mem_of_mem_head? hhead)
    rcases hvalue with ⟨-, hw⟩ | ⟨hstands, -⟩
    · rw [hw] at hhead
      cases hhead
      rcases hq with h | h <;> cases h
    · cases htag.symm.trans hstands
      exact hany.ne_quoted q rfl
  · intro hnone hgreater
    obtain ⟨hnesting, s, after, hreads⟩ := readsAs_of_error h herror
    rcases Tag.error_of_ends hreads.ends hgreater with ⟨hany, hhead⟩ | ⟨hend, q, hvalue⟩
    · exact absurd ⟨hnesting, h.head?_text.symm.trans hhead, s, hreads.stands, hany⟩ hnone
    · rw [List.drop_drop] at hend
      exact unterminated_of_stands h hreads hend hvalue

/-- A `>` that is swallowed is the first byte of an error, which leaves the fragment open. -/
theorem error_of_swallows (h : (dialect.guarding hvalid).Stands source passage rest final)
    (hswallows : Swallows source passage) :
    passage.token.id = errorId ∧
      (∃ tail, passage.span.text source = greater :: tail ∧ greater ∉ tail) ∧
      passage.after.nesting = .hostTag := by
  obtain ⟨hnesting, hhead, s, htag, hany⟩ := hswallows
  have howns := owns_of_greater h hnesting hhead
  rcases readsAs_of_stands h howns with ⟨hhost, -⟩ | ⟨-, s', kind, after, hreads⟩
  · rw [hhost] at hnesting
    cases hnesting
  · cases htag.symm.trans hreads.stands
    rw [← h.head?_text] at hhead
    obtain ⟨rfl, htext, hopen⟩ := Tag.swallows_of_ends hreads.ends hany hhead
    refine ⟨hreads.id, htext, ?_⟩
    cases hreads.leaves with
    | closed hclosed => exact absurd hclosed hopen
    | «open» _ hleft => exact hleft

/-- The passages begin with the symbol `>`, behind which the page is back in its markup. -/
def StartsWithClosing (source : Bytes) (passages : List (Passage State)) : Prop :=
  ∃ closing more, passages = closing :: more ∧ closing.token.id = symbolId ∧
    closing.span.text source = [greater] ∧ closing.after.nesting = .host

/-- A `>` that stands behind an error closes the fragment. -/
theorem closes_of_error (h : (dialect.guarding hvalid).Stands source passage rest final)
    (herror : passage.token.id = errorId)
    (hhead : (source.drop passage.span.stop).head? = some greater) : StartsWithClosing source rest := by
  obtain ⟨hnesting, s, after, hreads⟩ := readsAs_of_error h herror
  have hnext : ((source.drop passage.start).drop passage.token.len).head? = some greater := by
    rw [List.drop_drop]
    exact hhead
  obtain rfl := Tag.after_of_error hreads.ends hnext
  obtain ⟨closing, more, hrest, hstands, hstart, hbefore⟩ := h.exists_next hhead
  refine ⟨closing, more, hrest, ?_⟩
  have hhead : (source.drop closing.start).head? = some greater := by
    rw [hstart]
    exact hhead
  cases hreads.leaves with
  | closed hclosed => cases hclosed
  | «open» _ hinner htag =>
      rw [← hbefore] at hinner htag
      rcases readsAs_of_stands hstands (owns_of_greater hstands hinner hhead) with
        ⟨hhost, -⟩ | ⟨-, s', kind, after, hclosing⟩
      · rw [hhost] at hinner
        cases hinner
      · cases htag.symm.trans hclosing.stands
        rw [← hstands.head?_text] at hhead
        obtain ⟨htext, rfl, rfl⟩ := Tag.closes_of_ends hclosing.ends hhead
        refine ⟨hclosing.id, htext, ?_⟩
        cases hclosing.leaves with
        | closed _ hleft => exact hleft
        | «open» hgoesOn => exact absurd rfl hgoesOn

/-- A token of the tag language with a `>` is a value, a comment or an error, or it closes the
fragment. -/
theorem token_of_greater (h : (dialect.guarding hvalid).Stands source passage rest final)
    (howns : Owns .tag passage.token.id) (hgreater : greater ∈ passage.span.text source) :
    passage.token.id = valueId ∨ passage.token.id = commentId ∨
      passage.token.id = symbolId ∧ passage.after.nesting = .host ∨
        passage.token.id = errorId := by
  rcases readsAs_of_stands h howns with ⟨-, hbegins⟩ | ⟨-, s, kind, after, hreads⟩
  · exact Or.inr (Or.inl (comment_of_begins hbegins hgreater))
  · rcases Tag.kind_of_ends hreads.ends hgreater with rfl | rfl | ⟨rfl, rfl⟩ | rfl
    · exact Or.inl hreads.id
    · exact Or.inr (Or.inl hreads.id)
    · refine Or.inr (Or.inr (Or.inl ⟨hreads.id, ?_⟩))
      cases hreads.leaves with
      | closed _ hleft => exact hleft
      | «open» hgoesOn => exact absurd rfl hgoesOn
    · exact Or.inr (Or.inr (Or.inr hreads.id))

/-- How far the errors of a page go. -/
structure RecoveryExact (source : Bytes) (passages : List (Passage State)) : Prop where
  /-- The errors that have a `>`, although they are no values that the text leaves open, are those
  that swallow one. -/
  errors : ∀ passage ∈ passages, passage.token.id = errorId →
    ((greater ∈ passage.span.text source → Unterminated source passage) ↔
      ¬ Swallows source passage)
  /-- What is swallowed is no more than one `>`, with which an error starts. -/
  swallowed : ∀ passage ∈ passages, Swallows source passage → passage.token.id = errorId ∧
    (∃ tail, passage.span.text source = greater :: tail ∧ greater ∉ tail) ∧
    passage.after.nesting = .hostTag
  /-- A `>` that stands behind an error closes the fragment. -/
  closes : ∀ front passage rest, passages = front ++ passage :: rest →
    passage.token.id = errorId → (source.drop passage.span.stop).head? = some greater →
      StartsWithClosing source rest
  /-- Outside values, comments and errors every `>` of a fragment closes it. -/
  others : ∀ passage ∈ passages, Owns .tag passage.token.id →
    greater ∈ passage.span.text source →
      passage.token.id = valueId ∨ passage.token.id = commentId ∨
        passage.token.id = symbolId ∧ passage.after.nesting = .host ∨ passage.token.id = errorId

end Page

namespace Dialect

open Page Byte

/-- In a page whose tag prefixes were validated an error is ended by the next `>`, which closes the
fragment, except where the tag language takes it as the start of an error. -/
theorem recovery_exact {dialect : Dialect} (hvalid : dialect.delimiters.Validated)
    (source : Bytes) :
    ∃ passages, dialect.grammar.Lexes source passages ∧ RecoveryExact source passages := by
  obtain ⟨passages, final, hlexes, hpath, -⟩ := (dialect.guarding hvalid).exists_lexes source
  refine ⟨passages, hlexes, ?_, ?_, ?_, ?_⟩
  · intro passage hmem herror
    obtain ⟨rest, h⟩ := (dialect.guarding hvalid).exists_stands_of_mem hpath hmem
    exact unterminated_iff h herror
  · intro passage hmem hswallows
    obtain ⟨rest, h⟩ := (dialect.guarding hvalid).exists_stands_of_mem hpath hmem
    exact error_of_swallows h hswallows
  · intro front passage rest hsplit herror hhead
    exact closes_of_error ((dialect.guarding hvalid).stands_of_path hpath hsplit) herror hhead
  · intro passage hmem howns hgreater
    obtain ⟨rest, h⟩ := (dialect.guarding hvalid).exists_stands_of_mem hpath hmem
    exact token_of_greater h howns hgreater

/-- So it is where `=` has a `>` behind it, which starts an error; the next one closes the element. -/
theorem default_recovery_exact :
    Dialect.default.delimiters.Validated ∧
      ((Dialect.default.grammar.lexWhole (Bytes.ofString "<tpl:x a=>b>c")).map
        Prod.fst).toOption = some [⟨symbolId, 1⟩, ⟨tagNameId, 5⟩, ⟨19, 1⟩, ⟨17, 1⟩, ⟨symbolId, 1⟩,
          ⟨errorId, 2⟩, ⟨symbolId, 1⟩, ⟨2, 1⟩] ∧
      ∃ passages, Dialect.default.grammar.Lexes (Bytes.ofString "<tpl:x a=>b>c") passages ∧
        RecoveryExact (Bytes.ofString "<tpl:x a=>b>c") passages := by
  have hvalid : Dialect.default.delimiters.Validated := Delimiters.validated_default
  exact ⟨hvalid, by decide +kernel, recovery_exact hvalid _⟩

/-- Not all errors are ended by the next `>`, and not all that have one are values that the text
leaves open. -/
theorem errors_swallow : ¬ ∀ delimiters : Delimiters, delimiters.Validated →
    ∀ source passages, (ofVariant .page delimiters).grammar.Lexes source passages →
      ∀ passage ∈ passages, passage.token.id = errorId → greater ∈ passage.span.text source →
        Unterminated source passage := by
  intro hall
  obtain ⟨passages, final, hlexes, hpath, -⟩ :=
    Dialect.default.resumption.exists_lexes (Bytes.ofString "<tpl:x a=>b>c")
  obtain ⟨after, hlexed⟩ := hlexes.lexed
  have htokens : ((Dialect.default.grammar.lexWhole (Bytes.ofString "<tpl:x a=>b>c")).map
      Prod.fst).toOption = some [⟨symbolId, 1⟩, ⟨tagNameId, 5⟩, ⟨19, 1⟩, ⟨17, 1⟩, ⟨symbolId, 1⟩,
        ⟨errorId, 2⟩, ⟨symbolId, 1⟩, ⟨2, 1⟩] := by decide +kernel
  rw [hlexed] at htokens
  have htokens : passages.map Passage.token = _ := Option.some.inj htokens
  have hmem : Span.mk ⟨errorId, 2⟩ 9 ∈ passages.map Passage.span := by
    rw [← hpath.span_eq, htokens]
    decide
  obtain ⟨passage, hmem, hspan⟩ := List.mem_map.mp hmem
  have herror : passage.token.id = errorId := congrArg (fun span => span.token.id) hspan
  have hgreater : greater ∈ passage.span.text (Bytes.ofString "<tpl:x a=>b>c") := by
    rw [hspan]
    decide +kernel
  have hstop := (hall _ Delimiters.validated_default _ _ hlexes passage hmem herror hgreater).stop
  rw [hspan] at hstop
  exact absurd hstop (by decide +kernel)

end Dialect

end PageLexing
