import PageLexing.Proofs.Enclosure
import PageLexing.Proofs.Opacity

/-!
# What opens a fragment

Markup comes upon the opening of a fragment, and the tag language reads it at once. Two tables have
to agree there: the probes that tell an opening from other text, and the automaton of tags, which
begins with the same bytes. They do: in every window that tells an opening, the tag language reads
its opening symbol, or all of `<%--`.

## Main results

* `Page.opened_of_attempt` — a window in which a fragment is opened holds all of its opening.
* `Page.opens_of_spelled?`, `Page.spelled?_of_opens` — what opens a fragment.
* `Page.exists_attempt_of_opens` — the tag language reads it and stands inside the fragment.
-/

namespace PageLexing

/-! ## Openings in a window -/

namespace Delimiters

variable {delimiters : Delimiters} {last : Bool}

/-- A fragment is told by a byte of its opening, and not by the end of the text. -/
theorem follow_take_of_enterTag {probe : Probe} {room : Nat} {ahead : Bytes}
    (h : delimiters.follow last probe room ahead = .ok (.confirmed .enterTag)) :
    delimiters.follow true probe (ahead.take room).length (ahead.take room) =
      .ok (.confirmed .enterTag) := by
  have hend : ∀ probe, (if last then atEndOfInput probe else .undecided probe) ≠
      Verdict.confirmed .enterTag := by
    intro probe
    cases last <;> cases probe <;> exact nofun
  induction room generalizing probe ahead with
  | zero =>
      simp only [follow, Except.ok.injEq] at h
      exact absurd h (hend probe)
  | succ room ih =>
      cases ahead with
      | nil =>
          simp only [follow, Except.ok.injEq] at h
          exact absurd h (hend probe)
      | cons byte ahead =>
          rw [List.take_succ_cons, List.length_cons]
          simp only [follow] at h ⊢
          obtain ⟨verdict, hverdict, hrest⟩ := exists_of_bind h
          rw [hverdict]
          cases verdict with
          | undecided next => exact ih hrest
          | confirmed switch => exact hrest
          | rejected => exact hrest

/-- What a window tells to open a fragment is in the window. -/
theorem delimiter?_take_of_test {language : Language} {room : Nat} {text : Bytes}
    (hpos : 0 < room)
    (h : delimiters.test language last room text = .ok (.confirmed .enterTag)) :
    delimiters.delimiter? language (text.take room) = some .enterTag := by
  obtain ⟨room, rfl⟩ : ∃ more, room = more + 1 := ⟨room - 1, by omega⟩
  cases text with
  | nil => cases h
  | cons byte ahead =>
      simp only [test] at h
      cases hstart : start language byte with
      | none =>
          rw [hstart] at h
          cases h
      | some probe =>
          rw [hstart] at h
          have hfollow := follow_take_of_enterTag h
          rw [Nat.add_sub_cancel] at hfollow
          rw [List.take_succ_cons, delimiter?_cons hstart, hfollow]
          rfl

end Delimiters

/-! ## Names -/

/-- What may stand in a tag prefix may stand in a name. -/
theorem Settings.isNameByte_of_isPrefixChar {c : Char} (h : isPrefixChar c = true) :
    Byte.isNameByte (UInt8.ofNat c.toNat) = true := by
  have hall : ∀ n < 128, isPrefixChar (Char.ofNat n) = true →
      Byte.isNameByte (UInt8.ofNat n) = true := by decide
  refine hall c.toNat (toNat_lt_of_isPrefixChar h) ?_
  rwa [Char.ofNat_toNat]

namespace Delimiters

variable {delimiters : Delimiters} {candidate : Bytes}

/-- A validated prefix can be read as a name. -/
theorem isNameByte_of_validated (h : delimiters.Validated) (hmem : candidate ∈ delimiters.prefixes) :
    ∀ byte ∈ candidate, Byte.isNameByte byte = true := by
  obtain ⟨text, htext, rfl⟩ := h candidate hmem
  rw [Bytes.ofString_eq_flatMap]
  intro byte hbyte
  obtain ⟨c, hc, hmem⟩ := List.mem_flatMap.mp hbyte
  have hchar := Settings.isPrefixChar_of_isTagPrefix htext c hc
  rw [Settings.utf8EncodeChar_of_isPrefixChar hchar, List.mem_singleton] at hmem
  rw [hmem]
  exact Settings.isNameByte_of_isPrefixChar hchar

/-- No validated prefix is empty. -/
theorem ne_nil_of_validated (h : delimiters.Validated) (hmem : candidate ∈ delimiters.prefixes) :
    candidate ≠ [] := by
  obtain ⟨text, htext, rfl⟩ := h candidate hmem
  have hall := Settings.isPrefixChar_of_isTagPrefix htext
  unfold Settings.isTagPrefix at htext
  split at htext
  · cases htext
  · rename_i first rest hlist
    have hfirst := hall first (by rw [hlist]; exact List.mem_cons_self ..)
    rw [Bytes.ofString_eq_flatMap, hlist, List.flatMap_cons,
      Settings.utf8EncodeChar_of_isPrefixChar hfirst]
    exact List.cons_ne_nil _ _

end Delimiters

namespace Tag

variable {view : View} {scan : Scan State}

/-- Inside a comment a token is one. -/
theorem comment_of_token {after : Scan State} {found : Token}
    (h : scan.step view = .ok (.token found after)) (hs : commentOpening? scan.state = some [])
    (hpos : 0 < scan.read) : found.id = Kind.comment.id := by
  have hends := endsInComment_of_comment hs scan.read (view.room - scan.read)
    (view.text.drop scan.read)
  have hbounds := (Scan.read_run_bounds scan.state scan.read (view.room - scan.read)
    (view.text.drop scan.read)).1
  obtain ⟨next, ending, hrun, hline | ⟨kind, hfinish, hkind⟩⟩ := Scan.token_cases h
  · rw [hrun] at hbounds
    have hzero := hline.2.1
    dsimp only at hbounds
    omega
  · rw [hrun] at hends
    obtain ⟨word, rfl, -⟩ := Scan.token_of_finish hfinish
    have hcomment : kind = .comment := by
      rcases hkind with rfl | ⟨rfl, rfl⟩ | ⟨rfl, rfl⟩
      · exact hends
      · exact (inProgress_eq_comment_iff next.state).mpr hends
      · exact (atEndOfInput_eq_comment_iff next.state).mpr hends
    rw [hcomment]
    rfl

theorem comment_of_hold {held : Scan State} (h : scan.step view = .ok (.hold held))
    (hs : commentOpening? scan.state = some []) : commentOpening? held.state = some [] := by
  have hends := endsInComment_of_comment hs scan.read (view.room - scan.read)
    (view.text.drop scan.read)
  rw [Scan.run_of_hold h] at hends
  exact hends

end Tag

namespace Page

open Delimiters Tag

variable {dialect : Dialect} {delimiters : Delimiters} {text : Bytes} {base state inner : State}
  {start frame : Frame} {room : Nat} {last : Bool} {switch : Switch}

/-- What a search finds where it begins is what is there. -/
theorem test_of_search {language : Language} {span : Nat}
    (h : search delimiters language last 0 span room text = .ok (.switch 0 switch)) :
    delimiters.test language last room text = .ok (.confirmed switch) := by
  cases span with
  | zero => simp [search] at h
  | succ span =>
      cases text with
      | nil => simp [search] at h
      | cons byte ahead =>
          rw [search_succ] at h
          obtain ⟨verdict, hverdict, hrest⟩ := exists_of_bind h
          cases verdict with
          | confirmed found =>
              cases hrest
              exact hverdict
          | undecided probe => cases hrest
          | rejected =>
              have := (search_bounds hrest rfl).1
              omega

/-- What is found at the start of a pending token is there, even if a part of it was read in the
window before. -/
theorem test_of_find (h : Pending dialect text base start state frame)
    (hprescan : state.prescan ≤ room) {stop : Nat}
    (hfind : find dialect.delimiters start.language ⟨text, room, last⟩ state stop =
      .ok (.switch 0 switch)) :
    dialect.delimiters.test start.language last room text = .ok (.confirmed switch) := by
  cases hlookahead : state.lookahead with
  | none =>
      simp only [find, hlookahead] at hfind
      have hzero := Nat.le_zero.mp (searchFrom_bounds hfind rfl).1
      rw [searchFrom, hzero] at hfind
      exact test_of_search hfind
  | some lookahead =>
      obtain ⟨-, hprobeAt, hprobes, -⟩ := h.busy lookahead hlookahead
      rcases lookahead with ⟨candidate, probeAt, probe⟩
      simp only [find, hlookahead] at hfind
      simp only at hprobeAt hprobes
      obtain ⟨verdict, hverdict, hrest⟩ := exists_of_bind hfind
      cases verdict with
      | undecided probe => cases hrest
      | rejected =>
          have := (searchFrom_bounds hrest rfl).1
          omega
      | confirmed found =>
          cases hrest
          rw [← hprobeAt, List.drop_zero, Nat.sub_zero] at hprobes
          rw [test_of_probes hprobes hprescan last, ← consumed_of_probes hprobes]
          rwa [Nat.zero_add] at hverdict

/-- Only a search comes upon a delimiter. -/
theorem find_of_seek {view : View} {found : Step Frame} {offset : Nat}
    (h : dialect.seek view state frame found = .ok (.switch offset switch)) :
    dialect.switching = true ∧ find dialect.delimiters frame.language view state
      (reach view found) = .ok (.switch offset switch) := by
  unfold Dialect.seek at h
  split at h
  · rename_i hswitching
    obtain ⟨seen, -, hrest⟩ := exists_of_bind h
    cases seen with
    | true => cases hrest
    | false => exact ⟨hswitching, hrest⟩
  · cases h

/-- A fragment is opened by its delimiter, at the start of a token of markup. -/
theorem opened_of_conclude {view : View} {found : Step Frame} {finding : Finding}
    (h : conclude view state frame found finding = .ok (.opened inner)) :
    finding = .switch 0 .enterTag ∧ state.nesting = .host ∧ inner = opened state := by
  cases finding with
  | clear =>
      cases found with
      | token token after =>
          obtain ⟨step, -, hstep⟩ := exists_of_bind h
          cases hstep
      | hold pending => cases h
  | suspend offset probe => cases h
  | «switch» offset switch =>
      cases offset with
      | succ offset =>
          obtain ⟨step, -, hstep⟩ := exists_of_bind h
          cases hstep
      | zero =>
          cases switch with
          | enterTag =>
              obtain ⟨nesting, henter, hopened⟩ := exists_of_bind h
              obtain ⟨hhost, rfl⟩ := Nesting.eq_host_of_enter_tag henter
              cases hopened
              exact ⟨rfl, hhost, rfl⟩
          | enterScript len =>
              obtain ⟨nesting, -, hentered⟩ := exists_of_bind h
              cases hentered
          | leaveScript len =>
              obtain ⟨nesting, -, hleft⟩ := exists_of_bind h
              cases hleft

/-- A window in which a fragment is opened holds all of its opening. -/
theorem opened_of_attempt (h : Pending dialect text base start state frame)
    (hprescan : state.prescan ≤ room) (hpos : 0 < room)
    (hattempt : dialect.attempt ⟨text, room, last⟩ state = .ok (.opened inner)) :
    inner = opened state ∧ state.nesting = .host ∧
      dialect.delimiters.delimiter? .host (text.take room) = some .enterTag := by
  obtain ⟨frame', found, finding, hactive, hfound, hseek, hconclude⟩ :=
    Dialect.parts_of_attempt hattempt
  obtain ⟨rfl, hhost, hinner⟩ := opened_of_conclude hconclude
  have hlanguage : frame'.language = start.language := by
    rw [State.language_active hactive, nesting_pending h, language_start h]
  have hstart : start.language = .host := by
    rw [language_start h, ← nesting_pending h, hhost]
    rfl
  obtain ⟨-, hfind⟩ := find_of_seek hseek
  rw [hlanguage] at hfind
  have htest := test_of_find h hprescan hfind
  rw [hstart] at htest
  exact ⟨hinner, hhost, delimiter?_take_of_test hpos htest⟩

/-! ## The first token of a fragment -/

/-- The number of the symbols of tags. -/
def symbolId : TokenId := globalId .tag Tag.Kind.symbol.id

/-- An opening symbol in which no delimiter is found is the first token of its fragment. -/
theorem attempt_of_symbol {view : View} {len : Nat} {t : Tag.State}
    (hstep : Scan.step view (Scan.atBoundary Tag.State.outside) =
      .ok (.token ⟨Tag.Kind.symbol.id, len⟩ (Scan.atBoundary t)))
    (hsearch : searchFrom dialect.delimiters .tag view 0 len = .ok .clear)
    (hopen : t ≠ .fragmentEnd) :
    dialect.attempt view (opened base) =
      .ok (.step (.token ⟨symbolId, len⟩ (inFragment (opened base) t))) := by
  have hactive : (opened base).active = .ok (.tag (Scan.atBoundary .outside)) := rfl
  have hfound : (Frame.tag (Scan.atBoundary .outside)).step view =
      .ok (.token ⟨Tag.Kind.symbol.id, len⟩ (.tag (Scan.atBoundary t))) := by
    rw [Frame.step, hstep]
    rfl
  have hseek : dialect.seek view (opened base) (.tag (Scan.atBoundary .outside))
      (.token ⟨Tag.Kind.symbol.id, len⟩ (.tag (Scan.atBoundary t))) = .ok .clear := by
    unfold Dialect.seek
    split
    · exact hsearch
    · rfl
  have hcommit := @commit_of_open (opened base) (.tag (Scan.atBoundary t)) hopen
    ⟨Tag.Kind.symbol.id, len⟩
  rw [Dialect.attempt_of_parts hactive hfound rfl hseek]
  simp only [conclude, hcommit, bind, Except.bind]
  rfl

/-- A run of the automaton that ends with an opening symbol reads this symbol. -/
theorem step_of_symbol {view : View} {len : Nat} {t : Tag.State}
    (hrun : Scan.run Tag.State.outside 0 view.room view.text = (⟨t, len⟩, .kind .symbol))
    (hpos : 0 < len) (hlen : len ≤ view.text.length) :
    Scan.step view (Scan.atBoundary Tag.State.outside) =
      .ok (.token ⟨Tag.Kind.symbol.id, len⟩ (Scan.atBoundary t)) := by
  rw [Scan.step_of_kind view hrun]
  exact @Scan.finish_eq_token Tag.State Tag.Kind _ _ view ⟨t, len⟩ .symbol hpos hlen

variable (dialect base last)

/-- A directive begins with `<%@`. -/
theorem attempt_of_directive
    (h : [Byte.less, Byte.percent, Byte.commercialAt] <+: text.take room) :
    dialect.attempt ⟨text, room, last⟩ (opened base) =
      .ok (.step (.token ⟨symbolId, 3⟩ (inFragment (opened base) .directiveStart))) := by
  obtain ⟨⟨rest, rfl⟩, hroom⟩ := List.prefix_take_iff.mp h
  obtain ⟨more, rfl⟩ : ∃ more, room = more + 3 := Nat.exists_eq_add_of_le' hroom
  refine attempt_of_symbol (step_of_symbol rfl (by decide) (Nat.le_add_left 3 _)) ?_ (by decide)
  simp +decide [searchFrom, search, Delimiters.start, Delimiters.follow, Delimiters.advance, bind,
    Except.bind]

/-- The end of an element begins with `</`. -/
theorem attempt_of_closingTag (h : [Byte.less, Byte.slash] <+: text.take room) :
    dialect.attempt ⟨text, room, last⟩ (opened base) =
      .ok (.step (.token ⟨symbolId, 2⟩ (inFragment (opened base) .tagNameStart))) := by
  obtain ⟨⟨rest, rfl⟩, hroom⟩ := List.prefix_take_iff.mp h
  obtain ⟨more, rfl⟩ : ∃ more, room = more + 2 := Nat.exists_eq_add_of_le' hroom
  refine attempt_of_symbol (step_of_symbol rfl (by decide) (Nat.le_add_left 2 _)) ?_ (by decide)
  simp +decide [searchFrom, search, Delimiters.start, Delimiters.follow, Delimiters.advance, bind,
    Except.bind]

/-- An element begins with `<`, in front of a byte of its name. -/
theorem attempt_of_openingTag {byte : UInt8} (hbyte : Byte.isNameByte byte = true)
    (h : [Byte.less, byte] <+: text.take room) :
    dialect.attempt ⟨text, room, last⟩ (opened base) =
      .ok (.step (.token ⟨symbolId, 1⟩ (inFragment (opened base) .tagNameStart))) := by
  obtain ⟨⟨rest, rfl⟩, hroom⟩ := List.prefix_take_iff.mp h
  obtain ⟨more, rfl⟩ : ∃ more, room = more + 2 := Nat.exists_eq_add_of_le' hroom
  have hne : byte ≠ Byte.newline ∧ byte ≠ Byte.percent ∧ byte ≠ Byte.slash := by
    refine ⟨?_, ?_, ?_⟩ <;> rintro rfl <;> exact absurd hbyte (by decide)
  obtain ⟨hline, hpercent, hslash⟩ := hne
  have hless : Automaton.consume Tag.State.outside Byte.less = (.afterLess, .grow) := rfl
  have hconsume : Automaton.consume Tag.State.afterLess byte =
      (.tagNameStart, .closeBefore .symbol) := by
    refine Automaton.consume_of_transition ?_
    show Tag.transition .afterLess byte = (.tagNameStart, .emitBefore .symbol)
    simp [Tag.transition, hpercent, hslash, hbyte]
  refine attempt_of_symbol (step_of_symbol ?_ (by decide) (Nat.le_add_left 1 _)) ?_ (by decide)
  · show Scan.run Tag.State.outside 0 (more + 1 + 1) (Byte.less :: byte :: rest) = _
    simp only [Scan.run, if_neg (show Byte.less ≠ Byte.newline by decide), hless, if_neg hline,
      hconsume]
  · simp +decide [searchFrom, search, Delimiters.start, Delimiters.follow, Delimiters.advance, bind,
      Except.bind, hpercent]

variable {dialect base last}

/-- Behind the `<` of an element there is a byte of a name. -/
theorem exists_nameByte_of_openingTag (hvalid : delimiters.Validated) {candidate : Bytes}
    (hmem : candidate ∈ delimiters.prefixes)
    (h : [Byte.less] ++ candidate ++ [Byte.colon] <+: text) :
    ∃ byte, Byte.isNameByte byte = true ∧ [Byte.less, byte] <+: text := by
  obtain ⟨byte, name, rfl⟩ := List.exists_cons_of_ne_nil (ne_nil_of_validated hvalid hmem)
  refine ⟨byte, isNameByte_of_validated hvalid hmem byte (List.mem_cons_self ..), ?_⟩
  exact (List.prefix_append [Byte.less, byte] (name ++ [Byte.colon])).trans h

/-- A comment is not searched, be it complete or not. -/
theorem seek_of_comment {view : View} {found : Step Frame}
    (h : isTagComment view found = .ok true) :
    dialect.seek view state frame found = .ok .clear := by
  unfold Dialect.seek
  split
  · rw [h]
    rfl
  · rfl

/-- A token of the tag language always completes. -/
theorem exists_commit_opened (base : State) (found : Token) (t : Tag.State) :
    ∃ next, commit (opened base) found (.tag (Scan.atBoundary t)) =
      .ok (.token ⟨globalId .tag found.id, found.len⟩ next) := by
  by_cases hopen : t = .fragmentEnd
  · rw [hopen]
    exact ⟨_, rfl⟩
  · exact ⟨_, @commit_of_open (opened base) (.tag (Scan.atBoundary t)) hopen found⟩

/-- In a window that holds all of `<%--` the tag language reads on inside the comment. -/
theorem step_of_opener_take (last : Bool) (h : opener <+: text.take room) :
    Scan.step ⟨text, room, last⟩ (Scan.atBoundary Tag.State.outside) =
      Scan.step ⟨text, room, last⟩ ⟨Tag.State.comment, 4⟩ := by
  obtain ⟨⟨rest, rfl⟩, hopener⟩ := List.prefix_take_iff.mp h
  obtain ⟨more, rfl⟩ : ∃ more, room = more + 4 := Nat.exists_eq_add_of_le' hopener
  rfl

/-- A comment that the window does not complete is held back inside it. -/
theorem attempt_of_heldComment (dialect : Dialect) (base : State) {held : Scan Tag.State}
    (h : opener <+: text.take room)
    (hstep : Scan.step ⟨text, room, last⟩ (Scan.atBoundary Tag.State.outside) = .ok (.hold held))
    (hle : held.read ≤ text.length) (hread : held.read = room) :
    ∃ next, dialect.attempt ⟨text, room, last⟩ (opened base) = .ok (.step (.hold next)) ∧
      next.Encloses := by
  have hactive : (opened base).active = .ok (.tag (Scan.atBoundary .outside)) := rfl
  have hfound : (Frame.tag (Scan.atBoundary .outside)).step ⟨text, room, last⟩ =
      .ok (.hold (.tag held)) := by
    rw [Frame.step, hstep]
    rfl
  rw [step_of_opener_take last h] at hstep
  have hcomment : Tag.inProgress held.state = .comment :=
    (Tag.inProgress_eq_comment_iff held.state).mpr (Tag.comment_of_hold hstep rfl)
  have hpos : 0 < room := Nat.lt_of_lt_of_le (by decide) (List.prefix_take_iff.mp h).2
  have hseen := isTagComment_hold_tag text last held hle
  rw [hread, hcomment, decide_eq_true hpos] at hseen
  have hattempt := Dialect.attempt_of_parts hactive hfound (checkCandidate_hold (opened base) _)
    (@seek_of_comment dialect (opened base) (.tag (Scan.atBoundary .outside)) _ _ hseen)
  have hinside : ((opened base).put (.tag held)).Encloses :=
    encloses_put (Or.inl rfl) (Tag.isInside_of_hold hstep rfl)
  exact ⟨_, hattempt, hinside⟩

/-- A comment that the window completes is the first token of its fragment. -/
theorem attempt_of_readComment (dialect : Dialect) (base : State) {found : Token} {t : Tag.State}
    (h : opener <+: text.take room)
    (hstep : Scan.step ⟨text, room, last⟩ (Scan.atBoundary Tag.State.outside) =
      .ok (.token found (Scan.atBoundary t))) :
    ∃ next, dialect.attempt ⟨text, room, last⟩ (opened base) =
        .ok (.step (.token ⟨commentId, found.len⟩ next)) ∧ next.Encloses := by
  have hactive : (opened base).active = .ok (.tag (Scan.atBoundary .outside)) := rfl
  have hfound : (Frame.tag (Scan.atBoundary .outside)).step ⟨text, room, last⟩ =
      .ok (.token found (.tag (Scan.atBoundary t))) := by
    rw [Frame.step, hstep]
    rfl
  rw [step_of_opener_take last h] at hstep
  have hid := Tag.comment_of_token hstep rfl (by decide)
  have hseen : isTagComment ⟨text, room, last⟩ (.token found (.tag (Scan.atBoundary t))) =
      .ok true := by
    rw [isTagComment, hid]
    rfl
  have hopen : (Frame.tag (Scan.atBoundary t)).Open → Tag.isInside t = true :=
    fun hne => (Tag.isInside_of_token hstep rfl).resolve_right hne
  obtain ⟨next, hcommit⟩ := exists_commit_opened base found t
  have hattempt := Dialect.attempt_of_parts hactive hfound rfl
    (@seek_of_comment dialect (opened base) (.tag (Scan.atBoundary .outside)) _ _ hseen)
  refine ⟨next, ?_, encloses_of_commit (Or.inl rfl) hopen hcommit⟩
  rw [hattempt]
  simp only [conclude, hcommit, hid, bind, Except.bind]
  rfl

/-- In a window that holds all of `<%--` the comment is the first token, or it is held back inside
the comment. -/
theorem attempt_of_commentOpener (dialect : Dialect) (base : State) (hroom : room ≤ text.length)
    (hlast : last = true → room = text.length) (h : opener <+: text.take room) :
    ∃ step, dialect.attempt ⟨text, room, last⟩ (opened base) = .ok (.step step) ∧
      step.state.Encloses ∧ ∀ token next, step = .token token next → token.id = commentId := by
  rcases Scan.step_atBoundary (Scan.ready_of_isBoundary (show Boundaries.isBoundary
    Tag.State.outside = true from rfl) _) hroom hlast with
    ⟨held, hstep, hreads, hread, -⟩ | ⟨found, t, hstep, -, -, -, -⟩
  · obtain ⟨next, hattempt, hencloses⟩ :=
      attempt_of_heldComment dialect base h hstep hreads.le hread
    exact ⟨_, hattempt, hencloses, fun _ _ heq => by cases heq⟩
  · obtain ⟨next, hattempt, hencloses⟩ := attempt_of_readComment dialect base h hstep
    exact ⟨_, hattempt, hencloses, fun _ _ heq => by cases heq; rfl⟩

/-! ## What markup and tags agree on -/

/-- The text starts with the opening of a fragment. -/
inductive OpensFragment (prefixes : List Bytes) (text : Bytes) : Prop where
  | comment (h : opener <+: text)
  | directive (h : [Byte.less, Byte.percent, Byte.commercialAt] <+: text)
  | openingTag {candidate : Bytes} (mem : candidate ∈ prefixes)
      (h : [Byte.less] ++ candidate ++ [Byte.colon] <+: text)
  | closingTag {candidate : Bytes} (mem : candidate ∈ prefixes)
      (h : [Byte.less, Byte.slash] ++ candidate ++ [Byte.colon] <+: text)

/-- These are all that opens a fragment in markup. -/
theorem opens_of_spelled? {prefixes : List Bytes}
    (h : spelled? prefixes .host text = some .enterTag) : OpensFragment prefixes text := by
  rw [spelled?] at h
  split at h
  · rename_i hword
    rcases hword with hword | hword
    · exact .directive hword
    · exact .comment hword
  · split at h
    · cases h
    · split at h
      · cases h
      · split at h
        · rename_i hprefixed
          obtain ⟨candidate, hmem, hword | hword⟩ := hprefixed
          · exact .openingTag hmem hword
          · exact .closingTag hmem hword
        · cases h

/-- An element is told where the text does not start with `<%`. -/
theorem spelled?_of_prefixed {prefixes : List Bytes} (h : Prefixed prefixes text)
    (hpercent : ¬ [Byte.less, Byte.percent] <+: text) :
    spelled? prefixes .host text = some .enterTag := by
  have hscript : ¬ ([Byte.less, Byte.percent, Byte.equals] <+: text ∨
      [Byte.less, Byte.percent, Byte.bang] <+: text) := by
    rintro (hword | hword)
    · exact hpercent ((List.prefix_append [_, _] [_]).trans hword)
    · exact hpercent ((List.prefix_append [_, _] [_]).trans hword)
  rw [spelled?, if_neg hscript, if_neg hpercent, if_pos h, ite_self]

/-- All of these open one. -/
theorem spelled?_of_opens (hvalid : delimiters.Validated)
    (h : OpensFragment delimiters.prefixes text) :
    spelled? delimiters.prefixes .host text = some .enterTag := by
  cases h with
  | comment h => exact spelled?_of_opener _ h
  | directive h =>
      rw [spelled?]
      exact if_pos (Or.inl h)
  | openingTag mem h =>
      obtain ⟨byte, hbyte, hword⟩ := exists_nameByte_of_openingTag hvalid mem h
      refine spelled?_of_prefixed ⟨_, mem, Or.inl h⟩ fun hpercent => ?_
      obtain ⟨rest, rfl⟩ := hword
      cases (List.cons_prefix_cons.mp (List.cons_prefix_cons.mp hpercent).2).1
      exact absurd hbyte (by decide)
  | closingTag mem h =>
      refine spelled?_of_prefixed ⟨_, mem, Or.inr h⟩ fun hpercent => ?_
      obtain ⟨rest, rfl⟩ := h
      exact absurd (List.cons_prefix_cons.mp (List.cons_prefix_cons.mp hpercent).2).1 (by decide)

/-- A fragment stands inside where the tag language does. -/
theorem encloses_inFragment {t : Tag.State} (ht : Tag.isInside t = true) :
    (inFragment (opened base) t).Encloses :=
  @encloses_put (opened base) (.tag (Scan.atBoundary t)) (Or.inl rfl) ht

/-- In a window that tells the opening of a fragment the tag language reads it, or all of `<%--`,
and stands inside the fragment. -/
theorem exists_attempt_of_opens (dialect : Dialect) (hvalid : dialect.delimiters.Validated)
    (base : State) (hroom : room ≤ text.length) (hlast : last = true → room = text.length)
    (h : OpensFragment dialect.delimiters.prefixes (text.take room)) :
    ∃ step, dialect.attempt ⟨text, room, last⟩ (opened base) = .ok (.step step) ∧
      step.state.Encloses := by
  cases h with
  | comment h =>
      obtain ⟨step, hattempt, hencloses, -⟩ := attempt_of_commentOpener dialect base hroom hlast h
      exact ⟨step, hattempt, hencloses⟩
  | directive h =>
      exact ⟨_, attempt_of_directive dialect base last h, encloses_inFragment rfl⟩
  | openingTag mem h =>
      obtain ⟨byte, hbyte, hword⟩ := exists_nameByte_of_openingTag hvalid mem h
      exact ⟨_, attempt_of_openingTag dialect base last hbyte hword, encloses_inFragment rfl⟩
  | closingTag mem h =>
      have hword : [Byte.less, Byte.slash] <+: text.take room :=
        (List.prefix_append [_, _] _).trans h
      exact ⟨_, attempt_of_closingTag dialect base last hword, encloses_inFragment rfl⟩

end Page

end PageLexing
