import PageLexing.Proofs.Sessions

/-!
# What a step of a page reads

A step of a page reads one token. The token changes between script and what is around it,
or the active language reads it, or a fragment is opened first and the tag language reads
it. Which of these it is can be told from the delimiters of the text, and the number of the
token tells it as well.

## Main results

* `owns_of_step`, `owns_of_pendingId` — the numbers of a language's tokens.
* `scans_or_changes`, `attempt_reads` — what one attempt comes to.
* `endsIn_of_attempt` — where a token ends, and with which class.
* `Dialect.exists_reads` — what a step comes to.
-/

namespace PageLexing

/-! ## The kinds of a language's tokens -/

/-- All kinds that an automaton gives to its tokens have a property. -/
structure Automaton.Yields (σ : Type) {κ : Type} [Automaton σ κ] (P : κ → Prop) : Prop where
  transition : ∀ (s : σ) (b : UInt8) (kind : κ),
    (Automaton.transition s b).2 = .emit kind ∨ (Automaton.transition s b).2 = .emitBefore kind →
      P kind
  inProgress : ∀ s : σ, P (Automaton.inProgress s)
  atLineEnd : ∀ s : σ, P (Automaton.atLineEnd s)
  atEndOfInput : ∀ s : σ, P (Automaton.atEndOfInput s)
  refine : ∀ (kind : κ) (word : Bytes), P kind → P (Automaton.refine (σ := σ) kind word)

/-- Nothing is asked of the kinds. -/
theorem Automaton.yields_true (σ : Type) {κ : Type} [Automaton σ κ] :
    Automaton.Yields σ (fun _ : κ => True) :=
  ⟨fun _ _ _ _ => trivial, fun _ => trivial, fun _ => trivial, fun _ => trivial,
    fun _ _ _ => trivial⟩

namespace Tag

theorem transition_ne_scriptDelimiter (s : State) (b : UInt8) (kind : Kind)
    (h : (transition s b).2 = .emit kind ∨ (transition s b).2 = .emitBefore kind) :
    kind ≠ .scriptDelimiter := by
  revert h
  fun_cases transition s b <;>
    simp only [beforeFragment, awaitAttribute, awaitGreater, skipError] <;>
    (try (repeat' split)) <;>
    simp +contextual [eq_comm]

/-- Tags have no script delimiters of their own. -/
theorem yields_ne_scriptDelimiter :
    Automaton.Yields State (fun kind => kind ≠ Kind.scriptDelimiter) where
  transition := transition_ne_scriptDelimiter
  inProgress s := by cases s <;> exact nofun
  atLineEnd s := by cases s <;> exact nofun
  atEndOfInput s := by cases s <;> exact nofun
  refine _ _ h := h

end Tag

namespace Scan

open Automaton

variable {σ κ : Type} [Automaton σ κ] {P : κ → Prop}

theorem kind_of_run (hyields : Yields σ P) {s : σ} {n room : Nat} {ahead : Bytes}
    {scan : Scan σ} {kind : κ} (h : run s n room ahead = (scan, .kind kind)) : P kind := by
  obtain ⟨t, b, -, hconsume⟩ := run_induction_kind (P := fun _ => True)
    (fun _ _ _ _ _ => trivial) trivial h
  rcases hconsume with hclose | hclose
  · obtain ⟨r, hr, -⟩ := Boundaries.exists_transition_of_consume hclose
    exact hyields.transition r b kind (Or.inl (by rw [hr]; rfl))
  · obtain ⟨r, hr, -⟩ := Boundaries.exists_transition_of_consume hclose
    exact hyields.transition r b kind (Or.inr (by rw [hr]; rfl))

variable [TokenKind κ]

/-- A token is a newline that stands alone, or it has one of the kinds of its language. -/
theorem kind_of_step (hyields : Yields σ P) {view : View} {scan after : Scan σ} {found : Token}
    (h : step view scan = .ok (.token found after)) :
    found = Token.endOfLine ∧ (∃ next, next.read = 0 ∧
        run scan.state scan.read (view.room - scan.read) (view.text.drop scan.read) =
          (next, .line)) ∨
      ∃ kind, P kind ∧ found.id = TokenKind.id kind := by
  obtain ⟨next, ending, hrun, hline | ⟨kind, hfinish, hkind⟩⟩ := token_cases h
  · obtain ⟨rfl, hread, hfound, -⟩ := hline
    exact Or.inl ⟨hfound, next, hread, hrun⟩
  · have hyield : P kind := by
      rcases hkind with rfl | ⟨-, rfl⟩ | ⟨-, rfl⟩
      · exact kind_of_run hyields hrun
      · exact hyields.atLineEnd next.state
      · exact hyields.atEndOfInput next.state
    obtain ⟨word, rfl, -⟩ := token_of_finish hfinish
    exact Or.inr ⟨_, hyields.refine kind word hyield, rfl⟩

/-- Before a token, the newline that stands alone is the next byte. -/
theorem id_of_step (hyields : Yields σ P) {view : View} {base : σ} {after : Scan σ}
    {found : Token} (h : step view (atBoundary base) = .ok (.token found after)) :
    found = Token.endOfLine ∧ view.text.head? = some Byte.newline ∨
      ∃ kind, P kind ∧ found.id = TokenKind.id kind := by
  rcases kind_of_step hyields h with ⟨hfound, next, hread, hrun⟩ | hkind
  · have hhead := (newline_of_line hrun).1
    rw [hread] at hhead
    exact Or.inl ⟨hfound, hhead⟩
  · exact Or.inr hkind

omit [TokenKind κ] in
/-- An unfinished token has one of the kinds of its language. -/
theorem kind_of_pendingKind (hyields : Yields σ P) {view : View} {scan : Scan σ} {kind : κ}
    (h : pendingKind view scan = .ok (some kind)) : P kind := by
  unfold pendingKind at h
  split at h
  · cases h
  · cases hword : view.word scan.read with
    | error fault => simp [hword, bind, Except.bind] at h
    | ok word =>
        simp only [hword, bind, Except.bind, Except.ok.injEq, Option.some.injEq] at h
        rw [← h]
        exact hyields.refine _ word (hyields.inProgress scan.state)

end Scan

namespace Page

/-! ## The numbers of a language's tokens -/

/-- The number is that of a token that `language` reads. -/
def Owns (language : Language) (id : TokenId) : Prop :=
  languageOf? id = some language ∧ id ≠ delimiterId

/-- Newlines belong to no language. -/
theorem languageOf?_endOfLine : languageOf? TokenId.endOfLine = none := by decide

/-- A newline is no script delimiter. -/
theorem endOfLine_ne_delimiterId : TokenId.endOfLine ≠ delimiterId := by decide

theorem owns_markup (kind : Markup.Kind) : Owns .host (globalId .host kind.id) := by
  have hmem : kind.id ∈ Vocabulary.kindIds (lexicon .host) := by cases kind <;> decide
  refine ⟨languageOf?_globalId hmem, fun heq => ?_⟩
  cases ((globalId_eq_delimiterId_iff hmem).mp heq).1

theorem owns_tag {kind : Tag.Kind} (h : kind ≠ .scriptDelimiter) :
    Owns .tag (globalId .tag kind.id) := by
  have hmem : kind.id ∈ Vocabulary.kindIds (lexicon .tag) := by cases kind <;> decide
  refine ⟨languageOf?_globalId hmem, fun heq => ?_⟩
  exact h (Tag.Kind.id_injective ((globalId_eq_delimiterId_iff hmem).mp heq).2)

theorem owns_script (kind : Script.Kind) : Owns .script (globalId .script kind.id) := by
  have hmem : kind.id ∈ Vocabulary.kindIds (lexicon .script) := by cases kind <;> decide
  refine ⟨languageOf?_globalId hmem, fun heq => ?_⟩
  cases ((globalId_eq_delimiterId_iff hmem).mp heq).1

/-- A token that a frame reads is a newline, or its language owns its number. -/
theorem owns_of_step {view : View} {frame after : Frame} {found : Token}
    (hread : frame.read = 0) (h : frame.step view = .ok (.token found after)) :
    found = Token.endOfLine ∧ view.text.head? = some Byte.newline ∨
      Owns frame.language (globalId frame.language found.id) := by
  cases frame with
  | host scan =>
      obtain ⟨next, hstep, -⟩ := Step.exists_of_map h
      rw [← Scan.atBoundary_state hread] at hstep
      rcases Scan.id_of_step (Automaton.yields_true Markup.State) hstep with hline | ⟨kind, -, hid⟩
      · exact Or.inl hline
      · rw [hid]
        exact Or.inr (owns_markup kind)
  | tag scan =>
      obtain ⟨next, hstep, -⟩ := Step.exists_of_map h
      rw [← Scan.atBoundary_state hread] at hstep
      rcases Scan.id_of_step Tag.yields_ne_scriptDelimiter hstep with
        hline | ⟨kind, hkind, hid⟩
      · exact Or.inl hline
      · rw [hid]
        exact Or.inr (owns_tag hkind)
  | script scan =>
      obtain ⟨next, hstep, -⟩ := Step.exists_of_map h
      rw [← Scan.atBoundary_state hread] at hstep
      rcases Scan.id_of_step (Automaton.yields_true Script.State) hstep with hline | ⟨kind, -, hid⟩
      · exact Or.inl hline
      · rw [hid]
        exact Or.inr (owns_script kind)

/-- The language of a frame owns the number of its unfinished token. -/
theorem owns_of_pendingId {view : View} {frame : Frame} {id : TokenId}
    (h : frame.pendingId view = .ok (some id)) :
    Owns frame.language (globalId frame.language id) := by
  have hkind : ∀ {κ : Type} [TokenKind κ] {pending : Except Fault (Option κ)},
      pending.map (Option.map TokenKind.id) = .ok (some id) →
        ∃ kind, pending = .ok (some kind) ∧ TokenKind.id kind = id := by
    intro κ _ pending h
    cases pending with
    | error fault => cases h
    | ok pending =>
        obtain ⟨kind, rfl, hid⟩ := Option.map_eq_some_iff.mp (Except.ok.inj h)
        exact ⟨kind, rfl, hid⟩
  cases frame with
  | host scan =>
      obtain ⟨kind, -, rfl⟩ := hkind h
      exact owns_markup kind
  | tag scan =>
      obtain ⟨kind, hpending, rfl⟩ := hkind h
      exact owns_tag (Scan.kind_of_pendingKind Tag.yields_ne_scriptDelimiter hpending)
  | script scan =>
      obtain ⟨kind, -, rfl⟩ := hkind h
      exact owns_script kind

/-! ## What an attempt reads -/

/-- The number of tag comments. -/
def commentId : TokenId := globalId .tag Tag.Kind.comment.id

/-- The token changes between script and what is around it. -/
structure Delimits (delimiters : Delimiters) (text : Bytes) (base : State) (token : Token)
    (next : State) : Prop where
  id : token.id = delimiterId
  nesting :
    delimiters.delimiter? base.nesting.active text = some (.enterScript token.len) ∧
        base.nesting.enter .script = .ok next.nesting ∨
      delimiters.delimiter? base.nesting.active text = some (.leaveScript token.len) ∧
        base.nesting.leave = .ok next.nesting

/-- The active language reads the token. -/
structure Scans (dialect : Dialect) (text : Bytes) (base : State) (token : Token)
    (next : State) : Prop where
  id : token = Token.endOfLine ∧ text.head? = some Byte.newline ∨
    Owns base.nesting.active token.id
  line : token = Token.endOfLine ∨ Byte.newline ∉ text.take token.len
  free : dialect.switching = true → token.id ≠ commentId →
    Free dialect.delimiters base.nesting.active text 0 token.len
  /-- Only the end of a fragment changes the nesting. -/
  nesting : next.nesting = base.nesting ∨ base.nesting = .hostTag ∧ next.nesting = .host

variable {dialect : Dialect} {text : Bytes} {base : State} {start : Frame}

/-- A token is read by the language that owns its number. -/
theorem active_of_owns {token : Token} {next : State} {language : Language}
    (h : Scans dialect text base token next) (howns : Owns language token.id) :
    base.nesting.active = language := by
  rcases h.id with ⟨hline, -⟩ | hactive
  · rw [hline] at howns
    exact absurd (languageOf?_endOfLine.symm.trans howns.1) nofun
  · exact Option.some.inj (hactive.1.symm.trans howns.1)

/-- What the completion of a token does to the nesting. -/
theorem nesting_of_commit {state next : State} {found token : Token} {frame : Frame}
    (hlanguage : frame.language = state.nesting.active)
    (h : commit state found frame = .ok (.token token next)) :
    token = ⟨globalId frame.language found.id, found.len⟩ ∧
      (next.nesting = state.nesting ∨ state.nesting = .hostTag ∧ next.nesting = .host) := by
  unfold commit at h
  split at h
  · have hnesting := Nesting.eq_hostTag_of_active hlanguage.symm
    rw [hnesting] at h
    cases h
    exact ⟨rfl, Or.inr ⟨hnesting, rfl⟩⟩
  · cases h
    exact ⟨rfl, Or.inl (State.nesting_put state frame)⟩

/-- A candidate in which no delimiter was found is read by its language. -/
theorem scans_of_commit (h : base.Ready text) (hactive : base.active = .ok start)
    {found token : Token} {after : Frame} {next : State}
    (hwhole : start.step (View.whole text) = .ok (.token found after))
    (hlanguage : after.language = start.language)
    (hfree : Searched dialect text start →
      Free dialect.delimiters start.language text 0 found.len)
    (hcommit : commit base found after = .ok (.token token next)) :
    Scans dialect text base token next := by
  have hstart : start.language = base.nesting.active := State.language_active hactive
  have hready := (h.of_active hactive).1
  obtain ⟨rfl, hnesting⟩ := nesting_of_commit (hlanguage.trans hstart) hcommit
  refine ⟨?_, ?_, ?_, hnesting⟩
  · rcases owns_of_step (Frame.read_of_ready hready) hwhole with ⟨rfl, hhead⟩ | howns
    · exact Or.inl ⟨rfl, hhead⟩
    · rw [hlanguage, ← hstart]
      exact Or.inr howns
  · rcases Frame.newline_of_step (Frame.read_of_ready hready) hwhole with ⟨rfl, -⟩ | hnone
    · exact Or.inl rfl
    · exact Or.inr hnone
  · intro hswitching hcomment
    rw [← hstart]
    refine hfree ⟨hswitching, ?_⟩
    rintro ⟨found', after', hwhole', hid⟩
    rw [hwhole] at hwhole'
    cases hwhole'
    exact hcomment (by rw [hid]; rfl)

/-- A candidate that ends before a delimiter is read by its language. -/
theorem scans_of_cut (h : base.Ready text) (hactive : base.active = .ok start)
    {offset : Nat} {switch : Switch}
    (hfirst : First dialect.delimiters start.language text 0 (offset + 1) switch)
    {found : Token} {after : Frame}
    (hwhole : start.step (View.whole text) = .ok (.token found after))
    (hlt : offset + 1 < found.len) (hlen : found.len ≤ text.length) :
    ∃ token next, cut (View.whole text) base start (offset + 1) = .ok (.token token next) ∧
      token.len = offset + 1 ∧ Scans dialect text base token next := by
  have hbase := pending_of_ready dialect h hactive
  have hstart : start.language = base.nesting.active := State.language_active hactive
  have hready := (h.of_active hactive).1
  obtain ⟨held, hheld, hreads, hread⟩ := exists_held hready hwhole hlt (by omega)
  have hlanguage := Frame.language_of_reads hreads
  obtain ⟨id, hid⟩ := Frame.pendingId_of_reads hreads (by omega)
  have hcut := cut_of_pending hbase text.length true
    (by rw [Frame.read_of_ready hready]; omega) hheld hlanguage hid
  refine ⟨_, _, hcut, rfl, ?_, ?_, ?_, ?_⟩
  · rw [← hstart, ← hlanguage]
    exact Or.inr (owns_of_pendingId hid)
  · have hnone := Frame.newline_notMem_of_reads hreads
    rw [hread] at hnone
    exact Or.inr hnone
  · intro _ _
    rw [← hstart]
    exact hfirst.free
  · exact Or.inl (State.nesting_put base held.settled)

/-- An attempt at the whole text reads its candidate, to the end or up to the first delimiter in
it, unless a delimiter at its start changes the language. -/
theorem scans_or_changes (dialect : Dialect) (h : base.Ready text)
    (hactive : base.active = .ok start) {found : Token} {after : Frame}
    (hwhole : start.step (View.whole text) = .ok (.token found after)) :
    (∃ token next, dialect.attempt (View.whole text) base = .ok (.step (.token token next)) ∧
        Scans dialect text base token next ∧
        (token.len = found.len ∨ ∃ switch, Searched dialect text start ∧
          First dialect.delimiters start.language text 0 token.len switch)) ∨
      ∃ switch, Searched dialect text start ∧
        First dialect.delimiters start.language text 0 0 switch ∧
        switch.Suits start.language text.length ∧
        dialect.attempt (View.whole text) base = change base switch := by
  have hready := (h.of_active hactive).1
  obtain ⟨hlen, hlanguage, hafter⟩ : found.len ≤ text.length ∧
      after.language = start.language ∧ after.Ready (text.drop found.len) := by
    rcases Frame.step_of_ready text.length true hready (Nat.le_refl _) (fun _ => rfl) with
      ⟨held, hheld, -⟩ | ⟨token, next, -, htoken, -, hlen, hnext, hlanguage⟩
    · rw [show (⟨text, text.length, true⟩ : View) = View.whole text from rfl, hwhole] at hheld
      cases hheld
    · rw [hwhole] at htoken
      cases htoken
      exact ⟨hlen, hlanguage, hnext⟩
  obtain ⟨finding, hholds, hattempt⟩ := exists_finding dialect h hactive hwhole
  cases finding with
  | clear =>
      obtain ⟨next, hcommit, -⟩ :=
        ready_commit found h (hlanguage.trans (State.language_active hactive)) hafter
      refine Or.inl ⟨_, next, ?_,
        scans_of_commit h hactive hwhole hlanguage hholds hcommit, Or.inl rfl⟩
      rw [hattempt]
      simp only [conclude, hcommit, bind, Except.bind]
  | suspend offset probe => cases hholds.2.1
  | «switch» offset switch =>
      obtain ⟨hsearched, -, hfirst, hlt, hsuits⟩ := hholds
      cases offset with
      | zero => exact Or.inr ⟨switch, hsearched, hfirst, hsuits, hattempt⟩
      | succ offset =>
          obtain ⟨token, next, hcut, htoken, hscans⟩ :=
            scans_of_cut h hactive hfirst hwhole hlt hlen
          refine Or.inl ⟨token, next, ?_, hscans, Or.inr ⟨switch, hsearched, htoken ▸ hfirst⟩⟩
          rw [hattempt]
          simp only [conclude, hcut, bind, Except.bind]

/-- What a delimiter at the start of the token comes to. -/
theorem reads_of_change {switch : Switch} {outcome : Attempt}
    (hdelimiter : dialect.delimiters.delimiter? base.nesting.active text = some switch)
    (h : change base switch = .ok outcome) :
    (∃ inner, outcome = .opened inner ∧ switch = .enterTag ∧
        base.nesting.enter .tag = .ok inner.nesting) ∨
      ∃ token next, outcome = .step (.token token next) ∧
        Delimits dialect.delimiters text base token next := by
  cases switch with
  | enterTag =>
      cases henter : base.nesting.enter .tag with
      | error fault => simp [change, henter, bind, Except.bind] at h
      | ok inner =>
          simp only [change, henter, bind, Except.bind, Except.ok.injEq] at h
          subst h
          exact Or.inl ⟨_, rfl, rfl, rfl⟩
  | enterScript len =>
      cases henter : base.nesting.enter .script with
      | error fault => simp [change, henter, bind, Except.bind] at h
      | ok inner =>
          simp only [change, henter, bind, Except.bind, Except.ok.injEq] at h
          subst h
          exact Or.inr ⟨_, _, rfl, rfl, Or.inl ⟨hdelimiter, henter⟩⟩
  | leaveScript len =>
      cases hleave : base.nesting.leave with
      | error fault => simp [change, hleave, bind, Except.bind] at h
      | ok outer =>
          simp only [change, hleave, bind, Except.bind, Except.ok.injEq] at h
          subst h
          exact Or.inr ⟨_, _, rfl, rfl, Or.inr ⟨hdelimiter, hleave⟩⟩

/-- An attempt opens a fragment, or it reads a delimiter or a token of the active
language. -/
theorem attempt_reads (dialect : Dialect) (h : base.Ready text) (hne : text ≠ []) :
    (∃ inner, dialect.attempt (View.whole text) base = .ok (.opened inner) ∧
        inner.Ready text ∧
        dialect.delimiters.delimiter? base.nesting.active text = some .enterTag ∧
        base.nesting.enter .tag = .ok inner.nesting) ∨
      ∃ token next, dialect.attempt (View.whole text) base = .ok (.step (.token token next)) ∧
        (Delimits dialect.delimiters text base token next ∨
          Scans dialect text base token next) := by
  have hpos := List.length_pos_iff.mpr hne
  obtain ⟨start, hactive, hready, -, hstart⟩ := State.exists_active_of_ready h
  obtain ⟨found, after, hwhole, -⟩ := exists_token hready hpos
  rcases scans_or_changes dialect h hactive hwhole with
    ⟨token, next, hattempt, hscans, -⟩ | ⟨switch, -, hfirst, hsuits, hattempt⟩
  · exact Or.inr ⟨token, next, hattempt, Or.inr hscans⟩
  · have hdelimiter := hfirst.starts
    obtain ⟨byte, ahead, htext, hbyte⟩ := Delimiters.head_of_delimiter? hdelimiter
    rw [List.drop_zero] at htext hdelimiter
    rw [hstart] at hdelimiter hsuits
    obtain ⟨outcome, hchange, hadvances⟩ := advances_change h (by rw [htext]; rfl) hbyte hpos hsuits
    rw [hchange] at hattempt
    rcases reads_of_change hdelimiter hchange with
      ⟨inner, rfl, rfl, henter⟩ | ⟨token, next, rfl, hdelimits⟩
    · exact Or.inl ⟨inner, hattempt, hadvances.2, hdelimiter, henter⟩
    · exact Or.inr ⟨token, next, hattempt, Or.inl hdelimits⟩

/-- Where the active language ends a token that is no script delimiter, and the state that this
leaves behind. -/
inductive EndsIn (dialect : Dialect) (text : Bytes) (base : State) (start : Frame) (token : Token)
    (next : State) : Prop where
  /-- Where it would end the token on its own. -/
  | whole {after : Frame} {found : Token}
      (step : start.step (View.whole text) = .ok (.token found after))
      (commits : commit base found after = .ok (.token token next))
      (eq : token = ⟨globalId start.language found.id, found.len⟩)
  /-- Before that, in front of a delimiter; the token has the class that it has there. -/
  | cut {after held : Frame} {found : Token} {switch : Switch} {id : TokenId}
      (step : start.step (View.whole text) = .ok (.token found after))
      (pos : 0 < token.len) (lt : token.len < found.len) (reads : Frame.Reads text start held)
      (read : held.read = token.len)
      (first : First dialect.delimiters start.language text 0 token.len switch)
      (pending : held.pendingId (View.whole text) = .ok (some id))
      (eq : token.id = globalId start.language id)
      (leaves : next = (base.put held.settled).fresh)

/-- An attempt that comes to a token ends it as the active language does, unless the language is
changed. -/
theorem endsIn_of_attempt {token : Token} {next : State} (h : base.Ready text) (hne : text ≠ [])
    (hactive : base.active = .ok start)
    (hattempt : dialect.attempt (View.whole text) base = .ok (.step (.token token next)))
    (hid : token.id ≠ delimiterId) : EndsIn dialect text base start token next := by
  have hready := (h.of_active hactive).1
  have hlanguage : start.language = base.nesting.active := State.language_active hactive
  obtain ⟨found, after, hwhole, hlen⟩ := exists_token hready (List.length_pos_iff.mpr hne)
  obtain ⟨finding, hholds, hconclude⟩ := exists_finding dialect h hactive hwhole
  rw [hattempt] at hconclude
  cases finding with
  | clear =>
      have hafter := (Frame.after_of_token hwhole).2
      cases hcommit : commit base found after with
      | error fault => simp [conclude, hcommit, bind, Except.bind] at hconclude
      | ok step =>
          simp only [conclude, hcommit, bind, Except.bind] at hconclude
          cases hconclude
          have htoken := (nesting_of_commit (hafter.trans hlanguage) hcommit).1
          rw [hafter] at htoken
          exact .whole hwhole hcommit htoken
  | suspend offset probe => cases hconclude
  | «switch» offset switch =>
      obtain ⟨-, -, hfirst, hlt, -⟩ := hholds
      cases offset with
      | zero =>
          have hdelimiter := hfirst.starts
          rw [List.drop_zero, hlanguage] at hdelimiter
          rcases reads_of_change hdelimiter hconclude.symm with
            ⟨inner, hopened, -⟩ | ⟨token, next, hstep, hdelimits⟩
          · cases hopened
          · cases hstep
            exact absurd hdelimits.id hid
      | succ offset =>
          obtain ⟨held, hheld, hreads, hread⟩ := exists_held hready hwhole hlt (by omega)
          have hsame := Frame.language_of_reads hreads
          obtain ⟨id, hpending⟩ := Frame.pendingId_of_reads hreads (by omega)
          have hcut := cut_of_pending (pending_of_ready dialect h hactive) text.length true
            (by rw [Frame.read_of_ready hready]; omega) hheld hsame hpending
          simp only [conclude, hcut, bind, Except.bind] at hconclude
          cases hconclude
          exact .cut hwhole (Nat.succ_pos _) hlt hreads hread hfirst hpending (by rw [hsame]) rfl

end Page

namespace Dialect

open Page

/-- The state from which a token is read: the one before it, or the one behind the opening of a
fragment at its start. -/
inductive ReadsFrom (dialect : Dialect) (text : Bytes) (base : State) (token : Token)
    (next : State) : State → Prop where
  | active (h : dialect.attempt (View.whole text) base = .ok (.step (.token token next))) :
      ReadsFrom dialect text base token next base
  | opened {inner : State} (hopened : dialect.attempt (View.whole text) base = .ok (.opened inner))
      (h : dialect.attempt (View.whole text) inner = .ok (.step (.token token next))) :
      ReadsFrom dialect text base token next inner

/-- A step reads a delimiter or a token of the active language, perhaps after it has opened a
fragment. -/
theorem exists_reads {dialect : Dialect} {text : Bytes} {base next : State} {token : Token}
    (h : base.Ready text) (hne : text ≠ [])
    (hstep : dialect.step (View.whole text) base = .ok (.token token next)) :
    ∃ inner, ReadsFrom dialect text base token next inner ∧
      (inner = base ∨ base.nesting = .host ∧ inner.nesting = .hostTag ∧
        dialect.delimiters.delimiter? .host text = some .enterTag) ∧
      (Delimits dialect.delimiters text inner token next ∨
        Scans dialect text inner token next) := by
  rcases attempt_reads dialect h hne with
    ⟨inner, hattempt, hinner, hdelimiter, henter⟩ | ⟨found, after, hattempt, hreads⟩
  · have hnesting := Nesting.eq_host_of_enter_tag henter
    rw [step_of_opened hattempt] at hstep
    rcases attempt_reads dialect hinner hne with
      ⟨_, -, -, -, henter'⟩ | ⟨found, after, hattempt', hreads⟩
    · rw [hnesting.2] at henter'
      cases henter'
    · rw [step_of_attempt hattempt'] at hstep
      cases hstep
      rw [hnesting.1] at hdelimiter
      exact ⟨inner, .opened hattempt hattempt', Or.inr ⟨hnesting.1, hnesting.2, hdelimiter⟩,
        hreads⟩
  · rw [step_of_attempt hattempt] at hstep
    cases hstep
    exact ⟨base, .active hattempt, Or.inl rfl, hreads⟩

end Dialect

end PageLexing
