import PageLexing.Proofs.Candidates
import PageLexing.Proofs.Delimiters

/-!
# Pages of markup alone

A dialect that recognises no delimiters reads every text as markup reads it on its own, and so
does every dialect of pages where the text has no delimiter of markup. Near misses make no
difference: a window that ends behind a byte with which a delimiter might start holds a token
back, and the next window answers it.

Along the way the page stays in markup, also while a token is held back. To say so of a session,
its states inside a token have to be known without the detour over a fragment that might have been
opened there.

## Main results

* `Grammar.Resumption.emits` — what a grammar that can be resumed emits, in every session.
* `Dialect.direct` — a state inside a token at whose start no fragment is opened.
* `Dialect.markup_transparent` — texts that are read as markup alone.
-/

namespace PageLexing

/-! ## What a grammar emits -/

namespace Grammar

variable {σ : Type}

/-- However `source` is cut into windows, and whatever is done in a session, the tokens are
`tokens`: a session comes upon the first of them, and upon all if it reads the last window to its
end. -/
structure Emits (grammar : Grammar σ) (source : Bytes) (tokens : List Token) : Prop where
  split : ∀ cuts, ∃ after, grammar.lexSplit source cuts = .ok (tokens, after)
  driven : ∀ turns, ∃ answers, grammar.drive source turns = .ok answers ∧
    answers.filterMap Answer.token <+: tokens ∧
    ((∃ answer ∈ answers, answer.token = none ∧ answer.reader.last = true) →
      answers.filterMap Answer.token = tokens)

theorem map_token_marks (answers : List (Answer σ)) :
    (answers.filterMap Answer.mark?).map Mark.token = answers.filterMap Answer.token := by
  rw [List.map_filterMap]
  congr 1
  funext answer
  cases h : answer.token <;> simp [Answer.mark?, h]

theorem map_token_mark (passages : List (Passage σ)) :
    (passages.map Passage.mark).map Mark.token = passages.map Passage.token := by
  rw [List.map_map]
  rfl

/-- What is read from the whole of a text is what every session emits. -/
theorem Resumption.emits {grammar : Grammar σ} (resumption : grammar.Resumption) {source : Bytes}
    {whole : List (Passage σ)} {final : σ}
    (hwhole : grammar.Path source 0 grammar.initial whole source.length final)
    (hfinal : resumption.Ready [] final) :
    grammar.Emits source (whole.map Passage.token) := by
  constructor
  · intro cuts
    exact ⟨_, resumption.lexSplit_eq source hwhole hfinal cuts⟩
  · intro turns
    obtain ⟨answers, hdrive, hprefix, hall⟩ := resumption.drive_of_path source hwhole hfinal turns
    refine ⟨answers, hdrive, ?_, ?_⟩
    · have htokens := hprefix.map Mark.token
      rwa [map_token_marks, map_token_mark] at htokens
    · intro hended
      have htokens := congrArg (List.map Mark.token) (hall hended)
      rwa [map_token_marks, map_token_mark] at htokens

end Grammar

/-! ## Inside a token -/

namespace Dialect

open Page

variable {dialect : Dialect} {text source : Bytes} {base state : State}

/-- A window may have left `state` inside the token of `text` that is read from `base`, and it did
not open a fragment, if none is opened there. -/
structure Direct (dialect : Dialect) (text : Bytes) (base state : State) : Prop where
  resumes : Resumes dialect text base state
  pending : (∀ inner, dialect.attempt (View.whole text) base ≠ .ok (.opened inner)) →
    ∃ start frame, Pending dialect text base start state frame

theorem direct_of_ready (h : base.Ready text) : Direct dialect text base base := by
  obtain ⟨start, hactive, -⟩ := State.exists_active_of_ready h
  exact ⟨resumes_of_ready h, fun _ => ⟨start, start, pending_of_ready dialect h hactive⟩⟩

/-- Where a step holds on and no fragment is opened, it has made one attempt. -/
theorem pending_of_held {start frame : Frame} {held : State} {room : Nat} {last : Bool}
    (h : Pending dialect text base start state frame)
    (hopened : ∀ inner, dialect.attempt (View.whole text) base ≠ .ok (.opened inner))
    (hprescan : state.prescan ≤ room) (hroom : room ≤ text.length)
    (hlast : last = true → room = text.length)
    (hheld : dialect.step ⟨text, room, last⟩ state = .ok (.hold held)) :
    ∃ frame', Pending dialect text base start held frame' := by
  -- An attempt that agrees with the whole text leaves nothing to hold back.
  rcases attempt_of_pending h hprescan hroom hlast with
    ⟨state', frame', hattempt, hpending, -, -⟩ | ⟨outcome, hattempt, hwhole, hadvances⟩
  · rw [step_of_attempt hattempt] at hheld
    cases hheld
    exact ⟨frame', hpending⟩
  · cases outcome with
    | opened inner => exact absurd hwhole (hopened inner)
    | step step =>
        rw [step_of_attempt hattempt] at hheld
        cases hheld
        exact hadvances.elim

/-- The grammar of a dialect can be resumed, and where no fragment is opened nothing but the
pending token has changed. -/
def direct (dialect : Dialect) : dialect.grammar.Resumption where
  Ready := State.Ready
  Pending := Direct dialect
  initial := State.ready_initial
  prescan_of_ready := dialect.resumption.prescan_of_ready
  pending_of_ready := direct_of_ready
  ready_of_pending h := h.resumes.ready
  prescan_le h := dialect.resumption.prescan_le h.resumes
  eq_of_prescan h hzero := dialect.resumption.eq_of_prescan h.resumes hzero
  step := by
    intro text base state room last h hprescan hroom hlast
    rcases dialect.resumption.step room last h.resumes hprescan hroom hlast with
      ⟨held, hheld, hresumes, hheldRoom, hnil⟩ | htoken
    · refine Or.inl ⟨held, hheld, ⟨hresumes, fun hopened => ?_⟩, hheldRoom, hnil⟩
      obtain ⟨start, frame, hpending⟩ := h.pending hopened
      obtain ⟨frame', hpending'⟩ :=
        pending_of_held hpending hopened hprescan hroom hlast hheld
      exact ⟨start, frame', hpending'⟩
    · exact Or.inr htoken

/-! ## Texts without delimiters -/

/-- No delimiter of markup is recognised in the text. -/
def Unswitched (dialect : Dialect) (source : Bytes) : Prop :=
  dialect.switching = true → ∀ place,
    dialect.delimiters.delimiter? .host (source.drop place) = none

/-- At the start of a page nothing is open. -/
theorem between_initial (scan : Scan Markup.State) :
    (State.initial.between (.host scan)).nesting = .host := by
  rw [State.nesting_between]
  rfl

theorem initial_eq_between :
    State.initial = State.initial.between (.host (Scan.atBoundary Automaton.initial)) := rfl

/-- Every token of a text without delimiters is read by markup, from a state of markup. -/
theorem exists_host_path (h : Unswitched dialect source) {stop : Nat} {final : State}
    {passages : List (Passage State)}
    (hpath : dialect.grammar.Path source 0 State.initial passages stop final) :
    ∃ inside scan, (Automaton.grammar Markup.State Markup.Kind).Path source 0
        (Scan.atBoundary Automaton.initial) inside stop scan ∧
      final = State.initial.between (.host scan) ∧
      passages.map Passage.token = inside.map Passage.token := by
  rw [initial_eq_between] at hpath
  obtain ⟨inside, scan, hinside, hfinal, htokens⟩ :=
    path_of_embeds Frame.embeds_host rfl hpath (State.ready_initial _)
      (fun hswitching place _ => h hswitching place)
  refine ⟨inside, scan, hinside, hfinal, htokens.trans ?_⟩
  rw [List.map_congr_left (fun token _ => shifted_host token), List.map_id']

/-- Inside a token of a text without delimiters nothing is open. -/
theorem nesting_of_direct (h : Unswitched dialect source) {offset : Nat} {scan : Scan Markup.State}
    (hdirect : Direct dialect (source.drop offset) (State.initial.between (.host scan)) state) :
    state.nesting = .host := by
  have hready := hdirect.resumes.ready
  have hnesting := between_initial scan
  -- At the end of the text nothing was read. Elsewhere one attempt reads the token, so that
  -- nothing was opened in it.
  by_cases hne : source.drop offset = []
  · have hle := dialect.resumption.prescan_le hdirect.resumes
    rw [hne, List.length_nil] at hle
    rw [dialect.resumption.eq_of_prescan hdirect.resumes (Nat.le_zero.mp hle)]
    exact hnesting
  · have hfree : dialect.switching = true →
        Free dialect.delimiters .host (source.drop offset) 0 (source.drop offset).length := by
      intro hswitching place _ _
      rw [List.drop_drop]
      exact h hswitching _
    obtain ⟨found, after, -, hattempt⟩ :=
      attempt_of_embeds Frame.embeds_host rfl hready hne hfree
    obtain ⟨start, frame, hpending⟩ := hdirect.pending (by
      intro inner hopened
      rw [hattempt] at hopened
      cases hopened)
    rw [nesting_pending hpending]
    exact hnesting

/-- The tokens of `source` are those of markup alone, in every session and however it is cut into
windows, and nothing but markup is ever active. -/
structure Transparent (dialect : Dialect) (source : Bytes) : Prop where
  emits : ∃ tokens, (Automaton.grammar Markup.State Markup.Kind).Emits source tokens ∧
    dialect.grammar.Emits source tokens
  split : ∀ cuts tokens after, dialect.grammar.lexSplit source cuts = .ok (tokens, after) →
    after.store.nesting = .host
  driven : ∀ turns answers, dialect.grammar.drive source turns = .ok answers →
    ∀ answer ∈ answers, answer.reader.store.nesting = .host

theorem transparent_of_unswitched (h : Unswitched dialect source) :
    Transparent dialect source := by
  obtain ⟨passages, final, hpath, hfinal⟩ :=
    dialect.direct.exists_path source (Nat.zero_le _) (State.ready_initial _)
  obtain ⟨inside, scan, hinside, rfl, htokens⟩ := exists_host_path h hpath
  have hends : (Automaton.resumption Markup.State Markup.Kind).Ready [] scan := by
    have hactive : (State.initial.between (.host scan)).frame? .host = some (.host scan) := rfl
    exact (hfinal.active (.host scan) (by rw [between_initial]; exact hactive)).1
  refine ⟨⟨inside.map Passage.token, ?_, ?_⟩, ?_, ?_⟩
  · exact (Automaton.resumption Markup.State Markup.Kind).emits hinside hends
  · rw [← htokens]
    exact dialect.direct.emits hpath hfinal
  · intro cuts tokens after hsplit
    rw [dialect.direct.lexSplit_eq source hpath hfinal] at hsplit
    cases hsplit
    exact between_initial scan
  · intro turns answers hdrive answer hmem
    obtain ⟨answers', passages', offset, base, hdrive', -, -, -, hall, -⟩ :=
      Reader.drive_standing (Reader.new dialect.grammar) none
        (Reader.stored_initial dialect.direct source) rfl turns
    rw [show dialect.grammar.drive source turns = .ok answers' from hdrive'] at hdrive
    cases hdrive
    obtain ⟨before, base', hstanding⟩ := (hall answer hmem).1.standing
    obtain ⟨-, scan', -, rfl, -⟩ := exists_host_path h hstanding.path
    exact nesting_of_direct h hstanding.pending

/-- The bytes with which the delimiters of markup start. -/
def hostOpenings (prefixes : List Bytes) : List Bytes :=
  Bytes.ofString "<%" :: prefixes.flatMap fun candidate =>
    [Bytes.ofString "<" ++ candidate ++ Bytes.ofString ":",
      Bytes.ofString "</" ++ candidate ++ Bytes.ofString ":"]

/-- Where none of them starts, there is no delimiter of markup. -/
theorem spelled?_of_hostOpenings {prefixes : List Bytes}
    (h : ∀ opening ∈ hostOpenings prefixes, ¬ opening <+: text) :
    Delimiters.spelled? prefixes .host text = none := by
  have hpercent : ¬ [Byte.less, Byte.percent] <+: text := h _ (List.mem_cons_self ..)
  have hmore : ∀ rest : Bytes, ¬ Byte.less :: Byte.percent :: rest <+: text :=
    fun rest hbegins => hpercent ((List.prefix_append [_, _] rest).trans hbegins)
  have hprefixed : ¬ Delimiters.Prefixed prefixes text := by
    rintro ⟨candidate, hmem, hbegins | hbegins⟩
    · exact h _ (List.mem_cons_of_mem _ (List.mem_flatMap.mpr
        ⟨candidate, hmem, List.mem_cons_self ..⟩)) hbegins
    · exact h _ (List.mem_cons_of_mem _ (List.mem_flatMap.mpr
        ⟨candidate, hmem, List.mem_cons_of_mem _ (List.mem_cons_self ..)⟩)) hbegins
  simp only [Delimiters.spelled?]
  rw [if_neg (not_or.mpr ⟨hmore [Byte.commercialAt], hmore [Byte.dash, Byte.dash]⟩),
    if_neg (not_or.mpr ⟨hmore [Byte.equals], hmore [Byte.bang]⟩), if_neg hpercent,
    if_neg hprefixed]

/-- Every text is read as markup alone where delimiters are not recognised. Where they are, every
text is that has none of them, if the prefixes were validated. -/
theorem markup_transparent (delimiters : Delimiters) (source : Bytes) :
    (ofVariant .markup delimiters).Transparent source ∧
      (delimiters.Validated →
        (∀ place, ∀ opening ∈ hostOpenings delimiters.prefixes, ¬ opening <+: source.drop place) →
        (ofVariant .page delimiters).Transparent source) := by
  constructor
  · apply transparent_of_unswitched
    exact nofun
  · intro hvalid hnone
    apply transparent_of_unswitched
    intro _ place
    show delimiters.delimiter? .host (source.drop place) = none
    rw [Delimiters.delimiter?_eq_spelled? (Delimiters.noSlash_of_validated hvalid)]
    exact spelled?_of_hostOpenings (hnone place)

/-- So it is with the default prefix in a text with near misses. -/
theorem default_markup_transparent :
    Delimiters.default.Validated ∧
      (∀ place, ∀ opening ∈ hostOpenings Delimiters.default.prefixes,
        ¬ opening <+: (Bytes.ofString "a < <b <tp </tpl x").drop place) ∧
      (ofVariant .page Delimiters.default).Transparent (Bytes.ofString "a < <b <tp </tpl x") := by
  have hnone : ∀ place, ∀ opening ∈ hostOpenings Delimiters.default.prefixes,
      ¬ opening <+: (Bytes.ofString "a < <b <tp </tpl x").drop place := by
    intro place
    by_cases hlt : place < 18
    · revert hlt place
      decide +kernel
    · rw [List.drop_eq_nil_of_le (Nat.le_of_not_lt hlt)]
      decide +kernel
  exact ⟨Delimiters.validated_default, hnone,
    (markup_transparent Delimiters.default (Bytes.ofString "a < <b <tp </tpl x")).2
      Delimiters.validated_default hnone⟩

end Dialect

end PageLexing
