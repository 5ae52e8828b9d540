import PageLexing.Proofs.Composition
import PageLexing.Proofs.Exactness
import PageLexing.Proofs.Partition

/-!
# The brackets of a page

The script delimiters of a page are brackets. Openings and closings take turns, the first one
is an opening, and everything between an opening and its closing, or the end of the text, is
script. A closing leads back to where its opening was met, to the host or to a tag. Around the
brackets there is no script, and what the tag language reads is read inside a fragment.

What a token is to the brackets is decided by the step that reads it, whatever was read before.
A script cannot stand in a script, so a run only has to remember the nesting around the script
that it is in.

## Main results

* `Page.role_of_step` — what a token is to the brackets.
* `Page.brackets_of_path` — the brackets in a run of tokens.
* `Page.classified_of_languageOf?` — a number of a language is that of one kind.
* `Dialect.page_bracketed` — the brackets of every page.
-/

namespace PageLexing

namespace Vocabulary

/-- New names leave the numbers alone. -/
theorem chain_separate (vocabulary : Vocabulary) (handle : Handle) (lexicon : Lexicon) :
    (vocabulary.separate handle lexicon).chain = vocabulary.chain := by
  have hfold : ∀ (entries : List (TokenId × String)) (renamed : Vocabulary),
      (entries.foldl (fun renamed entry => renamed.rename (handle.toGlobal entry.1) entry.2)
        renamed).chain = renamed.chain := by
    intro entries
    induction entries with
    | nil => exact fun _ => rfl
    | cons entry rest ih => exact fun renamed => ih (renamed.rename _ _)
  exact hfold _ vocabulary

end Vocabulary

namespace Page

/-! ## Kinds -/

/-- A kind of one of the languages. -/
inductive Kind where
  | host (kind : Markup.Kind)
  | tag (kind : Tag.Kind)
  | script (kind : Script.Kind)
deriving DecidableEq

namespace Kind

def language : Kind → Language
  | host _ => .host
  | tag _ => .tag
  | script _ => .script

/-- The number of the kind in its language. -/
def id : Kind → TokenId
  | host kind => kind.id
  | tag kind => kind.id
  | script kind => kind.id

/-- The number of the kind in a page. -/
def number (kind : Kind) : TokenId := globalId kind.language kind.id

theorem id_mem_kindIds (kind : Kind) : kind.id ∈ Vocabulary.kindIds (lexicon kind.language) := by
  rcases kind with kind | kind | kind <;> cases kind <;> decide

/-- No two kinds of a language have the same number there. -/
theorem eq_of_id {kind other : Kind} (hlanguage : kind.language = other.language)
    (hid : kind.id = other.id) : kind = other := by
  cases kind <;> cases other <;> cases hlanguage
  · exact congrArg host (Markup.Kind.id_injective hid)
  · exact congrArg tag (Tag.Kind.id_injective hid)
  · exact congrArg script (Script.Kind.id_injective hid)

/-- No two kinds have the same number in a page. -/
theorem number_injective {kind other : Kind} (h : kind.number = other.number) : kind = other := by
  have hkind := languageOf?_globalId kind.id_mem_kindIds
  have hother := languageOf?_globalId other.id_mem_kindIds
  have hlanguage : kind.language = other.language := by
    rw [show globalId kind.language kind.id = globalId other.language other.id from h,
      hother] at hkind
    exact (Option.some.inj hkind).symm
  apply eq_of_id hlanguage
  have hlocal := congrArg (handle kind.language).toLocal h
  rw [number, number, ← hlanguage] at hlocal
  simpa only [globalId, Handle.toLocal_toGlobal] using hlocal

end Kind

/-- The languages lie in the number space in their order. -/
theorem lays_vocabulary : Vocabulary.Lays (Language.all.map lexicon) vocabulary := by
  rw [Vocabulary.Lays, vocabulary, Vocabulary.chain_separate, Vocabulary.chain_separate]
  rfl

/-- A language stands behind those before it. -/
theorem handle_of_getElem? {index : Nat} {language : Language}
    (h : Language.all[index]? = some language) :
    handle language =
      ⟨index, Lexicon.room ((Language.all.map lexicon).take index)⟩ := by
  match index with
  | 0 | 1 | 2 =>
      cases h
      rfl
  | n + 3 => cases h

/-- Every number that a language may give to a kind is given to one, which has a name. -/
theorem exists_kind (language : Language) {id : Nat} (hfirst : TokenId.firstKind ≤ id)
    (hmax : id ≤ (lexicon language).maxId) :
    (∃ kind : Kind, kind.language = language ∧ kind.id = id) ∧
      ((lexicon language).name? id).isSome = true := by
  have hfound : ∀ {κ : Type} [TokenKind κ], (TokenKind.ofId? κ id).isSome = true →
      (∃ kind : κ, TokenKind.id kind = id) ∧ (TokenKind.localName? κ id).isSome = true := by
    intro κ _ hsome
    obtain ⟨kind, hkind⟩ := Option.isSome_iff_exists.mp hsome
    constructor
    · exact ⟨kind, by simpa using List.find?_some hkind⟩
    · rw [TokenKind.localName?, hkind]
      simp
  have hrange : id ∈ Vocabulary.kindIds (lexicon language) := by
    have hfirst : (2 : Nat) ≤ id := hfirst
    have hmax : id ≤ ((lexicon language).maxId : Nat) := hmax
    refine List.mem_range'_1.mpr ⟨hfirst, ?_⟩
    show id < 2 + (((lexicon language).maxId : Nat) + 1 - 2)
    omega
  cases language with
  | host =>
      have hid : ∀ n ∈ Vocabulary.kindIds (lexicon .host),
          (TokenKind.ofId? Markup.Kind n).isSome = true := by decide
      obtain ⟨⟨kind, hkind⟩, hname⟩ := hfound (hid id hrange)
      exact ⟨⟨.host kind, rfl, hkind⟩, hname⟩
  | tag =>
      have hid : ∀ n ∈ Vocabulary.kindIds (lexicon .tag),
          (TokenKind.ofId? Tag.Kind n).isSome = true := by decide
      obtain ⟨⟨kind, hkind⟩, hname⟩ := hfound (hid id hrange)
      exact ⟨⟨.tag kind, rfl, hkind⟩, hname⟩
  | script =>
      have hid : ∀ n ∈ Vocabulary.kindIds (lexicon .script),
          (TokenKind.ofId? Script.Kind n).isSome = true := by decide
      obtain ⟨⟨kind, hkind⟩, hname⟩ := hfound (hid id hrange)
      exact ⟨⟨.script kind, rfl, hkind⟩, hname⟩

/-- The number is that of one kind and of no other, it leads back to the kind and its language,
and it has a name. -/
structure Classified (id : TokenId) : Prop where
  kind : ∃ kind : Kind, kind.number = id ∧ languageOf? id = some kind.language ∧
    vocabulary.resolve id = some ((handle kind.language).index, kind.id) ∧
      ∀ other : Kind, other.number = id → other = kind
  name : (vocabulary.name? id).isSome = true

/-- A number that belongs to a language is that of one of its kinds. -/
theorem classified_of_languageOf? {id : TokenId} {language : Language}
    (h : languageOf? id = some language) : Classified id := by
  obtain ⟨⟨index, n⟩, hresolve, hlanguage⟩ := Option.bind_eq_some_iff.mp h
  obtain ⟨owner, hget, hfirst, hmax, rfl⟩ :=
    (Vocabulary.resolve_eq_some_iff lays_vocabulary).mp hresolve
  have howner := (Vocabulary.owner?_eq_some_iff lays_vocabulary).mpr ⟨hget, hfirst, hmax, rfl⟩
  have hlanguage : Language.all[index]? = some language := hlanguage
  rw [List.getElem?_map, hlanguage] at hget
  cases hget
  obtain ⟨⟨kind, rfl, rfl⟩, hname⟩ := exists_kind language hfirst hmax
  have hhandle := handle_of_getElem? hlanguage
  have hnumber : kind.number =
      kind.id + Lexicon.room ((Language.all.map lexicon).take index) := by
    rw [Kind.number, globalId, hhandle, Vocabulary.toGlobal_of_le _ hfirst]
  constructor
  · refine ⟨kind, hnumber, h, ?_, fun other hother => ?_⟩
    · rw [hresolve, hhandle]
    · exact Kind.number_injective (hother.trans hnumber.symm)
  · rw [Vocabulary.name?, howner]
    simp only [Option.bind_some, Option.isSome_or, hname, Bool.or_true]

/-! ## What a token is to the brackets -/

/-- The texts that open a script, by where they are met. -/
def openings : Nesting → List Bytes
  | .host => ["<%", "<%=", "<%!"].map Bytes.ofString
  | .hostTag => ["<%="].map Bytes.ofString
  | .hostTagScript | .hostScript => []

/-- The text that closes a script. -/
def closing : Bytes := Bytes.ofString "%>"

/-- The token opens a script inside the active language. -/
structure Opens (source : Bytes) (passage : Passage State) : Prop where
  id : passage.token.id = delimiterId
  text : passage.span.text source ∈ openings passage.before.nesting
  nesting : passage.before.nesting.enter .script = .ok passage.after.nesting

/-- The token closes the active script. -/
structure Closes (source : Bytes) (passage : Passage State) : Prop where
  id : passage.token.id = delimiterId
  text : passage.span.text source = closing
  active : passage.before.nesting.active = .script
  nesting : passage.before.nesting.leave = .ok passage.after.nesting

/-- The token is part of the script of a nesting. -/
structure Inside (nesting : Nesting) (passage : Passage State) : Prop where
  scanned : ScannedIn .script passage.token
  before : passage.before.nesting = nesting
  after : passage.after.nesting = nesting

/-- The token is no part of a script. It belongs to the language that is active in the state from
which it is read, where a fragment at its start is open. -/
structure Outside (dialect : Dialect) (source : Bytes) (passage : Passage State) : Prop where
  scanned : ∃ inner, Dialect.ReadsFrom dialect (source.drop passage.start) passage.before
      passage.token passage.after inner ∧
    ScannedIn inner.nesting.active passage.token ∧
    (inner.nesting = .host ∨ inner.nesting = .hostTag)
  before : passage.before.nesting.active ≠ .script
  after : passage.after.nesting.active ≠ .script

variable {prefixes : List Bytes} {text : Bytes} {len : Nat} {nesting : Nesting}

/-- A text that starts with a word of a list, cut off behind it, is in the list. -/
theorem take_mem_of_prefix {word : Bytes} {words : List Bytes} (h : word <+: text)
    (hmem : word ∈ words) : text.take word.length ∈ words := by
  rwa [← List.prefix_iff_eq_take.mp h]

/-- A delimiter that opens a script has one of the texts for that. -/
theorem take_mem_openings
    (h : Delimiters.spelled? prefixes nesting.active text = some (.enterScript len)) :
    text.take len ∈ openings nesting := by
  cases nesting with
  | host =>
      simp only [Nesting.active, Delimiters.spelled?] at h
      repeat' split at h
      all_goals cases h
      · rename_i hword
        rcases hword with hword | hword
        · exact take_mem_of_prefix hword (by decide)
        · exact take_mem_of_prefix hword (by decide)
      · rename_i hword
        exact take_mem_of_prefix hword (by decide)
  | hostTag =>
      simp only [Nesting.active, Delimiters.spelled?] at h
      split at h
      · cases h
        rename_i hword
        exact take_mem_of_prefix hword (by decide)
      · cases h
  | hostTagScript | hostScript =>
      simp only [Nesting.active, Delimiters.spelled?] at h
      split at h <;> cases h

/-- Inside a script no other is opened. -/
theorem active_of_mem_openings (h : text ∈ openings nesting) : nesting.active ≠ .script := by
  cases nesting with
  | host | hostTag => decide
  | hostTagScript | hostScript => cases h

/-- A delimiter that closes a script has the text for that, and a script is active. -/
theorem take_eq_closing
    (h : Delimiters.spelled? prefixes nesting.active text = some (.leaveScript len)) :
    text.take len = closing ∧ nesting.active = .script := by
  cases hactive : nesting.active with
  | host =>
      rw [hactive] at h
      simp only [Delimiters.spelled?] at h
      repeat' split at h
      all_goals cases h
  | tag =>
      rw [hactive] at h
      simp only [Delimiters.spelled?] at h
      split at h <;> cases h
  | script =>
      rw [hactive] at h
      simp only [Delimiters.spelled?] at h
      split at h
      · cases h
        rename_i hword
        exact ⟨(List.prefix_iff_eq_take.mp hword).symm, rfl⟩
      · cases h

/-! ## Steps -/

/-- What a token is to the brackets. -/
inductive Role (dialect : Dialect) (source : Bytes) (passage : Passage State) : Prop where
  | opens (h : Opens source passage)
  | closes (h : Closes source passage)
  | inside (h : Inside passage.before.nesting passage)
      (hactive : passage.before.nesting.active = .script)
  | outside (h : Outside dialect source passage)

variable {dialect : Dialect} {source : Bytes} {passage : Passage State}

/-- A script delimiter opens a script or closes one. -/
theorem role_of_delimits (hslash : dialect.delimiters.NoSlash)
    (h : Delimits dialect.delimiters (source.drop passage.start) passage.before passage.token
      passage.after) : Role dialect source passage := by
  have hnesting := h.nesting
  rw [Delimiters.delimiter?_eq_spelled? hslash] at hnesting
  rcases hnesting with ⟨hspelled, henter⟩ | ⟨hspelled, hleave⟩
  · exact .opens ⟨h.id, take_mem_openings hspelled, henter⟩
  · obtain ⟨htext, hactive⟩ := take_eq_closing hspelled
    exact .closes ⟨h.id, htext, hactive, hleave⟩

/-- A token that a language reads is part of a script if and only if a script is active. -/
theorem role_of_scans {inner : State}
    (hfrom : Dialect.ReadsFrom dialect (source.drop passage.start) passage.before passage.token
      passage.after inner)
    (hinner : inner = passage.before ∨
      passage.before.nesting = .host ∧ inner.nesting = .hostTag)
    (h : Scans dialect (source.drop passage.start) inner passage.token passage.after) :
    Role dialect source passage := by
  have hscanned := scannedIn_of_scans h
  by_cases hactive : inner.nesting.active = .script
  · rcases hinner with rfl | ⟨-, hinner⟩
    · rw [hactive] at hscanned
      refine .inside ⟨hscanned, rfl, ?_⟩ hactive
      rcases h.nesting with hsame | ⟨htag, -⟩
      · exact hsame
      · rw [htag] at hactive
        cases hactive
    · rw [hinner] at hactive
      cases hactive
  · refine .outside ⟨⟨inner, hfrom, hscanned, ?_⟩, ?_, ?_⟩
    · revert hactive
      cases inner.nesting <;> decide
    · rcases hinner with rfl | ⟨hhost, -⟩
      · exact hactive
      · rw [hhost]
        decide
    · rcases h.nesting with hsame | ⟨-, hhost⟩
      · rwa [hsame]
      · rw [hhost]
        decide

/-- What the token of a step is to the brackets. -/
theorem role_of_step (hslash : dialect.delimiters.NoSlash)
    (hready : passage.before.Ready (source.drop passage.start))
    (hne : source.drop passage.start ≠ [])
    (hstep : dialect.step (View.whole (source.drop passage.start)) passage.before =
      .ok (.token passage.token passage.after)) : Role dialect source passage := by
  rcases Dialect.step_reads hslash hready hne hstep with
    hdelimits | ⟨inner, hfrom, hinner, hscans⟩
  · exact role_of_delimits hslash hdelimits
  · refine role_of_scans hfrom (hinner.imp_right ?_) hscans
    exact fun h => ⟨h.1, h.2.1⟩

/-- The number of a token that is not structural is that of a kind. -/
theorem classified_of_role (h : Role dialect source passage)
    (hkind : TokenId.isStructural passage.token.id = false) : Classified passage.token.id := by
  have hscanned : ∀ {language}, ScannedIn language passage.token →
      Classified passage.token.id := by
    intro language hscanned
    rcases hscanned.2 with hline | hlanguage
    · rw [hline] at hkind
      cases hkind
    · exact classified_of_languageOf? hlanguage
  have hdelimiter : passage.token.id = delimiterId → Classified passage.token.id := by
    intro hid
    rw [hid]
    exact classified_of_languageOf? (show languageOf? delimiterId = some .tag by decide)
  cases h with
  | opens h => exact hdelimiter h.id
  | closes h => exact hdelimiter h.id
  | inside h => exact hscanned h.scanned
  | outside h =>
      obtain ⟨inner, -, h, -⟩ := h.scanned
      exact hscanned h

/-! ## Runs -/

/-- The tokens from a place outside all scripts on. -/
inductive Bracketed (dialect : Dialect) (source : Bytes) : List (Passage State) → Prop where
  | nil : Bracketed dialect source []
  | outside {passage : Passage State} {rest : List (Passage State)}
      (h : Outside dialect source passage) (hrest : Bracketed dialect source rest) :
      Bracketed dialect source (passage :: rest)
  /-- A script that is closed where the closing leads back to where the opening was met. -/
  | closed {opener closer : Passage State} {body rest : List (Passage State)}
      (hopens : Opens source opener) (hbody : ∀ part ∈ body, Inside opener.after.nesting part)
      (hcloses : Closes source closer) (hback : closer.after.nesting = opener.before.nesting)
      (hrest : Bracketed dialect source rest) :
      Bracketed dialect source (opener :: (body ++ closer :: rest))
  /-- A script that goes on to the end of the text. -/
  | unclosed {opener : Passage State} {body : List (Passage State)}
      (hopens : Opens source opener) (hbody : ∀ part ∈ body, Inside opener.after.nesting part) :
      Bracketed dialect source (opener :: body)

/-- The tokens from a place in the script of a nesting on. -/
def Enclosed (dialect : Dialect) (source : Bytes) (nesting : Nesting)
    (passages : List (Passage State)) : Prop :=
  ∃ body, (∀ part ∈ body, Inside nesting part) ∧
    (passages = body ∨ ∃ closer rest, passages = body ++ closer :: rest ∧ Closes source closer ∧
      closer.before.nesting = nesting ∧ Bracketed dialect source rest)

theorem enclosed_nil (nesting : Nesting) : Enclosed dialect source nesting [] :=
  ⟨[], by simp, Or.inl rfl⟩

theorem enclosed_cons {rest : List (Passage State)} (h : Inside nesting passage)
    (hrest : Enclosed dialect source nesting rest) :
    Enclosed dialect source nesting (passage :: rest) := by
  obtain ⟨body, hbody, hparts⟩ := hrest
  refine ⟨passage :: body, List.forall_mem_cons.mpr ⟨h, hbody⟩, ?_⟩
  rcases hparts with rfl | ⟨closer, rest, rfl, hcloses, hnesting, hrest⟩
  · exact Or.inl rfl
  · exact Or.inr ⟨closer, rest, rfl, hcloses, hnesting, hrest⟩

/-- What follows an opening is in its script, up to a closing that leads back. -/
theorem bracketed_of_opens {rest : List (Passage State)} (h : Opens source passage)
    (hrest : Enclosed dialect source passage.after.nesting rest) :
    Bracketed dialect source (passage :: rest) := by
  obtain ⟨body, hbody, rfl | ⟨closer, rest, rfl, hcloses, hnesting, hrest⟩⟩ := hrest
  · exact .unclosed h hbody
  · refine .closed h hbody hcloses ?_ hrest
    have hleave := Nesting.leave_enter h.nesting
    rw [← hnesting, hcloses.nesting] at hleave
    exact Except.ok.inj hleave

/-- In a run of tokens scripts are bracketed, whether it starts outside all scripts or in one. -/
theorem brackets_of_path (hslash : dialect.delimiters.NoSlash) {offset stop : Nat}
    {state final : State} {passages : List (Passage State)}
    (h : dialect.grammar.Path source offset state passages stop final)
    (hready : state.Ready (source.drop offset)) :
    (state.nesting.active ≠ .script → Bracketed dialect source passages) ∧
      (state.nesting.active = .script →
        Enclosed dialect source state.nesting passages) := by
  induction h with
  | nil => exact ⟨fun _ => .nil, fun _ => enclosed_nil _⟩
  | @cons offset stop state next final token passages hstep _ ih =>
      have hne := dialect.resumption.ne_nil_of_step hready hstep
      have hnext := (dialect.resumption.next_of_step hready hstep).2
      obtain ⟨houtside, hinside⟩ := ih hnext
      have hrole : Role dialect source ⟨offset, state, token, next⟩ :=
        role_of_step hslash hready hne hstep
      constructor
      · intro hactive
        cases hrole with
        | opens h => exact bracketed_of_opens h (hinside (Nesting.active_enter h.nesting))
        | closes h => exact absurd h.active hactive
        | inside _ h => exact absurd h hactive
        | outside h => exact .outside h (houtside h.after)
      · intro hactive
        cases hrole with
        | opens h => exact absurd hactive (active_of_mem_openings h.text)
        | closes h =>
            have hleft := Nesting.active_leave_ne h.nesting
            rw [h.active] at hleft
            exact ⟨[], by simp, Or.inr ⟨_, passages, rfl, h, rfl, houtside hleft⟩⟩
        | inside h _ =>
            have hsame : next.nesting = state.nesting := h.after
            rw [hsame] at hinside
            exact enclosed_cons h (hinside hactive)
        | outside h => exact absurd hactive h.before

end Page

/-! ## Pages -/

namespace Tag

/-- The automaton of tags gives no token the kind of script delimiters. -/
theorem id_ne_scriptDelimiter {view : View} {scan after : Scan State} {found : Token}
    (h : scan.step view = .ok (.token found after)) : found.id ≠ Kind.scriptDelimiter.id := by
  rcases Scan.kind_of_step yields_ne_scriptDelimiter h with ⟨rfl, -⟩ | ⟨kind, hkind, hid⟩
  · decide
  · rw [hid]
    exact fun heq => hkind (Kind.id_injective heq)

end Tag

namespace Dialect

open Page

/-- What lexing a page in one window comes to, as brackets. -/
structure Brackets (dialect : Dialect) (source : Bytes) (passages : List (Passage State)) :
    Prop where
  /-- Lexing the text answers the tokens. -/
  lexed : ∃ after, dialect.grammar.lexWhole source = .ok (passages.map Passage.token, after)
  /-- The steps of the dialect read the tokens and lead from each state to the next. -/
  path : ∃ final, dialect.grammar.Path source 0 State.initial passages source.length final
  /-- In every session these are the states behind the tokens. -/
  stored : ∀ turns, ∃ answers, dialect.grammar.drive source turns = .ok answers ∧
    answers.filterMap Answer.mark? <+: passages.map Passage.mark
  bracketed : Bracketed dialect source passages
  classified : ∀ passage ∈ passages, TokenId.isStructural passage.token.id = false →
    Classified passage.token.id

/-- The tokens of every page are bracketed by its script delimiters, if the tag prefixes were
validated. Only the page itself makes these delimiters: the automaton of tags has none. -/
theorem page_bracketed (delimiters : Delimiters) (h : delimiters.Validated) (source : Bytes) :
    (∃ passages, (ofVariant .page delimiters).Brackets source passages) ∧
      (∀ view (scan after : Scan Tag.State) found,
        scan.step view = .ok (.token found after) → found.id ≠ Tag.Kind.scriptDelimiter.id) ∧
      ∀ view (scan : Scan Tag.State),
        scan.pendingKind view ≠ .ok (some Tag.Kind.scriptDelimiter) := by
  have hslash := Delimiters.noSlash_of_validated h
  refine ⟨?_, fun _ _ _ _ => Tag.id_ne_scriptDelimiter, fun view scan hpending => ?_⟩
  · have hready := State.ready_initial (source.drop 0)
    obtain ⟨passages, final, hpath, hfinal⟩ :=
      (resumption (ofVariant .page delimiters)).exists_path source (Nat.zero_le _) hready
    have hlexed := (resumption _).lexSplit_eq source hpath hfinal []
    refine ⟨passages, ⟨_, hlexed⟩, ⟨final, hpath⟩, fun turns => ?_, ?_, fun passage hmem => ?_⟩
    · obtain ⟨answers, hdrive, hmarks, -⟩ :=
        (resumption _).drive_of_path source hpath hfinal turns
      exact ⟨answers, hdrive, hmarks⟩
    · exact (brackets_of_path hslash hpath hready).1 (by decide)
    · obtain ⟨hpassage, hstep⟩ := (resumption _).step_of_mem hpath hready passage hmem
      exact classified_of_role
        (role_of_step hslash hpassage ((resumption _).ne_nil_of_step hpassage hstep) hstep)
  · exact Scan.kind_of_pendingKind Tag.yields_ne_scriptDelimiter hpending rfl

/-- So it is with the default prefixes, for a fragment with a script in it and a script behind it
that is not closed. -/
theorem default_page_bracketed :
    Delimiters.default.Validated ∧
      ∃ passages, default.Brackets
        (Bytes.ofString "<tpl:a b=\"<%= c %>\"/>\n<% while") passages :=
  ⟨Delimiters.validated_default,
    (page_bracketed Delimiters.default Delimiters.validated_default _).1⟩

end Dialect

end PageLexing
