import PageLexing.Proofs.Scripts
import PageLexing.Proofs.Transparency

/-!
# Words of scripts

A word begins with a letter, `_`, `$` or a byte outside ASCII and goes on with such bytes and with
digits. It is as long as it can be, and it is a keyword exactly if the table has the whole of it.
So a word that only begins like a keyword is none, wherever a window ends in it.

A word comes to its end at a byte that does not go on with it, at the end of its line or of the
text, and in a page in front of a `%>`. In each case its kind is told from all of its bytes.

## Main results

* `Script.isWord_of_ended`, `Script.isWord_of_reads` — a word that is ended, and one that is cut.
* `Page.wordAt_of_step` — a word in a page.
* `words_exact` — the words of scripts, alone and in pages.
-/

namespace PageLexing

open Automaton Byte

/-! ## Words -/

namespace Script

/-- `text` is one byte that may open a word, and bytes that may continue it. -/
def IsWord (text : Bytes) : Prop :=
  ∃ first rest, text = first :: rest ∧ isWordStart first = true ∧ ∀ b ∈ rest, isWordByte b = true

theorem isWord_singleton {b : UInt8} (h : isWordStart b = true) : IsWord [b] :=
  ⟨b, [], rfl, h, by simp⟩

theorem IsWord.concat {text : Bytes} {b : UInt8} (h : IsWord text) (hb : isWordByte b = true) :
    IsWord (text ++ [b]) := by
  obtain ⟨first, rest, rfl, hfirst, hrest⟩ := h
  refine ⟨first, rest ++ [b], rfl, hfirst, ?_⟩
  intro byte hmem
  rcases List.mem_append.mp hmem with hmem | hmem
  · exact hrest byte hmem
  · rwa [List.mem_singleton.mp hmem]

/-- `word` is a word that does not go on in the text `behind` it, and it is a keyword exactly if
the table has it. -/
structure WordAt (word behind : Bytes) (keyword : Prop) : Prop where
  isWord : IsWord word
  maximal : ∀ b, behind.head? = some b → isWordByte b = false
  keyword : keyword ↔ ∃ reserved ∈ keywords, Bytes.ofString reserved = word

/-! ## The automaton inside a word -/

/-- What was read of a token in a state: nothing at the start, and a word in the state of words. -/
def WordRead : State → Bytes → Prop
  | .start, seen => seen = []
  | .word, seen => IsWord seen
  | _, _ => True

variable {s t : State} {b : UInt8} {seen : Bytes} {kind : Kind}

/-- A script reads each byte in one transition. -/
theorem transition_of_consume {effect : Effect Kind} (h : consume s b = (t, effect)) :
    transition s b = (t, effect.toAction) :=
  Boundaries.transition_of_consume (transition_reads s b) h

theorem wordRead_of_grow (s t : State) (b : UInt8) (seen : Bytes)
    (h : consume s b = (t, .grow)) (hs : WordRead s seen) : WordRead t (seen ++ [b]) := by
  have h := transition_of_consume h
  revert h
  fun_cases transition s b <;> intro h <;> cases h <;> first | trivial | skip
  · rename_i hstart
    rw [show seen = [] from hs]
    exact isWord_singleton hstart
  · rename_i hbyte
    exact IsWord.concat hs hbyte

theorem not_word_of_quotedKind (q : UInt8) :
    quotedKind q ≠ .identifier ∧ quotedKind q ≠ .keyword := by
  rw [quotedKind]
  split <;> decide

/-- A byte that ends a token as its last one ends no word. -/
theorem not_word_of_emit (h : transition s b = (t, .emit kind)) :
    kind ≠ .identifier ∧ kind ≠ .keyword := by
  revert h
  fun_cases transition s b <;> intro h <;> cases h <;>
    first | decide | exact not_word_of_quotedKind _

/-- A byte behind a token ends a word only if it does not go on with it. -/
theorem eq_word_of_emitBefore (h : transition s b = (t, .emitBefore kind)) :
    kind ≠ .keyword ∧ (kind = .identifier → s = .word ∧ isWordByte b = false) := by
  revert h
  fun_cases transition s b <;> intro h <;> cases h <;> simp_all

/-- An unfinished token is a word only in the state of words. -/
theorem eq_word_of_inProgress (s : State) :
    inProgress s ≠ .keyword ∧ (inProgress s = .identifier → s = .word) := by
  cases s with
  | word => exact ⟨nofun, fun _ => rfl⟩
  | quoted q | escaped q =>
      exact ⟨(not_word_of_quotedKind q).2, fun h => absurd h (not_word_of_quotedKind q).1⟩
  | _ => exact ⟨nofun, nofun⟩

theorem eq_word_of_atLineEnd (s : State) :
    atLineEnd s ≠ .keyword ∧ (atLineEnd s = .identifier → s = .word) := by
  cases s with
  | word => exact ⟨nofun, fun _ => rfl⟩
  | _ => exact ⟨nofun, nofun⟩

/-! ## Words that end -/

variable {word behind : Bytes}

/-- However a word is ended, it is a word, and what comes behind it does not go on with it. -/
theorem isWord_of_ended {after : State} (h : Scan.Ended WordRead behind word kind after) :
    kind ≠ .keyword ∧
      (kind = .identifier → IsWord word ∧ ∀ b, behind.head? = some b → isWordByte b = false) := by
  cases h with
  | close hreached hconsume =>
      have hkind := not_word_of_emit (transition_of_consume hconsume)
      exact ⟨hkind.2, fun h => absurd h hkind.1⟩
  | closeBefore hreached hnext hconsume =>
      obtain ⟨hkind, hword⟩ := eq_word_of_emitBefore (transition_of_consume hconsume)
      refine ⟨hkind, fun h => ?_⟩
      obtain ⟨rfl, hbyte⟩ := hword h
      refine ⟨hreached, fun b hb => ?_⟩
      rw [hnext] at hb
      cases hb
      exact hbyte
  | line hreached hnext =>
      obtain ⟨hkind, hword⟩ := eq_word_of_atLineEnd after
      refine ⟨hkind, fun h => ?_⟩
      obtain rfl := hword h
      refine ⟨hreached, fun b hb => ?_⟩
      rw [hnext] at hb
      cases hb
      decide
  | input hreached hnext =>
      obtain ⟨hkind, hword⟩ := eq_word_of_atLineEnd after
      refine ⟨hkind, fun h => ?_⟩
      obtain rfl := hword h
      refine ⟨hreached, fun b hb => ?_⟩
      rw [hnext] at hb
      cases hb

/-- A word that is refined is a keyword exactly if the table has it. -/
theorem wordAt_of_refine (hkind : kind ≠ .keyword)
    (hword : kind = .identifier →
      IsWord word ∧ ∀ b, behind.head? = some b → isWordByte b = false)
    (h : refine kind word = .identifier ∨ refine kind word = .keyword) :
    WordAt word behind (refine kind word = .keyword) := by
  have hidentifier : kind = .identifier := by
    unfold Script.refine at h
    split at h
    · rename_i hreserved
      exact hreserved.1
    · exact h.resolve_right hkind
  obtain ⟨hisWord, hmaximal⟩ := hword hidentifier
  refine ⟨hisWord, hmaximal, ?_⟩
  rw [← isKeyword_iff, Script.refine, hidentifier]
  by_cases hreserved : isKeyword word = true
  · simp [hreserved]
  · simp [hreserved]

/-- At a boundary nothing of a word was read. -/
theorem wordRead_nil (h : Boundaries.isBoundary s = true) : WordRead s [] := by
  cases s with
  | start => rfl
  | word => cases h
  | _ => trivial

/-- A token of a script is a newline, or its kind tells whether it is a word. -/
theorem wordAt_of_step {text : Bytes} {scan after : Scan State} {found : Token}
    (hready : Automaton.Starts text scan)
    (h : Scan.step (View.whole text) scan = .ok (.token found after)) :
    found = Token.endOfLine ∨ ∃ kind : Kind, found.id = kind.id ∧
      (kind = .identifier ∨ kind = .keyword →
        WordAt (text.take found.len) (text.drop found.len) (kind = .keyword)) := by
  obtain ⟨hread, hready⟩ := hready
  rw [← Scan.atBoundary_state hread] at h
  rcases Scan.ended_of_ready wordRead_of_grow wordRead_nil hready h with
    ⟨hfound, -⟩ | ⟨kind, hid, hended⟩
  · exact Or.inl hfound
  · obtain ⟨hkind, hword⟩ := isWord_of_ended hended
    exact Or.inr ⟨_, hid, wordAt_of_refine hkind hword⟩

/-- What was read of a token that is cut tells whether it is a word. -/
theorem wordAt_of_reads {text : Bytes} {base : State} {scan : Scan State}
    (hready : Scan.Ready text base) (h : Scan.Reads text base scan) (hpos : 0 < scan.read)
    (hpercent : (text.drop scan.read).head? = some percent)
    (hkind : refine (inProgress scan.state) (text.take scan.read) = .identifier ∨
      refine (inProgress scan.state) (text.take scan.read) = .keyword) :
    WordAt (text.take scan.read) (text.drop scan.read)
      (refine (inProgress scan.state) (text.take scan.read) = .keyword) := by
  have hbase := wordRead_nil (Scan.isBoundary_of_reads hready h hpos)
  have hread := h.preserves wordRead_of_grow hbase
  obtain ⟨hnot, hword⟩ := eq_word_of_inProgress scan.state
  refine wordAt_of_refine hnot (fun hidentifier => ?_) hkind
  rw [hword hidentifier] at hread
  refine ⟨hread, fun b hb => ?_⟩
  rw [hpercent] at hb
  cases hb
  decide

end Script

/-! ## Words in a page -/

namespace Page

open Dialect

variable {dialect : Dialect} {text : Bytes} {base next : State} {token : Token}

/-- A token of a script is read from a script. -/
theorem exists_script_of_owns (h : base.Ready text) (hne : text ≠ [])
    (hstep : dialect.step (View.whole text) base = .ok (.token token next))
    (howns : Owns .script token.id) :
    ∃ scan, base.active = .ok (.script scan) ∧
      dialect.attempt (View.whole text) base = .ok (.step (.token token next)) := by
  obtain ⟨inner, hfrom, hinner, hreads⟩ := exists_reads h hne hstep
  have hscans := hreads.resolve_left fun hdelimits => howns.2 hdelimits.id
  have hlanguage := active_of_owns hscans howns
  rcases hinner with rfl | ⟨-, hnesting, -⟩
  · obtain ⟨start, hactive, -, -, hstart⟩ := State.exists_active_of_ready h
    rw [hlanguage] at hstart
    cases start with
    | host scan | tag scan => cases hstart
    | script scan =>
        refine ⟨scan, hactive, ?_⟩
        cases hfrom with
        | active hattempt => exact hattempt
        | opened hopened hattempt =>
            rw [hopened] at hattempt
            cases hattempt
  · rw [hnesting] at hlanguage
    cases hlanguage

/-- The kind of a token of a script tells whether it is a word. -/
theorem wordAt_of_step (h : base.Ready text) (hne : text ≠ [])
    (hstep : dialect.step (View.whole text) base = .ok (.token token next))
    (howns : Owns .script token.id) :
    ∃ kind : Script.Kind, token.id = globalId .script kind.id ∧
      (kind = .identifier ∨ kind = .keyword →
        Script.WordAt (text.take token.len) (text.drop token.len) (kind = .keyword)) := by
  obtain ⟨scan, hactive, hattempt⟩ := exists_script_of_owns h hne hstep howns
  have hready := (h.of_active hactive).1
  cases endsIn_of_attempt h hne hactive hattempt howns.2 with
  | whole hfound _ heq =>
      obtain ⟨after, hscan, -⟩ := Step.exists_of_map hfound
      subst heq
      rcases Script.wordAt_of_step hready hscan with rfl | ⟨kind, hkind, hword⟩
      · have hline : languageOf? (globalId .script TokenId.endOfLine) ≠ some .script := by decide
        exact absurd howns.1 hline
      · exact ⟨kind, congrArg (globalId .script) hkind, hword⟩
  | @cut after held found switch id hfound hpos hlt hreads hread hfirst hpending heq =>
      cases held with
      | host held | tag held => exact hreads.elim
      | script held =>
          have hreads : Scan.Reads text scan.state held := hreads
          have hread : held.read = token.len := hread
          have hpercent : (text.drop held.read).head? = some percent := by
            have hdelimiter := hfirst.starts
            rw [Frame.language, delimiter?_script_eq] at hdelimiter
            split at hdelimiter
            · rename_i hcloses
              rw [hread]
              exact head_of_closing hcloses
            · cases hdelimiter
          have hid := Scan.pendingKind_of_le (View.whole text) (show 0 < held.read by omega)
            hreads.le
          rw [Frame.pendingId, hid] at hpending
          cases hpending
          refine ⟨_, heq, ?_⟩
          rw [← hread]
          exact Script.wordAt_of_reads hready.2 hreads (by omega) hpercent

end Page

/-! ## All words -/

/-- The tokens of `source` with the numbers of words are words, each as long as it can be: it is
followed by no byte that would go on with it, and so by no token that begins with one. They are
keywords exactly if the table has the whole of them. -/
def WordsExact (identifier keyword : TokenId) (source : Bytes) (tokens : List Token) : Prop :=
  ∀ span ∈ Span.ofTokens 0 tokens, span.token.id = identifier ∨ span.token.id = keyword →
    Script.WordAt (span.text source) (source.drop span.stop) (span.token.id = keyword)

/-- Words are exact where each token that may be one has a kind that tells whether it is. -/
theorem wordsExact_of_path {σ : Type} {grammar : Grammar σ} (resumption : grammar.Resumption)
    {number : Script.Kind → TokenId} (hnumber : Function.Injective number)
    (hwords : ∀ {text base token next}, resumption.Ready text base →
      grammar.step (View.whole text) base = .ok (.token token next) →
      token.id = number .identifier ∨ token.id = number .keyword →
        ∃ kind, token.id = number kind ∧ (kind = .identifier ∨ kind = .keyword →
          Script.WordAt (text.take token.len) (text.drop token.len) (kind = .keyword)))
    {source : Bytes} {passages : List (Passage σ)} {final : σ}
    (hpath : grammar.Path source 0 grammar.initial passages source.length final) :
    WordsExact (number .identifier) (number .keyword) source (passages.map Passage.token) := by
  intro span hspan hid
  rw [hpath.span_eq] at hspan
  obtain ⟨passage, hmem, rfl⟩ := List.mem_map.mp hspan
  obtain ⟨hready, hstep⟩ :=
    resumption.step_of_mem hpath (resumption.initial (source.drop 0)) passage hmem
  obtain ⟨kind, hkind, hword⟩ := hwords hready hstep hid
  have hspan : passage.span.token.id = number kind := hkind
  rw [hspan] at hid ⊢
  obtain ⟨hisWord, hmaximal, hkeyword⟩ := hword (hid.imp (fun h => hnumber h) fun h => hnumber h)
  rw [List.drop_drop] at hmaximal
  exact ⟨hisWord, hmaximal, hnumber.eq_iff.trans hkeyword⟩

/-- Words are maximal and keywords are exact, in scripts alone and in pages of every dialect, in
every session and however the text is cut into windows. -/
theorem words_exact (source : Bytes) :
    (∃ tokens, Script.grammar.Emits source tokens ∧
        WordsExact Script.Kind.identifier.id Script.Kind.keyword.id source tokens) ∧
      ∀ dialect : Dialect, ∃ tokens, dialect.grammar.Emits source tokens ∧
        WordsExact (Page.globalId .script Script.Kind.identifier.id)
          (Page.globalId .script Script.Kind.keyword.id) source tokens := by
  constructor
  · let resumption := Automaton.resumption Script.State Script.Kind
    obtain ⟨passages, final, hpath, hfinal⟩ :=
      resumption.exists_path source (Nat.zero_le _) (resumption.initial (source.drop 0))
    refine ⟨_, resumption.emits hpath hfinal, wordsExact_of_path resumption
      (fun _ _ h => Script.Kind.id_injective h) ?_ hpath⟩
    intro text base token next hready hstep hid
    rcases Script.wordAt_of_step hready hstep with rfl | hword
    · exact absurd hid (by decide)
    · exact hword
  · intro dialect
    obtain ⟨passages, final, hpath, hfinal⟩ :=
      dialect.resumption.exists_path source (Nat.zero_le _) (Page.State.ready_initial _)
    have hinjective : Function.Injective fun kind => (Page.Kind.script kind).number :=
      fun _ _ h => Page.Kind.script.inj (Page.Kind.number_injective h)
    refine ⟨_, dialect.resumption.emits hpath hfinal,
      wordsExact_of_path dialect.resumption hinjective ?_ hpath⟩
    intro text base token next hready hstep hid
    have howns : Page.Owns .script token.id := by
      rcases hid with hid | hid
      · rw [hid]
        exact Page.owns_script .identifier
      · rw [hid]
        exact Page.owns_script .keyword
    exact Page.wordAt_of_step hready (dialect.resumption.ne_nil_of_step hready hstep) hstep howns

/-- In `double do` only the second word is a keyword, also where a window ends behind `do`. -/
example : (Script.grammar.lexSplit (Bytes.ofString "double do") [2]).map Prod.fst =
    .ok [⟨Script.Kind.identifier.id, 6⟩, ⟨Script.Kind.whitespace.id, 1⟩,
      ⟨Script.Kind.keyword.id, 2⟩] := by decide +kernel

end PageLexing
