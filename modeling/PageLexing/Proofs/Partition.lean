import Mathlib.Data.List.Basic
import PageLexing.Proofs.Newlines
import PageLexing.Proofs.Whole

/-!
# Tokens partition a text

The tokens of a text cover it without gaps and without overlaps, and none of them is empty.
A newline is a token of its own, and no other token contains one. This is so in each of the
languages and in every dialect of pages: all that is asked of a grammar is that it can be
resumed and that the tokens it reads respect the lines.

A step never runs on: a byte is shown to at most two states of an automaton, and a token of
a page is attempted at most twice.

## Main results

* `Span.starts_of_tiles` — the newlines of a text are where the newline tokens are.
* `Grammar.Resumption.exists_partitions` — what is asked of a grammar is enough.
* `texts_partitioned` — the languages and the dialects partition all texts.
-/

namespace PageLexing

/-! ## Spans without gaps -/

namespace Span

/-- The spans stand in a row from `start` to `stop`, and none is empty. -/
def Tiles (start stop : Nat) : List Span → Prop
  | [] => start = stop
  | span :: rest => span.start = start ∧ 0 < span.token.len ∧ Tiles span.stop stop rest

variable {source : Bytes} {start stop : Nat} {spans : List Span}

theorem le_of_tiles (h : Tiles start stop spans) : start ≤ stop := by
  induction spans generalizing start with
  | nil => exact Nat.le_of_eq h
  | cons span spans ih =>
      obtain ⟨rfl, hpos, hrest⟩ := h
      exact Nat.le_trans (Nat.le_add_right _ _) (ih hrest)

/-- Spans in a row start between their start and their end. -/
theorem start_of_mem_tiles (h : Tiles start stop spans) :
    ∀ span ∈ spans, start ≤ span.start ∧ span.start < stop := by
  induction spans generalizing start with
  | nil => exact fun span hmem => nomatch hmem
  | cons head spans ih =>
      obtain ⟨rfl, hpos, hrest⟩ := h
      have hle := le_of_tiles hrest
      have hstop : head.stop = head.start + head.token.len := rfl
      intro span hmem
      rcases List.mem_cons.mp hmem with rfl | hmem
      · omega
      · have := ih hrest span hmem
        omega

/-- No span in a row is empty. -/
theorem len_pos_of_mem_tiles (h : Tiles start stop spans) :
    ∀ span ∈ spans, 0 < span.token.len := by
  induction spans generalizing start with
  | nil => exact fun span hmem => absurd hmem List.not_mem_nil
  | cons head spans ih =>
      obtain ⟨-, hpos, hrest⟩ := h
      intro span hmem
      rcases List.mem_cons.mp hmem with rfl | hmem
      · exact hpos
      · exact ih hrest span hmem

theorem text_append_drop (span : Span) (source : Bytes) :
    span.text source ++ source.drop span.stop = source.drop span.start := by
  rw [text, stop, ← List.drop_drop, List.take_append_drop]

theorem length_text {span : Span} (h : span.stop ≤ source.length) :
    (span.text source).length = span.token.len := by
  rw [stop] at h
  rw [text, List.length_take, List.length_drop]
  omega

/-- Spans in a row lose no byte of the text and repeat none. -/
theorem flatMap_text_of_tiles (h : Tiles start source.length spans) :
    spans.flatMap (fun span => span.text source) = source.drop start := by
  induction spans generalizing start with
  | nil =>
      rw [show start = source.length from h, List.drop_length]
      rfl
  | cons span spans ih =>
      obtain ⟨rfl, -, hrest⟩ := h
      rw [List.flatMap_cons, ih hrest, text_append_drop]

/-- The newlines of a text are where the newline tokens are. -/
theorem starts_of_tiles (h : Tiles start source.length spans)
    (hlines : ∀ span ∈ spans, span.token.KeepsLines (span.text source)) :
    (spans.filter (fun span => span.token.id = TokenId.endOfLine)).map Span.start =
      (source.drop start).idxsOf Byte.newline start := by
  induction spans generalizing start with
  | nil =>
      rw [show start = source.length from h, List.drop_length]
      rfl
  | cons span spans ih =>
      obtain ⟨rfl, -, hrest⟩ := h
      have hstarts := ih hrest (fun other hmem => hlines other (List.mem_cons_of_mem _ hmem))
      have hspan := hlines span (List.mem_cons_self ..)
      have hlength := length_text (le_of_tiles hrest)
      rw [← text_append_drop, List.idxsOf_append, hlength, show span.start + span.token.len =
        span.stop from rfl, ← hstarts, List.filter_cons]
      rcases hspan with ⟨htoken, hword⟩ | ⟨hkind, hnone⟩
      · rw [if_pos (by rw [htoken]; rfl), hword]
        rfl
      · have hid : span.token.id ≠ TokenId.endOfLine := Nat.ne_of_gt hkind
        have hempty : (span.text source).idxsOf Byte.newline span.start = [] := by
          rw [List.idxsOf_eq_nil_iff]
          intro byte hmem
          rw [beq_eq_false_iff_ne]
          rintro rfl
          exact hnone hmem
        rw [if_neg (by simpa using hid), hempty, List.nil_append]

end Span

/-! ## Partitions -/

/-- What lexing a text in one window comes to: the spans of its tokens cover it from its start
to its end. -/
structure Grammar.Partitions {σ : Type} (grammar : Grammar σ) (source : Bytes)
    (spans : List Span) : Prop where
  /-- Lexing the text answers the tokens and ends behind the last of them. -/
  lexed : ∃ after, grammar.lexWhole source = .ok (spans.map Span.token, after) ∧
    after.offset = source.length
  /-- Every call answers: the next token, behind which the reader stands, and nothing once the
  text is covered. -/
  answered : ∃ loaded, (Reader.new grammar).load none source 0 source.length true = .ok loaded ∧
    ∀ calls, ∃ answers after, loaded.answers calls = .ok (answers, after) ∧
      answers.length = calls ∧
      ∀ (i : Nat) answer, answers[i]? = some answer →
        answer.token = spans[i]?.map Span.token ∧
        answer.reader.offset = (spans[i]?.map Span.stop).getD source.length
  /-- The spans have no gaps between them and are not empty. -/
  tiles : Span.Tiles 0 source.length spans
  /-- Together they are the text. -/
  covers : spans.flatMap (fun span => span.text source) = source
  /-- A newline is a token of its own. -/
  line : ∀ span ∈ spans, span.token.KeepsLines (span.text source)
  /-- Every newline of the text is one of these tokens. -/
  newlines : (spans.filter (fun span => span.token.id = TokenId.endOfLine)).map Span.start =
    source.idxsOf Byte.newline

/-- The span that a passage covers. -/
def Passage.span {σ : Type} (passage : Passage σ) : Span := ⟨passage.token, passage.start⟩

namespace Grammar.Resumption.Stands

variable {σ : Type} {grammar : Grammar σ} {resumption : grammar.Resumption} {source : Bytes}
  {passage : Passage σ} {rest : List (Passage σ)} {final : σ}

/-- No token of a text is empty. -/
theorem text_ne_nil (h : resumption.Stands source passage rest final) :
    passage.span.text source ≠ [] := by
  intro hnil
  rcases List.take_eq_nil_iff.mp hnil with hzero | hnil
  · exact Nat.ne_of_gt h.pos hzero
  · exact resumption.ne_nil_of_step h.ready h.step hnil

/-- A token starts with the byte that stands where it starts. -/
theorem head?_text (h : resumption.Stands source passage rest final) :
    (passage.span.text source).head? = (source.drop passage.start).head? := by
  show ((source.drop passage.start).take passage.token.len).head? = _
  rw [List.head?_take, if_neg (Nat.ne_of_gt h.pos)]

end Grammar.Resumption.Stands

namespace Grammar.Path

variable {σ : Type} {grammar : Grammar σ} {source : Bytes} {offset stop : Nat} {state final : σ}
  {passages : List (Passage σ)}

/-- The tokens of a path stand in a row. -/
theorem span_eq (h : Grammar.Path grammar source offset state passages stop final) :
    Span.ofTokens offset (passages.map Passage.token) = passages.map Passage.span := by
  induction h with
  | nil => rfl
  | cons _ _ ih =>
      rw [List.map_cons, List.map_cons, Span.ofTokens, ih]
      rfl

/-- A path is parted at each of its tokens. -/
theorem of_spans (h : Grammar.Path grammar source offset state passages stop final)
    {front rest : List Span} {span : Span}
    (hsplit : Span.ofTokens offset (passages.map Passage.token) = front ++ span :: rest) :
    ∃ before behind base next, passages = before ++ ⟨span.start, base, span.token, next⟩ :: behind ∧
      rest.map Span.token = behind.map Passage.token ∧
      Grammar.Path grammar source offset state before span.start base ∧
      grammar.step (View.whole (source.drop span.start)) base = .ok (.token span.token next) ∧
      Grammar.Path grammar source span.stop next behind stop final := by
  rw [h.span_eq] at hsplit
  obtain ⟨before, behind, rfl, -, hbehind⟩ := List.map_eq_append_iff.mp hsplit
  obtain ⟨passage, passages, rfl, rfl, rfl⟩ := List.map_eq_cons_iff.mp hbehind
  obtain ⟨mid, base, hbefore, hrest⟩ := h.of_append
  cases hrest with
  | @cons _ _ _ next _ token _ hstep hrest =>
      exact ⟨before, passages, base, next, rfl, List.map_map, hbefore, hstep, hrest⟩

end Grammar.Path

namespace Grammar.Resumption

variable {σ : Type} {grammar : Grammar σ} (resumption : grammar.Resumption)

/-- A path reads its tokens one behind the other, and none is empty. -/
theorem tiles_of_path {source : Bytes} {offset stop : Nat} {state final : σ}
    {passages : List (Passage σ)} (h : Path grammar source offset state passages stop final)
    (hready : resumption.Ready (source.drop offset) state) :
    Span.Tiles offset stop (passages.map Passage.span) := by
  induction h with
  | nil => exact rfl
  | cons hstep _ ih =>
      obtain ⟨hpos, hnext⟩ := resumption.next_of_step hready hstep
      exact ⟨rfl, hpos, ih hnext⟩

include resumption in
/-- A grammar that can be resumed and respects the lines partitions every text. -/
theorem exists_partitions
    (hlines : ∀ {text base token next}, resumption.Ready text base →
      grammar.step (View.whole text) base = .ok (.token token next) →
        token.KeepsLines (text.take token.len))
    (source : Bytes) : ∃ spans, grammar.Partitions source spans := by
  have hinitial := resumption.initial (source.drop 0)
  obtain ⟨passages, final, hpath, hfinal⟩ := resumption.exists_path source (Nat.zero_le _) hinitial
  have htiles := resumption.tiles_of_path hpath hinitial
  have htokens : (passages.map Passage.span).map Span.token = passages.map Passage.token := by
    rw [List.map_map]
    rfl
  have hkeeps : ∀ span ∈ passages.map Passage.span, span.token.KeepsLines (span.text source) := by
    intro span hmem
    obtain ⟨passage, hpassage, rfl⟩ := List.mem_map.mp hmem
    obtain ⟨hready, hstep⟩ := resumption.step_of_mem hpath hinitial passage hpassage
    exact hlines hready hstep
  refine ⟨passages.map Passage.span, ?_, ?_, htiles, ?_, hkeeps, ?_⟩
  · exact ⟨_, by rw [htokens]; exact resumption.lexSplit_eq source hpath hfinal [], rfl⟩
  · have hload := @Reader.load_none σ grammar source (Reader.new grammar) 0 source.length true rfl
      (resumption.prescan_of_ready hinitial)
    rw [Nat.zero_add, Nat.min_self] at hload
    refine ⟨_, hload, fun calls => ?_⟩
    obtain ⟨answers, after, hanswers, hlength, hall⟩ :=
      Reader.answers_of_path resumption hpath hinitial calls
    refine ⟨answers, after, hanswers, hlength, fun i answer hanswer => ?_⟩
    obtain ⟨htoken, hoffset⟩ := hall i answer hanswer
    rw [List.getElem?_map, Option.map_map, Option.map_map]
    exact ⟨htoken, hoffset⟩
  · rw [Span.flatMap_text_of_tiles htiles, List.drop_zero]
  · rw [Span.starts_of_tiles htiles hkeeps, List.drop_zero]

end Grammar.Resumption

/-! ## Steps that come to an end -/

/-- Shows a byte to one state after the other until one of them reads it, to `rounds` states
at most. -/
def Automaton.consumeWithin {σ κ : Type} [Automaton σ κ] (s : σ) (b : UInt8) :
    (rounds : Nat) → Option (σ × Effect κ)
  | 0 => none
  | rounds + 1 =>
      match effect? (transition s b).2 with
      | some effect => some ((transition s b).1, effect)
      | none => consumeWithin (transition s b).1 b rounds

/-- One of two states reads the byte. -/
theorem Automaton.consumeWithin_two {σ κ : Type} [Automaton σ κ] (s : σ) (b : UInt8) :
    consumeWithin s b 2 = some (consume s b) := by
  rcases hconsume : consume s b with ⟨t, effect⟩
  obtain ⟨r, hread, rfl | hpass⟩ := Boundaries.exists_transition_of_consume hconsume
  · simp only [consumeWithin, hread, effect?_toAction]
  · have hunread : effect? (Action.reprocess : Action κ) = none := rfl
    simp only [consumeWithin, hpass, hunread, hread, effect?_toAction]

namespace Dialect

variable {dialect : Dialect}

/-- Attempts the pending token again as long as a fragment is opened, `rounds` times at
most. -/
def stepWithin (dialect : Dialect) (view : View) (state : Page.State) :
    (rounds : Nat) → Except Fault (Option (Step Page.State))
  | 0 => .ok none
  | rounds + 1 => do
      match ← dialect.attempt view state with
      | .step step => .ok (some step)
      | .opened inner => dialect.stepWithin view inner rounds

/-- No token needs a third attempt. -/
theorem stepWithin_two (dialect : Dialect) (view : View) (state : Page.State) :
    dialect.stepWithin view state 2 = (dialect.step view state).map some := by
  rw [stepWithin, step_eq]
  cases hattempt : dialect.attempt view state with
  | error fault => rfl
  | ok outcome =>
      cases outcome with
      | step step => rfl
      | opened inner =>
          have hnesting := (Nesting.eq_host_of_enter_tag (dialect.enter_of_opened hattempt)).2
          simp only [bind, Except.bind, stepWithin]
          rw [step_eq]
          cases hagain : dialect.attempt view inner with
          | error fault => rfl
          | ok outcome =>
              cases outcome with
              | step step => rfl
              | opened again =>
                  -- A tag opens in the host only, and the host was left.
                  have henter := dialect.enter_of_opened hagain
                  rw [hnesting] at henter
                  cases henter

end Dialect

/-! ## All texts -/

/-- The languages and the dialects partition all texts: what they answer in one window covers
the text, a newline for a newline. Every byte is read after one of two transitions, and every
step of a page is done after one of two attempts. -/
theorem texts_partitioned (source : Bytes) :
    (∃ spans, (Automaton.grammar Markup.State Markup.Kind).Partitions source spans) ∧
      (∃ spans, (Automaton.grammar Tag.State Tag.Kind).Partitions source spans) ∧
      (∃ spans, (Automaton.grammar Script.State Script.Kind).Partitions source spans) ∧
      (∀ dialect : Dialect, ∃ spans, dialect.grammar.Partitions source spans) ∧
      (∀ (s : Markup.State) b, Automaton.consumeWithin s b 2 = some (Automaton.consume s b)) ∧
      (∀ (s : Tag.State) b, Automaton.consumeWithin s b 2 = some (Automaton.consume s b)) ∧
      (∀ (s : Script.State) b, Automaton.consumeWithin s b 2 = some (Automaton.consume s b)) ∧
      ∀ (dialect : Dialect) view state,
        dialect.stepWithin view state 2 = (dialect.step view state).map some := by
  refine ⟨?_, ?_, ?_, ?_, Automaton.consumeWithin_two, Automaton.consumeWithin_two,
    Automaton.consumeWithin_two, Dialect.stepWithin_two⟩
  · exact (Automaton.resumption Markup.State Markup.Kind).exists_partitions
      (Automaton.keepsLines_of_step (by intro kind; cases kind <;> decide)) source
  · exact (Automaton.resumption Tag.State Tag.Kind).exists_partitions
      (Automaton.keepsLines_of_step (by intro kind; cases kind <;> decide)) source
  · exact (Automaton.resumption Script.State Script.Kind).exists_partitions
      (Automaton.keepsLines_of_step (by intro kind; cases kind <;> decide)) source
  · intro dialect
    exact dialect.resumption.exists_partitions Dialect.keepsLines_of_step source

end PageLexing
