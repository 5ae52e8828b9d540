import PageLexing.Proofs.Scanning
import PageLexing.Schedule

/-!
# Driving a grammar through a text

Whoever lexes a text window by window decides where the windows end, how many tokens are
asked for in each of them, and whether the next window is given to the same reader or to a
new one. `Grammar.drive` carries out a list of such decisions.

A grammar that can be *resumed* has a relation between the states in which a window may
leave it and the state before the pending token, such that every window either holds the
token back or completes the token that the whole text would give. Every way of driving such
a grammar then comes upon the same tokens, at the same places and with the same states
behind them.

## Main results

* `Resumption.exists_path` — the tokens of a text, read one by one from the whole of it.
* `next_standing` — what a call does, in any window.
* `drive_standing` — what a list of turns does.
* `scheduleIndependent` — all ways of driving a grammar agree.
* `Resumption.exists_lexes` — how a text is read, in one window and in every session.
* `Resumption.stands_of_path` — one of its tokens, with what is read behind it.
* `Resumption.keeping` — what every step preserves holds of all states.
-/

namespace PageLexing

variable {σ : Type}

/-! ## Sessions -/

/-- A token that was answered, where it ends, and the state behind it. -/
structure Mark (σ : Type) where
  token : Token
  stop : Nat
  state : σ

/-- An answer and the reader behind it. -/
structure Answer (σ : Type) where
  token : Option Token
  reader : Reader σ

/-- What an answer says of the text, unless it is that the window is at its end. -/
def Answer.mark? (answer : Answer σ) : Option (Mark σ) :=
  answer.token.map (fun token => ⟨token, answer.reader.offset, answer.reader.store⟩)

/-- One window and what is done in it. -/
structure Turn where
  /-- Whether a new reader takes over. -/
  renewed : Bool
  /-- Whether the state is restored after the window was loaded without one. -/
  restored : Bool
  /-- How many bytes the window has at most. -/
  size : Nat
  /-- Whether the window is said to be the last one if it ends with the text. -/
  final : Bool
  /-- How often the next token is asked for. -/
  calls : Nat

namespace Reader

/-- The next `calls` answers. -/
def answers (reader : Reader σ) : (calls : Nat) → Except Fault (List (Answer σ) × Reader σ)
  | 0 => .ok ([], reader)
  | calls + 1 => do
      let (token, reader) ← reader.next
      let (answers, last) ← reader.answers calls
      .ok (⟨token, reader⟩ :: answers, last)

theorem answers_of_next {reader after last : Reader σ} {token : Option Token} {calls : Nat}
    {answers : List (Answer σ)} (hnext : reader.next = .ok (token, after))
    (hanswers : after.answers calls = .ok (answers, last)) :
    reader.answers (calls + 1) = .ok (⟨token, after⟩ :: answers, last) := by
  simp only [Reader.answers, hnext, hanswers, bind, Except.bind]

/-- Loads the next window of a turn, which starts at `position`. -/
def enter (reader : Reader σ) (source : Bytes) (position : Nat) (state : Option σ)
    (turn : Turn) : Except Fault (Reader σ) :=
  let reader := if turn.renewed then Reader.new reader.grammar else reader
  let len := min turn.size (source.length - position)
  let last := turn.final && position + len == source.length
  match turn.restored, state with
  | true, some state => do
      let reader ← reader.load none source position len last
      reader.restore state
  | _, state => reader.load state source position len last

/-- Carries out turns, the first of which continues at `position` from `state`. -/
def drive (reader : Reader σ) (source : Bytes) (position : Nat) (state : Option σ) :
    (turns : List Turn) → Except Fault (List (Answer σ))
  | [] => .ok []
  | turn :: turns => do
      let reader ← reader.enter source position state turn
      let (answers, reader) ← reader.answers turn.calls
      let more ← reader.drive source reader.cursor (some reader.store) turns
      .ok (answers ++ more)

end Reader

namespace Grammar

/-- All answers of a session over `source`. -/
def drive (grammar : Grammar σ) (source : Bytes) (turns : List Turn) :
    Except Fault (List (Answer σ)) :=
  (Reader.new grammar).drive source 0 none turns

/-- All ways of lexing `source` agree: every session answers the first of the tokens that
one window gives, with the same ends and states, and all of them if the last window was
read to its end; and no division of the text into windows makes a difference. -/
def ScheduleIndependent (grammar : Grammar σ) (source : Bytes) : Prop :=
  ∃ (whole : List (Mark σ)) (final : Reader σ),
    grammar.lexWhole source = .ok (whole.map Mark.token, final) ∧
    (∀ turns, ∃ answers, grammar.drive source turns = .ok answers ∧
      answers.filterMap Answer.mark? <+: whole ∧
      ((∃ answer ∈ answers, answer.token = none ∧ answer.reader.last = true) →
        answers.filterMap Answer.mark? = whole)) ∧
    (∀ cuts, grammar.lexSplit source cuts = grammar.lexWhole source) ∧
    ∀ chunk, grammar.lexChunked source (chunk + 1) = grammar.lexWhole source

/-! ## Paths -/

end Grammar

/-- A token as it is read from the whole text: where it starts and the states before and
behind it. -/
structure Passage (σ : Type) where
  start : Nat
  before : σ
  token : Token
  after : σ

/-- What an answer says that gives the token of a passage. -/
def Passage.mark (passage : Passage σ) : Mark σ :=
  ⟨passage.token, passage.start + passage.token.len, passage.after⟩

/-- The passages behind marks in a row, the first of which starts at `start` in `before`. -/
def Passage.ofMarks (start : Nat) (before : σ) : List (Mark σ) → List (Passage σ)
  | [] => []
  | mark :: marks =>
      ⟨start, before, mark.token, mark.state⟩ :: ofMarks mark.stop mark.state marks

namespace Grammar

variable {grammar : Grammar σ} {source : Bytes}

/-- Reading whole tokens of `source` leads from a place and a state to others. -/
inductive Path (grammar : Grammar σ) (source : Bytes) :
    Nat → σ → List (Passage σ) → Nat → σ → Prop where
  | nil (offset : Nat) (state : σ) : Path grammar source offset state [] offset state
  | cons {offset stop : Nat} {state next final : σ} {token : Token}
      {passages : List (Passage σ)}
      (hstep : grammar.step (View.whole (source.drop offset)) state =
        .ok (.token token next))
      (hrest : Path grammar source (offset + token.len) next passages stop final) :
      Path grammar source offset state (⟨offset, state, token, next⟩ :: passages) stop final

theorem Path.append {offset mid stop : Nat} {state between final : σ}
    {passages more : List (Passage σ)}
    (h : Path grammar source offset state passages mid between)
    (h' : Path grammar source mid between more stop final) :
    Path grammar source offset state (passages ++ more) stop final := by
  induction h with
  | nil => exact h'
  | cons hstep _ ih => exact .cons hstep (ih h')

/-- A path goes on by one token. -/
theorem Path.snoc {offset stop : Nat} {state base next : σ} {token : Token}
    {passages : List (Passage σ)}
    (h : Path grammar source offset state passages stop base)
    (hstep : grammar.step (View.whole (source.drop stop)) base = .ok (.token token next)) :
    Path grammar source offset state (passages ++ [⟨stop, base, token, next⟩])
      (stop + token.len) next :=
  h.append (.cons hstep (.nil _ next))

/-- The marks of a path tell its passages. -/
theorem Path.ofMarks_eq {offset stop : Nat} {state final : σ} {passages : List (Passage σ)}
    (h : Path grammar source offset state passages stop final) :
    Passage.ofMarks offset state (passages.map Passage.mark) = passages := by
  induction h with
  | nil => rfl
  | cons _ _ ih => exact congrArg (List.cons _) ih

/-- A path never goes back. -/
theorem Path.offset_le {offset stop : Nat} {state final : σ} {passages : List (Passage σ)}
    (h : Path grammar source offset state passages stop final) : offset ≤ stop := by
  induction h with
  | nil => exact Nat.le_refl _
  | cons _ _ ih => exact Nat.le_trans (Nat.le_add_right _ _) ih

/-- A path can be parted between any two of its tokens. -/
theorem Path.of_append {offset stop : Nat} {state final : σ} {front rest : List (Passage σ)}
    (h : Path grammar source offset state (front ++ rest) stop final) :
    ∃ mid between, Path grammar source offset state front mid between ∧
      Path grammar source mid between rest stop final := by
  induction front generalizing offset state with
  | nil => exact ⟨offset, state, .nil offset state, h⟩
  | cons passage front ih =>
      cases h with
      | cons hstep hrest =>
          obtain ⟨mid, between, hfront, hrest⟩ := ih hrest
          exact ⟨mid, between, .cons hstep hfront, hrest⟩

/-- At each of its tokens a path has a part before it and a part that starts with it. -/
theorem Path.at_passage {offset stop : Nat} {state final : σ} {front rest : List (Passage σ)}
    {passage : Passage σ}
    (h : Path grammar source offset state (front ++ passage :: rest) stop final) :
    Path grammar source offset state front passage.start passage.before ∧
      Path grammar source passage.start passage.before (passage :: rest) stop final := by
  obtain ⟨mid, between, hfront, hrest⟩ := h.of_append
  cases hrest with
  | cons hstep hmore => exact ⟨hfront, .cons hstep hmore⟩

/-- Every path is the first part of one that cannot go on. -/
theorem Path.exists_rest {offset stop last : Nat} {state base final : σ}
    {passages whole : List (Passage σ)}
    (h : Path grammar source offset state passages stop base)
    (hwhole : Path grammar source offset state whole last final)
    (hend : ∀ token next,
      grammar.step (View.whole (source.drop last)) final ≠ .ok (.token token next)) :
    ∃ rest, whole = passages ++ rest ∧ Path grammar source stop base rest last final := by
  induction h generalizing whole with
  | nil => exact ⟨whole, rfl, hwhole⟩
  | cons hstep _ ih =>
      cases hwhole with
      | nil => exact absurd hstep (hend _ _)
      | cons hstep' hrest' =>
          rw [hstep] at hstep'
          cases hstep'
          obtain ⟨rest, rfl, hrest⟩ := ih hrest'
          exact ⟨rest, rfl, hrest⟩

/-! ## Grammars that can be resumed -/

/-- A grammar whose windows never matter. -/
structure Resumption (grammar : Grammar σ) where
  /-- A token of the text may be read from the state. -/
  Ready : Bytes → σ → Prop
  /-- A window may have left the second state inside the token of the text that is read
  from the first one. -/
  Pending : Bytes → σ → σ → Prop
  initial : ∀ text, Ready text grammar.initial
  prescan_of_ready : ∀ {text state}, Ready text state → grammar.prescan state = 0
  pending_of_ready : ∀ {text state}, Ready text state → Pending text state state
  ready_of_pending : ∀ {text base state}, Pending text base state → Ready text base
  prescan_le : ∀ {text base state}, Pending text base state →
    grammar.prescan state ≤ text.length
  eq_of_prescan : ∀ {text base state}, Pending text base state →
    grammar.prescan state = 0 → state = base
  step : ∀ {text base state} (room last), Pending text base state →
    grammar.prescan state ≤ room → room ≤ text.length →
    (last = true → room = text.length) →
    (∃ held, grammar.step ⟨text, room, last⟩ state = .ok (.hold held) ∧
        Pending text base held ∧ grammar.prescan held = room ∧
        (last = true → text = [])) ∨
      ∃ token next, grammar.step ⟨text, room, last⟩ state = .ok (.token token next) ∧
        grammar.step (View.whole text) base = .ok (.token token next) ∧
        0 < token.len ∧ token.len ≤ room ∧ Ready (text.drop token.len) next

namespace Resumption

variable (resumption : grammar.Resumption)

/-- There is no token in an empty text. -/
theorem not_token_of_nil {base : σ} (h : resumption.Ready [] base) (token : Token) (next : σ) :
    grammar.step (View.whole []) base ≠ .ok (.token token next) := by
  intro hstep
  have hprescan := resumption.prescan_of_ready h
  rcases resumption.step 0 true (resumption.pending_of_ready h)
    (by omega) (Nat.le_refl 0) (fun _ => rfl) with
    ⟨held, hheld, -, -, -⟩ | ⟨found, after, -, -, hpos, hlen, -⟩
  · rw [show View.whole [] = (⟨[], 0, true⟩ : View) from rfl, hheld] at hstep
    cases hstep
  · omega

/-- Where a token is read, the text goes on. -/
theorem ne_nil_of_step {text : Bytes} {base next : σ} {token : Token}
    (h : resumption.Ready text base)
    (hstep : grammar.step (View.whole text) base = .ok (.token token next)) : text ≠ [] := by
  rintro rfl
  exact resumption.not_token_of_nil h token next hstep

/-- A text has a token where it is not at its end. -/
theorem exists_token {text : Bytes} {base : σ} (h : resumption.Ready text base)
    (hne : text ≠ []) :
    ∃ token next, grammar.step (View.whole text) base = .ok (.token token next) ∧
      0 < token.len ∧ token.len ≤ text.length ∧ resumption.Ready (text.drop token.len) next := by
  have hprescan := resumption.prescan_of_ready h
  rcases resumption.step text.length true
    (resumption.pending_of_ready h) (by omega) (Nat.le_refl _) (fun _ => rfl) with
    ⟨held, -, -, -, hnil⟩ | ⟨token, next, -, hstep, hpos, hlen, hnext⟩
  · exact absurd (hnil rfl) hne
  · exact ⟨token, next, hstep, hpos, hlen, hnext⟩

/-- A token of the text has at least one byte, and another may be read behind it. -/
theorem next_of_step {offset : Nat} {state next : σ} {token : Token}
    (h : resumption.Ready (source.drop offset) state)
    (hstep : grammar.step (View.whole (source.drop offset)) state = .ok (.token token next)) :
    0 < token.len ∧ resumption.Ready (source.drop (offset + token.len)) next := by
  obtain ⟨token', next', hstep', hpos, -, hnext⟩ :=
    resumption.exists_token h (resumption.ne_nil_of_step h hstep)
  rw [hstep] at hstep'
  cases hstep'
  rw [List.drop_drop] at hnext
  exact ⟨hpos, hnext⟩

/-- Every token of a path is read from a state from which it may be read. -/
theorem step_of_mem {offset stop : Nat} {state final : σ} {passages : List (Passage σ)}
    (h : Path grammar source offset state passages stop final)
    (hready : resumption.Ready (source.drop offset) state) :
    ∀ passage ∈ passages, resumption.Ready (source.drop passage.start) passage.before ∧
      grammar.step (View.whole (source.drop passage.start)) passage.before =
        .ok (.token passage.token passage.after) := by
  induction h with
  | nil => simp
  | @cons offset stop state next final token passages hstep _ ih =>
      have hnext := (resumption.next_of_step hready hstep).2
      intro passage hmem
      rcases List.mem_cons.mp hmem with rfl | hmem
      · exact ⟨hready, hstep⟩
      · exact ih hnext passage hmem

/-- A path leads to a state from which the next token may be read, and every token of it has
at least one byte. -/
theorem ready_of_path {offset stop : Nat} {state final : σ} {passages : List (Passage σ)}
    (h : Path grammar source offset state passages stop final)
    (hready : resumption.Ready (source.drop offset) state) :
    resumption.Ready (source.drop stop) final ∧ offset + passages.length ≤ stop := by
  induction h with
  | nil => exact ⟨hready, Nat.le_refl _⟩
  | @cons offset stop state next final token passages hstep _ ih =>
      obtain ⟨hpos, hnext⟩ := resumption.next_of_step hready hstep
      obtain ⟨hfinal, hlen⟩ := ih hnext
      refine ⟨hfinal, ?_⟩
      rw [List.length_cons]
      omega

include resumption in
/-- A path of one text is one of another text where each of its tokens is read there too. -/
theorem path_of_agree {other : Bytes} {offset stop : Nat} {state final : σ}
    {passages : List (Passage σ)}
    (h : Path grammar source offset state passages stop final)
    (hsame : ∀ {offset : Nat} {base next : σ} {token : Token}, offset + token.len ≤ stop →
      resumption.Ready (source.drop offset) base → resumption.Ready (other.drop offset) base →
      grammar.step (View.whole (source.drop offset)) base = .ok (.token token next) →
        grammar.step (View.whole (other.drop offset)) base = .ok (.token token next))
    (hready : resumption.Ready (source.drop offset) state)
    (hother : resumption.Ready (other.drop offset) state) :
    Path grammar other offset state passages stop final := by
  induction h with
  | nil => exact .nil _ _
  | cons hstep hrest ih =>
      have hstep' := hsame hrest.offset_le hready hother hstep
      exact .cons hstep' (ih hsame (resumption.next_of_step hready hstep).2
        (resumption.next_of_step hother hstep').2)

/-- The tokens of a text lead to its end. -/
theorem exists_path (source : Bytes) {offset : Nat} {state : σ} (hoffset : offset ≤ source.length)
    (h : resumption.Ready (source.drop offset) state) :
    ∃ passages final, Path grammar source offset state passages source.length final ∧
      resumption.Ready [] final := by
  induction hn : source.length - offset using Nat.strongRecOn generalizing offset state with
  | ind n ih =>
      by_cases hend : offset = source.length
      · subst hend
        rw [List.drop_length] at h
        exact ⟨[], state, .nil _ state, h⟩
      · have hlen : (source.drop offset).length = source.length - offset := List.length_drop
        obtain ⟨token, next, hstep, hpos, hle, hnext⟩ := resumption.exists_token h (by
          intro hnil
          rw [hnil, List.length_nil] at hlen
          omega)
        rw [List.drop_drop] at hnext
        obtain ⟨passages, final, hpath, hfinal⟩ :=
          ih (source.length - (offset + token.len)) (by omega) (by omega) hnext rfl
        exact ⟨_, final, .cons hstep hpath, hfinal⟩

/-- There is no token at the end of a text. -/
theorem not_token_at_end (source : Bytes) {base : σ} (h : resumption.Ready [] base)
    (token : Token) (next : σ) :
    grammar.step (View.whole (source.drop source.length)) base ≠ .ok (.token token next) := by
  rw [List.drop_length]
  exact resumption.not_token_of_nil h token next

/-- Every path is the first part of one that comes to the end of the text. -/
theorem rest_of_path {offset stop : Nat} {state base final : σ}
    {passages whole : List (Passage σ)}
    (h : Path grammar source offset state passages stop base)
    (hwhole : Path grammar source offset state whole source.length final)
    (hfinal : resumption.Ready [] final) :
    ∃ rest, whole = passages ++ rest ∧ Path grammar source stop base rest source.length final :=
  h.exists_rest hwhole (resumption.not_token_at_end source hfinal)

/-- A path that comes to the end of the text is the only one. -/
theorem path_unique {offset : Nat} {state base final : σ} {passages whole : List (Passage σ)}
    (h : Path grammar source offset state passages source.length base)
    (hwhole : Path grammar source offset state whole source.length final)
    (hbase : resumption.Ready [] base) (hfinal : resumption.Ready [] final) :
    passages = whole ∧ base = final := by
  obtain ⟨rest, rfl, hrest⟩ := resumption.rest_of_path h hwhole hfinal
  cases hrest with
  | nil => exact ⟨(List.append_nil passages).symm, rfl⟩
  | cons hstep _ => exact absurd hstep (resumption.not_token_at_end source hbase _ _)

end Resumption

end Grammar

/-! ## Where a session stands -/

namespace Reader

variable {grammar : Grammar σ} (resumption : grammar.Resumption) (source : Bytes)

/-- A stored state: the tokens before the pending one, where it starts, the state before
it, and the position from which the text is to be read on. -/
structure Stored (passages : List (Passage σ)) (offset : Nat) (base : σ) (position : Nat)
    (state : σ) : Prop where
  path : grammar.Path source 0 grammar.initial passages offset base
  pending : resumption.Pending (source.drop offset) base state
  position_eq : offset + grammar.prescan state = position
  position_le : position ≤ source.length

/-- A reader inside a window of the text. -/
structure Standing (passages : List (Passage σ)) (base : σ) (reader : Reader σ) : Prop where
  grammar_eq : reader.grammar = grammar
  buffer_eq : reader.buffer = source
  path : grammar.Path source 0 grammar.initial passages reader.start base
  pending : resumption.Pending (source.drop reader.start) base reader.state
  cursor_le : reader.cursor ≤ reader.stop
  stop_le : reader.stop ≤ source.length
  last_eq : reader.last = true → reader.stop = source.length

/-- What is known of an answer. -/
structure Answered (answer : Answer σ) : Prop where
  standing : ∃ passages base, Standing resumption source passages base answer.reader
  /-- Behind a token nothing is pending. -/
  ready : ∀ token, answer.token = some token →
    resumption.Ready (source.drop answer.reader.start) answer.reader.state
  /-- A window is read to its end, and the last one leaves no bytes. -/
  ended : answer.token = none → answer.reader.cursor = answer.reader.stop ∧
    (answer.reader.last = true → answer.reader.start = source.length)

variable {resumption source} {passages : List (Passage σ)} {base : σ} {reader : Reader σ}

theorem stored_of_standing (h : Standing resumption source passages base reader) :
    Stored resumption source passages reader.start base reader.cursor reader.store where
  path := h.path
  pending := h.pending
  position_eq := by
    rw [cursor, h.grammar_eq]
    rfl
  position_le := Nat.le_trans h.cursor_le h.stop_le

/-- Before a text nothing is pending. -/
theorem stored_initial (resumption : grammar.Resumption) (source : Bytes) :
    Stored resumption source [] 0 grammar.initial 0 grammar.initial where
  path := .nil 0 grammar.initial
  pending := resumption.pending_of_ready (resumption.initial _)
  position_eq := by
    rw [Nat.zero_add]
    exact resumption.prescan_of_ready (resumption.initial [])
  position_le := Nat.zero_le _

/-! ## Calls -/

/-- What is ahead of a reader behind a token. -/
theorem drop_ahead (reader : Reader σ) (token : Token) :
    reader.ahead.drop token.len = reader.buffer.drop (reader.start + token.len) := by
  rw [reader.ahead_eq, List.drop_drop]

/-- The reader behind a token. -/
def behind (reader : Reader σ) (token : Token) (state : σ) : Reader σ :=
  { reader with
    start := reader.start + token.len
    state := state
    ahead := reader.ahead.drop token.len
    ahead_eq := reader.drop_ahead token }

/-- A call answers the token that a step completes. -/
theorem next_of_token {token : Token} {next : σ}
    (h : reader.grammar.step reader.view reader.state = .ok (.token token next)) :
    reader.next = .ok (some token, reader.behind token next) := by
  simp only [Reader.next, h, behind]

/-- A call answers nothing where a step holds the token back. -/
theorem next_of_hold {held : σ}
    (h : reader.grammar.step reader.view reader.state = .ok (.hold held)) :
    reader.next = .ok (none, { reader with state := held }) := by
  simp only [Reader.next, h]

/-- A call makes a step in the rest of the window. -/
theorem step_standing (h : Standing resumption source passages base reader) :
    reader.grammar.step reader.view reader.state =
      grammar.step ⟨source.drop reader.start, reader.stop - reader.start, reader.last⟩
        reader.state := by
  rw [view, reader.ahead_eq, h.buffer_eq, h.grammar_eq]

/-- Where a call holds on, the window is read to its end. -/
theorem standing_hold (h : Standing resumption source passages base reader) {held : σ}
    (hpending : resumption.Pending (source.drop reader.start) base held)
    (hroom : reader.start + grammar.prescan held = reader.stop) :
    Standing resumption source passages base { reader with state := held } where
  grammar_eq := h.grammar_eq
  buffer_eq := h.buffer_eq
  path := h.path
  pending := hpending
  cursor_le := by
    show reader.start + reader.grammar.prescan held ≤ reader.stop
    rw [h.grammar_eq]
    exact Nat.le_of_eq hroom
  stop_le := h.stop_le
  last_eq := h.last_eq

/-- Where a call answers a token, the reader stands behind it. -/
theorem standing_token (h : Standing resumption source passages base reader) {token : Token}
    {next : σ} (hwhole : grammar.step (View.whole (source.drop reader.start)) base =
      .ok (.token token next))
    (hready : resumption.Ready (source.drop (reader.start + token.len)) next)
    (hle : reader.start + token.len ≤ reader.stop) :
    Standing resumption source (passages ++ [⟨reader.start, base, token, next⟩]) next
      (reader.behind token next) where
  grammar_eq := h.grammar_eq
  buffer_eq := h.buffer_eq
  path := h.path.snoc hwhole
  pending := resumption.pending_of_ready hready
  cursor_le := by
    show reader.start + token.len + reader.grammar.prescan next ≤ reader.stop
    rw [h.grammar_eq, resumption.prescan_of_ready hready]
    exact hle
  stop_le := h.stop_le
  last_eq := h.last_eq

/-- A call holds on at the end of the window, or it answers the next token of the text. -/
theorem next_standing (h : Standing resumption source passages base reader) :
    ∃ token after passages' base', reader.next = .ok (token, after) ∧
      Standing resumption source passages' base' after ∧
      Answered resumption source ⟨token, after⟩ ∧
      passages'.map Passage.mark =
        passages.map Passage.mark ++ (Answer.mark? ⟨token, after⟩).toList ∧
      after.stop = reader.stop ∧ after.last = reader.last ∧
      (token ≠ none → reader.start < after.start) := by
  have hprescan : reader.start + grammar.prescan reader.state ≤ reader.stop := by
    have := h.cursor_le
    rwa [cursor, h.grammar_eq] at this
  have hstop := h.stop_le
  have hlen : (source.drop reader.start).length = source.length - reader.start :=
    List.length_drop
  have hnext := step_standing h
  rcases resumption.step (reader.stop - reader.start) reader.last h.pending (by omega)
    (by omega) (fun hlast => by rw [hlen, h.last_eq hlast]) with
    ⟨held, hstep, hpending, hroom, hnil⟩ | ⟨token, next, hstep, hwhole, hpos, hle, hready⟩
  · rw [hstep] at hnext
    have hcursor : reader.start + grammar.prescan held = reader.stop := by omega
    have hstanding := standing_hold h hpending hcursor
    refine ⟨none, { reader with state := held }, passages, base, next_of_hold hnext, hstanding,
      ?_, ?_, rfl, rfl, fun hne => absurd rfl hne⟩
    · refine ⟨⟨passages, base, hstanding⟩, fun token htoken => (by cases htoken),
        fun _ => ⟨?_, fun hlast => ?_⟩⟩
      · show reader.start + reader.grammar.prescan held = reader.stop
        rw [h.grammar_eq, hcursor]
      · rw [hnil hlast, List.length_nil] at hlen
        show reader.start = source.length
        omega
    · exact (List.append_nil _).symm
  · rw [hstep] at hnext
    rw [List.drop_drop] at hready
    have hstanding := standing_token h hwhole hready (by omega)
    refine ⟨some token, _, _, next, next_of_token hnext, hstanding, ?_, ?_, rfl, rfl,
      fun _ => Nat.lt_add_of_pos_right hpos⟩
    · exact ⟨⟨_, next, hstanding⟩, fun _ _ => hready, fun hnone => by cases hnone⟩
    · rw [List.map_append]
      rfl

/-- Calls answer the next tokens of the text, as far as the window goes. -/
theorem answers_standing (h : Standing resumption source passages base reader) (calls : Nat) :
    ∃ answers after passages' base', reader.answers calls = .ok (answers, after) ∧
      Standing resumption source passages' base' after ∧
      (∀ answer ∈ answers, Answered resumption source answer ∧
        answer.reader.start ≤ after.start) ∧
      passages'.map Passage.mark =
        passages.map Passage.mark ++ answers.filterMap Answer.mark? ∧
      reader.start ≤ after.start := by
  induction calls generalizing passages base reader with
  | zero =>
      exact ⟨[], reader, passages, base, rfl, h, by simp, by simp, Nat.le_refl _⟩
  | succ calls ih =>
      obtain ⟨token, next, passages₁, base₁, hnext, hstanding, hanswered, hmarks, -⟩ :=
        next_standing h
      obtain ⟨answers, after, passages₂, base₂, hanswers, hafter, hall, hmarks', hle⟩ :=
        ih hstanding
      have hstart : reader.start ≤ next.start := Nat.le.intro (offset_next hnext).symm
      refine ⟨⟨token, next⟩ :: answers, after, passages₂, base₂, answers_of_next hnext hanswers,
        hafter, ?_, ?_, Nat.le_trans hstart hle⟩
      · intro answer hmem
        rcases List.mem_cons.mp hmem with rfl | hmem
        · exact ⟨hanswered, hle⟩
        · exact hall answer hmem
      · rw [hmarks', hmarks, List.append_assoc, List.filterMap_cons]
        cases (Answer.mark? ⟨token, next⟩ : Option (Mark σ)) <;> rfl

/-! ## Windows -/

/-- A reader of `source` in which the pending token starts at `start`. -/
def window (grammar : Grammar σ) (source : Bytes) (start stop : Nat) (last : Bool)
    (state : σ) : Reader σ where
  grammar := grammar
  buffer := source
  start := start
  stop := stop
  last := last
  state := state
  ahead := source.drop start
  ahead_eq := rfl

theorem load_eq_window {position len : Nat} {state : Option σ} {last : Bool}
    (h : reader.grammar.prescan (state.getD reader.grammar.initial) ≤ position) :
    reader.load state source position len last =
      .ok (window reader.grammar source
        (position - reader.grammar.prescan (state.getD reader.grammar.initial))
        (min (position + len) source.length) last (state.getD reader.grammar.initial)) :=
  if_neg (Nat.not_lt.mpr h)

theorem restore_window {start stop : Nat} {last : Bool} {state other : σ}
    (h : grammar.prescan other ≤ start + grammar.prescan state) :
    (window grammar source start stop last state).restore other =
      .ok (window grammar source (start + grammar.prescan state - grammar.prescan other) stop
        last other) :=
  if_neg (Nat.not_lt.mpr h)

/-- A stored state may go on in any window that continues the text. -/
theorem standing_window {offset position : Nat} {state : σ} (stop : Nat) (last : Bool)
    (h : Stored resumption source passages offset base position state)
    (hstart : position ≤ stop) (hstop : stop ≤ source.length)
    (hlast : last = true → stop = source.length) :
    Standing resumption source passages base
      (window grammar source offset stop last state) where
  grammar_eq := rfl
  buffer_eq := rfl
  path := h.path
  pending := h.pending
  cursor_le := by
    show offset + grammar.prescan state ≤ stop
    rw [h.position_eq]
    exact hstart
  stop_le := hstop
  last_eq := hlast

/-- A stored state is loaded into the next window. -/
theorem load_stored {offset position : Nat} {state : Option σ} (len : Nat) (last : Bool)
    (h : Stored resumption source passages offset base position
      (state.getD grammar.initial)) (hgrammar : reader.grammar = grammar) :
    reader.load state source position len last =
      .ok (window grammar source offset (min (position + len) source.length) last
        (state.getD grammar.initial)) := by
  have hposition := h.position_eq
  rw [load_eq_window (by rw [hgrammar]; omega), hgrammar]
  congr 2
  omega

/-- A stored state is restored in a window that was loaded without it. -/
theorem restore_stored {offset position stop : Nat} {state : σ} {last : Bool}
    (h : Stored resumption source passages offset base position state) :
    (window grammar source position stop last grammar.initial).restore state =
      .ok (window grammar source offset stop last state) := by
  have hposition := h.position_eq
  have hzero : grammar.prescan grammar.initial = 0 :=
    resumption.prescan_of_ready (resumption.initial [])
  rw [restore_window (by omega)]
  congr 2
  omega

/-- Before a position at which nothing is pending, a reader without a state starts. -/
theorem load_none {position len : Nat} {last : Bool} (hgrammar : reader.grammar = grammar)
    (hzero : grammar.prescan grammar.initial = 0) :
    reader.load none source position len last =
      .ok (window grammar source position (min (position + len) source.length) last
        grammar.initial) := by
  subst hgrammar
  have hinitial : reader.grammar.prescan ((none : Option σ).getD reader.grammar.initial) =
    0 := hzero
  rw [load_eq_window (by omega), hinitial]
  rfl

/-- The next window of a turn continues where the one before it ended. -/
theorem enter_stored {offset position : Nat} {state : Option σ}
    (h : Stored resumption source passages offset base position
      (state.getD grammar.initial)) (hgrammar : reader.grammar = grammar) (turn : Turn) :
    ∃ entered, reader.enter source position state turn = .ok entered ∧
      Standing resumption source passages base entered ∧ entered.start = offset := by
  have hle := h.position_le
  have hgrammar' : (if turn.renewed then Reader.new reader.grammar else reader).grammar =
      grammar := by
    split
    · exact hgrammar
    · exact hgrammar
  have hload := load_stored (min turn.size (source.length - position))
    (turn.final && position + min turn.size (source.length - position) == source.length) h
    hgrammar'
  refine ⟨window grammar source offset
    (min (position + min turn.size (source.length - position)) source.length)
    (turn.final && position + min turn.size (source.length - position) == source.length)
    (state.getD grammar.initial), ?_, standing_window _ _ h (by omega) (by omega) ?_, rfl⟩
  · cases hrestored : turn.restored with
    | false =>
        simp only [enter, hrestored]
        exact hload
    | true =>
        cases state with
        | none =>
            simp only [enter, hrestored]
            exact hload
        | some state =>
            have hzero : grammar.prescan grammar.initial = 0 :=
              resumption.prescan_of_ready (resumption.initial [])
            simp only [enter, hrestored, load_none hgrammar' hzero, bind, Except.bind]
            exact restore_stored h
  · intro htrue
    rw [Bool.and_eq_true, beq_iff_eq] at htrue
    omega

/-- Turns answer the next tokens of the text. -/
theorem drive_standing (reader : Reader σ) {offset position : Nat} (state : Option σ)
    (h : Stored resumption source passages offset base position
      (state.getD grammar.initial)) (hgrammar : reader.grammar = grammar)
    (turns : List Turn) :
    ∃ answers passages' offset' base', reader.drive source position state turns =
        .ok answers ∧
      grammar.Path source 0 grammar.initial passages' offset' base' ∧
      resumption.Ready (source.drop offset') base' ∧ offset' ≤ source.length ∧
      (∀ answer ∈ answers, Answered resumption source answer ∧
        answer.reader.start ≤ offset') ∧
      passages'.map Passage.mark =
        passages.map Passage.mark ++ answers.filterMap Answer.mark? ∧ offset ≤ offset' := by
  induction turns generalizing passages offset base position state reader with
  | nil =>
      have hposition := h.position_eq
      have hle := h.position_le
      exact ⟨[], passages, offset, base, rfl, h.path, resumption.ready_of_pending h.pending,
        by omega, by simp, by simp, Nat.le_refl _⟩
  | cons turn turns ih =>
      obtain ⟨entered, henter, hentered, hstart⟩ := enter_stored h hgrammar turn
      obtain ⟨answers, after, passages₁, base₁, hanswers, hafter, hall, hmarks, hle⟩ :=
        answers_standing hentered turn.calls
      obtain ⟨more, passages₂, offset₂, base₂, hmore, hpath, hready, hoffset, hall', hmarks',
        hle'⟩ := ih after (some after.store) (stored_of_standing hafter) hafter.grammar_eq
      refine ⟨answers ++ more, passages₂, offset₂, base₂, ?_, hpath, hready, hoffset, ?_, ?_,
        by omega⟩
      · simp only [drive, henter, hanswers, hmore, bind, Except.bind]
      · intro answer hmem
        rcases List.mem_append.mp hmem with hmem | hmem
        · exact ⟨(hall answer hmem).1, Nat.le_trans (hall answer hmem).2 hle'⟩
        · exact hall' answer hmem
      · rw [hmarks', hmarks, List.filterMap_append, List.append_assoc]

/-! ## Windows that are read to their end -/

/-- Draining answers all tokens that the window completes, given enough fuel. -/
theorem drainWithin_standing (h : Standing resumption source passages base reader)
    {fuel : Nat} (hfuel : reader.stop - reader.start < fuel) :
    ∃ tokens after passages' base', reader.drainWithin fuel = .ok (tokens, after) ∧
      Standing resumption source passages' base' after ∧
      passages'.map Passage.token = passages.map Passage.token ++ tokens ∧
      after.cursor = after.stop ∧ after.stop = reader.stop ∧ after.last = reader.last ∧
      (after.last = true → after.start = source.length) := by
  induction fuel generalizing passages base reader with
  | zero => omega
  | succ fuel ih =>
      obtain ⟨token, next, passages₁, base₁, hnext, hstanding, hanswered, hmarks, hstop, hlast,
        hsome⟩ := next_standing h
      cases token with
      | none =>
          obtain ⟨hcursor, hend⟩ := hanswered.ended rfl
          refine ⟨[], next, passages₁, base₁, ?_, hstanding, ?_, hcursor, hstop, hlast, hend⟩
          · simp only [drainWithin, hnext, bind, Except.bind]
          · have := congrArg (List.map Mark.token) hmarks
            simpa [List.map_map, Function.comp_def, Passage.mark, Answer.mark?] using this
      | some token =>
          have hlt := hsome (by simp)
          have hcursor := hstanding.cursor_le
          rw [cursor] at hcursor
          obtain ⟨tokens, after, passages₂, base₂, hdrain, hafter, htokens, hend, hstop',
            hlast', hfinal⟩ := ih hstanding (by omega)
          refine ⟨token :: tokens, after, passages₂, base₂, ?_, hafter, ?_, hend,
            hstop'.trans hstop, hlast'.trans hlast, hfinal⟩
          · simp only [drainWithin, hnext, hdrain, bind, Except.bind]
          · have := congrArg (List.map Mark.token) hmarks
            have hmap : passages₁.map Passage.token = passages.map Passage.token ++ [token] := by
              simpa [List.map_map, Function.comp_def, Passage.mark, Answer.mark?] using this
            rw [htokens, hmap, List.append_assoc]
            rfl

/-- Draining a window answers all tokens that it completes. -/
theorem drain_standing (h : Standing resumption source passages base reader) :
    ∃ tokens after passages' base', reader.drain = .ok (tokens, after) ∧
      Standing resumption source passages' base' after ∧
      passages'.map Passage.token = passages.map Passage.token ++ tokens ∧
      after.cursor = after.stop ∧ after.stop = reader.stop ∧ after.last = reader.last ∧
      (after.last = true → after.start = source.length) :=
  drainWithin_standing h (by omega)

/-- Windows that end at increasing positions, the last at the end of the text, answer all
tokens. -/
theorem windows_stored (reader : Reader σ) {offset position : Nat} (state : Option σ)
    {stops : List Nat} (h : Stored resumption source passages offset base position
      (state.getD grammar.initial)) (hgrammar : reader.grammar = grammar)
    (hsorted : stops.Pairwise (· < ·))
    (hbounds : ∀ stop ∈ stops, position ≤ stop ∧ stop ≤ source.length)
    (hlast : stops.getLast? = some source.length) :
    ∃ tokens after passages' base', reader.windows source position state stops =
        .ok (tokens, after) ∧
      Standing resumption source passages' base' after ∧
      passages'.map Passage.token = passages.map Passage.token ++ tokens ∧
      after.start = source.length ∧ after.last = true := by
  induction stops generalizing passages offset base position state reader with
  | nil => cases hlast
  | cons stop stops ih =>
      obtain ⟨hposition, hstop⟩ := hbounds stop (List.mem_cons_self ..)
      obtain ⟨hsmall, hrest⟩ := List.pairwise_cons.mp hsorted
      have hload := load_stored (stop - position) (stop == source.length) h hgrammar
      have hloaded := standing_window stop (stop == source.length) h hposition hstop
        (fun htrue => beq_iff_eq.mp htrue)
      rw [show min (position + (stop - position)) source.length = stop by omega] at hload
      obtain ⟨tokens, after, passages₁, base₁, hdrain, hafter, htokens, hcursor, hafterStop,
        hafterLast, hfinal⟩ := drain_standing hloaded
      have hafterStop : after.stop = stop := hafterStop
      have hafterLast : after.last = (stop == source.length) := hafterLast
      cases stops with
      | nil =>
          have heq : stop = source.length := by simpa using hlast
          have htrue : after.last = true := by
            rw [hafterLast]
            exact beq_iff_eq.mpr heq
          refine ⟨tokens ++ [], after, passages₁, base₁, ?_, hafter, ?_, hfinal htrue, htrue⟩
          · simp only [windows, hload, hdrain, bind, Except.bind]
          · rw [List.append_nil, htokens]
      | cons stop' stops =>
          have hstored := stored_of_standing hafter
          rw [hcursor, hafterStop] at hstored
          obtain ⟨more, final, passages₂, base₂, hmore, hfinalStanding, htokens', hend, htrue⟩ :=
            ih after (some after.store) hstored hafter.grammar_eq hrest (by
              intro other hmem
              exact ⟨Nat.le_of_lt (hsmall other hmem),
                (hbounds other (List.mem_cons_of_mem _ hmem)).2⟩) (by simpa using hlast)
          refine ⟨tokens ++ more, final, passages₂, base₂, ?_, hfinalStanding, ?_, hend, htrue⟩
          · rw [windows, hload]
            simp only [hdrain, hmore, bind, Except.bind]
          · rw [htokens', htokens, List.append_assoc]

end Reader

/-! ## Schedules -/

namespace Grammar

namespace Resumption

variable {grammar : Grammar σ} (resumption : grammar.Resumption) (source : Bytes)

open Reader

/-- All ways of ending a text in the last window are the same. -/
theorem eq_window_of_standing {passages : List (Passage σ)} {base : σ} {reader : Reader σ}
    (h : Standing resumption source passages base reader)
    (hstart : reader.start = source.length) (hlast : reader.last = true) :
    reader = window grammar source source.length source.length true base := by
  have hstop := h.last_eq hlast
  have hcursor := h.cursor_le
  have hgrammar := h.grammar_eq
  have hbuffer := h.buffer_eq
  rw [cursor, hgrammar] at hcursor
  have hstate : reader.state = base :=
    resumption.eq_of_prescan h.pending (by omega)
  rcases reader with ⟨grammar', buffer, start, stop, last, state, ahead, hahead⟩
  simp only at hstart hlast hstop hstate hgrammar hbuffer
  subst hgrammar hbuffer hstart hlast hstop hstate hahead
  rfl

/-- However a text is divided into windows, its tokens and its end are the same. -/
theorem lexSplit_eq {whole : List (Passage σ)} {final : σ}
    (hwhole : grammar.Path source 0 grammar.initial whole source.length final)
    (hfinal : resumption.Ready [] final) (cuts : List Nat) :
    grammar.lexSplit source cuts =
      .ok (whole.map Passage.token,
        window grammar source source.length source.length true final) := by
  obtain ⟨tokens, after, passages, base, hwindows, hstanding, htokens, hstart, hlast⟩ :=
    windows_stored (Reader.new grammar) none (stored_initial resumption source) rfl
      (Schedule.sorted_boundaries source.length cuts) (by
        intro stop hmem
        refine ⟨Nat.zero_le stop, ?_⟩
        rcases List.mem_append.mp hmem with hmem | hmem
        · exact Nat.le_of_lt (Schedule.mem_innerCuts.mp hmem).2.2
        · exact Nat.le_of_eq (List.mem_singleton.mp hmem))
      (Schedule.getLast?_boundaries source.length cuts)
  have hready := resumption.ready_of_pending hstanding.pending
  have hpath := hstanding.path
  rw [hstart] at hpath
  rw [hstart, List.drop_length] at hready
  obtain ⟨rfl, rfl⟩ := resumption.path_unique hpath hwhole hready hfinal
  rw [lexSplit, hwindows, htokens, resumption.eq_window_of_standing source hstanding hstart hlast]
  rfl

include resumption in
/-- Every session comes upon the first of the tokens of a text, and upon all of them if it reads
the last window to its end. -/
theorem drive_of_path {whole : List (Passage σ)} {final : σ}
    (hwhole : grammar.Path source 0 grammar.initial whole source.length final)
    (hfinal : resumption.Ready [] final) (turns : List Turn) :
    ∃ answers, grammar.drive source turns = .ok answers ∧
      answers.filterMap Answer.mark? <+: whole.map Passage.mark ∧
      ((∃ answer ∈ answers, answer.token = none ∧ answer.reader.last = true) →
        answers.filterMap Answer.mark? = whole.map Passage.mark) := by
  obtain ⟨answers, passages, offset, base, hdrive, hpath, hready, hoffset, hall, hmarks, -⟩ :=
    drive_standing (Reader.new grammar) none (stored_initial resumption source) rfl turns
  rw [List.map_nil, List.nil_append] at hmarks
  obtain ⟨rest, hrest, -⟩ := resumption.rest_of_path hpath hwhole hfinal
  refine ⟨answers, hdrive, ?_, ?_⟩
  · rw [← hmarks, hrest, List.map_append]
    exact List.prefix_append _ _
  · rintro ⟨answer, hmem, hnone, hlast⟩
    -- A drained last window leaves nothing, and no later turn goes back.
    obtain ⟨hanswered, hle⟩ := hall answer hmem
    have hstart := (hanswered.ended hnone).2 hlast
    have hend : offset = source.length := by omega
    subst hend
    rw [List.drop_length] at hready
    rw [← hmarks, (resumption.path_unique hpath hwhole hready hfinal).1]

include resumption in
/-- All ways of driving a grammar that can be resumed agree. -/
theorem scheduleIndependent : grammar.ScheduleIndependent source := by
  obtain ⟨whole, final, hwhole, hfinal⟩ := resumption.exists_path source
    (Nat.zero_le _) (resumption.initial _)
  have hsplit := resumption.lexSplit_eq source hwhole hfinal
  have htokens : (whole.map Passage.mark).map Mark.token = whole.map Passage.token := by
    rw [List.map_map]
    rfl
  refine ⟨whole.map Passage.mark,
    window grammar source source.length source.length true final, ?_,
    resumption.drive_of_path source hwhole hfinal, ?_, ?_⟩
  · rw [htokens]
    exact hsplit []
  · intro cuts
    rw [lexWhole, hsplit, hsplit]
  · intro chunk
    rw [lexChunked, if_neg (Nat.succ_ne_zero chunk), lexWhole, hsplit, hsplit]

end Resumption

/-! ## What a text is read as -/

/-- The passages are how a text is read, in one window and in every session. -/
structure Lexes (grammar : Grammar σ) (source : Bytes) (passages : List (Passage σ)) : Prop where
  /-- Lexing the text answers the tokens. -/
  lexed : ∃ after, grammar.lexWhole source = .ok (passages.map Passage.token, after)
  /-- The steps of the grammar read the tokens and lead from each state to the next. -/
  path : ∃ final, grammar.Path source 0 grammar.initial passages source.length final
  /-- A session comes upon the first of the tokens and states, upon all of them if it reads the
  last window to its end. -/
  stored : ∀ turns, ∃ answers, grammar.drive source turns = .ok answers ∧
    answers.filterMap Answer.mark? <+: passages.map Passage.mark ∧
    ((∃ answer ∈ answers, answer.token = none ∧ answer.reader.last = true) →
      answers.filterMap Answer.mark? = passages.map Passage.mark)

/-- Every text is read as some passages. -/
theorem Resumption.exists_lexes {grammar : Grammar σ} (resumption : grammar.Resumption)
    (source : Bytes) :
    ∃ passages final, grammar.Lexes source passages ∧
      grammar.Path source 0 grammar.initial passages source.length final ∧
      resumption.Ready [] final := by
  obtain ⟨passages, final, hpath, hfinal⟩ :=
    resumption.exists_path source (Nat.zero_le _) (resumption.initial _)
  exact ⟨passages, final, ⟨⟨_, resumption.lexSplit_eq source hpath hfinal []⟩, ⟨final, hpath⟩,
    resumption.drive_of_path source hpath hfinal⟩, hpath, hfinal⟩

/-! ## Tokens in their places -/

namespace Resumption

variable {grammar : Grammar σ} (resumption : grammar.Resumption)

/-- The token of `passage` is read where the passage says it is, and `rest` is read behind it. -/
structure Stands (source : Bytes) (passage : Passage σ) (rest : List (Passage σ)) (final : σ) :
    Prop where
  ready : resumption.Ready (source.drop passage.start) passage.before
  step : grammar.step (View.whole (source.drop passage.start)) passage.before =
    .ok (.token passage.token passage.after)
  pos : 0 < passage.token.len
  next : resumption.Ready (source.drop (passage.start + passage.token.len)) passage.after
  behind : grammar.Path source (passage.start + passage.token.len) passage.after rest source.length
    final

variable {resumption} {source : Bytes} {passage : Passage σ} {rest : List (Passage σ)} {final : σ}

theorem stands_of_cons (hready : resumption.Ready (source.drop passage.start) passage.before)
    (h : grammar.Path source passage.start passage.before (passage :: rest) source.length final) :
    resumption.Stands source passage rest final := by
  rcases passage with ⟨start, before, token, after⟩
  cases h with
  | cons hstep hrest =>
      obtain ⟨hpos, hnext⟩ := resumption.next_of_step hready hstep
      exact ⟨hready, hstep, hpos, hnext, hrest⟩

variable (resumption) in
/-- So it is with every token that a text is read as. -/
theorem stands_of_path {passages front : List (Passage σ)}
    (h : grammar.Path source 0 grammar.initial passages source.length final)
    (hsplit : passages = front ++ passage :: rest) : resumption.Stands source passage rest final := by
  subst hsplit
  obtain ⟨hfront, hrest⟩ := h.at_passage
  exact stands_of_cons (resumption.ready_of_path hfront (resumption.initial _)).1 hrest

variable (resumption) in
theorem exists_stands_of_mem {passages : List (Passage σ)}
    (h : grammar.Path source 0 grammar.initial passages source.length final)
    (hmem : passage ∈ passages) : ∃ rest, resumption.Stands source passage rest final := by
  obtain ⟨front, rest, hsplit⟩ := List.append_of_mem hmem
  exact ⟨rest, resumption.stands_of_path h hsplit⟩

/-- Where a byte stands behind a token, another token is read. -/
theorem Stands.exists_next {b : UInt8} (h : resumption.Stands source passage rest final)
    (hhead : (source.drop (passage.start + passage.token.len)).head? = some b) :
    ∃ follower more, rest = follower :: more ∧ resumption.Stands source follower more final ∧
      follower.start = passage.start + passage.token.len ∧ follower.before = passage.after := by
  rcases passage with ⟨start, before, token, after⟩
  have hbehind : grammar.Path source (start + token.len) after rest source.length final := h.behind
  have hnext : resumption.Ready (source.drop (start + token.len)) after := h.next
  generalize start + token.len = stop at hbehind hnext hhead ⊢
  cases hbehind with
  | nil =>
      rw [List.drop_length] at hhead
      cases hhead
  | cons hstep hrest => exact ⟨_, _, rfl, stands_of_cons hnext (.cons hstep hrest), rfl, rfl⟩

end Resumption

/-! ## What all states keep -/

namespace Resumption

variable {grammar : Grammar σ} (resumption : grammar.Resumption)

/-- What holds of the first state and is preserved by the steps in all windows is kept: the grammar
can be resumed with no other states. -/
def keeping (Keeps : σ → Prop) (initial : Keeps grammar.initial)
    (preserved : ∀ {text base state step} (room last), resumption.Pending text base state →
      Keeps state → grammar.prescan state ≤ room → room ≤ text.length →
      (last = true → room = text.length) → grammar.step ⟨text, room, last⟩ state = .ok step →
      Keeps step.state) : grammar.Resumption where
  Ready text state := resumption.Ready text state ∧ Keeps state
  Pending text base state := resumption.Pending text base state ∧ Keeps base ∧ Keeps state
  initial text := ⟨resumption.initial text, initial⟩
  prescan_of_ready h := resumption.prescan_of_ready h.1
  pending_of_ready h := ⟨resumption.pending_of_ready h.1, h.2, h.2⟩
  ready_of_pending h := ⟨resumption.ready_of_pending h.1, h.2.1⟩
  prescan_le h := resumption.prescan_le h.1
  eq_of_prescan h := resumption.eq_of_prescan h.1
  step room last h hprescan hroom hlast := by
    obtain ⟨hpending, hbase, hstate⟩ := h
    have hkept : ∀ step, grammar.step ⟨_, room, last⟩ _ = .ok step → Keeps step.state :=
      fun _ => preserved room last hpending hstate hprescan hroom hlast
    rcases resumption.step room last hpending hprescan hroom hlast with
      ⟨held, hstep, hheld, hheldRoom, hnil⟩ | ⟨token, next, hstep, hwhole, hpos, hlen, hnext⟩
    · exact Or.inl ⟨held, hstep, ⟨hheld, hbase, hkept _ hstep⟩, hheldRoom, hnil⟩
    · exact Or.inr ⟨token, next, hstep, hwhole, hpos, hlen, hnext, hkept _ hstep⟩

/-- Every state that a session comes upon is pending. -/
theorem pending_of_drive (source : Bytes) (turns : List Turn) :
    ∃ answers, grammar.drive source turns = .ok answers ∧
      ∀ answer ∈ answers, ∃ text base, resumption.Pending text base answer.reader.store := by
  obtain ⟨answers, passages, offset, base, hdrive, -, -, -, hall, -, -⟩ :=
    Reader.drive_standing (Reader.new grammar) none (Reader.stored_initial resumption source) rfl
      turns
  refine ⟨answers, hdrive, fun answer hmem => ?_⟩
  obtain ⟨passages, base, hstanding⟩ := (hall answer hmem).1.standing
  exact ⟨_, base, hstanding.pending⟩

end Resumption

end Grammar

end PageLexing
