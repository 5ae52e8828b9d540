import PageLexing.Grammar

/-!
# Reading a text window by window

A `Reader` binds a grammar to a window of a buffer. It is loaded with the state that an
earlier window left, answers one token at a time, and at any point gives out its state,
with which the same or another reader continues: the next window starts where this one
ends, and the buffer must still hold the prescan of the state before it.

## Main results

* `offset_next` — tokens are contiguous: a token starts where the one before it ended.
-/

namespace PageLexing

/-- A grammar at work on a window of a buffer. -/
structure Reader (σ : Type) where
  grammar : Grammar σ
  buffer : Bytes
  /-- Where the pending token starts. -/
  start : Nat
  /-- Where the window ends. -/
  stop : Nat
  /-- Whether the text ends there too. -/
  last : Bool
  state : σ
  /-- The buffer from the pending token on. -/
  ahead : Bytes
  ahead_eq : ahead = buffer.drop start

namespace Reader

variable {σ : Type}

/-- A reader over nothing. -/
def new (grammar : Grammar σ) : Reader σ where
  grammar := grammar
  buffer := []
  start := 0
  stop := 0
  last := false
  state := grammar.initial
  ahead := []
  ahead_eq := rfl

/-- What the grammar sees. -/
def view (reader : Reader σ) : View where
  text := reader.ahead
  room := reader.stop - reader.start
  last := reader.last

/-- The position of the first byte that was not read yet. -/
def cursor (reader : Reader σ) : Nat := reader.start + reader.grammar.prescan reader.state

/-- Where the pending token starts. -/
def offset (reader : Reader σ) : Nat := reader.start

/-- Binds the reader to the `len` bytes of `buffer` from `offset` on, or to as many as the
buffer has, continuing from `state`; without a state, a text starts there.

Offsets and lengths are 64 bits wide where readers run, and a window is promised to end at
an offset: `offset + len < 2 ^ 64`. Here the sum has no bound, so that a window which
breaks the promise ends with its buffer; there is no `Fault` for it. -/
def load (reader : Reader σ) (state : Option σ) (buffer : Bytes) (offset len : Nat)
    (last : Bool) : Except Fault (Reader σ) :=
  let state := state.getD reader.grammar.initial
  if offset < reader.grammar.prescan state then .error .beforeBuffer
  else
    .ok {
      grammar := reader.grammar
      buffer := buffer
      start := offset - reader.grammar.prescan state
      stop := min (offset + len) buffer.length
      last := last
      state := state
      ahead := buffer.drop (offset - reader.grammar.prescan state)
      ahead_eq := rfl }

/-- The next token, or none if the window does not complete it. -/
def next (reader : Reader σ) : Except Fault (Option Token × Reader σ) :=
  match reader.grammar.step reader.view reader.state with
  | .error fault => .error (fault.relocate reader.start reader.buffer.length)
  | .ok (.hold state) => .ok (none, { reader with state := state })
  | .ok (.token token state) =>
      .ok (some token, { reader with
        start := reader.start + token.len
        state := state
        ahead := reader.ahead.drop token.len
        ahead_eq := by rw [reader.ahead_eq, List.drop_drop] })

/-- The state with which to continue behind the window. -/
def store (reader : Reader σ) : σ := reader.state

/-- Continues from another state, in the same window and behind the same bytes. -/
def restore (reader : Reader σ) (state : σ) : Except Fault (Reader σ) :=
  if reader.cursor < reader.grammar.prescan state then .error .underflow
  else
    .ok { reader with
      start := reader.cursor - reader.grammar.prescan state
      state := state
      ahead := reader.buffer.drop (reader.cursor - reader.grammar.prescan state)
      ahead_eq := rfl }

/-- A token starts where the one before it ended. -/
theorem offset_next {reader after : Reader σ} {token : Option Token}
    (h : reader.next = .ok (token, after)) :
    after.offset = reader.offset + (token.map Token.len).getD 0 := by
  unfold next at h
  split at h <;> cases h <;> simp [offset]

/-! ## Reading on -/

/-- The next `count` answers. After the last token of the window each is `none`. -/
def take (reader : Reader σ) : (count : Nat) → Except Fault (List (Option Token) × Reader σ)
  | 0 => .ok ([], reader)
  | count + 1 => do
      let (token, reader) ← reader.next
      let (tokens, reader) ← reader.take count
      .ok (token :: tokens, reader)

/-- The tokens up to the first that the window does not complete, but at most `fuel`. -/
def drainWithin (reader : Reader σ) : (fuel : Nat) → Except Fault (List Token × Reader σ)
  | 0 => .ok ([], reader)
  | fuel + 1 => do
      let (token, reader) ← reader.next
      match token with
      | none => .ok ([], reader)
      | some token =>
          let (tokens, reader) ← reader.drainWithin fuel
          .ok (token :: tokens, reader)

/-- The tokens up to the first that the window does not complete. No token is empty, so
there are not more than the window has bytes. A state that claims to have read more than
the buffer held may yield a few tokens behind the window, at most one for each language
that it nests. -/
def drain (reader : Reader σ) : Except Fault (List Token × Reader σ) :=
  reader.drainWithin (reader.stop - reader.start + 4)

end Reader

end PageLexing
