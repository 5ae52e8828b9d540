import PageLexing.Page.State

/-!
# Searching a candidate for delimiters

The bytes of a candidate token are searched for delimiters of its language, from the
first on. A byte that may start a delimiter opens a probe, which is fed the bytes behind
it. A rejected probe lets the search go on one byte later; a confirmed or an undecided
one ends it.

Probes read on behind the candidate, as far as the window goes, because a delimiter may
start in one candidate and end in a later one.
-/

namespace PageLexing.Page

/-- What the search for delimiters in a candidate found. -/
inductive Finding where
  | clear
  /-- A delimiter that starts `offset` bytes after the start of the token. -/
  | switch (offset : Nat) (switch : Switch)
  /-- The window leaves it open whether a delimiter starts there. -/
  | suspend (offset : Nat) (probe : Probe)
deriving DecidableEq

/-- Searches the next `span` of the bytes ahead, the first of which is `offset` bytes from
the start of the token. Probes read up to `room` of the bytes ahead. -/
def search (delimiters : Delimiters) (language : Language) (last : Bool) (offset : Nat) :
    (span room : Nat) → (ahead : Bytes) → Except Fault Finding
  | span + 1, room, byte :: ahead =>
      match Delimiters.start language byte with
      | none => search delimiters language last (offset + 1) span (room - 1) ahead
      | some probe => do
          match ← delimiters.follow last probe (room - 1) ahead with
          | .confirmed switch => .ok (.switch offset switch)
          | .undecided probe => .ok (.suspend offset probe)
          | .rejected => search delimiters language last (offset + 1) span (room - 1) ahead
  | _, _, _ => .ok .clear

/-- Searches the bytes of a view from `offset` on, up to `stop` bytes from its start. -/
def searchFrom (delimiters : Delimiters) (language : Language) (view : View)
    (offset stop : Nat) : Except Fault Finding :=
  search delimiters language view.last offset (stop - offset) (view.room - offset)
    (view.text.drop offset)

/-- Searches a candidate that ends `stop` bytes after the start of the token, beginning
with the probe left over from the window before or else where the last search ended. -/
def find (delimiters : Delimiters) (language : Language) (view : View) (state : State)
    (stop : Nat) : Except Fault Finding :=
  match state.lookahead with
  | none => searchFrom delimiters language view state.probed stop
  | some ⟨_, offset, probe⟩ => do
      let read := offset + probe.consumed
      match ← delimiters.follow view.last probe (view.room - read) (view.text.drop read) with
      | .confirmed switch => .ok (.switch offset switch)
      | .undecided probe => .ok (.suspend offset probe)
      | .rejected => searchFrom delimiters language view (offset + 1) stop

end PageLexing.Page
