import PageLexing.Automaton
import PageLexing.Grammar

/-!
# Scanning a language

Every automaton scans in the same way. Bytes join the pending token until the automaton
ends it, a newline is met, or the window holds no more. A newline ends the pending token;
if there is none, the newline is the token. The end of the text ends the pending token as
well, the end of any other window does not.

How the automaton ended its token is lost once the window is left; what is kept is its
state and the number of bytes it has read.

## Main results

* `run_take` — only the bytes that the window holds are looked at.
* `run_append` — a window that ends inside a token is continued by the next one as if
  there had been one window.
-/

namespace PageLexing

/-- How far the scanning of a token has come. -/
structure Scan (σ : Type) where
  state : σ
  /-- Bytes of the pending token that were read. -/
  read : Nat
deriving DecidableEq

namespace Scan

variable {σ κ : Type} [Automaton σ κ]

/-- Scanning from `state` on, with nothing read yet. -/
def atBoundary (state : σ) : Scan σ := ⟨state, 0⟩

/-! ## Reading bytes -/

/-- Why the reading of bytes came to an end. -/
inductive Ending (κ : Type) where
  /-- The window holds no more bytes. -/
  | window
  /-- A newline follows. -/
  | line
  /-- The automaton ended a token of this kind. -/
  | kind (kind : κ)
deriving DecidableEq

/-- Reads up to `room` of the bytes ahead, from `state` and with `read` bytes of the
token already read. -/
def run (state : σ) (read : Nat) : (room : Nat) → (ahead : Bytes) → Scan σ × Ending κ
  | 0, _ => (⟨state, read⟩, .window)
  | _ + 1, [] => (⟨state, read⟩, .window)
  | room + 1, b :: ahead =>
      if b = Byte.newline then (⟨state, read⟩, .line)
      else
        match Automaton.consume state b with
        | (next, .grow) => run next (read + 1) room ahead
        | (next, .close kind) => (⟨next, read + 1⟩, .kind kind)
        | (next, .closeBefore kind) => (⟨next, read⟩, .kind kind)

theorem run_take (state : σ) (read room : Nat) (ahead : Bytes) :
    run state read room (ahead.take room) = run state read room ahead := by
  induction room generalizing state read ahead with
  | zero => rfl
  | succ room ih =>
      cases ahead with
      | nil => rfl
      | cons b ahead =>
          simp only [List.take_succ_cons, run]
          split
          · rfl
          · split <;> simp [ih]

/-- Reading goes on from where a window ended. -/
theorem run_append {state next : σ} {read stop room more : Nat} {ahead : Bytes}
    (h : run state read room ahead = (⟨next, stop⟩, .window))
    (hroom : room ≤ ahead.length) :
    run state read (room + more) ahead = run next stop more (ahead.drop room) := by
  induction room generalizing state read ahead with
  | zero =>
      simp only [run, Prod.mk.injEq, Scan.mk.injEq] at h
      obtain ⟨⟨rfl, rfl⟩, -⟩ := h
      simp
  | succ room ih =>
      cases ahead with
      | nil => simp at hroom
      | cons b ahead =>
          simp only [List.length_cons, Nat.add_le_add_iff_right] at hroom
          rw [show room + 1 + more = room + more + 1 from by omega]
          simp only [run, List.drop_succ_cons] at h ⊢
          by_cases hb : b = Byte.newline
          · simp [hb] at h
          · rw [if_neg hb] at h ⊢
            rcases hc : Automaton.consume state b with ⟨s, effect⟩
            rw [hc] at h
            cases effect with
            | grow => exact ih h hroom
            | close kind => simp at h
            | closeBefore kind => simp at h

/-! ## Completing tokens -/

variable [TokenKind κ]

/-- Ends the pending token after `scan.read` bytes, as one of `kind`. -/
def finish (view : View) (scan : Scan σ) (kind : κ) : Except Fault (Step (Scan σ)) :=
  if scan.read = 0 then .error .emptyToken
  else do
    let word ← view.word scan.read
    .ok (.token ⟨TokenKind.id (Automaton.refine (σ := σ) kind word), scan.read⟩
      (atBoundary scan.state))

/-- Reads the pending token as far as the window allows. -/
def step (view : View) (scan : Scan σ) : Except Fault (Step (Scan σ)) :=
  match run scan.state scan.read (view.room - scan.read) (view.text.drop scan.read) with
  | (scan, .window) =>
      if view.last ∧ 0 < scan.read then
        finish view scan (Automaton.atEndOfInput scan.state)
      else .ok (.hold scan)
  | (scan, .line) =>
      if 0 < scan.read then finish view scan (Automaton.atLineEnd scan.state)
      else .ok (.token Token.endOfLine (atBoundary (Automaton.settle scan.state)))
  | (scan, .kind kind) => finish view scan kind

/-- The kind that the pending token would have if it ended here; none if nothing of it
was read. -/
def pendingKind (view : View) (scan : Scan σ) : Except Fault (Option κ) :=
  if scan.read = 0 then .ok none
  else do
    let word ← view.word scan.read
    .ok (some (Automaton.refine (σ := σ) (Automaton.inProgress scan.state) word))

/-- Where the next token is read from if the pending one ends here. -/
def settled (scan : Scan σ) : Scan σ :=
  atBoundary (if scan.read = 0 then scan.state else Automaton.settle scan.state)

end Scan

/-- An automaton as a grammar of its own. -/
def Automaton.grammar (σ κ : Type) [Automaton σ κ] [TokenKind κ] : Grammar (Scan σ) where
  initial := Scan.atBoundary Automaton.initial
  prescan := Scan.read
  step := Scan.step
  name? := TokenKind.localName? κ

end PageLexing
