import PageLexing.Page.State
import PageLexing.Proofs.Scanning

/-!
# Frames in windows

A frame is the scan of one of the three languages. What holds of scans in windows holds of
frames: a window either ends inside the token of a frame or completes the token that the
whole text would give, and a frame that a window interrupted goes on as if it had not been
interrupted.

A frame is *open* unless it is that of a fragment that has just been closed.

## Main results

* `step_of_reads` — an interrupted frame goes on as if it had not been interrupted.
* `step_of_ready` — a window ends inside the token or completes that of the whole text.
* `open_of_reads` — reading a part of a token does not close a fragment.
-/

namespace PageLexing

/-- A step that completes a token completes it however its state is seen. -/
theorem Step.exists_of_map {σ τ : Type} {f : σ → τ} {result : Except Fault (Step σ)}
    {found : Token} {after : τ} (h : result.map (Step.map f) = .ok (.token found after)) :
    ∃ next, result = .ok (.token found next) ∧ f next = after := by
  cases result with
  | error fault => cases h
  | ok step =>
      cases step with
      | hold held => cases h
      | token token next =>
          cases h
          exact ⟨next, rfl, rfl⟩

/-- A step that holds a token back holds it back however its state is seen. -/
theorem Step.exists_of_map_hold {σ τ : Type} {f : σ → τ} {result : Except Fault (Step σ)}
    {held : τ} (h : result.map (Step.map f) = .ok (.hold held)) :
    ∃ next, result = .ok (.hold next) ∧ f next = held := by
  cases result with
  | error fault => cases h
  | ok step =>
      cases step with
      | hold next =>
          cases h
          exact ⟨next, rfl, rfl⟩
      | token token next => cases h

namespace Page.Frame

/-! ## Frames between tokens and inside them -/

/-- Bytes of the pending token that the frame's language has read. -/
def read : Frame → Nat
  | host scan => scan.read
  | tag scan => scan.read
  | script scan => scan.read

/-- A token of `text` may be read from the frame, and nothing of it was read. -/
def Ready (text : Bytes) : Frame → Prop
  | host scan => scan.read = 0 ∧ Scan.Ready text scan.state
  | tag scan => scan.read = 0 ∧ Scan.Ready text scan.state
  | script scan => scan.read = 0 ∧ Scan.Ready text scan.state

/-- The frame is left when a window ends inside the token of `text` that `start` reads. -/
def Reads (text : Bytes) : (start frame : Frame) → Prop
  | host start, host scan => Scan.Reads text start.state scan
  | tag start, tag scan => Scan.Reads text start.state scan
  | script start, script scan => Scan.Reads text start.state scan
  | _, _ => False

/-- The frame is not that of a closed fragment. -/
def Open : Frame → Prop
  | tag scan => scan.state ≠ .fragmentEnd
  | _ => True

theorem read_of_ready {text : Bytes} {frame : Frame} (h : frame.Ready text) :
    frame.read = 0 := by
  cases frame <;> exact h.1

/-- Where a newline or nothing comes next, a token may be read from any state. -/
theorem ready_of_head {text other : Bytes} {frame : Frame} {byte : UInt8}
    (h : frame.Ready text) (hhead : text.head? = some byte) (hne : byte ≠ Byte.newline) :
    frame.Ready other := by
  cases frame <;> exact ⟨h.1, Scan.ready_of_isBoundary (h.2 byte hhead hne) other⟩

/-- A text whose first byte is that of another may be read like the other. -/
theorem Ready.of_head {text other : Bytes} {frame : Frame} (h : frame.Ready text)
    (hhead : ∀ b, other.head? = some b → text.head? = some b) : frame.Ready other := by
  cases frame <;> exact ⟨h.1, Scan.Ready.of_head h.2 hhead⟩

/-- Fragments begin where a token may start. -/
theorem ready_tag_initial (text : Bytes) :
    (tag (Scan.atBoundary Automaton.initial)).Ready text :=
  ⟨rfl, Scan.ready_of_isBoundary (Boundaries.initial (σ := Tag.State)) text⟩

/-- Scripts begin where a token may start. -/
theorem ready_script_initial (text : Bytes) :
    (script (Scan.atBoundary Automaton.initial)).Ready text :=
  ⟨rfl, Scan.ready_of_isBoundary (Boundaries.initial (σ := Script.State)) text⟩

theorem open_tag_initial : (tag (Scan.atBoundary Automaton.initial)).Open := by
  show Tag.State.outside ≠ .fragmentEnd
  decide

theorem language_of_reads {text : Bytes} {start frame : Frame} (h : Reads text start frame) :
    frame.language = start.language := by
  cases start <;> cases frame <;> first | rfl | exact h.elim

theorem read_le_of_reads {text : Bytes} {start frame : Frame} (h : Reads text start frame) :
    frame.read ≤ text.length := by
  cases start <;> cases frame <;> first | exact Scan.Reads.le h | exact h.elim

/-- No window has interrupted a frame that stands between tokens. -/
theorem reads_of_ready {text : Bytes} {frame : Frame} (h : frame.Ready text) :
    Reads text frame frame := by
  cases frame with
  | host scan => exact Scan.atBoundary_state h.1 ▸ Scan.reads_atBoundary text scan.state
  | tag scan => exact Scan.atBoundary_state h.1 ▸ Scan.reads_atBoundary text scan.state
  | script scan => exact Scan.atBoundary_state h.1 ▸ Scan.reads_atBoundary text scan.state

/-- Nothing has happened to a frame that has read nothing. -/
theorem eq_of_reads {text : Bytes} {start frame : Frame} (hready : start.Ready text)
    (h : Reads text start frame) (hread : frame.read = 0) : frame = start := by
  cases start <;> cases frame <;> first
    | exact h.elim
    | exact congrArg _
        ((Scan.eq_atBoundary_of_reads h hread).trans (Scan.atBoundary_state hready.1))

/-! ## Steps -/

/-- An interrupted frame goes on as if it had not been interrupted. -/
theorem step_of_reads (view : View) {start frame : Frame} (hready : start.Ready view.text)
    (h : Reads view.text start frame) (hroom : frame.read ≤ view.room) :
    frame.step view = start.step view := by
  cases start <;> cases frame <;> first
    | exact h.elim
    | simp only [step, Scan.step_of_reads h hroom, Scan.atBoundary_state hready.1]

/-- A window ends inside the token, or it completes the token of the whole text. -/
theorem step_of_ready {text : Bytes} {frame : Frame} (room : Nat) (last : Bool)
    (hready : frame.Ready text) (hroom : room ≤ text.length)
    (hlast : last = true → room = text.length) :
    (∃ held, frame.step ⟨text, room, last⟩ = .ok (.hold held) ∧ Reads text frame held ∧
        held.read = room ∧ (last = true → room = 0)) ∨
      (∃ found after, frame.step ⟨text, room, last⟩ = .ok (.token found after) ∧
        frame.step (View.whole text) = .ok (.token found after) ∧
        0 < found.len ∧ found.len ≤ room ∧ after.Ready (text.drop found.len) ∧
        after.language = frame.language) := by
  cases frame with
  | host scan =>
      have hscan := Scan.step_atBoundary hready.2 hroom hlast
      rw [Scan.atBoundary_state hready.1] at hscan
      rcases hscan with ⟨held, hstep, hreads, hread, hzero⟩ |
        ⟨found, next, hstep, hwhole, hpos, hlen, hnext⟩
      · exact Or.inl ⟨.host held, by simp [step, hstep, Except.map, Step.map], hreads, hread,
          hzero⟩
      · exact Or.inr ⟨found, .host (Scan.atBoundary next),
          by simp [step, hstep, Except.map, Step.map],
          by simp [step, hwhole, Except.map, Step.map], hpos, hlen, ⟨rfl, hnext⟩, rfl⟩
  | tag scan =>
      have hscan := Scan.step_atBoundary hready.2 hroom hlast
      rw [Scan.atBoundary_state hready.1] at hscan
      rcases hscan with ⟨held, hstep, hreads, hread, hzero⟩ |
        ⟨found, next, hstep, hwhole, hpos, hlen, hnext⟩
      · exact Or.inl ⟨.tag held, by simp [step, hstep, Except.map, Step.map], hreads, hread,
          hzero⟩
      · exact Or.inr ⟨found, .tag (Scan.atBoundary next),
          by simp [step, hstep, Except.map, Step.map],
          by simp [step, hwhole, Except.map, Step.map], hpos, hlen, ⟨rfl, hnext⟩, rfl⟩
  | script scan =>
      have hscan := Scan.step_atBoundary hready.2 hroom hlast
      rw [Scan.atBoundary_state hready.1] at hscan
      rcases hscan with ⟨held, hstep, hreads, hread, hzero⟩ |
        ⟨found, next, hstep, hwhole, hpos, hlen, hnext⟩
      · exact Or.inl ⟨.script held, by simp [step, hstep, Except.map, Step.map], hreads,
          hread, hzero⟩
      · exact Or.inr ⟨found, .script (Scan.atBoundary next),
          by simp [step, hstep, Except.map, Step.map],
          by simp [step, hwhole, Except.map, Step.map], hpos, hlen, ⟨rfl, hnext⟩, rfl⟩

/-- A token is at least as long as what was read of it before, and it lies in the window. -/
theorem len_of_step {view : View} {frame after : Frame} {found : Token}
    (h : frame.step view = .ok (.token found after)) :
    frame.read ≤ found.len ∧ found.len ≤ max frame.read view.room := by
  cases frame <;>
    (obtain ⟨next, hstep, -⟩ := Step.exists_of_map h
     exact Scan.len_of_step hstep)

/-- A token leaves nothing read of the next one, which the same language reads. -/
theorem after_of_token {view : View} {frame after : Frame} {found : Token}
    (h : frame.step view = .ok (.token found after)) :
    after.read = 0 ∧ after.language = frame.language := by
  cases frame <;>
    (obtain ⟨next, hstep, rfl⟩ := Step.exists_of_map h
     exact ⟨Scan.read_of_token hstep, rfl⟩)

/-- What is read of a token lies in the window, and the same language goes on with it. -/
theorem after_of_hold {view : View} {frame held : Frame}
    (h : frame.step view = .ok (.hold held)) :
    held.read ≤ max frame.read view.room ∧ held.language = frame.language := by
  cases frame <;>
    (obtain ⟨next, hstep, rfl⟩ := Step.exists_of_map_hold h
     exact ⟨Scan.read_of_hold hstep, rfl⟩)

/-- A token is a newline, or it has none. -/
theorem newline_of_step {view : View} {frame after : Frame} {found : Token}
    (hread : frame.read = 0) (h : frame.step view = .ok (.token found after)) :
    found = Token.endOfLine ∧ view.text.head? = some Byte.newline ∨
      Byte.newline ∉ view.text.take found.len := by
  cases frame <;>
    (obtain ⟨next, hstep, -⟩ := Step.exists_of_map h
     rw [← Scan.atBoundary_state hread] at hstep
     exact Scan.newline_of_step hstep)

/-- What was read of a token has no newline. -/
theorem newline_notMem_of_reads {text : Bytes} {start frame : Frame}
    (h : Reads text start frame) : Byte.newline ∉ text.take frame.read := by
  cases start <;> cases frame <;> first
    | exact Scan.newline_notMem_of_reads h
    | exact h.elim

/-! ## Tokens that end before their language ends them -/

/-- The class of an unfinished token does not depend on the window. -/
theorem pendingId_eq_whole (text : Bytes) (room : Nat) (last : Bool) (frame : Frame) :
    frame.pendingId ⟨text, room, last⟩ = frame.pendingId (View.whole text) := by
  cases frame <;> rfl

/-- A token of which something was read has a class if it ends there. -/
theorem pendingId_of_reads {text : Bytes} {start frame : Frame} (h : Reads text start frame)
    (hread : 0 < frame.read) : ∃ id, frame.pendingId (View.whole text) = .ok (some id) := by
  have hle := read_le_of_reads h
  cases frame <;>
    exact ⟨_, by
      rw [pendingId, Scan.pendingKind_of_le (View.whole text) hread hle]
      rfl⟩

/-- Settling leads to where any token may start. -/
theorem ready_settled {frame : Frame} (h : 0 < frame.read) (text : Bytes) :
    frame.settled.Ready text := by
  cases frame <;> exact ⟨rfl, Scan.ready_of_isBoundary (Scan.isBoundary_settled h) text⟩

@[simp] theorem read_settled (frame : Frame) : frame.settled.read = 0 := by
  cases frame <;> rfl

/-! ## Open fragments -/

/-- Reading a part of a token does not close a fragment. -/
theorem open_of_reads {text : Bytes} {start frame : Frame} (h : Reads text start frame)
    (hopen : start.Open) : frame.Open := by
  cases start <;> cases frame <;> first | exact h.elim | exact trivial | skip
  exact Scan.run_induction (P := fun s => s ≠ Tag.State.fragmentEnd)
    (fun s t b hgrow _ => Tag.consume_ne_fragmentEnd hgrow) hopen (Scan.Reads.run h)
    (by simp)

theorem open_settled {frame : Frame} (h : frame.Open) : frame.settled.Open := by
  cases frame with
  | tag scan =>
      show (if scan.read = 0 then scan.state else Tag.settle scan.state) ≠ .fragmentEnd
      split
      · exact h
      · exact Tag.settle_ne_fragmentEnd h
  | _ => exact trivial

end Page.Frame

end PageLexing
