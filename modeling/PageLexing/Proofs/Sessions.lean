import PageLexing.Proofs.Pending
import PageLexing.Proofs.Resumption

/-!
# Sessions over a page

A step of a page is one attempt or more: an attempt that opens a fragment is followed by
another. `Resumes` says of a state that a window may have left it somewhere in these
attempts. With it the grammar of a dialect can be resumed, and what holds of every session
over such a grammar holds of every session over a page.

## Main results

* `Dialect.resumption` — the grammar of a dialect can be resumed.
* `Dialect.schedule_independence` — how a page is cut into windows does not matter.
* `Dialect.session_invariant` — no session fails, and every state that it comes upon is
  consistent.
-/

namespace PageLexing

open Page

namespace Dialect

variable {dialect : Dialect} {text : Bytes}

/-! ## Steps -/

theorem step_eq (dialect : Dialect) (view : View) (state : State) :
    dialect.step view state = (do
      match ← dialect.attempt view state with
      | .step step => .ok step
      | .opened inner => dialect.step view inner) := by
  conv => lhs; rw [Dialect.step]
  split <;> rename_i hattempt <;> simp only [hattempt, bind, Except.bind]

/-- An attempt that fails is the failure of the step. -/
theorem step_of_error {view : View} {state : State} {fault : Fault}
    (h : dialect.attempt view state = .error fault) : dialect.step view state = .error fault := by
  rw [step_eq, h]
  rfl

/-- An attempt that comes to a step is the step. -/
theorem step_of_attempt {view : View} {state : State} {step : Step State}
    (h : dialect.attempt view state = .ok (.step step)) : dialect.step view state = .ok step := by
  rw [step_eq, h]
  rfl

/-- An attempt that opens a fragment is followed by another one inside it. -/
theorem step_of_opened {view : View} {state inner : State}
    (h : dialect.attempt view state = .ok (.opened inner)) :
    dialect.step view state = dialect.step view inner := by
  rw [step_eq, h]
  rfl

/-- A window may have left `state` inside the token of `text` that is read from `base`,
perhaps after the fragment was opened that starts there. -/
structure Resumes (dialect : Dialect) (text : Bytes) (base state : State) : Prop where
  ready : base.Ready text
  pending : ∃ inner start frame, Pending dialect text inner start state frame ∧
    dialect.step (View.whole text) inner = dialect.step (View.whole text) base ∧
    (state.prescan = 0 → inner = base)

theorem resumes_of_ready {base : State} (h : base.Ready text) :
    Resumes dialect text base base := by
  obtain ⟨start, hactive, -⟩ := State.exists_active_of_ready h
  exact ⟨h, base, start, start, pending_of_ready dialect h hactive, rfl, fun _ => rfl⟩

/-- Reading on from a pending state, a step holds on or completes the token that the whole
text would give. -/
theorem step_of_pending {base state : State} {start frame : Frame} {room : Nat} {last : Bool}
    (h : Pending dialect text base start state frame) (hprescan : state.prescan ≤ room)
    (hroom : room ≤ text.length) (hlast : last = true → room = text.length) :
    (∃ held inner start' frame',
        dialect.step ⟨text, room, last⟩ state = .ok (.hold held) ∧
        Pending dialect text inner start' held frame' ∧
        dialect.step (View.whole text) inner = dialect.step (View.whole text) base ∧
        held.prescan = room ∧ (room = 0 → inner = base) ∧ (last = true → text = [])) ∨
      ∃ token next, dialect.step ⟨text, room, last⟩ state = .ok (.token token next) ∧
        dialect.step (View.whole text) base = .ok (.token token next) ∧
        0 < token.len ∧ token.len ≤ room ∧ next.Ready (text.drop token.len) := by
  induction hn : base.nesting.headroom using Nat.strongRecOn
    generalizing base state start frame with
  | ind n ih =>
      rcases attempt_of_pending h hprescan hroom hlast with
        ⟨held, frame', hattempt, hheld, hheldRoom, hnil⟩ |
        ⟨outcome, hattempt, hwhole, hadvances⟩
      · exact Or.inl ⟨held, base, start, frame', step_of_attempt hattempt, hheld, rfl,
          hheldRoom, fun _ => rfl, hnil⟩
      · cases outcome with
        | step step =>
            cases step with
            | hold held => exact hadvances.elim
            | token token next =>
                exact Or.inr ⟨token, next, step_of_attempt hattempt, step_of_attempt hwhole,
                  hadvances⟩
        | opened inner =>
            obtain ⟨hpos, hinner⟩ := hadvances
            obtain ⟨start', hactive, -⟩ := State.exists_active_of_ready hinner
            have hpending := pending_of_ready dialect hinner hactive
            have hzero := (State.searched_of_fresh hinner.fresh).2.1
            have hless := dialect.headroom_of_opened hwhole
            rw [step_of_opened hattempt, step_of_opened hwhole]
            rcases ih inner.nesting.headroom (by omega) hpending (by omega) rfl with
              ⟨held, inner', start', frame', hstep, hheld, heq, hheldRoom, -, hnil⟩ | htoken
            · exact Or.inl ⟨held, inner', start', frame', hstep, hheld, heq, hheldRoom,
                fun hroom => by omega, hnil⟩
            · exact Or.inr htoken

/-! ## Resuming -/

/-- The grammar of a dialect can be resumed. -/
def resumption (dialect : Dialect) : dialect.grammar.Resumption where
  Ready := State.Ready
  Pending := Resumes dialect
  initial := State.ready_initial
  prescan_of_ready h := (State.searched_of_fresh h.fresh).2.1
  pending_of_ready := resumes_of_ready
  ready_of_pending h := h.ready
  prescan_le h := by
    obtain ⟨inner, start, frame, hpending, -⟩ := h.pending
    exact hpending.prescan_le
  eq_of_prescan h hzero := by
    obtain ⟨inner, start, frame, hpending, -, hinner⟩ := h.pending
    rw [← hinner hzero]
    exact eq_of_prescan hpending hzero
  step := by
    intro text base state room last h hprescan hroom hlast
    obtain ⟨inner, start, frame, hpending, hstep, hinner⟩ := h.pending
    rcases step_of_pending hpending hprescan hroom hlast with
      ⟨held, inner', start', frame', hheld, hpending', heq, hheldRoom, hzero, hnil⟩ |
      ⟨token, next, htoken, hwhole, hrest⟩
    · refine Or.inl ⟨held, hheld, ⟨h.ready, inner', start', frame', hpending', heq.trans hstep,
        fun hheldZero => ?_⟩, hheldRoom, hnil⟩
      have hroomZero : room = 0 := hheldRoom.symm.trans hheldZero
      have hstateZero : state.prescan = 0 := by
        have : state.prescan ≤ room := hprescan
        omega
      rw [hzero hroomZero, hinner hstateZero]
    · exact Or.inr ⟨token, next, htoken, hstep.symm.trans hwhole, hrest⟩

/-- However a page is cut into windows, and however its readers are handed on, the same
tokens are answered with the same states behind them. -/
theorem schedule_independence (dialect : Dialect) (source : Bytes) :
    dialect.grammar.ScheduleIndependent source :=
  dialect.resumption.scheduleIndependent source

end Dialect

/-! ## Consistent states -/

namespace Page

/-- A stored probe fits the state that it is a part of. -/
structure Lookahead.Fits (state : State) (lookahead : Lookahead) : Prop where
  probeAt : lookahead.probeAt = state.probed
  consumed : lookahead.probeAt + lookahead.probe.consumed = state.prescan
  language : lookahead.probe.language = state.nesting.active

/-- The parts of a state agree with each other. -/
structure State.Consistent (state : State) : Prop where
  tag : state.tag.isSome = state.nesting.isLive .tag
  script : state.script.isSome = state.nesting.isLive .script
  /-- A language that waits has read nothing. -/
  waiting : ∀ language frame, language ≠ state.nesting.active →
    state.frame? language = some frame → frame.read = 0
  /-- The active language has read no more than was searched. -/
  active : ∀ frame, state.frame? state.nesting.active = some frame →
    frame.read ≤ state.probed
  probed_le : state.probed ≤ state.prescan
  /-- No closed fragment is kept. -/
  tag_open : ∀ scan, state.tag = some scan → scan.state ≠ .fragmentEnd
  lookahead : ∀ lookahead, state.lookahead = some lookahead → lookahead.Fits state

variable {dialect : Dialect} {text : Bytes}

/-- Inside a token the parts of a state agree. -/
theorem consistent_of_pending {base state : State} {start frame : Frame}
    (h : Pending dialect text base start state frame) : state.Consistent := by
  have hnesting := nesting_pending h
  have hframe := State.frame?_of_active h.active
  have hlanguage := language_frame h
  have hstart := language_start h
  have hothers : ∀ language, language ≠ state.nesting.active →
      state.frame? language = base.frame? language := by
    intro language hne
    rw [← h.rest, State.frame?_fresh, State.frame?_put, if_neg]
    rw [hstart, ← hnesting]
    exact hne
  have hlive : ∀ language, (state.frame? language).isSome = state.nesting.isLive language := by
    intro language
    by_cases heq : language = state.nesting.active
    · rw [heq, hframe, Nesting.isLive_active]
      rfl
    · rw [hothers language heq, h.ready.live, hnesting]
  have hopen : frame.Open := Frame.open_of_reads h.reads (start_ready h).2
  exact {
    tag := by
      rw [← hlive .tag, State.frame?, Option.isSome_map]
    script := by
      rw [← hlive .script, State.frame?, Option.isSome_map]
    waiting := by
      intro language found hne hfound
      rw [hothers language hne] at hfound
      rw [hnesting] at hne
      exact Frame.read_of_ready ((h.ready.waiting language found hne hfound).1 [])
    active := by
      intro found hfound
      rw [hframe] at hfound
      cases hfound
      exact h.read_le
    probed_le := h.probed_le
    tag_open := by
      intro scan htag
      have hfound : state.frame? .tag = some (.tag scan) := by
        rw [State.frame?, htag]
        rfl
      by_cases heq : Language.tag = state.nesting.active
      · rw [heq, hframe] at hfound
        cases hfound
        exact hopen
      · rw [hothers .tag heq] at hfound
        rw [hnesting] at heq
        exact (h.ready.waiting .tag _ heq hfound).2
    lookahead := by
      intro lookahead hsome
      obtain ⟨-, hprobeAt, hprobes, -⟩ := h.busy lookahead hsome
      refine ⟨hprobeAt, ?_, ?_⟩
      · have hconsumed := Delimiters.consumed_of_probes hprobes
        have hpos := hprobes.pos
        omega
      · rw [(Delimiters.matches_of_probes hprobes).2, hstart, hnesting] }

end Page

namespace Dialect

/-- No session over a page fails. After every answer the parts of the stored state agree, a
probe is stored only at the end of a window, and what is pending lies in the window. -/
theorem session_invariant (dialect : Dialect) (source : Bytes) (turns : List Turn) :
    ∃ answers, dialect.grammar.drive source turns = .ok answers ∧
      ∀ answer ∈ answers,
        answer.reader.store.Consistent ∧
        (answer.reader.store.lookahead.isSome → answer.token = none) ∧
        answer.reader.offset + answer.reader.store.prescan ≤ answer.reader.stop ∧
        answer.reader.stop ≤ source.length := by
  obtain ⟨answers, passages, offset, base, hdrive, -, -, -, hall, -, -⟩ :=
    Reader.drive_standing (Reader.new dialect.grammar) none
      (Reader.stored_initial dialect.resumption source) rfl turns
  refine ⟨answers, hdrive, ?_⟩
  intro answer hmem
  have hanswered := (hall answer hmem).1
  obtain ⟨passages, base, hstanding⟩ := hanswered.standing
  obtain ⟨inner, start, frame, hpending, -, -⟩ := Resumes.pending hstanding.pending
  have hcursor := hstanding.cursor_le
  rw [Reader.cursor, hstanding.grammar_eq] at hcursor
  refine ⟨consistent_of_pending hpending, ?_, hcursor, hstanding.stop_le⟩
  intro hsome
  cases htoken : answer.token with
  | none => rfl
  | some token =>
      have hnone := (State.searched_of_fresh (hanswered.ready token htoken).fresh).1
      rw [show answer.reader.store.lookahead = none from hnone] at hsome
      cases hsome

end Dialect

end PageLexing
