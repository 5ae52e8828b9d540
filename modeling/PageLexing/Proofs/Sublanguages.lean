import PageLexing.Markup
import PageLexing.Proofs.Resumption
import PageLexing.Script
import PageLexing.Tag

/-!
# Sessions over one language

A language that is lexed on its own is an automaton as a grammar. What a window leaves
behind is a scan inside the pending token, and the next window goes on from it, so the
grammar can be resumed. Its keyword kinds are told from the bytes of the whole token, of
which the windows before have read a part: these bytes are read again.

## Main results

* `Automaton.resumption` — the grammar of an automaton can be resumed.
* `languages_schedules_agree` — how a text in one of the languages is cut into windows does
  not matter.
-/

namespace PageLexing

namespace Automaton

variable {σ κ : Type} [Automaton σ κ]

/-- Nothing of the next token was read, and it may be read from the state of the scan. -/
def Starts [Boundaries σ] (text : Bytes) (scan : Scan σ) : Prop :=
  scan.read = 0 ∧ Scan.Ready text scan.state

/-- A window may have left `scan` inside the token of `text` that starts at `base`. -/
def Leaves [Boundaries σ] (text : Bytes) (base scan : Scan σ) : Prop :=
  Starts text base ∧ Scan.Reads text base.state scan

variable [TokenKind κ] [Boundaries σ] {text : Bytes} {base scan : Scan σ}

/-- Reading on from where a window has left a token, a step leaves it again or completes the
token that the whole text would give. -/
theorem step_of_leaves (h : Leaves text base scan) {room : Nat} {last : Bool}
    (hread : scan.read ≤ room) (hroom : room ≤ text.length)
    (hlast : last = true → room = text.length) :
    (∃ held, Scan.step ⟨text, room, last⟩ scan = .ok (.hold held) ∧ Leaves text base held ∧
        held.read = room ∧ (last = true → text = [])) ∨
      ∃ token next, Scan.step ⟨text, room, last⟩ scan = .ok (.token token next) ∧
        Scan.step (View.whole text) base = .ok (.token token next) ∧
        0 < token.len ∧ token.len ≤ room ∧ Starts (text.drop token.len) next := by
  have hresume : Scan.step ⟨text, room, last⟩ scan =
      Scan.step ⟨text, room, last⟩ (Scan.atBoundary base.state) :=
    Scan.step_of_reads h.2 hread
  have hbase : Scan.atBoundary base.state = base := Scan.atBoundary_state h.1.1
  rcases Scan.step_atBoundary h.1.2 hroom hlast with
    ⟨held, hheld, hreads, hheldRead, hzero⟩ | ⟨token, next, htoken, hwhole, hpos, hle, hnext⟩
  · refine Or.inl ⟨held, hresume.trans hheld, ⟨h.1, hreads⟩, hheldRead, ?_⟩
    intro htrue
    apply List.eq_nil_of_length_eq_zero
    rw [← hlast htrue, hzero htrue]
  · rw [hbase] at hwhole
    exact Or.inr ⟨token, _, hresume.trans htoken, hwhole, hpos, hle, rfl, hnext⟩

/-- The grammar of an automaton can be resumed. -/
def resumption (σ κ : Type) [Automaton σ κ] [TokenKind κ] [Boundaries σ] :
    (grammar σ κ).Resumption where
  Ready := Starts
  Pending := Leaves
  initial text := ⟨rfl, Scan.ready_of_isBoundary (Boundaries.initial (σ := σ)) text⟩
  prescan_of_ready h := h.1
  pending_of_ready {text base} h := by
    refine ⟨h, ?_⟩
    have hreads := Scan.reads_atBoundary text base.state
    rwa [Scan.atBoundary_state h.1] at hreads
  ready_of_pending h := h.1
  prescan_le h := h.2.le
  eq_of_prescan h hzero :=
    (Scan.eq_atBoundary_of_reads h.2 hzero).trans (Scan.atBoundary_state h.1.1)
  step _ _ h hprescan hroom hlast := step_of_leaves h hprescan hroom hlast

end Automaton

/-- However a text in one of the languages is cut into windows, and however its readers are
handed on, the same tokens are answered with the same states behind them. -/
theorem languages_schedules_agree (source : Bytes) :
    (Automaton.grammar Markup.State Markup.Kind).ScheduleIndependent source ∧
      (Automaton.grammar Tag.State Tag.Kind).ScheduleIndependent source ∧
      (Automaton.grammar Script.State Script.Kind).ScheduleIndependent source := by
  refine ⟨?_, ?_, ?_⟩
  · exact (Automaton.resumption Markup.State Markup.Kind).scheduleIndependent source
  · exact (Automaton.resumption Tag.State Tag.Kind).scheduleIndependent source
  · exact (Automaton.resumption Script.State Script.Kind).scheduleIndependent source

end PageLexing
