import PageLexing.Proofs.Sessions

/-!
# States that fit a window

A step leaves a state with which a reader may go on in the same window, or in the next one,
whatever bytes come: what was read and searched of the pending token lies in the window, and
a language that is not active has read nothing. This is less than to say that the state was
stored while this text was read, and so it also holds of a state that is loaded over other
bytes than those it was stored over.

## Main results

* `seek_bounds` — what is sought is found in the window, and not before what was searched.
* `Dialect.settles_of_step` — what a step leaves fits the window again.
-/

namespace PageLexing

namespace Page

/-! ## Where a search ends -/

/-- Where a delimiter was found, or where one is still possible. -/
def Finding.offset? : Finding → Option Nat
  | .clear => none
  | .switch offset _ => some offset
  | .suspend offset _ => some offset

theorem search_bounds {delimiters : Delimiters} {language : Language} {last : Bool}
    {offset span room place : Nat} {ahead : Bytes} {finding : Finding}
    (h : search delimiters language last offset span room ahead = .ok finding)
    (hplace : finding.offset? = some place) : offset ≤ place ∧ place < offset + span := by
  induction span generalizing offset room ahead with
  | zero =>
      simp only [search] at h
      cases h
      cases hplace
  | succ span ih =>
      cases ahead with
      | nil =>
          simp only [search] at h
          cases h
          cases hplace
      | cons byte ahead =>
          have hlater : search delimiters language last (offset + 1) span (room - 1) ahead =
              .ok finding → offset ≤ place ∧ place < offset + (span + 1) := by
            intro hsearch
            have := ih hsearch
            omega
          simp only [search] at h
          split at h
          · exact hlater h
          · obtain ⟨verdict, -, hverdict⟩ := exists_of_bind h
            cases verdict with
            | rejected => exact hlater hverdict
            | confirmed switch =>
                cases hverdict
                cases hplace
                omega
            | undecided probe =>
                cases hverdict
                cases hplace
                omega

variable {dialect : Dialect} {view : View} {state : State} {frame : Frame}

theorem searchFrom_bounds {delimiters : Delimiters} {language : Language} {lo stop place : Nat}
    {finding : Finding} (h : searchFrom delimiters language view lo stop = .ok finding)
    (hplace : finding.offset? = some place) : lo ≤ place ∧ place < stop := by
  have := search_bounds h hplace
  omega

/-! ## Fitting states -/

/-- Nothing was read or searched of the next token. -/
structure State.Rests (state : State) : Prop where
  read : ∀ language frame, state.frame? language = some frame → frame.read = 0
  fresh : state.fresh = state

/-- What was read and searched of the pending token lies in the first `room` bytes of it, and
the active language alone has read some of it. -/
structure State.Fits (room : Nat) (state : State) : Prop where
  waiting : ∀ language frame, language ≠ state.nesting.active →
    state.frame? language = some frame → frame.read = 0
  active : ∀ frame, state.frame? state.nesting.active = some frame →
    frame.read ≤ state.probed
  probed_le : state.probed ≤ room
  probeAt : ∀ lookahead, state.lookahead = some lookahead →
    lookahead.probeAt = state.probed

/-- A state between tokens fits every window. -/
theorem fits_of_rests (h : state.Rests) (room : Nat) : state.Fits room := by
  obtain ⟨hlookahead, -, hprobed⟩ := State.searched_of_fresh h.fresh
  constructor
  · intro language frame _ hframe
    exact h.read language frame hframe
  · intro frame hframe
    rw [h.read _ frame hframe]
    exact Nat.zero_le _
  · rw [hprobed]
    exact Nat.zero_le _
  · intro lookahead hsome
    rw [hlookahead] at hsome
    cases hsome

/-- A state from which a token may be read stands between tokens. -/
theorem rests_of_ready {text : Bytes} (h : state.Ready text) : state.Rests := by
  refine ⟨?_, h.fresh⟩
  intro language frame hframe
  by_cases hactive : language = state.nesting.active
  · rw [hactive] at hframe
    exact Frame.read_of_ready (h.active frame hframe).1
  · exact Frame.read_of_ready ((h.waiting language frame hactive hframe).1 text)

/-- A state that is stored in a session fits the bytes that it has read. -/
theorem fits_of_consistent {room : Nat} (h : state.Consistent) (hprescan : state.prescan ≤ room) :
    state.Fits room where
  waiting := h.waiting
  active := h.active
  probed_le := Nat.le_trans h.probed_le hprescan
  probeAt lookahead hsome := (h.lookahead lookahead hsome).probeAt

/-- The active language has read no more than was searched. -/
theorem read_le_of_fits {room : Nat} (h : state.Fits room) (hactive : state.active = .ok frame) :
    frame.read ≤ state.probed :=
  h.active frame (State.frame?_of_active hactive)

/-- A search begins where the last one ended, and it ends in the window. -/
theorem find_bounds {delimiters : Delimiters} {language : Language} {stop place : Nat}
    {finding : Finding} (h : state.Fits view.room) (hstop : stop ≤ view.room)
    (hfind : find delimiters language view state stop = .ok finding)
    (hplace : finding.offset? = some place) : state.probed ≤ place ∧ place ≤ view.room := by
  have hprobed := h.probed_le
  unfold find at hfind
  split at hfind
  · have := searchFrom_bounds hfind hplace
    omega
  · rename_i candidate probeAt probe hlookahead
    have hprobeAt : probeAt = state.probed := h.probeAt _ hlookahead
    obtain ⟨verdict, -, hverdict⟩ := exists_of_bind hfind
    cases verdict with
    | rejected =>
        have := searchFrom_bounds hverdict hplace
        omega
    | confirmed switch =>
        cases hverdict
        cases hplace
        omega
    | undecided probe =>
        cases hverdict
        cases hplace
        omega

theorem seek_bounds {found : Step Frame} {finding : Finding} {place : Nat}
    (h : state.Fits view.room) (hreach : reach view found ≤ view.room)
    (hseek : dialect.seek view state frame found = .ok finding)
    (hplace : finding.offset? = some place) : state.probed ≤ place ∧ place ≤ view.room := by
  unfold Dialect.seek at hseek
  split at hseek
  · obtain ⟨seen, -, hfind⟩ := exists_of_bind hseek
    cases seen with
    | true =>
        cases hfind
        cases hplace
    | false => exact find_bounds h hreach hfind hplace
  · cases hseek
    cases hplace

/-- A candidate lies in the window. -/
theorem reach_le_of_fits {found : Step Frame} (h : state.Fits view.room)
    (hactive : state.active = .ok frame) (hfound : frame.step view = .ok found) :
    reach view found ≤ view.room := by
  have hread := read_le_of_fits h hactive
  have hprobed := h.probed_le
  cases found with
  | hold held => exact Nat.le_refl _
  | token token after =>
      have hlen := (Frame.len_of_step hfound).2
      show token.len ≤ view.room
      omega

/-! ## What a step leaves -/

/-- The outcome of an attempt leaves a state that fits the window. -/
def Attempt.Settles (room : Nat) : Attempt → Prop
  | .step (.token _ next) => next.Rests
  | .step (.hold held) => held.Fits room
  | .opened inner => inner.Rests

/-- A frame that is put into a state is the active one, and the others stay as they are. -/
theorem cases_of_put {language : Language} {found : Frame}
    (hlanguage : frame.language = state.nesting.active)
    (hfound : (state.put frame).frame? language = some found) :
    language = state.nesting.active ∧ found = frame ∨
      language ≠ state.nesting.active ∧ state.frame? language = some found := by
  rw [State.frame?_put, hlanguage] at hfound
  by_cases hactive : language = state.nesting.active
  · rw [if_pos hactive] at hfound
    exact Or.inl ⟨hactive, (Option.some.inj hfound).symm⟩
  · rw [if_neg hactive] at hfound
    exact Or.inr ⟨hactive, hfound⟩

/-- After a token of the active language nothing of the next one was read. -/
theorem rests_put {room : Nat} (h : state.Fits room)
    (hlanguage : frame.language = state.nesting.active) (hread : frame.read = 0) :
    (state.put frame).fresh.Rests := by
  refine ⟨?_, rfl⟩
  intro language found hfound
  rw [State.frame?_fresh] at hfound
  rcases cases_of_put hlanguage hfound with ⟨-, rfl⟩ | ⟨hother, hfound⟩
  · exact hread
  · exact h.waiting language found hother hfound

/-- Where a token is held back, all of the window was read and searched. -/
theorem fits_put {room : Nat} (h : state.Fits room)
    (hlanguage : frame.language = state.nesting.active) (hread : frame.read ≤ room) :
    { state.put frame with lookahead := none, prescan := room, probed := room }.Fits room := by
  have hframe : ∀ language, State.frame? { state.put frame with
      lookahead := none, prescan := room, probed := room } language =
        (state.put frame).frame? language := by
    intro language
    cases language <;> rfl
  have hnesting : (state.put frame).nesting = state.nesting := State.nesting_put state frame
  constructor
  · intro language found hother hfound
    rw [hframe] at hfound
    rcases cases_of_put hlanguage hfound with ⟨hactive, -⟩ | ⟨hne, hfound⟩
    · exact absurd (hactive.trans (congrArg Nesting.active hnesting).symm) hother
    · exact h.waiting language found hne hfound
  · intro found hfound
    rw [hframe] at hfound
    rcases cases_of_put hlanguage hfound with ⟨-, rfl⟩ | ⟨hne, -⟩
    · exact hread
    · exact absurd (congrArg Nesting.active hnesting) hne
  · exact Nat.le_refl room
  · intro lookahead hsome
    cases hsome

theorem settles_of_commit {room : Nat} {found : Token} {step : Step State}
    (h : state.Fits room) (hlanguage : frame.language = state.nesting.active)
    (hread : frame.read = 0) (hcommit : commit state found frame = .ok step) :
    (Attempt.step step).Settles room := by
  have hput := rests_put h hlanguage hread
  unfold commit at hcommit
  split at hcommit
  · obtain ⟨outer, -, hleft⟩ := exists_of_bind hcommit
    cases hleft
    refine ⟨?_, rfl⟩
    intro language found hfound
    cases language with
    | host => exact hput.read .host found hfound
    | script => exact hput.read .script found hfound
    | tag => cases hfound
  · cases hcommit
    exact hput

theorem settles_of_cut {room len : Nat} {step : Step State} (h : state.Fits room)
    (hactive : state.active = .ok frame) (hcut : cut view state frame len = .ok step) :
    (Attempt.step step).Settles room := by
  have hlanguage := State.language_active hactive
  unfold cut at hcut
  obtain ⟨result, hstep, hrest⟩ := exists_of_bind hcut
  cases result with
  | token found after =>
      obtain ⟨hread, hsame⟩ := Frame.after_of_token hstep
      exact settles_of_commit h (hsame.trans hlanguage) hread hrest
  | hold pending =>
      obtain ⟨id, -, hended⟩ := exists_of_bind hrest
      cases id with
      | none => cases hended
      | some id =>
          cases hended
          have hsame := (Frame.after_of_hold hstep).2
          exact rests_put h ((Frame.language_settled pending).trans (hsame.trans hlanguage))
            (Frame.read_settled pending)

/-- A delimiter at the start of the token leaves nothing read of the next one. -/
theorem settles_of_change {room : Nat} {switch : Switch} {outcome : Attempt}
    (hread : ∀ language frame, state.frame? language = some frame → frame.read = 0)
    (hchange : change state switch = .ok outcome) : outcome.Settles room := by
  cases switch with
  | enterTag =>
      obtain ⟨inner, -, hopened⟩ := exists_of_bind hchange
      cases hopened
      refine ⟨?_, rfl⟩
      intro language found hfound
      cases language with
      | host => exact hread .host found hfound
      | script => exact hread .script found hfound
      | tag =>
          cases hfound
          rfl
  | enterScript len =>
      obtain ⟨inner, -, hentered⟩ := exists_of_bind hchange
      cases hentered
      refine ⟨?_, rfl⟩
      intro language found hfound
      cases language with
      | host => exact hread .host found hfound
      | tag => exact hread .tag found hfound
      | script =>
          cases hfound
          rfl
  | leaveScript len =>
      obtain ⟨outer, -, hleft⟩ := exists_of_bind hchange
      cases hleft
      refine ⟨?_, rfl⟩
      intro language found hfound
      cases language with
      | host => exact hread .host found hfound
      | tag => exact hread .tag found hfound
      | script => cases hfound

/-- What becomes of a candidate fits the window. -/
theorem settles_of_conclude {found : Step Frame} {finding : Finding} {outcome : Attempt}
    (h : state.Fits view.room) (hactive : state.active = .ok frame)
    (hfound : frame.step view = .ok found)
    (hbounds : ∀ place, finding.offset? = some place →
      state.probed ≤ place ∧ place ≤ view.room)
    (hconclude : conclude view state frame found finding = .ok outcome) :
    outcome.Settles view.room := by
  have hlanguage := State.language_active hactive
  have hread := read_le_of_fits h hactive
  have hprobed := h.probed_le
  cases finding with
  | clear =>
      cases found with
      | token token after =>
          obtain ⟨step, hcommit, hstep⟩ := exists_of_bind hconclude
          cases hstep
          obtain ⟨hafter, hsame⟩ := Frame.after_of_token hfound
          exact settles_of_commit h (hsame.trans hlanguage) hafter hcommit
      | hold pending =>
          cases hconclude
          obtain ⟨hpending, hsame⟩ := Frame.after_of_hold hfound
          exact fits_put h (hsame.trans hlanguage) (by omega)
  | suspend offset probe =>
      cases hconclude
      obtain ⟨hlo, hhi⟩ := hbounds offset rfl
      constructor
      · exact h.waiting
      · intro other hother
        exact Nat.le_trans (h.active other hother) hlo
      · exact hhi
      · intro lookahead hsome
        cases hsome
        rfl
  | «switch» offset switch =>
      obtain ⟨hlo, hhi⟩ := hbounds offset rfl
      cases offset with
      | zero =>
          -- Nothing was read of the token if a delimiter can still start it.
          refine settles_of_change ?_ hconclude
          intro language other hother
          by_cases heq : language = state.nesting.active
          · rw [heq] at hother
            have := h.active other hother
            omega
          · exact h.waiting language other heq hother
      | succ offset =>
          obtain ⟨step, hcut, hstep⟩ := exists_of_bind hconclude
          cases hstep
          exact settles_of_cut h hactive hcut

end Page

/-! ## Steps -/

namespace Dialect

open Page

variable {dialect : Dialect} {view : View} {state : State}

/-- An attempt that comes to something has read and searched its candidate. -/
theorem parts_of_attempt {outcome : Attempt} (h : dialect.attempt view state = .ok outcome) :
    ∃ frame found finding, state.active = .ok frame ∧ frame.step view = .ok found ∧
      dialect.seek view state frame found = .ok finding ∧
      conclude view state frame found finding = .ok outcome := by
  rw [attempt_eq] at h
  obtain ⟨frame, hactive, h⟩ := exists_of_bind h
  obtain ⟨found, hfound, h⟩ := exists_of_bind h
  obtain ⟨-, -, h⟩ := exists_of_bind h
  obtain ⟨finding, hfinding, h⟩ := exists_of_bind h
  exact ⟨frame, found, finding, hactive, hfound, hfinding, h⟩

/-- What an attempt leaves fits the window. -/
theorem settles_of_attempt {outcome : Attempt} (h : state.Fits view.room)
    (hattempt : dialect.attempt view state = .ok outcome) : outcome.Settles view.room := by
  obtain ⟨frame, found, finding, hactive, hfound, hseek, hconclude⟩ := parts_of_attempt hattempt
  have hreach := reach_le_of_fits h hactive hfound
  refine settles_of_conclude h hactive hfound ?_ hconclude
  intro place hplace
  exact seek_bounds h hreach hseek hplace

/-- What a step leaves fits the window. -/
theorem settles_of_step {step : Step State} (h : state.Fits view.room)
    (hstep : dialect.step view state = .ok step) : (Attempt.step step).Settles view.room := by
  induction hn : state.nesting.headroom using Nat.strongRecOn generalizing state with
  | ind n ih =>
      rw [step_eq] at hstep
      obtain ⟨outcome, hattempt, hrest⟩ := exists_of_bind hstep
      have hsettles := settles_of_attempt h hattempt
      cases outcome with
      | step found =>
          cases hrest
          exact hsettles
      | opened inner =>
          have hless := dialect.headroom_of_opened hattempt
          exact ih _ (by omega) (fits_of_rests hsettles view.room) hrest rfl

end Dialect

end PageLexing
