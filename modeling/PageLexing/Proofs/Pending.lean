import PageLexing.Proofs.Comments
import PageLexing.Proofs.Resting

/-!
# Pages inside tokens

A window that ends before the pending token is decided leaves a state from which the next
window goes on. `Pending` relates such a state to the one before the token: the active
language has read a part of its candidate, no delimiter starts in the bytes that were
searched, and the stored probe, if there is one, stands for what was read of a delimiter.

An attempt from a pending state over a larger window either leaves a pending state again
or comes to what an attempt at the whole text from before the token comes to.

## Main results

* `sound_seek` — what is sought in a window from a pending state is so in the whole text.
* `attempt_of_pending` — an attempt holds on or agrees with the whole text.
* `exists_finding` — an attempt at the whole text follows what is found in its candidate.
-/

namespace PageLexing

/-! ## The parts of an attempt -/

namespace Page

/-- How far the candidate reaches in a window. -/
def reach (view : View) : Step Frame → Nat
  | .token found _ => found.len
  | .hold _ => view.room

/-- What becomes of a candidate in which something was found. -/
def conclude (view : View) (state : State) (frame : Frame) (found : Step Frame) :
    Finding → Except Fault Attempt
  | .clear =>
      match found with
      | .token found after => do
          let step ← commit state found after
          .ok (.step step)
      | .hold pending =>
          .ok (.step (.hold { state.put pending with
            lookahead := none, prescan := view.room, probed := view.room }))
  | .suspend offset probe =>
      .ok (.step (.hold { state with
        lookahead := some ⟨found.token?, offset, probe⟩, prescan := view.room,
        probed := offset }))
  | .switch 0 switch => change state switch
  | .switch (offset + 1) _ => do
      let step ← cut view state frame (offset + 1)
      .ok (.step step)

end Page

namespace Dialect

open Page

variable (dialect : Dialect)

/-- Searches the candidate of an attempt. -/
def seek (view : View) (state : State) (frame : Frame) (found : Step Frame) :
    Except Fault Finding :=
  if dialect.switching then do
    if ← isTagComment view found then .ok .clear
    else find dialect.delimiters frame.language view state (reach view found)
  else .ok .clear

theorem attempt_eq (view : View) (state : State) :
    dialect.attempt view state = (do
      let frame ← state.active
      let found ← frame.step view
      checkCandidate state found
      let finding ← dialect.seek view state frame found
      conclude view state frame found finding) := by
  unfold attempt seek
  cases state.active with
  | error fault => rfl
  | ok frame =>
      simp only [bind, Except.bind]
      cases hfound : frame.step view with
      | error fault => rfl
      | ok found =>
          dsimp only
          cases checkCandidate state found with
          | error fault => rfl
          | ok checked =>
              dsimp only
              by_cases hswitching : dialect.switching = true
              · simp only [hswitching, if_true]
                cases isTagComment view found with
                | error fault => rfl
                | ok seen =>
                    cases seen with
                    | true => rfl
                    | false =>
                        cases found with
                        | token found after =>
                            simp only [Bool.false_eq_true, if_false, reach]
                            cases find dialect.delimiters frame.language view state
                              found.len <;> rfl
                        | hold pending =>
                            simp only [Bool.false_eq_true, if_false, reach]
                            cases find dialect.delimiters frame.language view state
                              view.room <;> rfl
              · simp only [hswitching, Bool.false_eq_true, if_false]
                rfl

variable {dialect}

/-- The parts of an attempt that reads and searches its candidate. -/
theorem attempt_of_parts {view : View} {state : State} {frame : Frame} {found : Step Frame}
    {finding : Finding} (hactive : state.active = .ok frame)
    (hfound : frame.step view = .ok found) (hcheck : checkCandidate state found = .ok ())
    (hfinding : dialect.seek view state frame found = .ok finding) :
    dialect.attempt view state = conclude view state frame found finding := by
  simp only [attempt_eq, hactive, hfound, hcheck, hfinding, bind, Except.bind]

end Dialect

namespace Page

variable {dialect : Dialect} {text : Bytes}

/-! ## Pending states -/

/-- The token of `text` that the frame reads is searched for delimiters. -/
def Searched (dialect : Dialect) (text : Bytes) (start : Frame) : Prop :=
  dialect.switching = true ∧ ¬ start.Comments text

/-- The stored probe stands for what was read of a delimiter in the candidate. -/
structure Recalls (dialect : Dialect) (text : Bytes) (start : Frame) (state : State)
    (lookahead : Lookahead) : Prop where
  switching : dialect.switching = true
  probeAt : lookahead.probeAt = state.probed
  probes : dialect.delimiters.Probes start.language (text.drop state.probed)
    (state.prescan - state.probed) lookahead.probe
  candidate : ∃ found after, start.step (View.whole text) = .ok (.token found after) ∧
    state.probed < found.len ∧ ∀ token, lookahead.candidate = some token → token = found

/-- `state` is left when a window ends before the token of `text` is decided that is read
from `base`. The active languages stand at `start` before the token and at `frame` in it. -/
structure Pending (dialect : Dialect) (text : Bytes) (base : State) (start : Frame)
    (state : State) (frame : Frame) : Prop where
  ready : base.Ready text
  starts : base.active = .ok start
  active : state.active = .ok frame
  /-- Nothing else has changed. -/
  rest : (state.put start).fresh = base
  reads : Frame.Reads text start frame
  read_le : frame.read ≤ state.probed
  probed_le : state.probed ≤ state.prescan
  prescan_le : state.prescan ≤ text.length
  /-- What was searched has no delimiter. -/
  free : Searched dialect text start →
    Free dialect.delimiters start.language text 0 state.probed
  idle : state.lookahead = none → frame.read = state.prescan
  busy : ∀ lookahead, state.lookahead = some lookahead →
    Recalls dialect text start state lookahead

theorem start_ready {base state : State} {start frame : Frame}
    (h : Pending dialect text base start state frame) : start.Ready text ∧ start.Open :=
  h.ready.of_active h.starts

theorem language_start {base state : State} {start frame : Frame}
    (h : Pending dialect text base start state frame) :
    start.language = base.nesting.active :=
  State.language_active h.starts

theorem language_frame {base state : State} {start frame : Frame}
    (h : Pending dialect text base start state frame) :
    frame.language = start.language :=
  Frame.language_of_reads h.reads

theorem nesting_pending {base state : State} {start frame : Frame}
    (h : Pending dialect text base start state frame) : state.nesting = base.nesting := by
  rw [← h.rest]
  exact (State.nesting_put state start).symm

/-- Before a token nothing is pending. -/
theorem pending_of_ready (dialect : Dialect) {base : State} {start : Frame} (h : base.Ready text)
    (hactive : base.active = .ok start) : Pending dialect text base start base start := by
  have hready := (h.of_active hactive).1
  obtain ⟨hlookahead, hprescan, hprobed⟩ := State.searched_of_fresh h.fresh
  have hread := Frame.read_of_ready hready
  exact {
    ready := h
    starts := hactive
    active := hactive
    rest := by rw [State.put_active hactive, h.fresh]
    reads := Frame.reads_of_ready hready
    read_le := by omega
    probed_le := by omega
    prescan_le := by omega
    free := fun _ => by rw [hprobed]; exact free_self start.language text 0
    idle := fun _ => by omega
    busy := fun lookahead hsome => by rw [hlookahead] at hsome; cases hsome }

/-- A pending state that has read nothing is the one before the token. -/
theorem eq_of_prescan {base state : State} {start frame : Frame}
    (h : Pending dialect text base start state frame) (hprescan : state.prescan = 0) :
    state = base := by
  have hread := h.read_le
  have hprobed := h.probed_le
  have hframe : frame = start := Frame.eq_of_reads (start_ready h).1 h.reads (by omega)
  have hlookahead : state.lookahead = none := by
    cases hsome : state.lookahead with
    | none => rfl
    | some lookahead =>
        have := (h.busy lookahead hsome).probes.pos
        omega
  have hrest := h.rest
  rw [← hframe, State.put_active h.active] at hrest
  rw [← hrest]
  rcases state with ⟨nesting, host, tag, script, lookahead, prescan, probed⟩
  simp only at hprescan hlookahead hprobed
  subst hprescan hlookahead
  rw [Nat.le_zero.mp hprobed]
  rfl

/-! ## Searching from a pending state -/

/-- What a search in a window of `room` bytes up to `stop` says of the candidate. -/
def Finding.Holds (dialect : Dialect) (text : Bytes) (start : Frame) (room : Nat)
    (last : Bool) (lo stop : Nat) : Finding → Prop
  | .clear => Searched dialect text start →
      Free dialect.delimiters start.language text 0 stop
  | .switch offset found =>
      Searched dialect text start ∧ lo ≤ offset ∧
        First dialect.delimiters start.language text 0 offset found ∧ offset < stop ∧
        found.Suits start.language (room - offset)
  | .suspend offset probe =>
      dialect.switching = true ∧ last = false ∧ lo ≤ offset ∧ offset < stop ∧
        (Searched dialect text start →
          Free dialect.delimiters start.language text 0 offset) ∧
        dialect.delimiters.Probes start.language (text.drop offset) (room - offset) probe

variable {base state : State} {start frame : Frame} {room : Nat} {last : Bool}

/-- What a search finds, be it with a stored probe or without one. -/
theorem sound_find (h : Pending dialect text base start state frame)
    (hprescan : state.prescan ≤ room) (hroom : room ≤ text.length)
    (hlast : last = true → room = text.length) {stop : Nat} (hstop : stop ≤ room)
    (hbusy : state.lookahead ≠ none → state.probed < stop) :
    ∃ finding, find dialect.delimiters start.language ⟨text, room, last⟩ state stop =
        .ok finding ∧
      finding.Sound dialect.delimiters start.language text room last state.probed stop := by
  cases hlookahead : state.lookahead with
  | none =>
      simp only [find, hlookahead]
      exact sound_searchFrom dialect.delimiters start.language hroom hlast state.probed hstop
  | some lookahead =>
      obtain ⟨-, hprobeAt, hprobes, -⟩ := h.busy lookahead hlookahead
      rcases lookahead with ⟨candidate, probeAt, probe⟩
      simp only at hprobeAt hprobes
      have hconsumed := Delimiters.consumed_of_probes hprobes
      have hpos := hprobes.pos
      have hread : probeAt + probe.consumed = state.prescan := by omega
      have hresume := sound_resume hroom hlast hprobes hprescan hstop
        (hbusy (by simp [hlookahead]))
      simp only [find, hlookahead, hread]
      rw [hprobeAt]
      exact hresume

/-- Where the search starts at a stored position, all before it was searched. -/
theorem holds_of_sound {stop : Nat} {finding : Finding}
    (h : Pending dialect text base start state frame) (hsearched : Searched dialect text start)
    (hsound : finding.Sound dialect.delimiters start.language text room last state.probed
      stop) : finding.Holds dialect text start room last state.probed stop := by
  have hextend := hsound.extend (h.free hsearched) (Nat.zero_le state.probed)
  cases finding with
  | clear => exact fun _ => hextend
  | «switch» offset found => exact ⟨hsearched, hsound.1.le, hextend.1, hextend.2⟩
  | suspend offset probe =>
      exact ⟨hsearched.1, hsound.1, hsound.2.1, hsound.2.2.1, fun _ => hextend.2.2.2.1,
        hsound.2.2.2.2⟩

/-- What is sought in a completed candidate. -/
theorem sound_seek_token (h : Pending dialect text base start state frame)
    (hprescan : state.prescan ≤ room) (hroom : room ≤ text.length)
    (hlast : last = true → room = text.length) {found : Token} {after : Frame}
    (hwhole : start.step (View.whole text) = .ok (.token found after))
    (hlen : found.len ≤ room) :
    ∃ finding, dialect.seek ⟨text, room, last⟩ state frame (.token found after) =
        .ok finding ∧
      finding.Holds dialect text start room last state.probed found.len := by
  obtain ⟨seen, hcomment, hseen⟩ := isTagComment_of_token ⟨text, room, last⟩ hwhole
  by_cases hswitching : dialect.switching = true
  · cases seen with
    | true =>
        refine ⟨.clear, ?_, fun hsearched => absurd (hseen.mp rfl) hsearched.2⟩
        simp [Dialect.seek, hswitching, hcomment, bind, Except.bind]
    | false =>
        have hsearched : Searched dialect text start :=
          ⟨hswitching, fun hcomments => by simpa using hseen.mpr hcomments⟩
        obtain ⟨finding, hfind, hsound⟩ := sound_find h hprescan hroom hlast hlen (by
          intro hsome
          obtain ⟨lookahead, hlookahead⟩ := Option.ne_none_iff_exists'.mp hsome
          obtain ⟨found', after', hwhole', hlt, -⟩ := (h.busy lookahead hlookahead).candidate
          rw [hwhole] at hwhole'
          cases hwhole'
          exact hlt)
        refine ⟨finding, ?_, holds_of_sound h hsearched hsound⟩
        simp only [Dialect.seek, hswitching, hcomment, bind, Except.bind, if_true,
          Bool.false_eq_true, if_false, language_frame h]
        exact hfind
  · refine ⟨.clear, ?_, fun hsearched => absurd hsearched.1 hswitching⟩
    simp [Dialect.seek, hswitching]

/-- What is sought in a candidate that the window does not complete. -/
theorem sound_seek_hold (h : Pending dialect text base start state frame)
    (hprescan : state.prescan ≤ room) (hroom : room ≤ text.length)
    (hlast : last = true → room = text.length) {held : Frame}
    (hreads : Frame.Reads text start held) (hread : held.read = room) :
    ∃ finding, dialect.seek ⟨text, room, last⟩ state frame (.hold held) = .ok finding ∧
      finding.Holds dialect text start room last state.probed room := by
  obtain ⟨seen, hcomment, hseen, hunseen⟩ := isTagComment_of_hold
    dialect.delimiters last (start_ready h).1 hreads hread
  by_cases hswitching : dialect.switching = true
  · cases seen with
    | true =>
        refine ⟨.clear, ?_, fun hsearched => absurd (hseen rfl) hsearched.2⟩
        simp [Dialect.seek, hswitching, hcomment, bind, Except.bind]
    | false =>
        obtain ⟨finding, hfind, hsound⟩ := sound_find h hprescan hroom hlast
          (Nat.le_refl room) (by
            intro hsome
            obtain ⟨lookahead, hlookahead⟩ := Option.ne_none_iff_exists'.mp hsome
            have hpos := (h.busy lookahead hlookahead).probes.pos
            omega)
        refine ⟨finding, ?_, ?_⟩
        · simp only [Dialect.seek, hswitching, hcomment, bind, Except.bind, if_true,
            Bool.false_eq_true, if_false, language_frame h]
          exact hfind
        · by_cases hcomments : start.Comments text
          · -- The window cannot tell the comment, but has no delimiter either.
            have hfree := hunseen rfl hcomments
            have hnot : ¬ Searched dialect text start := fun hsearched =>
              hsearched.2 hcomments
            cases finding with
            | clear => exact fun hsearched => absurd hsearched hnot
            | «switch» offset found =>
                have hnone := hfree offset (Nat.zero_le offset) hsound.2.1
                rw [hsound.1.starts] at hnone
                cases hnone
            | suspend offset probe =>
                exact ⟨hswitching, hsound.1, hsound.2.1, hsound.2.2.1,
                  fun hsearched => absurd hsearched hnot, hsound.2.2.2.2⟩
          · exact holds_of_sound h ⟨hswitching, hcomments⟩ hsound
  · refine ⟨.clear, ?_, fun hsearched => absurd hsearched.1 hswitching⟩
    simp [Dialect.seek, hswitching]

/-- A delimiter that a window finds is found in the whole text. -/
theorem eq_switch_of_holds {lo stop offset : Nat} {switch : Switch} {finding : Finding}
    (h : finding.Holds dialect text start room true lo stop)
    (hsearched : Searched dialect text start)
    (hfirst : First dialect.delimiters start.language text 0 offset switch)
    (hstop : offset < stop) : finding = .switch offset switch := by
  cases finding with
  | clear =>
      have hnone := h hsearched offset (Nat.zero_le offset) hstop
      rw [hfirst.starts] at hnone
      cases hnone
  | «switch» offset' found =>
      obtain ⟨rfl, rfl⟩ := h.2.2.1.unique hfirst
      rfl
  | suspend offset' probe => cases h.2.1

/-- A candidate that a window finds clear is clear in the whole text. -/
theorem eq_clear_of_holds {lo stop : Nat} {finding : Finding}
    (h : finding.Holds dialect text start room true lo stop)
    (hfree : Searched dialect text start →
      Free dialect.delimiters start.language text 0 stop) : finding = .clear := by
  cases finding with
  | clear => rfl
  | «switch» offset switch =>
      have hnone := hfree h.1 offset (Nat.zero_le offset) h.2.2.2.1
      rw [h.2.2.1.starts] at hnone
      cases hnone
  | suspend offset probe => cases h.2.1

/-! ## Ending the pending token -/

/-- A text that is not empty has a first token in every language. -/
theorem exists_token (hready : start.Ready text) (hne : 0 < text.length) :
    ∃ found after, start.step (View.whole text) = .ok (.token found after) ∧
      found.len ≤ text.length := by
  rcases Frame.step_of_ready text.length true hready (Nat.le_refl text.length) (fun _ => rfl)
    with ⟨held, -, -, -, hzero⟩ | ⟨found, after, -, hwhole, -, hlen, -, -⟩
  · have := hzero rfl
    omega
  · exact ⟨found, after, hwhole, hlen⟩

/-- A window that ends inside a token holds no more than the token has. -/
theorem room_le_of_reads {held : Frame} (hready : start.Ready text)
    (hreads : Frame.Reads text start held) (hread : held.read = room) {found : Token}
    {after : Frame} (hwhole : start.step (View.whole text) = .ok (.token found after)) :
    room ≤ found.len := by
  have hle := Frame.read_le_of_reads hreads
  rw [← Frame.step_of_reads (View.whole text) hready hreads hle] at hwhole
  exact hread ▸ (Frame.len_of_step hwhole).1

/-- A frame put in place of the pending one leaves nothing of the pending token. -/
theorem fresh_put (h : Pending dialect text base start state frame) (after : Frame)
    (hlanguage : after.language = start.language) :
    (state.put after).fresh = (base.put after).fresh := by
  rw [← h.rest, State.put_fresh, State.put_put state hlanguage]

theorem commit_of_pending (h : Pending dialect text base start state frame) {after : Frame}
    (hlanguage : after.language = start.language) (found : Token) :
    commit state found after = commit base found after := by
  simp only [commit, fresh_put h after hlanguage, nesting_pending h]

/-- A token that ends before a delimiter is the same in every window. -/
theorem cut_of_pending (h : Pending dialect text base start state frame) (room : Nat)
    (last : Bool) {len : Nat}
    (hread : frame.read ≤ len) {held : Frame} {id : TokenId}
    (hheld : start.step ⟨text, len, false⟩ = .ok (.hold held))
    (hlanguage : held.language = start.language)
    (hid : held.pendingId (View.whole text) = .ok (some id)) :
    cut ⟨text, room, last⟩ state frame len =
      .ok (.token ⟨globalId held.language id, len⟩ (base.put held.settled).fresh) := by
  have hstep : frame.step ⟨text, len, false⟩ = .ok (.hold held) := by
    rw [Frame.step_of_reads ⟨text, len, false⟩ (start_ready h).1 h.reads hread]
    exact hheld
  have hpending : held.pendingId ⟨text, room, last⟩ = .ok (some id) := by
    rw [Frame.pendingId_eq_whole]
    exact hid
  have hfresh := fresh_put h held.settled
    (by rw [Frame.language_settled, hlanguage])
  simp only [cut, hstep, hpending, hfresh, bind, Except.bind]

theorem change_of_pending (h : Pending dialect text base start state frame)
    (hread : frame.read = 0) (switch : Switch) : change state switch = change base switch := by
  have hframe : frame = start := Frame.eq_of_reads (start_ready h).1 h.reads hread
  have hfresh : state.fresh = base.fresh := by
    have hrest := h.rest
    rw [← hframe, State.put_active h.active] at hrest
    rw [← hrest]
    rfl
  cases switch <;> simp only [change, hfresh, nesting_pending h]

/-- A window that ends before the token does leaves it unfinished. -/
theorem exists_held (hready : start.Ready text) {found : Token} {after : Frame}
    (hwhole : start.step (View.whole text) = .ok (.token found after)) {len : Nat}
    (hlt : len < found.len) (hlen : len ≤ text.length) :
    ∃ held, start.step ⟨text, len, false⟩ = .ok (.hold held) ∧
      Frame.Reads text start held ∧ held.read = len := by
  rcases Frame.step_of_ready len false hready hlen (by simp) with
    ⟨held, hheld, hreads, hread, -⟩ | ⟨token, next, -, hfound, -, hle, -, -⟩
  · exact ⟨held, hheld, hreads, hread⟩
  · rw [hwhole] at hfound
    cases hfound
    omega

/-- A delimiter in the candidate has the same consequences in every window. -/
theorem conclude_of_switch (h : Pending dialect text base start state frame)
    (hroom : room ≤ text.length) {offset : Nat} {switch : Switch}
    (hfirst : First dialect.delimiters start.language text 0 offset switch)
    (hprobed : state.probed ≤ offset) (hstop : offset < room)
    (hsuits : switch.Suits start.language (room - offset)) {token : Token} {after : Frame}
    (hwhole : start.step (View.whole text) = .ok (.token token after))
    (htoken : offset < token.len) (found found₀ : Step Frame) :
    ∃ outcome,
      conclude ⟨text, room, last⟩ state frame found (.switch offset switch) = .ok outcome ∧
      conclude (View.whole text) base start found₀ (.switch offset switch) = .ok outcome ∧
      outcome.Advances text room := by
  have hread := h.read_le
  have hbase := pending_of_ready dialect h.ready h.starts
  have hready := (start_ready h).1
  cases offset with
  | zero =>
      obtain ⟨byte, ahead, htext, hbyte⟩ := Delimiters.head_of_delimiter? hfirst.starts
      rw [List.drop_zero] at htext
      rw [language_start h, Nat.sub_zero] at hsuits
      obtain ⟨outcome, hchange, hadvances⟩ := advances_change h.ready
        (by rw [htext]; rfl) hbyte (by omega) hsuits
      refine ⟨outcome, ?_, hchange, hadvances⟩
      show change state switch = _
      rw [change_of_pending h (by omega) switch, hchange]
  | succ offset =>
      obtain ⟨held, hheld, hreads, hheldRead⟩ := exists_held hready hwhole htoken (by omega)
      have hlanguage := Frame.language_of_reads hreads
      obtain ⟨id, hid⟩ := Frame.pendingId_of_reads hreads (by omega)
      have hcut := cut_of_pending h room last (by omega) hheld hlanguage
        hid
      have hcut₀ := cut_of_pending hbase text.length true
        (by rw [Frame.read_of_ready hready]; omega) hheld hlanguage hid
      refine ⟨.step (.token ⟨globalId held.language id, offset + 1⟩
        (base.put held.settled).fresh), ?_, ?_, ?_⟩
      · simp only [conclude, hcut, bind, Except.bind]
      · simp only [conclude, hcut₀, bind, Except.bind]
      · refine ⟨Nat.succ_pos offset, Nat.le_of_lt hstop, ?_⟩
        refine State.ready_put h.ready ?_ (Frame.ready_settled (by omega) _)
          (Frame.open_settled (Frame.open_of_reads hreads (start_ready h).2))
        rw [Frame.language_settled, hlanguage, language_start h]

/-! ## Holding on -/

/-- A candidate that the window does not complete is held back. -/
theorem pending_of_hold (h : Pending dialect text base start state frame)
    (hroom : room ≤ text.length) {held : Frame} (hreads : Frame.Reads text start held)
    (hread : held.read = room) (hfree : Searched dialect text start →
      Free dialect.delimiters start.language text 0 room) :
    Pending dialect text base start
      { state.put held with lookahead := none, prescan := room, probed := room } held := by
  have hlanguage := Frame.language_of_reads hreads
  exact {
    ready := h.ready
    starts := h.starts
    active := by
      refine State.active_of_frame? ?_
      show (state.put held).frame? (state.put held).nesting.active = some held
      rw [State.frame?_put, State.nesting_put, if_pos]
      rw [hlanguage, language_start h, nesting_pending h]
    rest := by
      rw [← h.rest, ← State.put_put state hlanguage.symm]
      cases start <;> rfl
    reads := hreads
    read_le := Nat.le_of_eq hread
    probed_le := Nat.le_refl room
    prescan_le := hroom
    free := hfree
    idle := fun _ => hread
    busy := fun lookahead hsome => by cases hsome }

/-- A candidate in which a delimiter is undecided is held back. -/
theorem pending_of_suspend (h : Pending dialect text base start state frame)
    (hroom : room ≤ text.length) {offset : Nat} {probe : Probe} {candidate : Option Token}
    (hprobed : state.probed ≤ offset) (hswitching : dialect.switching = true)
    (hprobes : dialect.delimiters.Probes start.language (text.drop offset) (room - offset)
      probe)
    (hfree : Searched dialect text start →
      Free dialect.delimiters start.language text 0 offset)
    {found : Token} {after : Frame}
    (hwhole : start.step (View.whole text) = .ok (.token found after))
    (hstop : offset < found.len)
    (hcandidate : ∀ token, candidate = some token → token = found) :
    Pending dialect text base start
      { state with
        lookahead := some ⟨candidate, offset, probe⟩, prescan := room, probed := offset }
      frame := by
  have hpos := hprobes.pos
  have hread := h.read_le
  exact {
    ready := h.ready
    starts := h.starts
    active := h.active
    rest := by
      rw [← h.rest]
      cases start <;> rfl
    reads := h.reads
    read_le := Nat.le_trans hread hprobed
    probed_le := by
      show offset ≤ room
      omega
    prescan_le := hroom
    free := hfree
    idle := fun hnone => by cases hnone
    busy := fun lookahead hsome => by
      cases hsome
      exact ⟨hswitching, rfl, hprobes, found, after, hwhole, hstop, hcandidate⟩
  }

/-! ## Attempts -/

theorem checkCandidate_of_pending (h : Pending dialect text base start state frame)
    {found : Token} {after : Frame}
    (hwhole : start.step (View.whole text) = .ok (.token found after)) :
    checkCandidate state (.token found after) = .ok () := by
  unfold checkCandidate
  cases hlookahead : state.lookahead with
  | none => rfl
  | some lookahead =>
      obtain ⟨found', after', hwhole', -, hcandidate⟩ := (h.busy lookahead hlookahead).candidate
      rw [hwhole] at hwhole'
      cases hwhole'
      rcases lookahead with ⟨candidate, probeAt, probe⟩
      cases candidate with
      | none => rfl
      | some token =>
          have htoken : token = found := hcandidate token rfl
          simp [Step.token?, htoken]

theorem checkCandidate_hold (state : State) (held : Frame) :
    checkCandidate state (.hold held) = .ok () := by
  unfold checkCandidate
  cases state.lookahead.bind Lookahead.candidate <;> rfl

/-- An attempt at a window holds on, or it comes to what an attempt at the whole text from
before the token comes to. -/
def HoldsOrAgrees (dialect : Dialect) (text : Bytes) (base : State) (start : Frame)
    (state : State) (room : Nat) (last : Bool) : Prop :=
  (∃ state' frame', dialect.attempt ⟨text, room, last⟩ state = .ok (.step (.hold state')) ∧
      Pending dialect text base start state' frame' ∧ state'.prescan = room ∧
      (last = true → text = [])) ∨
    ∃ outcome, dialect.attempt ⟨text, room, last⟩ state = .ok outcome ∧
      dialect.attempt (View.whole text) base = .ok outcome ∧ outcome.Advances text room

/-- A candidate that the window does not complete is held back, or a delimiter cuts it. -/
theorem attempt_of_hold (h : Pending dialect text base start state frame)
    (hprescan : state.prescan ≤ room) (hroom : room ≤ text.length)
    (hlast : last = true → room = text.length) {held : Frame}
    (hstep : frame.step ⟨text, room, last⟩ = .ok (.hold held))
    (hreads : Frame.Reads text start held) (hheldRead : held.read = room)
    (hzero : last = true → room = 0) :
    HoldsOrAgrees dialect text base start state room last := by
  have hready := (start_ready h).1
  have hbase := pending_of_ready dialect h.ready h.starts
  obtain ⟨finding, hseek, hholds⟩ := sound_seek_hold h hprescan hroom hlast hreads hheldRead
  have hattempt := Dialect.attempt_of_parts h.active hstep
    (checkCandidate_hold state held) hseek
  cases finding with
  | clear =>
      refine Or.inl ⟨_, held, hattempt, pending_of_hold h hroom hreads hheldRead hholds, rfl,
        ?_⟩
      intro htrue
      have := hzero htrue
      have := hlast htrue
      exact List.length_eq_zero_iff.mp (by omega)
  | «switch» offset switch =>
      obtain ⟨hsearched, hlo, hfirst, hstop, hsuits⟩ := hholds
      obtain ⟨found, after, hwhole, hlen⟩ := exists_token hready (by omega)
      have htoken := room_le_of_reads hready hreads hheldRead hwhole
      obtain ⟨finding₀, hseek₀, hholds₀⟩ := sound_seek_token hbase hbase.prescan_le
        (Nat.le_refl text.length) (fun _ => rfl) hwhole hlen
      have hattempt₀ := Dialect.attempt_of_parts hbase.active hwhole
        (checkCandidate_of_pending hbase hwhole) hseek₀
      rw [eq_switch_of_holds hholds₀ hsearched hfirst (by omega)] at hattempt₀
      obtain ⟨outcome, hconclude, hconclude₀, hadvances⟩ := conclude_of_switch h hroom hfirst
        hlo hstop hsuits hwhole (by omega) (.hold held) (.token found after)
      exact Or.inr ⟨outcome, hattempt.trans hconclude, hattempt₀.trans hconclude₀, hadvances⟩
  | suspend offset probe =>
      obtain ⟨hswitching, hfalse, hlo, hstop, hfree, hprobes⟩ := hholds
      obtain ⟨found, after, hwhole, hlen⟩ := exists_token hready (by omega)
      have htoken := room_le_of_reads hready hreads hheldRead hwhole
      refine Or.inl ⟨_, frame, hattempt, pending_of_suspend h hroom hlo hswitching hprobes
        hfree hwhole (by omega) (fun token hnone => by cases hnone), rfl, ?_⟩
      intro htrue
      rw [hfalse] at htrue
      cases htrue

/-- A candidate that the window completes is the token, unless a delimiter cuts it or is
undecided in it. -/
theorem attempt_of_token (h : Pending dialect text base start state frame)
    (hprescan : state.prescan ≤ room) (hroom : room ≤ text.length)
    (hlast : last = true → room = text.length) {found : Token} {after : Frame}
    (hstep : frame.step ⟨text, room, last⟩ = .ok (.token found after))
    (hwhole : start.step (View.whole text) = .ok (.token found after))
    (hpos : 0 < found.len) (hlen : found.len ≤ room)
    (hafter : after.Ready (text.drop found.len)) (hlanguage : after.language = start.language) :
    HoldsOrAgrees dialect text base start state room last := by
  have hbase := pending_of_ready dialect h.ready h.starts
  obtain ⟨finding, hseek, hholds⟩ := sound_seek_token h hprescan hroom hlast hwhole hlen
  have hattempt := Dialect.attempt_of_parts h.active hstep
    (checkCandidate_of_pending h hwhole) hseek
  obtain ⟨finding₀, hseek₀, hholds₀⟩ := sound_seek_token hbase hbase.prescan_le
    (Nat.le_refl text.length) (fun _ => rfl) hwhole (Nat.le_trans hlen hroom)
  have hattempt₀ := Dialect.attempt_of_parts hbase.active hwhole
    (checkCandidate_of_pending hbase hwhole) hseek₀
  cases finding with
  | clear =>
      rw [eq_clear_of_holds hholds₀ hholds] at hattempt₀
      obtain ⟨next, hcommit, hnext⟩ := ready_commit found h.ready
        (hlanguage.trans (language_start h)) hafter
      refine Or.inr ⟨.step (.token ⟨globalId after.language found.id, found.len⟩ next),
        hattempt.trans ?_, hattempt₀.trans ?_, hpos, hlen, hnext⟩
      · simp only [conclude, commit_of_pending h hlanguage, hcommit, bind, Except.bind]
      · simp only [conclude, hcommit, bind, Except.bind]
  | «switch» offset switch =>
      obtain ⟨hsearched, hlo, hfirst, hstop, hsuits⟩ := hholds
      rw [eq_switch_of_holds hholds₀ hsearched hfirst hstop] at hattempt₀
      obtain ⟨outcome, hconclude, hconclude₀, hadvances⟩ := conclude_of_switch h hroom hfirst
        hlo (by omega) hsuits hwhole hstop (.token found after) (.token found after)
      exact Or.inr ⟨outcome, hattempt.trans hconclude, hattempt₀.trans hconclude₀, hadvances⟩
  | suspend offset probe =>
      obtain ⟨hswitching, hfalse, hlo, hstop, hfree, hprobes⟩ := hholds
      refine Or.inl ⟨_, frame, hattempt, pending_of_suspend h hroom hlo hswitching hprobes
        hfree hwhole hstop (fun token hsome => (Option.some.inj hsome).symm), rfl, ?_⟩
      intro htrue
      rw [hfalse] at htrue
      cases htrue

/-- From a pending state an attempt holds on or agrees with one at the whole text. -/
theorem attempt_of_pending (h : Pending dialect text base start state frame)
    (hprescan : state.prescan ≤ room) (hroom : room ≤ text.length)
    (hlast : last = true → room = text.length) :
    HoldsOrAgrees dialect text base start state room last := by
  have hready := (start_ready h).1
  have hread := h.read_le
  have hprobed := h.probed_le
  have hstep := Frame.step_of_reads ⟨text, room, last⟩ hready h.reads
    (by show frame.read ≤ room; omega)
  rcases Frame.step_of_ready room last hready hroom hlast with
    ⟨held, hfound, hreads, hheldRead, hzero⟩ |
    ⟨found, after, hfound, hwhole, hpos, hlen, hafter, hlanguage⟩
  · rw [hfound] at hstep
    exact attempt_of_hold h hprescan hroom hlast hstep hreads hheldRead hzero
  · rw [hfound] at hstep
    exact attempt_of_token h hprescan hroom hlast hstep hwhole hpos hlen hafter hlanguage

/-- An attempt at the whole text follows what is found in its candidate. -/
theorem exists_finding (dialect : Dialect) (h : base.Ready text)
    (hactive : base.active = .ok start) {found : Token} {after : Frame}
    (hwhole : start.step (View.whole text) = .ok (.token found after)) :
    ∃ finding : Finding, finding.Holds dialect text start text.length true 0 found.len ∧
      dialect.attempt (View.whole text) base =
        conclude (View.whole text) base start (.token found after) finding := by
  have hbase := pending_of_ready dialect h hactive
  have hread := Frame.read_of_ready (start_ready hbase).1
  have hlen : found.len ≤ text.length := by
    have hmax := (Frame.len_of_step hwhole).2
    rwa [hread, Nat.zero_max] at hmax
  have hprobed := (State.searched_of_fresh h.fresh).2.2
  obtain ⟨finding, hseek, hholds⟩ := sound_seek_token hbase hbase.prescan_le
    (Nat.le_refl text.length) (fun _ => rfl) hwhole hlen
  rw [hprobed] at hholds
  exact ⟨finding, hholds, Dialect.attempt_of_parts hactive hwhole
    (checkCandidate_of_pending hbase hwhole) hseek⟩

end Page

end PageLexing
