import PageLexing.Proofs.Delimiters
import PageLexing.Proofs.Fitting

/-!
# What a token depends on

Nothing that lies behind a window matters to what is read in it, and a window that holds a
newline completes the pending token, if no tag prefix contains a newline. So a token depends
on no byte behind the newline of its line.

## Main results

* `attempt_append_right`, `Dialect.step_append_right` — the bytes behind a window do not
  matter.
* `newline_notMem_of_pending` — a token that is held back has no newline.
* `Dialect.step_of_completed` — nor do they to the token that a window completes.
* `Dialect.step_of_newline` — a window with a newline completes the token.
-/

namespace PageLexing

/-! ## Bytes behind the window -/

section Windows

variable {behind : Bytes} {text : Bytes} {room : Nat} {last : Bool}

theorem View.word_append_right {n : Nat} (h : n ≤ text.length) :
    (View.mk (text ++ behind) room last).word n = (View.mk text room last).word n := by
  rw [View.word_of_le (by simp only [List.length_append]; omega), View.word_of_le h]
  exact congrArg Except.ok (List.take_append_of_le_length h)

namespace Scan

variable {σ κ : Type} [Automaton σ κ]

theorem run_append_right (s : σ) (n : Nat) (h : room ≤ text.length) :
    run s n room (text ++ behind) = run s n room text := by
  rw [← run_take s n room (text ++ behind), List.take_append_of_le_length h, run_take]

theorem pendingKind_append_right {scan : Scan σ} (h : scan.read ≤ text.length) :
    pendingKind ⟨text ++ behind, room, last⟩ scan = pendingKind ⟨text, room, last⟩ scan := by
  simp only [pendingKind, View.word_append_right h]

variable [TokenKind κ]

theorem finish_append_right {scan : Scan σ} (kind : κ) (h : scan.read ≤ text.length) :
    finish ⟨text ++ behind, room, last⟩ scan kind = finish ⟨text, room, last⟩ scan kind := by
  simp only [finish, View.word_append_right h]

/-- A scan does not depend on what lies behind the window. -/
theorem step_append_right {scan : Scan σ} (hread : scan.read ≤ text.length)
    (hroom : room ≤ text.length) :
    step ⟨text ++ behind, room, last⟩ scan = step ⟨text, room, last⟩ scan := by
  have hrun : run scan.state scan.read (room - scan.read) ((text ++ behind).drop scan.read) =
      run scan.state scan.read (room - scan.read) (text.drop scan.read) := by
    rw [List.drop_append_of_le_length hread]
    exact run_append_right _ _ (by simp only [List.length_drop]; omega)
  have hbounds := (read_run_bounds scan.state scan.read (room - scan.read)
    (text.drop scan.read)).2
  simp only [List.length_drop] at hbounds
  simp only [step, hrun]
  rcases h : run scan.state scan.read (room - scan.read) (text.drop scan.read) with
    ⟨next, ending⟩
  rw [h] at hbounds
  have hnext : next.read ≤ text.length := by
    dsimp only at hbounds
    omega
  cases ending with
  | window => simp only [finish_append_right _ hnext]
  | line => simp only [finish_append_right _ hnext]
  | kind kind => exact finish_append_right kind hnext

end Scan

namespace Delimiters

variable {delimiters : Delimiters}

theorem follow_append_right {probe : Probe} (h : room ≤ text.length) :
    delimiters.follow last probe room (text ++ behind) =
      delimiters.follow last probe room text := by
  induction room generalizing probe text with
  | zero => simp only [follow]
  | succ room ih =>
      cases text with
      | nil => simp at h
      | cons byte ahead =>
          simp only [List.length_cons, Nat.add_le_add_iff_right] at h
          simp only [List.cons_append, follow]
          cases delimiters.advance probe byte with
          | error fault => rfl
          | ok verdict =>
              cases verdict with
              | undecided next => exact ih h
              | confirmed switch => rfl
              | rejected => rfl

end Delimiters

namespace Page

variable {delimiters : Delimiters} {language : Language}

theorem search_append_right {span offset : Nat} (hspan : span ≤ room)
    (hroom : room ≤ text.length) :
    search delimiters language last offset span room (text ++ behind) =
      search delimiters language last offset span room text := by
  induction span generalizing offset room text with
  | zero => simp only [search]
  | succ span ih =>
      cases text with
      | nil =>
          simp only [List.length_nil] at hroom
          omega
      | cons byte ahead =>
          simp only [List.length_cons] at hroom
          have hrest : search delimiters language last (offset + 1) span (room - 1)
              (ahead ++ behind) =
                search delimiters language last (offset + 1) span (room - 1) ahead :=
            ih (by omega) (by omega)
          have hfollow : ∀ probe, delimiters.follow last probe (room - 1) (ahead ++ behind) =
              delimiters.follow last probe (room - 1) ahead :=
            fun probe => Delimiters.follow_append_right (by omega)
          simp only [List.cons_append, search, hrest, hfollow]

/-- A search does not depend on what lies behind the window. -/
theorem searchFrom_append_right {lo stop : Nat} (hstop : stop ≤ room)
    (hroom : room ≤ text.length) :
    searchFrom delimiters language ⟨text ++ behind, room, last⟩ lo stop =
      searchFrom delimiters language ⟨text, room, last⟩ lo stop := by
  by_cases hlo : lo ≤ stop
  · simp only [searchFrom, List.drop_append_of_le_length
      (Nat.le_trans (Nat.le_trans hlo hstop) hroom)]
    exact search_append_right (by omega) (by simp only [List.length_drop]; omega)
  · simp only [searchFrom, show stop - lo = 0 by omega, search]

/-- Nor does one that goes on with a stored probe. -/
theorem find_append_right {state : State} {stop : Nat} (hstop : stop ≤ room)
    (hroom : room ≤ text.length) :
    find delimiters language ⟨text ++ behind, room, last⟩ state stop =
      find delimiters language ⟨text, room, last⟩ state stop := by
  have hfollow : ∀ probe read, delimiters.follow last probe (room - read)
      ((text ++ behind).drop read) =
        delimiters.follow last probe (room - read) (text.drop read) := by
    intro probe read
    by_cases hread : read ≤ room
    · rw [List.drop_append_of_le_length (Nat.le_trans hread hroom)]
      exact Delimiters.follow_append_right (by simp only [List.length_drop]; omega)
    · rw [Nat.sub_eq_zero_of_le (Nat.le_of_not_le hread)]
      simp only [Delimiters.follow]
  simp only [find, hfollow, searchFrom_append_right hstop hroom]

namespace Frame

/-- A frame does not depend on what lies behind the window. -/
theorem step_append_right {frame : Frame} (hread : frame.read ≤ text.length)
    (hroom : room ≤ text.length) :
    frame.step ⟨text ++ behind, room, last⟩ = frame.step ⟨text, room, last⟩ := by
  cases frame <;> exact congrArg (Except.map _) (Scan.step_append_right hread hroom)

theorem pendingId_append_right {frame : Frame} (h : frame.read ≤ text.length) :
    frame.pendingId ⟨text ++ behind, room, last⟩ = frame.pendingId ⟨text, room, last⟩ := by
  cases frame <;> exact congrArg (Except.map _) (Scan.pendingKind_append_right h)

end Frame

/-! ## Attempts at a window -/

variable {dialect : Dialect} {state : State} {frame : Frame}

theorem isTagComment_append_right {found : Step Frame}
    (h : ∀ held, found = .hold held → held.read ≤ text.length) :
    isTagComment ⟨text ++ behind, room, last⟩ found =
      isTagComment ⟨text, room, last⟩ found := by
  cases found with
  | token found after => cases after <;> rfl
  | hold held =>
      cases held with
      | host scan => rfl
      | script scan => rfl
      | tag scan =>
          have hread : scan.read ≤ text.length := h (.tag scan) rfl
          simp only [isTagComment, Scan.pendingKind_append_right hread]

/-- What is sought does not depend on what lies behind the window. -/
theorem seek_append_right {found : Step Frame}
    (h : ∀ held, found = .hold held → held.read ≤ text.length)
    (hreach : reach ⟨text, room, last⟩ found ≤ room) (hroom : room ≤ text.length) :
    dialect.seek ⟨text ++ behind, room, last⟩ state frame found =
      dialect.seek ⟨text, room, last⟩ state frame found := by
  have hsame : reach ⟨text ++ behind, room, last⟩ found = reach ⟨text, room, last⟩ found := by
    cases found <;> rfl
  simp only [Dialect.seek, isTagComment_append_right h, hsame, find_append_right hreach hroom]

/-- Where a token is cut inside a window, it does not matter what lies behind it. -/
theorem cut_append_right {len : Nat} (hread : frame.read ≤ text.length)
    (hlen : len ≤ text.length) :
    cut ⟨text ++ behind, room, last⟩ state frame len =
      cut ⟨text, room, last⟩ state frame len := by
  have hsame : frame.step ⟨text ++ behind, len, false⟩ = frame.step ⟨text, len, false⟩ :=
    Frame.step_append_right hread hlen
  unfold cut
  rw [hsame]
  cases hstep : frame.step ⟨text, len, false⟩ with
  | error fault => rfl
  | ok found =>
      cases found with
      | token found after => rfl
      | hold held =>
          have hheld : held.read ≤ max frame.read len := (Frame.after_of_hold hstep).1
          simp only [bind, Except.bind, Frame.pendingId_append_right
            (show held.read ≤ text.length by omega)]

/-- What becomes of a candidate does not depend on what lies behind the window. -/
theorem conclude_append_right {found : Step Frame} {finding : Finding}
    (hread : frame.read ≤ text.length)
    (h : ∀ place, finding.offset? = some place → place ≤ text.length) :
    conclude ⟨text ++ behind, room, last⟩ state frame found finding =
      conclude ⟨text, room, last⟩ state frame found finding := by
  cases finding with
  | clear => rfl
  | suspend offset probe => rfl
  | «switch» offset switch =>
      cases offset with
      | zero => rfl
      | succ offset =>
          have hcut : cut ⟨text ++ behind, room, last⟩ state frame (offset + 1) =
              cut ⟨text, room, last⟩ state frame (offset + 1) :=
            cut_append_right hread (h (offset + 1) rfl)
          simp only [conclude, hcut]

/-- An attempt does not depend on what lies behind the window. -/
theorem attempt_append_right (behind : Bytes) (h : state.Fits room)
    (hroom : room ≤ text.length) :
    dialect.attempt ⟨text ++ behind, room, last⟩ state =
      dialect.attempt ⟨text, room, last⟩ state := by
  rw [Dialect.attempt_eq, Dialect.attempt_eq]
  cases hactive : state.active with
  | error fault => rfl
  | ok frame =>
      have hread : frame.read ≤ room := Nat.le_trans (read_le_of_fits h hactive) h.probed_le
      have hsame : frame.step ⟨text ++ behind, room, last⟩ = frame.step ⟨text, room, last⟩ :=
        Frame.step_append_right (by omega) hroom
      simp only [bind, Except.bind, hsame]
      cases hfound : frame.step ⟨text, room, last⟩ with
      | error fault => rfl
      | ok found =>
          have hreach := reach_le_of_fits h hactive hfound
          have hseek : dialect.seek ⟨text ++ behind, room, last⟩ state frame found =
              dialect.seek ⟨text, room, last⟩ state frame found := by
            refine seek_append_right ?_ hreach hroom
            rintro held rfl
            have hheld : held.read ≤ max frame.read room := (Frame.after_of_hold hfound).1
            omega
          simp only [hseek]
          cases hfinding : dialect.seek ⟨text, room, last⟩ state frame found with
          | error fault => rfl
          | ok finding =>
              have hconclude : conclude ⟨text ++ behind, room, last⟩ state frame found finding =
                  conclude ⟨text, room, last⟩ state frame found finding := by
                refine conclude_append_right (by omega) ?_
                intro place hplace
                have hbounds := (seek_bounds h hreach hfinding hplace).2
                exact Nat.le_trans hbounds hroom
              simp only [hconclude]

end Page

end Windows

/-! ## Newlines -/

/-- No undecided probe has read a byte that is foreign to delimiters. -/
theorem Delimiters.notMem_of_matches {delimiters : Delimiters} {byte : UInt8}
    (hforeign : delimiters.Foreign byte) {read : Bytes} {probe : Probe}
    (h : probe.Matches delimiters read) : byte ∉ read := by
  have hfixed := hforeign.fixed
  simp only [List.mem_cons, List.not_mem_nil, or_false, not_or] at hfixed
  cases probe with
  | tagPrefix closing matched viable =>
      obtain ⟨name, rfl, -, hne, hviable⟩ := h
      obtain ⟨i, hi⟩ := Nat.exists_testBit_of_ne_zero hne
      obtain ⟨candidate, hcandidate, hname⟩ := (hviable i).mp hi
      have hbyte := hforeign.prefixes candidate (List.mem_of_getElem? hcandidate)
      rw [List.mem_append, not_or]
      refine ⟨?_, fun hmem => hbyte (hname.subset hmem)⟩
      cases closing <;> simp [opening, hfixed]
  | _ =>
      rw [h]
      simp [hfixed]

namespace Page

variable {dialect : Dialect} {text : Bytes} {base state : State} {start frame : Frame}

/-- All bytes of a candidate but the last are no newlines. -/
theorem newline_notMem_of_step {view : View} {after : Frame} {found : Token}
    (hread : start.read = 0) (h : start.step view = .ok (.token found after)) :
    Byte.newline ∉ view.text.take (found.len - 1) := by
  rcases Frame.newline_of_step hread h with ⟨rfl, -⟩ | hnone
  · exact List.not_mem_nil
  · intro hmem
    exact hnone (List.take_subset_take_left view.text (Nat.sub_le _ 1) hmem)

/-- A token that is held back has no newline. -/
theorem newline_notMem_of_pending (hvalid : dialect.delimiters.Validated)
    (h : Pending dialect text base start state frame) :
    Byte.newline ∉ text.take state.prescan := by
  cases hlookahead : state.lookahead with
  | none =>
      rw [← h.idle hlookahead]
      exact Frame.newline_notMem_of_reads h.reads
  | some lookahead =>
      obtain ⟨-, -, hprobes, found, after, hwhole, hlt, -⟩ := h.busy lookahead hlookahead
      have hcandidate := newline_notMem_of_step (Frame.read_of_ready (start_ready h).1) hwhole
      have hprobe := Delimiters.notMem_of_matches (Delimiters.foreign_newline hvalid)
        (Delimiters.matches_of_probes hprobes).1
      have hprobed := h.probed_le
      rw [show state.prescan = state.probed + (state.prescan - state.probed) by omega,
        List.take_add, List.mem_append, not_or]
      refine ⟨fun hmem => hcandidate ?_, hprobe⟩
      exact List.take_subset_take_left text (by omega) hmem

end Page

namespace Dialect

open Page

variable {dialect : Dialect} {text behind : Bytes} {base : State}

/-- A step does not depend on what lies behind the window. -/
theorem step_append_right {room : Nat} {last : Bool} (behind : Bytes) {state : State}
    (h : state.Fits room) (hroom : room ≤ text.length) :
    dialect.step ⟨text ++ behind, room, last⟩ state =
      dialect.step ⟨text, room, last⟩ state := by
  induction hn : state.nesting.headroom using Nat.strongRecOn generalizing state with
  | ind n ih =>
      have hsame : dialect.attempt ⟨text ++ behind, room, last⟩ state =
          dialect.attempt ⟨text, room, last⟩ state := attempt_append_right behind h hroom
      cases hattempt : dialect.attempt ⟨text, room, last⟩ state with
      | error fault =>
          rw [hattempt] at hsame
          rw [step_of_error hsame, step_of_error hattempt]
      | ok outcome =>
          rw [hattempt] at hsame
          cases outcome with
          | step result => rw [step_of_attempt hsame, step_of_attempt hattempt]
          | opened inner =>
              have hless := dialect.headroom_of_opened hattempt
              have hrests : inner.Rests := settles_of_attempt h hattempt
              rw [step_of_opened hsame, step_of_opened hattempt]
              exact ih _ (by omega) (fits_of_rests hrests room) rfl

/-- A window holds the token back, or it completes it whatever lies behind. -/
theorem step_of_window (behind : Bytes) (h : base.Ready (text ++ behind)) :
    (∃ held, dialect.step ⟨text, text.length, false⟩ base = .ok (.hold held) ∧
        Resumes dialect (text ++ behind) base held ∧ held.prescan = text.length) ∨
      ∃ token next, dialect.step ⟨text, text.length, false⟩ base = .ok (.token token next) ∧
        dialect.step (View.whole (text ++ behind)) base = .ok (.token token next) ∧
        0 < token.len ∧ token.len ≤ text.length ∧
        next.Ready ((text ++ behind).drop token.len) := by
  have hprescan : base.prescan ≤ text.length := by
    rw [(State.searched_of_fresh h.fresh).2.1]
    exact Nat.zero_le _
  have hfits := fits_of_rests (rests_of_ready h) text.length
  rw [← step_append_right behind hfits (Nat.le_refl _)]
  rcases dialect.resumption.step text.length false (resumes_of_ready h) hprescan
    (by simp only [List.length_append]; omega) nofun with
    ⟨held, hheld, hresumes, hroom, -⟩ | htoken
  · exact Or.inl ⟨held, hheld, hresumes, hroom⟩
  · exact Or.inr htoken

/-- The token that a window completes does not depend on what lies behind it. -/
theorem step_of_completed (behind : Bytes) (h : base.Ready (text ++ behind)) {token : Token}
    {next : State}
    (hwindow : dialect.step ⟨text, text.length, false⟩ base = .ok (.token token next)) :
    dialect.step (View.whole (text ++ behind)) base = .ok (.token token next) := by
  rcases step_of_window behind h with ⟨held, hheld, -⟩ | ⟨found, after, hfound, hwhole, -⟩
  · rw [hwindow] at hheld
    cases hheld
  · rw [hwindow] at hfound
    cases hfound
    exact hwhole

/-- A window with a newline completes the token, whatever lies behind it. -/
theorem step_of_newline (hvalid : dialect.delimiters.Validated) (behind : Bytes)
    (h : base.Ready (text ++ behind)) (hline : Byte.newline ∈ text) :
    ∃ token next, dialect.step ⟨text, text.length, false⟩ base = .ok (.token token next) ∧
      dialect.step (View.whole (text ++ behind)) base = .ok (.token token next) ∧
      0 < token.len ∧ token.len ≤ text.length ∧
      next.Ready ((text ++ behind).drop token.len) := by
  rcases step_of_window behind h with ⟨held, -, hresumes, hroom⟩ | htoken
  · obtain ⟨inner, start, frame, hpending, -⟩ := Resumes.pending hresumes
    have hnone := newline_notMem_of_pending hvalid hpending
    rw [hroom, List.take_left] at hnone
    exact absurd hline hnone
  · exact htoken

end Dialect

end PageLexing
