import PageLexing.Proofs.Sessions
import PageLexing.Proofs.Sublanguages

/-!
# What becomes of a candidate

When all of the text is known, an attempt at a token reads a candidate in the active language
and has three ways to go on. The candidate is the token if no delimiter starts in it. It is cut
before the first delimiter in it. Or the delimiter stands at its start, and the language changes.

Where no delimiter of the active language is to come, the first way is taken every time. The page
is then read as the language alone would read it, whatever waits around the language.

## Main results

* `attempt_of_clear`, `attempt_of_first`, `attempt_of_delimiter` — the three ways.
* `Dialect.path_of_embeds` — without delimiters a page is read as its language alone.
-/

namespace PageLexing

namespace Page

/-! ## States between tokens -/

namespace State

/-- The state between two tokens in which the language of `frame` stands at `frame`. -/
def between (state : State) (frame : Frame) : State := (state.put frame).fresh

@[simp] theorem nesting_between (state : State) (frame : Frame) :
    (state.between frame).nesting = state.nesting :=
  nesting_put state frame

theorem active_between {state : State} {frame : Frame}
    (h : frame.language = state.nesting.active) : (state.between frame).active = .ok frame := by
  apply active_of_frame?
  rw [nesting_between, between, frame?_fresh, frame?_put, if_pos h.symm]

/-- Of two frames of one language the last counts. -/
theorem between_between (state : State) {frame next : Frame}
    (h : next.language = frame.language) :
    (state.between frame).between next = state.between next := by
  rw [between, between, put_fresh, put_put state h]
  rfl

/-- A state between tokens is told by its active frame. -/
theorem between_active {text : Bytes} {state : State} {frame : Frame} (h : state.Ready text)
    (hactive : state.active = .ok frame) : state.between frame = state := by
  rw [between, put_active hactive, h.fresh]

end State

/-! ## Attempts at a whole text -/

variable {dialect : Dialect} {text : Bytes} {base : State} {start after : Frame} {found : Token}

/-- A token that leaves its fragment open is completed as it is. -/
theorem commit_of_open {state : State} {frame : Frame} (h : frame.Open) (found : Token) :
    commit state found frame =
      .ok (.token ⟨globalId frame.language found.id, found.len⟩ (state.between frame)) := by
  cases frame with
  | tag scan =>
      rcases scan with ⟨scanState, read⟩
      cases scanState <;> first | rfl | exact absurd rfl h
  | host scan => rfl
  | script scan => rfl

/-- A candidate in which no delimiter starts is the token. -/
theorem attempt_of_clear (h : base.Ready text) (hactive : base.active = .ok start)
    (hwhole : start.step (View.whole text) = .ok (.token found after))
    (hfree : Searched dialect text start →
      Free dialect.delimiters start.language text 0 found.len) (hopen : after.Open) :
    dialect.attempt (View.whole text) base =
      .ok (.step (.token ⟨globalId start.language found.id, found.len⟩
        (base.between after))) := by
  obtain ⟨finding, hholds, hattempt⟩ := exists_finding dialect h hactive hwhole
  have hlanguage : after.language = start.language := (Frame.after_of_token hwhole).2
  rw [hattempt, eq_clear_of_holds hholds hfree]
  simp only [conclude, commit_of_open hopen, hlanguage, bind, Except.bind]

/-- A candidate ends before the first delimiter in it. -/
theorem attempt_of_first (h : base.Ready text) (hactive : base.active = .ok start)
    (hwhole : start.step (View.whole text) = .ok (.token found after))
    (hsearched : Searched dialect text start) {offset : Nat} {switch : Switch}
    (hfirst : First dialect.delimiters start.language text 0 (offset + 1) switch)
    (hlt : offset + 1 < found.len) {held : Frame} {id : TokenId}
    (hheld : start.step ⟨text, offset + 1, false⟩ = .ok (.hold held))
    (hid : held.pendingId (View.whole text) = .ok (some id)) :
    dialect.attempt (View.whole text) base =
      .ok (.step (.token ⟨globalId start.language id, offset + 1⟩
        (base.between held.settled))) := by
  obtain ⟨finding, hholds, hattempt⟩ := exists_finding dialect h hactive hwhole
  have hbase := pending_of_ready dialect h hactive
  have hread := Frame.read_of_ready (start_ready hbase).1
  have hlanguage := (Frame.after_of_hold hheld).2
  have hcut := cut_of_pending hbase text.length true (by omega) hheld hlanguage hid
  rw [hattempt, eq_switch_of_holds hholds hsearched hfirst hlt]
  simp only [conclude, hcut, hlanguage, bind, Except.bind]
  rfl

/-- A delimiter at the start of the candidate changes the language. -/
theorem attempt_of_delimiter (h : base.Ready text) (hactive : base.active = .ok start)
    (hwhole : start.step (View.whole text) = .ok (.token found after))
    (hsearched : Searched dialect text start) (hpos : 0 < found.len) {switch : Switch}
    (hdelimiter : dialect.delimiters.delimiter? start.language text = some switch) :
    dialect.attempt (View.whole text) base = change base switch := by
  obtain ⟨finding, hholds, hattempt⟩ := exists_finding dialect h hactive hwhole
  have hfirst : First dialect.delimiters start.language text 0 0 switch :=
    ⟨Nat.le_refl 0, free_self start.language text 0, by rwa [List.drop_zero]⟩
  rw [hattempt, eq_switch_of_holds hholds hsearched hfirst hpos]
  rfl

/-! ## A language on its own -/

/-- A token as it is numbered in a page. -/
def shifted (language : Language) (token : Token) : Token :=
  ⟨globalId language token.id, token.len⟩

/-- Markup keeps its numbers. -/
@[simp] theorem shifted_host (token : Token) : shifted .host token = token := by
  have hid : globalId .host token.id = token.id := by
    rw [globalId, handle_host, Handle.toGlobal]
    split
    · rfl
    · rfl
  rw [shifted, hid]

/-- The frames of a language that no token leaves. -/
structure Frame.Embeds {σ κ : Type} [Automaton σ κ] [TokenKind κ] [Boundaries σ]
    (language : Language) (frameOf : Scan σ → Frame) : Prop where
  language : ∀ scan, (frameOf scan).language = language
  step : ∀ view scan, (frameOf scan).step view = (Scan.step view scan).map (Step.map frameOf)
  starts : ∀ {text scan}, (frameOf scan).Ready text → Automaton.Starts text scan
  isOpen : ∀ scan, (frameOf scan).Open

theorem Frame.embeds_host : Frame.Embeds .host Frame.host :=
  ⟨fun _ => rfl, fun _ _ => rfl, id, fun _ => trivial⟩

theorem Frame.embeds_script : Frame.Embeds .script Frame.script :=
  ⟨fun _ => rfl, fun _ _ => rfl, id, fun _ => trivial⟩

variable {σ κ : Type} [Automaton σ κ] [TokenKind κ] [Boundaries σ] {language : Language}
  {frameOf : Scan σ → Frame} {scan : Scan σ}

/-- Where no delimiter is to come, the token of the language alone is the token of the page. -/
theorem attempt_of_embeds (hembeds : Frame.Embeds language frameOf)
    (hlanguage : base.nesting.active = language)
    (h : (base.between (frameOf scan)).Ready text) (hne : text ≠ [])
    (hfree : dialect.switching = true → Free dialect.delimiters language text 0 text.length) :
    ∃ found after, Scan.step (View.whole text) scan = .ok (.token found after) ∧
      dialect.attempt (View.whole text) (base.between (frameOf scan)) =
        .ok (.step (.token (shifted language found) (base.between (frameOf after)))) := by
  have hactive : (base.between (frameOf scan)).active = .ok (frameOf scan) :=
    State.active_between ((hembeds.language scan).trans hlanguage.symm)
  have hready := (h.of_active hactive).1
  obtain ⟨found, after, hstep, hlen⟩ : ∃ found after,
      Scan.step (View.whole text) scan = .ok (.token found after) ∧ found.len ≤ text.length := by
    obtain ⟨found, after, hstep, -, hlen, -⟩ :=
      (Automaton.resumption σ κ).exists_token (hembeds.starts hready) hne
    exact ⟨found, after, hstep, hlen⟩
  have hwhole : (frameOf scan).step (View.whole text) = .ok (.token found (frameOf after)) := by
    rw [hembeds.step, hstep]
    rfl
  have hclear : Searched dialect text (frameOf scan) →
      Free dialect.delimiters (frameOf scan).language text 0 found.len := by
    intro hsearched offset hlo hhi
    rw [hembeds.language]
    exact hfree hsearched.1 offset hlo (by omega)
  refine ⟨found, after, hstep, ?_⟩
  rw [attempt_of_clear h hactive hwhole hclear (hembeds.isOpen after), hembeds.language,
    State.between_between _ (by rw [hembeds.language, hembeds.language])]
  rfl

end Page

namespace Dialect

open Page

variable {dialect : Dialect} {source : Bytes} {base : State} {σ κ : Type} [Automaton σ κ]
  [TokenKind κ] [Boundaries σ] {language : Language} {frameOf : Scan σ → Frame}

/-- Where no delimiter is to come, the page is read as the language alone. -/
theorem path_of_embeds (hembeds : Frame.Embeds language frameOf)
    (hlanguage : base.nesting.active = language) {offset stop : Nat} {scan : Scan σ}
    {final : State} {passages : List (Passage State)}
    (h : dialect.grammar.Path source offset (base.between (frameOf scan)) passages stop final)
    (hready : (base.between (frameOf scan)).Ready (source.drop offset))
    (hfree : dialect.switching = true → ∀ place, offset ≤ place →
      dialect.delimiters.delimiter? language (source.drop place) = none) :
    ∃ inside scan', (Automaton.grammar σ κ).Path source offset scan inside stop scan' ∧
      final = base.between (frameOf scan') ∧
      passages.map Passage.token = (inside.map Passage.token).map (shifted language) := by
  generalize hstate : base.between (frameOf scan) = state at h hready
  -- All states of the path are `base` with another scan, since no token changes the language.
  induction h generalizing scan with
  | nil => exact ⟨[], scan, .nil _ scan, hstate.symm, rfl⟩
  | @cons offset stop state next final token passages hstep _ ih =>
      subst hstate
      obtain ⟨found, after, hfound, hattempt⟩ := attempt_of_embeds hembeds hlanguage hready
        (dialect.resumption.ne_nil_of_step hready hstep) (by
          intro hswitching place _ _
          rw [List.drop_drop]
          exact hfree hswitching (offset + place) (Nat.le_add_right _ _))
      have hnext := (dialect.resumption.next_of_step hready hstep).2
      have htoken : dialect.step _ _ = _ := hstep
      rw [step_of_attempt hattempt] at htoken
      cases htoken
      obtain ⟨inside, scan', hpath, hfinal, htokens⟩ := ih (fun hswitching place hle =>
        hfree hswitching place (Nat.le_trans (Nat.le_add_right _ _) hle)) rfl hnext
      refine ⟨⟨offset, scan, found, after⟩ :: inside, scan', .cons hfound hpath, hfinal, ?_⟩
      rw [List.map_cons, List.map_cons, List.map_cons, htokens]

end Dialect

end PageLexing
