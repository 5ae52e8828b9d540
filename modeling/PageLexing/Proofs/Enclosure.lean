import PageLexing.Proofs.Fitting

/-!
# Inside a fragment

Some states of the automaton of tags stand before a fragment: its opening symbol was not read, or
not all of it. The others stand inside the fragment, but for the one behind its closing symbol. From
inside, a byte, a newline or a cut leads to a state inside again or closes the fragment.

In a page the state of the tag language is kept no longer than its fragment. So it stands inside
whenever it is stored, once the opening symbol was read, whichever language is active. The same is
true of every property of its states that all bytes preserve which do not close the fragment.

## Main results

* `Tag.isInside_of_consume` — what a byte does inside a fragment.
* `Tag.Kept.of_token`, `Tag.Kept.of_hold` — what reading in a window does.
* `Page.keeps_of_attempt` — what an attempt leaves, unless it opens a fragment.
-/

namespace PageLexing

/-! ## The automaton -/

namespace Tag

open Automaton

/-- Whether the opening symbol of a fragment was read and its closing symbol was not. -/
def isInside : State → Bool
  | .outside | .afterLess | .afterPercent | .afterPercentDash => false
  | .blank .outside | .errorOutside | .fragmentEnd => false
  | _ => true

variable {s t : State} {b : UInt8}

theorem isInside_of_transition (b : UInt8) (hs : isInside s = true) :
    isInside (transition s b).1 = true ∨
      (transition s b).1 = .fragmentEnd ∧ ∃ kind, (transition s b).2 = .emit kind := by
  cases s with
  | blank gap =>
      have hgap : isInside gap.resume = true := by
        cases gap <;> first | rfl | cases hs
      rw [transition]
      split
      · exact Or.inl hs
      · exact Or.inl hgap
  | _ =>
      simp only [isInside, Bool.false_eq_true] at hs <;>
        simp only [transition, awaitAttribute, awaitGreater, skipError] <;> (repeat' split) <;>
        simp [isInside]

/-- A byte leads to a state inside the fragment, or it closes the fragment. -/
theorem isInside_of_consume {effect : Effect Kind} (h : consume s b = (t, effect))
    (hs : isInside s = true) :
    isInside t = true ∨ t = .fragmentEnd ∧ ∃ kind, effect = .close kind := by
  obtain ⟨r, hr, hrs⟩ := Boundaries.exists_transition_of_consume h
  have hinside : isInside r = true := by
    rcases hrs with rfl | hpass
    · exact hs
    · have hpassed := isInside_of_transition b hs
      rw [show transition s b = (r, .reprocess) from hpass] at hpassed
      simpa using hpassed
  have hread := isInside_of_transition b hinside
  rw [show transition r b = (t, effect.toAction) from hr] at hread
  rcases hread with ht | ⟨hend, kind, hkind⟩
  · exact Or.inl ht
  · refine Or.inr ⟨hend, kind, ?_⟩
    cases effect <;> cases hkind
    rfl

theorem isInside_settle (hs : isInside s = true) : isInside (settle s) = true := by
  cases s with
  | blank gap => cases gap <;> first | rfl | cases hs
  | _ => first | rfl | cases hs

/-! ### What every byte preserves -/

/-- Every byte preserves `P`, unless it closes the fragment, and so does settling. -/
structure Kept (P : State → Prop) : Prop where
  consume : ∀ {s t : State} {b : UInt8} {effect : Effect Kind}, consume s b = (t, effect) → P s →
    P t ∨ t = .fragmentEnd ∧ ∃ kind, effect = .close kind
  settle : ∀ {s : State}, P s → P (settle s)

/-- The tag language stays inside its fragment. -/
theorem kept_isInside : Kept (fun s => isInside s = true) := ⟨isInside_of_consume, isInside_settle⟩

namespace Kept

variable {P : State → Prop} (hkept : Kept P)

include hkept

theorem of_grow (s t : State) (b : UInt8) (h : Automaton.consume s b = (t, .grow)) (hs : P s) :
    P t := by
  rcases hkept.consume h hs with ht | ⟨-, kind, hkind⟩
  · exact ht
  · cases hkind

/-- As long as no byte ends the token, it is kept. -/
theorem of_run {n room : Nat} {ahead : Bytes} {scan : Scan State} {ending : Scan.Ending Kind}
    (hs : P s) (h : Scan.run s n room ahead = (scan, ending)) (hend : ∀ kind, ending ≠ .kind kind) :
    P scan.state :=
  Scan.run_induction hkept.of_grow hs h hend

theorem of_hold {view : View} {scan held : Scan State} (h : scan.step view = .ok (.hold held))
    (hs : P scan.state) : P held.state :=
  hkept.of_run hs (Scan.run_of_hold h) nofun

/-- It is kept by a token, or the token closes the fragment. -/
theorem of_token {view : View} {scan after : Scan State} {found : Token}
    (h : scan.step view = .ok (.token found after)) (hs : P scan.state) :
    P after.state ∨ after.state = .fragmentEnd := by
  obtain ⟨next, ending, hrun, hline | ⟨kind, hfinish, hkind⟩⟩ := Scan.token_cases h
  · obtain ⟨rfl, -, -, rfl⟩ := hline
    exact Or.inl (hkept.settle (hkept.of_run hs hrun nofun))
  · obtain ⟨word, -, rfl⟩ := Scan.token_of_finish hfinish
    rcases hkind with rfl | ⟨rfl, -⟩ | ⟨rfl, -⟩
    · obtain ⟨t, b, ht, hclose | hclose⟩ := Scan.run_induction_kind hkept.of_grow hs hrun
      · exact (hkept.consume hclose ht).imp_right And.left
      · exact (hkept.consume hclose ht).imp_right And.left
    · have hnext := hkept.of_run hs hrun nofun
      exact Or.inl hnext
    · have hnext := hkept.of_run hs hrun nofun
      exact Or.inl hnext

theorem settled {scan : Scan State} (hs : P scan.state) : P scan.settled.state := by
  show P (if scan.read = 0 then scan.state else Tag.settle scan.state)
  split
  · exact hs
  · exact hkept.settle hs

end Kept

/-- Inside a fragment a token is held back inside it. -/
theorem isInside_of_hold {view : View} {scan held : Scan State}
    (h : scan.step view = .ok (.hold held)) (hs : isInside scan.state = true) :
    isInside held.state = true :=
  kept_isInside.of_hold h hs

/-- Inside a fragment a token ends inside it, or it closes the fragment. -/
theorem isInside_of_token {view : View} {scan after : Scan State} {found : Token}
    (h : scan.step view = .ok (.token found after)) (hs : isInside scan.state = true) :
    isInside after.state = true ∨ after.state = .fragmentEnd :=
  kept_isInside.of_token h hs

end Tag

/-! ## Pages -/

namespace Page

/-- The tag language, if it is live, stands in a state with the property. -/
def State.Keeps (P : Tag.State → Prop) (state : State) : Prop :=
  ∀ scan, state.tag = some scan → P scan.state

/-- If the frame is one of the tag language, that stands in a state with the property. -/
def Frame.Keeps (P : Tag.State → Prop) : Frame → Prop
  | tag scan => P scan.state
  | host _ => True
  | script _ => True

/-- The tag language, if it is live, stands inside its fragment. -/
def State.Encloses (state : State) : Prop :=
  ∀ scan, state.tag = some scan → Tag.isInside scan.state = true

variable {P : Tag.State → Prop} {dialect : Dialect} {view : View} {state : State} {frame : Frame}

theorem encloses_initial : State.initial.Encloses := fun _ hscan => nomatch hscan

theorem keeps_of_active (h : state.Keeps P) (hactive : state.active = .ok frame) :
    frame.Keeps P := by
  have hframe := State.frame?_of_active hactive
  cases frame with
  | host scan => trivial
  | script scan => trivial
  | tag scan =>
      rw [← State.language_active hactive] at hframe
      obtain ⟨found, hfound, heq⟩ := Option.map_eq_some_iff.mp hframe
      cases heq
      exact h scan hfound

theorem keeps_put (h : frame.language = .tag ∨ state.Keeps P) (hframe : frame.Keeps P) :
    (state.put frame).Keeps P := by
  intro scan hscan
  cases frame with
  | host other => exact h.resolve_left nofun scan hscan
  | script other => exact h.resolve_left nofun scan hscan
  | tag other =>
      cases hscan
      exact hframe

/-- A token leaves the tag language in a state with the property, or the fragment is left. -/
theorem keeps_of_commit {found : Token} {step : Step State}
    (h : frame.language = .tag ∨ state.Keeps P) (hframe : frame.Open → frame.Keeps P)
    (hcommit : commit state found frame = .ok step) : step.state.Keeps P := by
  unfold commit at hcommit
  split at hcommit
  · obtain ⟨outer, -, hleft⟩ := exists_of_bind hcommit
    cases hleft
    exact fun _ hscan => nomatch hscan
  · rename_i hnot
    cases hcommit
    refine keeps_put h (hframe ?_)
    cases frame with
    | host scan => trivial
    | script scan => trivial
    | tag scan =>
        intro hend
        rcases scan with ⟨scanState, read⟩
        cases hend
        exact hnot read rfl

/-- A script that opens or closes leaves the tag language where it waits. -/
theorem keeps_of_change {switch : Switch} {step : Step State} (h : state.Keeps P)
    (hchange : change state switch = .ok (.step step)) : step.state.Keeps P := by
  cases switch with
  | enterTag =>
      obtain ⟨inner, -, hopened⟩ := exists_of_bind hchange
      cases hopened
  | enterScript len =>
      obtain ⟨inner, -, hentered⟩ := exists_of_bind hchange
      cases hentered
      exact h
  | leaveScript len =>
      obtain ⟨outer, -, hleft⟩ := exists_of_bind hchange
      cases hleft
      exact h

section Kept

variable (hkept : Tag.Kept P)

include hkept

theorem keeps_of_hold {held : Frame} (h : frame.step view = .ok (.hold held))
    (hframe : frame.Keeps P) : held.Keeps P := by
  cases frame with
  | host scan =>
      obtain ⟨next, -, rfl⟩ := Step.exists_of_map_hold h
      trivial
  | script scan =>
      obtain ⟨next, -, rfl⟩ := Step.exists_of_map_hold h
      trivial
  | tag scan =>
      obtain ⟨next, hstep, rfl⟩ := Step.exists_of_map_hold h
      exact hkept.of_hold hstep hframe

theorem keeps_of_token {after : Frame} {found : Token}
    (h : frame.step view = .ok (.token found after)) (hframe : frame.Keeps P) :
    after.Open → after.Keeps P := by
  intro hopen
  cases frame with
  | host scan =>
      obtain ⟨next, -, rfl⟩ := Step.exists_of_map h
      trivial
  | script scan =>
      obtain ⟨next, -, rfl⟩ := Step.exists_of_map h
      trivial
  | tag scan =>
      obtain ⟨next, hstep, rfl⟩ := Step.exists_of_map h
      exact (hkept.of_token hstep hframe).resolve_right hopen

theorem keeps_settled (hframe : frame.Keeps P) : frame.settled.Keeps P := by
  cases frame with
  | host scan => trivial
  | script scan => trivial
  | tag scan => exact hkept.settled hframe

theorem keeps_of_cut {len : Nat} {step : Step State} (h : state.Keeps P)
    (hframe : frame.Keeps P) (hcut : cut view state frame len = .ok step) :
    step.state.Keeps P := by
  unfold cut at hcut
  obtain ⟨result, hstep, hrest⟩ := exists_of_bind hcut
  cases result with
  | token found after =>
      exact keeps_of_commit (Or.inr h) (keeps_of_token hkept hstep hframe) hrest
  | hold pending =>
      obtain ⟨id, -, hended⟩ := exists_of_bind hrest
      cases id with
      | none => cases hended
      | some id =>
          cases hended
          exact keeps_put (Or.inr h) (keeps_settled hkept (keeps_of_hold hkept hstep hframe))

theorem keeps_of_conclude {found : Step Frame} {finding : Finding} {step : Step State}
    (h : state.Keeps P) (hframe : frame.Keeps P) (hfound : frame.step view = .ok found)
    (hconclude : conclude view state frame found finding = .ok (.step step)) :
    step.state.Keeps P := by
  cases finding with
  | clear =>
      cases found with
      | token token after =>
          obtain ⟨next, hcommit, hnext⟩ := exists_of_bind hconclude
          cases hnext
          exact keeps_of_commit (Or.inr h) (keeps_of_token hkept hfound hframe) hcommit
      | hold pending =>
          cases hconclude
          exact keeps_put (Or.inr h) (keeps_of_hold hkept hfound hframe)
  | suspend offset probe =>
      cases hconclude
      exact h
  | «switch» offset switch =>
      cases offset with
      | zero => exact keeps_of_change h hconclude
      | succ offset =>
          obtain ⟨next, hcut, hnext⟩ := exists_of_bind hconclude
          cases hnext
          exact keeps_of_cut hkept h hframe hcut

/-- An attempt that does not open a fragment keeps what every byte preserves. -/
theorem keeps_of_attempt {step : Step State} (h : state.Keeps P)
    (hattempt : dialect.attempt view state = .ok (.step step)) : step.state.Keeps P := by
  obtain ⟨frame, found, finding, hactive, hfound, -, hconclude⟩ :=
    Dialect.parts_of_attempt hattempt
  exact keeps_of_conclude hkept h (keeps_of_active h hactive) hfound hconclude

end Kept

/-! ### Inside the fragment -/

theorem encloses_put (h : frame.language = .tag ∨ state.Encloses)
    (hframe : frame.Keeps (fun s => Tag.isInside s = true)) : (state.put frame).Encloses :=
  keeps_put h hframe

/-- A token leaves the tag language inside its fragment, or the fragment is left. -/
theorem encloses_of_commit {found : Token} {step : Step State}
    (h : frame.language = .tag ∨ state.Encloses)
    (hframe : frame.Open → frame.Keeps (fun s => Tag.isInside s = true))
    (hcommit : commit state found frame = .ok step) : step.state.Encloses :=
  keeps_of_commit h hframe hcommit

/-- An attempt that does not open a fragment leaves the tag language inside its own. -/
theorem encloses_of_attempt {step : Step State} (h : state.Encloses)
    (hattempt : dialect.attempt view state = .ok (.step step)) : step.state.Encloses :=
  keeps_of_attempt Tag.kept_isInside h hattempt

end Page

end PageLexing
