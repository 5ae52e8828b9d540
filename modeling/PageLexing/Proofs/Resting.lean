import PageLexing.Page.Dialect
import PageLexing.Proofs.Frames
import PageLexing.Proofs.Probing

/-!
# Pages between tokens

Between two tokens of a page exactly the live languages have a scan, nothing of the next
token was read or searched, and every language may go on: the active one with the text
ahead, those around it with any text, since they were left at a delimiter or before one
that has not come yet.

The three ways in which a token ends, with the candidate itself, before a delimiter and
with a delimiter, all lead to such a state again.

## Main results

* `ready_put`, `ready_commit` — a token of the active language ends between tokens.
* `advances_change` — so does a change of the language.
-/

namespace PageLexing.Page

namespace State

/-! ## The frames of a state -/

/-- The frame of a language that has one. -/
def frame? (state : State) : Language → Option Frame
  | .host => some (.host state.host)
  | .tag => state.tag.map .tag
  | .script => state.script.map .script

theorem frame?_of_active {state : State} {frame : Frame} (h : state.active = .ok frame) :
    state.frame? state.nesting.active = some frame := by
  unfold active at h
  split at h
  · rename_i hactive
    cases h
    rw [hactive]
    rfl
  · rename_i hactive
    split at h
    · rename_i htag
      cases h
      rw [hactive, frame?, htag]
      rfl
    · cases h
  · rename_i hactive
    split at h
    · rename_i hscript
      cases h
      rw [hactive, frame?, hscript]
      rfl
    · cases h

theorem active_of_frame? {state : State} {frame : Frame}
    (h : state.frame? state.nesting.active = some frame) : state.active = .ok frame := by
  unfold active
  cases hactive : state.nesting.active with
  | host =>
      rw [hactive] at h
      exact congrArg Except.ok (Option.some.inj h)
  | tag =>
      rw [hactive, frame?] at h
      cases htag : state.tag with
      | none => simp [htag] at h
      | some scan =>
          rw [htag] at h
          exact congrArg Except.ok (Option.some.inj h)
  | script =>
      rw [hactive, frame?] at h
      cases hscript : state.script with
      | none => simp [hscript] at h
      | some scan =>
          rw [hscript] at h
          exact congrArg Except.ok (Option.some.inj h)

theorem frame?_put (state : State) (frame : Frame) (language : Language) :
    (state.put frame).frame? language =
      if language = frame.language then some frame else state.frame? language := by
  cases frame <;> cases language <;> rfl

@[simp] theorem frame?_fresh (state : State) (language : Language) :
    state.fresh.frame? language = state.frame? language := by
  cases language <;> rfl

@[simp] theorem nesting_put (state : State) (frame : Frame) :
    (state.put frame).nesting = state.nesting := by
  cases frame <;> rfl

/-- Putting the active frame back changes nothing. -/
theorem put_active {state : State} {frame : Frame} (h : state.active = .ok frame) :
    state.put frame = state := by
  have hframe := frame?_of_active h
  cases hactive : state.nesting.active with
  | host =>
      rw [hactive] at hframe
      cases hframe
      rfl
  | tag =>
      rw [hactive, frame?] at hframe
      obtain ⟨scan, htag, rfl⟩ := Option.map_eq_some_iff.mp hframe
      simp only [put, ← htag]
  | script =>
      rw [hactive, frame?] at hframe
      obtain ⟨scan, hscript, rfl⟩ := Option.map_eq_some_iff.mp hframe
      simp only [put, ← hscript]

/-- Of two frames of one language that are put into a state, the last counts. -/
theorem put_put (state : State) {frame next : Frame} (h : next.language = frame.language) :
    (state.put frame).put next = state.put next := by
  cases frame <;> cases next <;> first | rfl | cases h

theorem put_fresh (state : State) (frame : Frame) :
    (state.fresh.put frame).fresh = (state.put frame).fresh := by
  cases frame <;> rfl

/-- Where nothing is pending, no probe is stored and nothing was searched. -/
theorem searched_of_fresh {state : State} (h : state.fresh = state) :
    state.lookahead = none ∧ state.prescan = 0 ∧ state.probed = 0 := by
  rw [← h]
  exact ⟨rfl, rfl, rfl⟩

/-! ## Ready states -/

/-- A token of `text` may be read from the state, and nothing of it was read. -/
structure Ready (text : Bytes) (state : State) : Prop where
  /-- Exactly the live languages have a frame. -/
  live : ∀ language, (state.frame? language).isSome = state.nesting.isLive language
  /-- Nothing of the token was searched. -/
  fresh : state.fresh = state
  /-- The active language may read the token. -/
  active : ∀ frame, state.frame? state.nesting.active = some frame →
    frame.Ready text ∧ frame.Open
  /-- The other live languages may go on with any text. -/
  waiting : ∀ language frame, language ≠ state.nesting.active →
    state.frame? language = some frame → (∀ text, frame.Ready text) ∧ frame.Open

/-- The active language of such a state may read the token. -/
theorem Ready.of_active {text : Bytes} {state : State} {frame : Frame} (h : state.Ready text)
    (hactive : state.active = .ok frame) : frame.Ready text ∧ frame.Open :=
  h.active frame (frame?_of_active hactive)

theorem exists_active_of_ready {text : Bytes} {state : State} (h : state.Ready text) :
    ∃ frame, state.active = .ok frame ∧ frame.Ready text ∧ frame.Open ∧
      frame.language = state.nesting.active := by
  have hlive : (state.frame? state.nesting.active).isSome = true := by
    rw [h.live, Nesting.isLive_active]
  obtain ⟨frame, hframe⟩ := Option.isSome_iff_exists.mp hlive
  have hactive := active_of_frame? hframe
  exact ⟨frame, hactive, (h.active frame hframe).1, (h.active frame hframe).2,
    language_active hactive⟩

/-- A text whose first byte is that of another may be read like the other. -/
theorem Ready.of_head {text other : Bytes} {state : State} (h : state.Ready text)
    (hhead : ∀ b, other.head? = some b → text.head? = some b) : state.Ready other where
  live := h.live
  fresh := h.fresh
  active frame hframe :=
    ⟨(h.active frame hframe).1.of_head hhead, (h.active frame hframe).2⟩
  waiting := h.waiting

theorem ready_initial (text : Bytes) : initial.Ready text := by
  refine ⟨?_, rfl, ?_, ?_⟩
  · intro language
    cases language <;> rfl
  · intro frame hframe
    cases hframe
    exact ⟨⟨rfl, Scan.ready_of_isBoundary (Boundaries.initial (σ := Markup.State)) text⟩,
      trivial⟩
  · intro language frame hne hframe
    cases language with
    | host => exact absurd rfl hne
    | tag => cases hframe
    | script => cases hframe

/-- After a token of the active language another token may be read. -/
theorem ready_put {text rest : Bytes} {state : State} {frame : Frame}
    (h : state.Ready text) (hlanguage : frame.language = state.nesting.active)
    (hframe : frame.Ready rest) (hopen : frame.Open) :
    (state.put frame).fresh.Ready rest := by
  have hnesting : (state.put frame).fresh.nesting = state.nesting := nesting_put state frame
  refine ⟨?_, rfl, ?_, ?_⟩
  · intro language
    rw [hnesting, frame?_fresh, frame?_put]
    split
    · rename_i heq
      rw [heq, hlanguage, Nesting.isLive_active]
      rfl
    · exact h.live language
  · intro found hfound
    rw [hnesting, frame?_fresh, frame?_put, if_pos hlanguage.symm] at hfound
    cases hfound
    exact ⟨hframe, hopen⟩
  · intro language found hne hfound
    rw [hnesting] at hne
    rw [frame?_fresh, frame?_put, if_neg (fun heq => hne (heq.trans hlanguage))] at hfound
    exact h.waiting language found hne hfound

/-- After the active language was closed, the one around it may go on. -/
theorem ready_leave {text : Bytes} {state after : State} {outer : Nesting}
    (h : state.Ready text) (hleave : state.nesting.leave = .ok outer)
    (hfresh : after.fresh = after) (hnesting : after.nesting = outer)
    (hclosed : after.frame? state.nesting.active = none)
    (hothers : ∀ language, language ≠ state.nesting.active →
      after.frame? language = state.frame? language) (rest : Bytes) : after.Ready rest := by
  have houter := Nesting.active_leave_ne hleave
  refine ⟨?_, hfresh, ?_, ?_⟩
  · intro language
    rw [hnesting, Nesting.isLive_leave hleave]
    by_cases heq : language = state.nesting.active
    · rw [heq, hclosed]
      simp
    · rw [hothers language heq, h.live]
      simp [heq]
  · intro frame hframe
    rw [hnesting, hothers _ houter] at hframe
    obtain ⟨hready, hopen⟩ := h.waiting outer.active frame houter hframe
    exact ⟨hready rest, hopen⟩
  · intro language frame _ hframe
    by_cases heq : language = state.nesting.active
    · rw [heq, hclosed] at hframe
      cases hframe
    · rw [hothers language heq] at hframe
      exact h.waiting language frame heq hframe

/-- After a language was opened at a byte other than a newline, it may begin. -/
theorem ready_enter {text : Bytes} {state after : State} {language : Language}
    {inner : Nesting} {byte : UInt8} (h : state.Ready text)
    (henter : state.nesting.enter language = .ok inner)
    (hhead : text.head? = some byte) (hne : byte ≠ Byte.newline)
    (hfresh : after.fresh = after) (hnesting : after.nesting = inner) {frame : Frame}
    (hopened : after.frame? language = some frame) (hframe : ∀ text, frame.Ready text)
    (hopen : frame.Open)
    (hothers : ∀ other, other ≠ language → after.frame? other = state.frame? other)
    (rest : Bytes) : after.Ready rest := by
  have hactive : inner.active = language := Nesting.active_enter henter
  refine ⟨?_, hfresh, ?_, ?_⟩
  · intro other
    rw [hnesting, Nesting.isLive_enter henter]
    by_cases heq : other = language
    · rw [heq, hopened]
      simp
    · rw [hothers other heq, h.live]
      simp [heq]
  · intro found hfound
    rw [hnesting, hactive, hopened] at hfound
    cases hfound
    exact ⟨hframe rest, hopen⟩
  · intro other found hother hfound
    rw [hnesting, hactive] at hother
    rw [hothers other hother] at hfound
    by_cases heq : other = state.nesting.active
    · subst heq
      obtain ⟨hready, hopen⟩ := h.active found hfound
      exact ⟨fun text => Frame.ready_of_head hready hhead hne, hopen⟩
    · exact h.waiting other found heq hfound

end State

/-! ## Ending a token -/

open State

/-- A token of the active language is completed. -/
theorem ready_commit {text rest : Bytes} {state : State} {frame : Frame} (found : Token)
    (h : state.Ready text) (hlanguage : frame.language = state.nesting.active)
    (hframe : frame.Ready rest) :
    ∃ next, commit state found frame =
        .ok (.token ⟨globalId frame.language found.id, found.len⟩ next) ∧ next.Ready rest := by
  by_cases hopen : frame.Open
  · refine ⟨(state.put frame).fresh, ?_, ready_put h hlanguage hframe hopen⟩
    cases frame with
    | tag scan =>
        rcases scan with ⟨scanState, read⟩
        cases scanState <;> first | rfl | exact absurd rfl hopen
    | host scan => rfl
    | script scan => rfl
  · cases frame with
    | tag scan =>
        rcases scan with ⟨scanState, read⟩
        have hend : scanState = .fragmentEnd := Decidable.of_not_not hopen
        subst hend
        have hnesting := Nesting.eq_hostTag_of_active hlanguage.symm
        have hleave : state.nesting.leave = .ok .host := by rw [hnesting]; rfl
        refine ⟨{ (state.put (.tag ⟨.fragmentEnd, read⟩)).fresh with
          nesting := .host, tag := none }, ?_, ?_⟩
        · simp only [commit, hleave]
          rfl
        · refine ready_leave h hleave rfl rfl ?_ ?_ rest
          · rw [← hlanguage]
            rfl
          · intro language hne
            rw [← hlanguage] at hne
            cases language with
            | tag => exact absurd rfl hne
            | host => rfl
            | script => rfl
    | host scan => exact absurd trivial hopen
    | script scan => exact absurd trivial hopen

/-- An attempt to read a token of `text` has come to something within `room` bytes. -/
def Attempt.Advances (text : Bytes) (room : Nat) : Attempt → Prop
  | .step (.token token next) =>
      0 < token.len ∧ token.len ≤ room ∧ next.Ready (text.drop token.len)
  | .step (.hold _) => False
  | .opened inner => 0 < room ∧ inner.Ready text

/-- A delimiter at the start of a token changes the language. -/
theorem advances_change {text : Bytes} {room : Nat} {state : State} {switch : Switch}
    {byte : UInt8} (h : state.Ready text) (hhead : text.head? = some byte)
    (hne : byte ≠ Byte.newline) (hroom : 0 < room)
    (hsuits : switch.Suits state.nesting.active room) :
    ∃ outcome, change state switch = .ok outcome ∧ outcome.Advances text room := by
  have hfresh := h.fresh
  cases switch with
  | enterTag =>
      have henter : state.nesting.enter .tag = .ok .hostTag := by
        rw [Nesting.eq_host_of_active hsuits]
        rfl
      refine ⟨_, by simp only [change, henter]; rfl, ?_⟩
      refine ⟨hroom, ?_⟩
      refine ready_enter h henter hhead hne rfl rfl rfl Frame.ready_tag_initial
        Frame.open_tag_initial ?_ text
      intro other hother
      cases other with
      | tag => exact absurd rfl hother
      | host => rfl
      | script => rfl
  | enterScript len =>
      obtain ⟨hlanguage, hpos, hlen⟩ := hsuits
      obtain ⟨inner, henter⟩ := Nesting.exists_enter_script hlanguage
      refine ⟨_, by simp only [change, henter]; rfl, ?_⟩
      refine ⟨hpos, hlen, ?_⟩
      refine ready_enter h henter hhead hne rfl rfl rfl Frame.ready_script_initial
        trivial ?_ _
      intro other hother
      cases other with
      | script => exact absurd rfl hother
      | host => rfl
      | tag => rfl
  | leaveScript len =>
      obtain ⟨hlanguage, hpos, hlen⟩ := hsuits
      obtain ⟨outer, hleave⟩ := @Nesting.exists_leave state.nesting (by rw [hlanguage]; decide)
      refine ⟨_, by simp only [change, hleave]; rfl, ?_⟩
      refine ⟨hpos, hlen, ?_⟩
      refine ready_leave h hleave rfl rfl ?_ ?_ _
      · rw [hlanguage]
        rfl
      · intro other hother
        rw [hlanguage] at hother
        cases other with
        | script => exact absurd rfl hother
        | host => rfl
        | tag => rfl

end PageLexing.Page
