import PageLexing.Page.Dialect
import PageLexing.Proofs.Frames
import PageLexing.Proofs.Searching

/-!
# Tag comments

A tag comment is not searched for delimiters. In a window that ends after the first bytes
of its opening `<%--` it cannot be told from another token yet, and then these bytes are
searched all the same. No harm is done: none of them starts a delimiter of a tag.

## Main results

* `Tag.isPrefix_of_endsInComment` — what a comment still needs of its opening comes next.
* `Page.isTagComment_of_token`, `Page.isTagComment_of_hold` — what is told from a window
  about the token being a comment.
-/

namespace PageLexing

namespace Tag

open Automaton Byte

/-! ## The opening of a comment -/

/-- The bytes of the opening of a comment that have to follow in a state. -/
def commentOpening? : State → Option Bytes
  | .outside | .fragmentEnd => some [less, percent, dash, dash]
  | .afterLess => some [percent, dash, dash]
  | .afterPercent => some [dash, dash]
  | .afterPercentDash => some [dash]
  | .comment | .commentDash | .commentDashes | .commentPercent => some []
  | _ => none

theorem inProgress_eq_comment_iff (s : State) :
    inProgress s = .comment ↔ commentOpening? s = some [] := by
  cases s <;> simp [inProgress, commentOpening?]

theorem atEndOfInput_eq_comment_iff (s : State) :
    atEndOfInput s = .comment ↔ commentOpening? s = some [] := by
  cases s <;> simp [atEndOfInput, commentOpening?]

/-- A byte leads towards a comment only if the opening needs it. -/
theorem commentOpening?_of_transition {s : State} {b : UInt8} {opening : Bytes}
    (h : (transition s b).2 = .continue)
    (ht : commentOpening? (transition s b).1 = some opening) :
    commentOpening? s = some [] ∨ commentOpening? s = some (b :: opening) := by
  revert h ht
  fun_cases transition s b <;>
    simp only [beforeFragment, awaitAttribute, awaitGreater, skipError] <;>
    (try (repeat' split)) <;>
    simp +contextual [commentOpening?, *]

/-- A comment goes on until its closing symbol. -/
theorem transition_of_comment {s : State} (b : UInt8) (hs : commentOpening? s = some []) :
    ((transition s b).2 = .continue ∧ commentOpening? (transition s b).1 = some []) ∨
      (transition s b).2 = .emit .comment := by
  revert hs
  fun_cases transition s b <;> simp [commentOpening?]

/-- Only what is a comment already is ended as one. -/
theorem commentOpening?_of_emit {s : State} {b : UInt8}
    (h : (transition s b).2 = .emit .comment ∨ (transition s b).2 = .emitBefore .comment) :
    commentOpening? s = some [] := by
  revert h
  fun_cases transition s b <;>
    simp only [beforeFragment, awaitAttribute, awaitGreater, skipError] <;>
    (try (repeat' split)) <;>
    simp [commentOpening?]

/-- No comment is begun or ended by a byte that was passed on. -/
theorem commentOpening?_of_reprocess {s t : State} {b : UInt8}
    (h : transition s b = (t, .reprocess)) : commentOpening? t = none := by
  obtain ⟨q, -, rfl⟩ := eq_of_transition_reprocess h
  rfl

/-! ## Runs through comments -/

/-- A byte of a comment joins it or closes it. -/
theorem consume_of_comment {s t : State} {b : UInt8} {effect : Effect Kind}
    (h : consume s b = (t, effect)) (hs : commentOpening? s = some []) :
    (effect = .grow ∧ commentOpening? t = some []) ∨ effect = .close .comment := by
  obtain ⟨r, hr, hrs⟩ := Boundaries.exists_transition_of_consume h
  have hrs : r = s := by
    rcases hrs with hrs | hpass
    · exact hrs
    · have := transition_of_comment b hs
      rw [show transition s b = (r, .reprocess) from hpass] at this
      simp at this
  subst hrs
  have hcomment := transition_of_comment b hs
  rw [show transition r b = (t, effect.toAction) from hr] at hcomment
  cases effect with
  | grow => simpa [Effect.toAction] using hcomment
  | close kind => simpa [Effect.toAction] using hcomment
  | closeBefore kind => simp [Effect.toAction] at hcomment

/-- A byte leads towards a comment only if the opening needs it. -/
theorem commentOpening?_of_consume {s t : State} {b : UInt8} {opening : Bytes}
    (h : consume s b = (t, .grow)) (ht : commentOpening? t = some opening) :
    commentOpening? s = some [] ∨ commentOpening? s = some (b :: opening) := by
  obtain ⟨r, hr, hrs⟩ := Boundaries.exists_transition_of_consume h
  have hback := @commentOpening?_of_transition r b opening
  rw [show transition r b = (t, .continue) from hr] at hback
  rcases hrs with rfl | hpass
  · exact hback rfl ht
  · rw [commentOpening?_of_reprocess hpass] at hback
    simpa using hback rfl ht

/-- Only what is a comment already is ended as one. -/
theorem commentOpening?_of_consume_comment {s t : State} {b : UInt8} {effect : Effect Kind}
    (h : consume s b = (t, effect))
    (hkind : effect = .close .comment ∨ effect = .closeBefore .comment) :
    commentOpening? s = some [] := by
  obtain ⟨r, hr, hrs⟩ := Boundaries.exists_transition_of_consume h
  have hcomment : commentOpening? r = some [] := by
    refine commentOpening?_of_emit (b := b) ?_
    rw [show transition r b = (t, effect.toAction) from hr]
    rcases hkind with rfl | rfl
    · exact Or.inl rfl
    · exact Or.inr rfl
  rcases hrs with rfl | hpass
  · exact hcomment
  · rw [commentOpening?_of_reprocess hpass] at hcomment
    cases hcomment

/-- A run comes to its end in a comment. -/
def EndsInComment : Scan State × Scan.Ending Kind → Prop
  | (_, .kind kind) => kind = .comment
  | (scan, _) => commentOpening? scan.state = some []

/-- A run that starts in a comment comes to its end in it. -/
theorem endsInComment_of_comment {s : State} (hs : commentOpening? s = some [])
    (n room : Nat) (ahead : Bytes) : EndsInComment (Scan.run s n room ahead) := by
  induction room generalizing s n ahead with
  | zero => exact hs
  | succ room ih =>
      cases ahead with
      | nil => exact hs
      | cons b ahead =>
          simp only [Scan.run]
          split
          · exact hs
          · rcases hc : consume s b with ⟨t, effect⟩
            rcases consume_of_comment hc hs with ⟨rfl, ht⟩ | rfl
            · exact ih ht (n + 1) ahead
            · exact rfl

/-- What a comment still needs of its opening comes next. -/
theorem isPrefix_of_endsInComment {s : State} {n room : Nat} {ahead : Bytes}
    (h : EndsInComment (Scan.run s n room ahead)) :
    ∃ opening, commentOpening? s = some opening ∧ opening <+: ahead := by
  induction room generalizing s n ahead with
  | zero => exact ⟨[], h, List.nil_prefix⟩
  | succ room ih =>
      cases ahead with
      | nil => exact ⟨[], h, List.nil_prefix⟩
      | cons b ahead =>
          simp only [Scan.run] at h
          split at h
          · exact ⟨[], h, List.nil_prefix⟩
          · rcases hc : consume s b with ⟨t, effect⟩
            rw [hc] at h
            cases effect with
            | grow =>
                obtain ⟨opening, ht, hbegins⟩ := ih h
                rcases commentOpening?_of_consume hc ht with hs | hs
                · exact ⟨[], hs, List.nil_prefix⟩
                · exact ⟨b :: opening, hs, List.cons_prefix_cons.mpr ⟨rfl, hbegins⟩⟩
            | close kind =>
                exact ⟨[], commentOpening?_of_consume_comment hc (Or.inl (congrArg _ h)),
                  List.nil_prefix⟩
            | closeBefore kind =>
                exact ⟨[], commentOpening?_of_consume_comment hc (Or.inr (congrArg _ h)),
                  List.nil_prefix⟩

/-- Where a token may start, a comment goes on or all of its opening is to come. -/
theorem commentOpening?_of_isBoundary {s : State} {opening : Bytes}
    (hs : isBoundary s = true) (h : commentOpening? s = some opening) :
    opening = [] ∨ opening = [less, percent, dash, dash] ∧ (s = .outside ∨ s = .fragmentEnd) := by
  cases s <;> first
    | (cases hs; done)
    | (cases h; done)
    | (cases h
       exact Or.inl rfl)
    | (cases h
       exact Or.inr ⟨rfl, by decide⟩)

/-- After its opening a comment has begun. -/
theorem endsInComment_of_opening {s : State} (hs : s = .outside ∨ s = .fragmentEnd)
    {room : Nat} {text : Bytes} (hroom : 4 ≤ room)
    (hbegins : [less, percent, dash, dash] <+: text) :
    EndsInComment (Scan.run s 0 room text) := by
  obtain ⟨rest, rfl⟩ := hbegins
  obtain ⟨more, rfl⟩ : ∃ more, room = more + 4 := ⟨room - 4, by omega⟩
  have hrun : Scan.run s 0 (more + 4) ([less, percent, dash, dash] ++ rest) =
      Scan.run .comment 4 more rest := by
    rcases hs with rfl | rfl <;> rfl
  rw [hrun]
  exact endsInComment_of_comment rfl 4 more rest

/-! ## Comments as tokens -/

/-- A token that is a comment is read by a run that ends in one. -/
theorem endsInComment_of_step {text : Bytes} {s : State} {after : Scan State}
    {found : Token}
    (h : Scan.step (View.whole text) (Scan.atBoundary s) = .ok (.token found after))
    (hid : found.id = Kind.comment.id) :
    EndsInComment (Scan.run s 0 text.length text) := by
  obtain ⟨next, ending, hrun, hline | ⟨kind, hfinish, hkind⟩⟩ := Scan.token_cases h
  · obtain ⟨-, -, rfl, -⟩ := hline
    cases hid
  · rw [show Scan.run s 0 text.length text = (next, ending) from hrun]
    obtain ⟨word, rfl, -⟩ := Scan.token_of_finish hfinish
    have hcomment : kind = .comment := Kind.id_injective hid
    rcases hkind with rfl | ⟨rfl, hend⟩ | ⟨rfl, hend⟩
    · exact hcomment
    · exact (inProgress_eq_comment_iff next.state).mp (hend.symm.trans hcomment)
    · exact (atEndOfInput_eq_comment_iff next.state).mp (hend.symm.trans hcomment)

/-- A run that ends in a comment reads a token that is one. -/
theorem step_of_endsInComment {text : Bytes} {s : State}
    (h : EndsInComment (Scan.run s 0 text.length text))
    (hpos : 0 < (Scan.run s 0 text.length text).1.read) :
    ∃ found after, Scan.step (View.whole text) (Scan.atBoundary s) =
      .ok (.token found after) ∧ found.id = Kind.comment.id := by
  rcases hrun : Scan.run s 0 text.length text with ⟨scan, ending⟩
  have hle := (Scan.read_run_bounds s 0 text.length text).2
  rw [hrun] at h hpos hle
  simp only [Nat.min_self, Nat.zero_add] at hle
  have hfinish : ∀ kind, kind = .comment → ∃ found after,
      Scan.finish (View.whole text) scan kind = .ok (.token found after) ∧
        found.id = Kind.comment.id := by
    rintro kind rfl
    exact ⟨_, _, Scan.finish_eq_token (View.whole text) Kind.comment hpos hle, rfl⟩
  cases ending with
  | window =>
      rw [Scan.step_of_window (View.whole text) hrun, if_pos ⟨rfl, hpos⟩]
      exact hfinish _ ((atEndOfInput_eq_comment_iff scan.state).mpr h)
  | line =>
      rw [Scan.step_of_line (View.whole text) hrun, if_pos hpos]
      exact hfinish _ ((inProgress_eq_comment_iff scan.state).mpr h)
  | kind kind =>
      rw [Scan.step_of_kind (View.whole text) hrun]
      exact hfinish kind h

/-- What looks like a comment in a window is one. -/
theorem step_of_reads_comment {text : Bytes} {s : State} {scan : Scan State}
    (h : Scan.Reads text s scan) (hpos : 0 < scan.read)
    (hcomment : commentOpening? scan.state = some []) :
    ∃ found after, Scan.step (View.whole text) (Scan.atBoundary s) =
      .ok (.token found after) ∧ found.id = Kind.comment.id := by
  have hwhole := Scan.run_of_reads h h.le
  refine step_of_endsInComment ?_ ?_
  · rw [← hwhole]
    exact endsInComment_of_comment hcomment _ _ _
  · have hbounds := (Scan.read_run_bounds scan.state scan.read (text.length - scan.read)
      (text.drop scan.read)).1
    rw [hwhole] at hbounds
    omega

/-- What does not look like a comment, but is one, is the first part of the opening. -/
theorem opening_of_reads {text : Bytes} {s : State} {scan : Scan State}
    (hready : Scan.Ready text s) (h : Scan.Reads text s scan) (hpos : 0 < scan.read)
    (hopen : commentOpening? scan.state ≠ some [])
    (hcomment : EndsInComment (Scan.run s 0 text.length text)) :
    scan.read ≤ 3 ∧ [less, percent, dash, dash] <+: text := by
  obtain ⟨opening, hs, hbegins⟩ := isPrefix_of_endsInComment hcomment
  have hboundary : isBoundary s = true := by
    have hle := h.le
    have hline := Scan.newline_notMem_of_reads h
    cases text with
    | nil =>
        simp only [List.length_nil, Nat.le_zero] at hle
        omega
    | cons b rest =>
        refine hready b rfl ?_
        rintro rfl
        obtain ⟨n, hn⟩ : ∃ n, scan.read = n + 1 := ⟨scan.read - 1, by omega⟩
        rw [hn, List.take_succ_cons] at hline
        exact hline (List.mem_cons_self ..)
  have hrun : ¬ EndsInComment (Scan.run s 0 scan.read text) := by
    rw [h.run]
    exact hopen
  rcases commentOpening?_of_isBoundary hboundary hs with rfl | ⟨rfl, houtside⟩
  · exact absurd (endsInComment_of_comment hs 0 scan.read text) hrun
  · refine ⟨?_, hbegins⟩
    by_cases hroom : 4 ≤ scan.read
    · exact absurd (endsInComment_of_opening houtside hroom hbegins) hrun
    · omega

end Tag

/-! ## Telling comments from other tokens -/

namespace Page

open Byte

/-- The token of `text` that the frame reads is a tag comment. -/
def Frame.Comments (text : Bytes) (start : Frame) : Prop :=
  ∃ found after, start.step (View.whole text) = .ok (.token found (.tag after)) ∧
    found.id = Tag.Kind.comment.id

/-- No delimiter of a tag starts with the first bytes of a comment. -/
theorem free_of_commentOpening {delimiters : Delimiters} {text : Bytes} {room : Nat}
    (hroom : room ≤ 3) (hbegins : [less, percent, dash, dash] <+: text) :
    Free delimiters .tag text 0 room := by
  obtain ⟨rest, rfl⟩ := hbegins
  intro offset _ hlt
  match offset, hlt with
  | 0, _ => rfl
  | 1, _ => rfl
  | 2, _ => rfl
  | offset + 3, hlt => omega

/-- The token that a frame reads is the comment, if it reads one. -/
theorem after_of_comments {text : Bytes} {start after : Frame} {found : Token}
    (hstep : start.step (View.whole text) = .ok (.token found after))
    (h : start.Comments text) :
    ∃ scan, after = .tag scan ∧ found.id = Tag.Kind.comment.id := by
  obtain ⟨token, next, hcomment, hid⟩ := h
  rw [hstep] at hcomment
  cases hcomment
  exact ⟨next, rfl, hid⟩

/-- A completed token tells whether it is a comment. -/
theorem isTagComment_of_token {text : Bytes} {start after : Frame} {found : Token}
    (view : View) (h : start.step (View.whole text) = .ok (.token found after)) :
    ∃ seen, isTagComment view (.token found after) = .ok seen ∧
      (seen = true ↔ start.Comments text) := by
  cases after with
  | tag scan =>
      refine ⟨_, rfl, ?_⟩
      rw [beq_iff_eq]
      constructor
      · intro hid
        exact ⟨found, scan, h, hid⟩
      · intro hcomments
        obtain ⟨-, -, hid⟩ := after_of_comments h hcomments
        exact hid
  | host scan =>
      refine ⟨false, rfl, nofun, fun hcomments => ?_⟩
      obtain ⟨tag, htag, -⟩ := after_of_comments h hcomments
      cases htag
  | script scan =>
      refine ⟨false, rfl, nofun, fun hcomments => ?_⟩
      obtain ⟨tag, htag, -⟩ := after_of_comments h hcomments
      cases htag

theorem tag_of_comments {text : Bytes} {start : Frame} (h : start.Comments text) :
    ∃ scan, start = .tag scan := by
  obtain ⟨found, after, hstep, -⟩ := h
  cases start with
  | tag scan => exact ⟨scan, rfl⟩
  | host scan =>
      obtain ⟨next, -, hnext⟩ := Step.exists_of_map hstep
      cases hnext
  | script scan =>
      obtain ⟨next, -, hnext⟩ := Step.exists_of_map hstep
      cases hnext

/-- The run over a comment ends in it. -/
theorem endsInComment_of_comments {text : Bytes} {start : Scan Tag.State}
    (hzero : start.read = 0) (h : (Frame.tag start).Comments text) :
    Tag.EndsInComment (Scan.run start.state 0 text.length text) := by
  obtain ⟨found, after, hstep, hid⟩ := h
  have hscan : Scan.step (View.whole text) (Scan.atBoundary start.state) =
      .ok (.token found after) := by
    rw [Scan.atBoundary_state hzero]
    obtain ⟨next, hscan, hnext⟩ := Step.exists_of_map hstep
    cases hnext
    exact hscan
  exact Tag.endsInComment_of_step hscan hid

/-- What looks like a comment so far is one. -/
theorem comments_of_inProgress {text : Bytes} {start scan : Scan Tag.State}
    (hzero : start.read = 0) (hreads : Scan.Reads text start.state scan) (hpos : 0 < scan.read)
    (hseen : Tag.inProgress scan.state = .comment) : (Frame.tag start).Comments text := by
  obtain ⟨found, after, hfound, hid⟩ := Tag.step_of_reads_comment hreads hpos
    ((Tag.inProgress_eq_comment_iff scan.state).mp hseen)
  refine ⟨found, after, ?_, hid⟩
  show (Scan.step (View.whole text) start).map (Step.map Frame.tag) = _
  rw [← Scan.atBoundary_state hzero, hfound]
  rfl

/-- A comment that does not look like one yet has no delimiter so far. -/
theorem free_of_not_inProgress (delimiters : Delimiters) {text : Bytes}
    {start scan : Scan Tag.State} (hzero : start.read = 0)
    (hstart : Scan.Ready text start.state)
    (hreads : Scan.Reads text start.state scan) (hpos : 0 < scan.read)
    (hseen : Tag.inProgress scan.state ≠ .comment) (h : (Frame.tag start).Comments text) :
    Free delimiters .tag text 0 scan.read := by
  have hopen : Tag.commentOpening? scan.state ≠ some [] := fun hcomment =>
    hseen ((Tag.inProgress_eq_comment_iff scan.state).mpr hcomment)
  obtain ⟨hroom, hbegins⟩ := Tag.opening_of_reads hstart hreads hpos hopen
    (endsInComment_of_comments hzero h)
  exact free_of_commentOpening hroom hbegins

/-- What is told from a window about a tag token that the window does not complete. -/
theorem isTagComment_hold_tag (text : Bytes) (last : Bool) (scan : Scan Tag.State)
    (hle : scan.read ≤ text.length) :
    isTagComment ⟨text, scan.read, last⟩ (.hold (.tag scan)) =
      .ok (decide (0 < scan.read) && Tag.inProgress scan.state == .comment) := by
  show (do
    let kind ← Scan.pendingKind ⟨text, scan.read, last⟩ scan
    .ok (kind == some Tag.Kind.comment)) = Except.ok _
  by_cases hpos : 0 < scan.read
  · rw [Scan.pendingKind_of_le ⟨text, scan.read, last⟩ hpos hle, decide_eq_true hpos,
      Bool.true_and]
    rfl
  · rw [Scan.pendingKind, if_pos (by omega), decide_eq_false hpos]
    rfl

/-- In a window that ends inside the token, what looks like a comment is one, and what does
not has no delimiter in the window if it turns out to be one. -/
theorem isTagComment_of_hold (delimiters : Delimiters) {text : Bytes} {start held : Frame}
    {room : Nat} (last : Bool) (hready : start.Ready text)
    (hreads : Frame.Reads text start held) (hread : held.read = room) :
    ∃ seen, isTagComment ⟨text, room, last⟩ (.hold held) = .ok seen ∧
      (seen = true → start.Comments text) ∧
      (seen = false → start.Comments text →
        Free delimiters start.language text 0 room) := by
  cases held with
  | host scan =>
      refine ⟨false, rfl, nofun, fun _ hcomments => ?_⟩
      obtain ⟨start, rfl⟩ := tag_of_comments hcomments
      exact hreads.elim
  | script scan =>
      refine ⟨false, rfl, nofun, fun _ hcomments => ?_⟩
      obtain ⟨start, rfl⟩ := tag_of_comments hcomments
      exact hreads.elim
  | tag scan =>
      cases start with
      | host start => exact hreads.elim
      | script start => exact hreads.elim
      | tag start =>
          subst hread
          obtain ⟨hzero, hstart⟩ := hready
          have hreads : Scan.Reads text start.state scan := hreads
          refine ⟨_, isTagComment_hold_tag text last scan hreads.le, ?_, ?_⟩
          · intro hseen
            obtain ⟨hpos, hcomment⟩ := Bool.and_eq_true_iff.mp hseen
            exact comments_of_inProgress hzero hreads (of_decide_eq_true hpos)
              (beq_iff_eq.mp hcomment)
          · intro hseen hcomments
            show Free delimiters .tag text 0 scan.read
            by_cases hpos : 0 < scan.read
            · refine free_of_not_inProgress delimiters hzero hstart hreads hpos ?_ hcomments
              intro hcomment
              simp [hpos, hcomment] at hseen
            · rw [Nat.eq_zero_of_not_pos hpos]
              exact free_self _ text 0

end Page

end PageLexing
