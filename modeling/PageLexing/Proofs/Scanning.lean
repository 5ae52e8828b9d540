import PageLexing.Proofs.Boundary
import PageLexing.Scan

/-!
# Scanning in windows

A token is scanned from a boundary state over the bytes ahead. What a window that ends
inside the token leaves behind is the state after the bytes that it held; scanning on
from there over a larger window is the same as scanning the larger window at once, and a
token that was found in a window is found in every larger one.

## Main results

* `step_of_reads` — an interrupted scan goes on as if it had not been interrupted.
* `step_atBoundary` — a window either ends inside the token, or it completes the token
  that the whole text would give as well.
* `token_cases`, `run_of_hold` — what a step comes to.
* `ended_of_step`, `ended_of_ready` — how a token comes to its end, with an invariant of the bytes
  read before.
-/

namespace PageLexing

/-- The view of a text that one window holds. -/
abbrev View.whole (text : Bytes) : View := ⟨text, text.length, true⟩

namespace Scan

open Automaton

variable {σ κ : Type} [Automaton σ κ]

/-! ## How far a run comes -/

/-- A run never goes back, and reads no more than the window and the text hold. -/
theorem read_run_bounds (s : σ) (n room : Nat) (ahead : Bytes) :
    n ≤ (run s n room ahead).1.read ∧
      (run s n room ahead).1.read ≤ n + min room ahead.length := by
  induction room generalizing s n ahead with
  | zero => simp [run]
  | succ room ih =>
      cases ahead with
      | nil => simp [run]
      | cons b ahead =>
          simp only [run, List.length_cons]
          split
          · exact ⟨Nat.le_refl n, Nat.le_add_right n _⟩
          · split
            · rename_i next _
              have := ih next (n + 1) ahead
              omega
            · exact ⟨Nat.le_succ n, by show n + 1 ≤ _; omega⟩
            · exact ⟨Nat.le_refl n, Nat.le_add_right n _⟩

/-- A run that the window stopped has read all of the window. -/
theorem read_of_window {s : σ} {n room : Nat} {ahead : Bytes} {scan : Scan σ}
    (h : run s n room ahead = (scan, .window)) (hroom : room ≤ ahead.length) :
    scan.read = n + room := by
  induction room generalizing s n ahead with
  | zero =>
      simp only [run, Prod.mk.injEq] at h
      rw [← h.1, Nat.add_zero]
  | succ room ih =>
      cases ahead with
      | nil => simp at hroom
      | cons b ahead =>
          simp only [List.length_cons, Nat.add_le_add_iff_right] at hroom
          simp only [run] at h
          split at h
          · simp at h
          · split at h
            · have := ih h hroom
              omega
            · simp at h
            · simp at h

/-- What ended a token in a window ends it in every larger window. -/
theorem run_of_le {s : σ} {n room more : Nat} {ahead : Bytes} {scan : Scan σ}
    {ending : Ending κ} (h : run s n room ahead = (scan, ending)) (hend : ending ≠ .window)
    (hle : room ≤ more) : run s n more ahead = (scan, ending) := by
  induction room generalizing s n more ahead with
  | zero =>
      simp only [run, Prod.mk.injEq] at h
      exact absurd h.2.symm hend
  | succ room ih =>
      obtain ⟨rest, rfl⟩ : ∃ rest, more = rest + 1 := ⟨more - 1, by omega⟩
      cases ahead with
      | nil =>
          simp only [run, Prod.mk.injEq] at h
          exact absurd h.2.symm hend
      | cons b ahead =>
          simp only [run] at h ⊢
          by_cases hb : b = Byte.newline
          · rwa [if_pos hb] at h ⊢
          · rw [if_neg hb] at h ⊢
            rcases hc : consume s b with ⟨next, effect⟩
            rw [hc] at h
            cases effect with
            | grow => exact ih h (by omega)
            | close kind => exact h
            | closeBefore kind => exact h

/-- No byte that joins a token is a newline. -/
theorem newline_notMem_run (s : σ) (n room : Nat) (ahead : Bytes) :
    Byte.newline ∉ ahead.take ((run s n room ahead).1.read - n) := by
  induction room generalizing s n ahead with
  | zero => simp [run]
  | succ room ih =>
      cases ahead with
      | nil => simp
      | cons b ahead =>
          simp only [run]
          split
          · simp
          · rename_i hb
            split
            · rename_i next _
              have hge := (read_run_bounds next (n + 1) room ahead).1
              have hrest := ih next (n + 1) ahead
              rw [show (run next (n + 1) room ahead).1.read - n
                = (run next (n + 1) room ahead).1.read - (n + 1) + 1 by omega,
                List.take_succ_cons, List.mem_cons, not_or]
              exact ⟨fun heq => hb heq.symm, hrest⟩
            · show Byte.newline ∉ (b :: ahead).take (n + 1 - n)
              rw [Nat.add_sub_cancel_left]
              simpa using fun heq => hb heq.symm
            · simp

/-- Where a newline ended a token, the newline is the next byte. -/
theorem newline_of_line {s : σ} {n room : Nat} {ahead : Bytes} {scan : Scan σ}
    (h : run s n room ahead = (scan, .line)) :
    (ahead.drop (scan.read - n)).head? = some Byte.newline ∧ scan.read - n < room := by
  induction room generalizing s n ahead with
  | zero => simp [run] at h
  | succ room ih =>
      cases ahead with
      | nil => simp [run] at h
      | cons b ahead =>
          simp only [run] at h
          split at h
          · rename_i hb
            simp only [Prod.mk.injEq, and_true] at h
            simp [← h, hb]
          · split at h
            · rename_i next hc
              have hge := (read_run_bounds next (n + 1) room ahead).1
              rw [h] at hge
              obtain ⟨hhead, hlt⟩ := ih h
              rw [show scan.read - n = scan.read - (n + 1) + 1 by dsimp only at hge; omega]
              exact ⟨hhead, by omega⟩
            · simp at h
            · simp at h

/-! ### Invariants -/

section Invariants

variable {P : σ → Bytes → Prop} {s : σ} {n room : Nat} {ahead : Bytes} {scan : Scan σ}

/-- What every byte that joins a token preserves, of the state and of the bytes that were read,
holds while no byte has ended the token. -/
theorem run_preserves
    (hgrow : ∀ (s t : σ) (b : UInt8) (seen : Bytes), consume s b = (t, .grow) → P s seen →
      P t (seen ++ [b]))
    {ending : Ending κ} (seen : Bytes) (hs : P s seen) (h : run s n room ahead = (scan, ending))
    (hend : ∀ kind, ending ≠ .kind kind) : P scan.state (seen ++ ahead.take (scan.read - n)) := by
  induction room generalizing s n ahead seen with
  | zero =>
      cases h
      simpa using hs
  | succ room ih =>
      cases ahead with
      | nil =>
          cases h
          simpa using hs
      | cons b ahead =>
          simp only [run] at h
          split at h
          · cases h
            simpa using hs
          · split at h
            · rename_i next hc
              have hle := (read_run_bounds next (n + 1) room ahead).1
              rw [h] at hle
              have hrest := ih _ (hgrow s next b seen hc hs) h
              rwa [List.append_assoc, List.singleton_append, ← List.take_succ_cons,
                show scan.read - (n + 1) + 1 = scan.read - n by dsimp only at hle; omega] at hrest
            · cases h
              exact absurd rfl (hend _)
            · cases h
              exact absurd rfl (hend _)

/-- The same holds before the byte that ended the token: its last one, or the one behind it. -/
theorem run_preserves_kind
    (hgrow : ∀ (s t : σ) (b : UInt8) (seen : Bytes), consume s b = (t, .grow) → P s seen →
      P t (seen ++ [b]))
    {kind : κ} (seen : Bytes) (hs : P s seen) (h : run s n room ahead = (scan, .kind kind)) :
    ∃ t b before, P t before ∧
      (consume t b = (scan.state, .close kind) ∧
          seen ++ ahead.take (scan.read - n) = before ++ [b] ∨
        consume t b = (scan.state, .closeBefore kind) ∧
          seen ++ ahead.take (scan.read - n) = before ∧
          (ahead.drop (scan.read - n)).head? = some b) := by
  induction room generalizing s n ahead seen with
  | zero => cases h
  | succ room ih =>
      cases ahead with
      | nil => cases h
      | cons b ahead =>
          simp only [run] at h
          split at h
          · cases h
          · split at h
            · rename_i next hc
              have hle := (read_run_bounds next (n + 1) room ahead).1
              rw [h] at hle
              have hrest := ih _ (hgrow s next b seen hc hs) h
              rwa [List.append_assoc, List.singleton_append, ← List.take_succ_cons,
                ← List.drop_succ_cons,
                show scan.read - (n + 1) + 1 = scan.read - n by dsimp only at hle; omega] at hrest
            · rename_i hc
              cases h
              refine ⟨s, b, seen, hs, Or.inl ⟨hc, ?_⟩⟩
              rw [Nat.add_sub_cancel_left]
              rfl
            · rename_i hc
              cases h
              refine ⟨s, b, seen, hs, Or.inr ⟨hc, ?_, ?_⟩⟩
              · simp
              · simp

/-- What every byte that joins a token preserves of the state holds while no byte has ended the
token. -/
theorem run_induction {P : σ → Prop}
    (hgrow : ∀ (s t : σ) (b : UInt8), consume s b = (t, .grow) → P s → P t)
    {ending : Ending κ} (hs : P s) (h : run s n room ahead = (scan, ending))
    (hend : ∀ kind, ending ≠ .kind kind) : P scan.state :=
  run_preserves (P := fun s _ => P s) (fun s t b _ => hgrow s t b) [] hs h hend

/-- The same holds of the state in which the last byte ended the token. -/
theorem run_induction_kind {P : σ → Prop}
    (hgrow : ∀ (s t : σ) (b : UInt8), consume s b = (t, .grow) → P s → P t)
    {kind : κ} (hs : P s) (h : run s n room ahead = (scan, .kind kind)) :
    ∃ t b, P t ∧ (consume t b = (scan.state, .close kind) ∨
      consume t b = (scan.state, .closeBefore kind)) := by
  obtain ⟨t, b, _, ht, hends⟩ := run_preserves_kind (P := fun s _ => P s)
    (fun s t b _ => hgrow s t b) [] hs h
  exact ⟨t, b, ht, hends.imp And.left And.left⟩

end Invariants

/-! ## Interrupted scans -/

/-- The scan of a token that starts in `base` has read `scan.read` bytes of `text`, and none
of them ended the token. -/
structure Reads (text : Bytes) (base : σ) (scan : Scan σ) : Prop where
  run : run base 0 scan.read text = (scan, .window)
  le : scan.read ≤ text.length

theorem reads_atBoundary (text : Bytes) (base : σ) : Reads text base (atBoundary base) :=
  ⟨rfl, Nat.zero_le _⟩

/-- A scan that has read nothing starts a token. -/
theorem atBoundary_state {σ : Type} {scan : Scan σ} (h : scan.read = 0) :
    atBoundary scan.state = scan := by
  cases scan
  subst h
  rfl

/-- Nothing has happened to a scan that has read nothing. -/
theorem eq_atBoundary_of_reads {text : Bytes} {base : σ} {scan : Scan σ}
    (h : Reads text base scan) (hread : scan.read = 0) : scan = atBoundary base := by
  have hrun := h.run
  rw [hread] at hrun
  exact (congrArg Prod.fst hrun).symm

/-- What was read of a token has no newline. -/
theorem newline_notMem_of_reads {text : Bytes} {base : σ} {scan : Scan σ}
    (h : Reads text base scan) : Byte.newline ∉ text.take scan.read := by
  have := newline_notMem_run base 0 scan.read text
  rwa [h.run, Nat.sub_zero] at this

/-- What holds of the bytes that were read of an unfinished token. -/
theorem Reads.preserves {P : σ → Bytes → Prop}
    (hgrow : ∀ (s t : σ) (b : UInt8) (seen : Bytes), consume s b = (t, .grow) → P s seen →
      P t (seen ++ [b]))
    {text : Bytes} {base : σ} {scan : Scan σ} (hbase : P base []) (h : Reads text base scan) :
    P scan.state (text.take scan.read) := by
  have hreached := run_preserves hgrow [] hbase h.run (by simp)
  rwa [Nat.sub_zero, List.nil_append] at hreached

/-- An interrupted run goes on as if it had not been interrupted. -/
theorem run_of_reads {text : Bytes} {base : σ} {scan : Scan σ} (h : Reads text base scan)
    {room : Nat} (hroom : scan.read ≤ room) :
    Scan.run scan.state scan.read (room - scan.read) (text.drop scan.read) =
      Scan.run base 0 room text := by
  have hrun : Scan.run base 0 scan.read text = (⟨scan.state, scan.read⟩, .window) := h.run
  have happend : Scan.run base 0 (scan.read + (room - scan.read)) text =
      Scan.run scan.state scan.read (room - scan.read) (text.drop scan.read) :=
    run_append hrun h.le
  rw [← happend, Nat.add_sub_cancel' hroom]

/-! ## Completing tokens -/

section Tokens

variable [TokenKind κ]

/-- An interrupted scan goes on as if it had not been interrupted. -/
theorem step_of_reads {view : View} {base : σ} {scan : Scan σ}
    (h : Reads view.text base scan) (hroom : scan.read ≤ view.room) :
    step view scan = step view (atBoundary base) := by
  have hrun := run_of_reads h hroom
  simp only [step, hrun]
  simp only [atBoundary, Nat.sub_zero, List.drop_zero]

/-- A token of at least one byte that the text holds can be completed. -/
theorem finish_eq_token (view : View) {scan : Scan σ} (kind : κ) (hpos : 0 < scan.read)
    (hle : scan.read ≤ view.text.length) :
    finish view scan kind =
      .ok (.token ⟨TokenKind.id (refine (σ := σ) kind (view.text.take scan.read)), scan.read⟩
        (atBoundary scan.state)) := by
  unfold finish
  rw [if_neg (by omega), View.word_of_le hle]
  rfl

omit [TokenKind κ] in
/-- What was read of a token tells the kind it would have. -/
theorem pendingKind_of_le (view : View) {scan : Scan σ} (hpos : 0 < scan.read)
    (hle : scan.read ≤ view.text.length) :
    pendingKind view scan =
      .ok (some (refine (σ := σ) (inProgress scan.state) (view.text.take scan.read))) := by
  rw [pendingKind, if_neg (Nat.ne_of_gt hpos), View.word_of_le hle]
  rfl

/-- A window that is stopped inside a token holds it back, unless the text ends with it. -/
theorem step_of_window (view : View) {base : σ} {scan : Scan σ}
    (h : run base 0 view.room view.text = (scan, .window)) :
    step view (atBoundary base) =
      if view.last = true ∧ 0 < scan.read then finish view scan (atEndOfInput scan.state)
      else .ok (.hold scan) := by
  simp only [step, atBoundary, Nat.sub_zero, List.drop_zero, h]

/-- A newline ends the token before it, or else is a token itself. -/
theorem step_of_line (view : View) {base : σ} {scan : Scan σ}
    (h : run base 0 view.room view.text = (scan, .line)) :
    step view (atBoundary base) =
      if 0 < scan.read then finish view scan (atLineEnd scan.state)
      else .ok (.token Token.endOfLine (atBoundary (settle scan.state))) := by
  simp only [step, atBoundary, Nat.sub_zero, List.drop_zero, h]

/-- What the automaton ends is a token. -/
theorem step_of_kind (view : View) {base : σ} {scan : Scan σ} {kind : κ}
    (h : run base 0 view.room view.text = (scan, .kind kind)) :
    step view (atBoundary base) = finish view scan kind := by
  simp only [step, atBoundary, Nat.sub_zero, List.drop_zero, h]

/-- Where a newline comes first it is a token of its own, behind which the state is settled. -/
theorem step_of_newline {text : Bytes} {base : σ} (h : text.head? = some Byte.newline) :
    step (View.whole text) (atBoundary base) =
      .ok (.token Token.endOfLine (atBoundary (settle base))) := by
  obtain ⟨rest, rfl⟩ := List.head?_eq_some_iff.mp h
  rfl

/-- A token that a window does not cut short is the token of the whole text. -/
theorem step_whole_of_run {text : Bytes} {base : σ} {room : Nat} {scan : Scan σ}
    {ending : Ending κ} (hroom : room ≤ text.length)
    (h : run base 0 room text = (scan, ending)) (hend : ending ≠ .window) (last : Bool)
    (hpos : ending ≠ .line → 0 < scan.read) :
    step ⟨text, room, last⟩ (atBoundary base) =
      step (View.whole text) (atBoundary base) := by
  have hwhole : run base 0 text.length text = (scan, ending) := run_of_le h hend hroom
  have hle : scan.read ≤ text.length := by
    have := (read_run_bounds base 0 room text).2
    rw [h] at this
    dsimp only at this
    omega
  cases ending with
  | window => exact absurd rfl hend
  | line =>
      rw [step_of_line ⟨text, room, last⟩ h,
        step_of_line (View.whole text) hwhole]
      split
      · rename_i hread
        rw [finish_eq_token _ _ hread hle, finish_eq_token _ _ hread hle]
      · rfl
  | kind kind =>
      have hread : 0 < scan.read := hpos (by simp)
      rw [step_of_kind ⟨text, room, last⟩ h,
        step_of_kind (View.whole text) hwhole,
        finish_eq_token _ _ hread hle, finish_eq_token _ _ hread hle]

/-- A token that a scan ends has the bytes that were read of it. -/
theorem token_of_finish {view : View} {scan after : Scan σ} {kind : κ} {found : Token}
    (h : finish view scan kind = .ok (.token found after)) :
    ∃ word, found = ⟨TokenKind.id (refine (σ := σ) kind word), scan.read⟩ ∧
      after = atBoundary scan.state := by
  unfold finish at h
  split at h
  · cases h
  · cases hword : view.word scan.read with
    | error fault => simp [hword, bind, Except.bind] at h
    | ok word =>
        simp only [hword, bind, Except.bind, Except.ok.injEq, Step.token.injEq] at h
        exact ⟨word, h.1.symm, h.2.symm⟩

/-- What completes a token: a newline that stands alone, or the automaton, a newline or the
end of the text behind the bytes that were read. -/
theorem token_cases {view : View} {scan after : Scan σ} {found : Token}
    (h : step view scan = .ok (.token found after)) :
    ∃ next ending, run scan.state scan.read (view.room - scan.read)
        (view.text.drop scan.read) = (next, ending) ∧
      (ending = .line ∧ next.read = 0 ∧ found = Token.endOfLine ∧
          after = atBoundary (settle next.state) ∨
        ∃ kind, finish view next kind = .ok (.token found after) ∧
          (ending = .kind kind ∨ ending = .line ∧ kind = atLineEnd next.state ∨
            ending = .window ∧ kind = atEndOfInput next.state)) := by
  unfold step at h
  split at h
  · rename_i next hrun
    split at h
    · exact ⟨next, _, hrun, Or.inr ⟨_, h, Or.inr (Or.inr ⟨rfl, rfl⟩)⟩⟩
    · cases h
  · rename_i next hrun
    split at h
    · exact ⟨next, _, hrun, Or.inr ⟨_, h, Or.inr (Or.inl ⟨rfl, rfl⟩)⟩⟩
    · rename_i hread
      cases h
      exact ⟨next, _, hrun, Or.inl ⟨rfl, Nat.eq_zero_of_not_pos hread, rfl, rfl⟩⟩
  · rename_i next kind hrun
    exact ⟨next, _, hrun, Or.inr ⟨kind, h, Or.inl rfl⟩⟩

/-- A scan is held back where the window ends. -/
theorem run_of_hold {view : View} {scan held : Scan σ} (h : step view scan = .ok (.hold held)) :
    run scan.state scan.read (view.room - scan.read) (view.text.drop scan.read) =
      (held, .window) := by
  have hfinish : ∀ {next : Scan σ} {kind : κ}, finish view next kind ≠ .ok (.hold held) := by
    intro next kind hfinish
    unfold finish at hfinish
    split at hfinish
    · cases hfinish
    · cases hword : view.word next.read <;> simp [hword, bind, Except.bind] at hfinish
  unfold step at h
  split at h
  · rename_i next hrun
    split at h
    · exact absurd h hfinish
    · cases h
      exact hrun
  · split at h
    · exact absurd h hfinish
    · cases h
  · exact absurd h hfinish

/-- A token is a newline, or it has none. -/
theorem newline_of_step {view : View} {base : σ} {after : Scan σ} {found : Token}
    (h : step view (atBoundary base) = .ok (.token found after)) :
    found = Token.endOfLine ∧ view.text.head? = some Byte.newline ∨
      Byte.newline ∉ view.text.take found.len := by
  obtain ⟨next, ending, hrun, hline | ⟨kind, hfinish, -⟩⟩ := token_cases h
  · obtain ⟨rfl, hread, hfound, -⟩ := hline
    have hhead := (newline_of_line hrun).1
    rw [hread] at hhead
    exact Or.inl ⟨hfound, hhead⟩
  · have hread := newline_notMem_run base 0 view.room view.text
    rw [show run base 0 view.room view.text = (next, ending) from hrun] at hread
    obtain ⟨word, rfl, -⟩ := token_of_finish hfinish
    exact Or.inr hread

/-- How the token with the bytes `word`, of the kind `kind`, comes to its end before `rest`, and the
state that it leaves behind. `P` holds of the state in which it ended and of the bytes that were
read in it. -/
inductive Ended (P : σ → Bytes → Prop) (rest : Bytes) :
    (word : Bytes) → (kind : κ) → (after : σ) → Prop where
  | close {s t : σ} {b : UInt8} {seen : Bytes} {kind : κ} (reached : P s seen)
      (consumes : consume s b = (t, .close kind)) : Ended P rest (seen ++ [b]) kind t
  | closeBefore {s t : σ} {b : UInt8} {seen : Bytes} {kind : κ} (reached : P s seen)
      (next : rest.head? = some b) (consumes : consume s b = (t, .closeBefore kind)) :
      Ended P rest seen kind t
  | line {s : σ} {seen : Bytes} (reached : P s seen) (next : rest.head? = some Byte.newline) :
      Ended P rest seen (atLineEnd s) s
  | input {s : σ} {seen : Bytes} (reached : P s seen) (next : rest = []) :
      Ended P rest seen (atEndOfInput s) s

/-- What completes a token of a text: a newline that stands alone, or one of the ways in which a
token ends. -/
theorem ended_of_step {P : σ → Bytes → Prop}
    (hgrow : ∀ (s t : σ) (b : UInt8) (seen : Bytes), consume s b = (t, .grow) → P s seen →
      P t (seen ++ [b]))
    {text : Bytes} {base : σ} {after : Scan σ} {found : Token} (hbase : P base [])
    (h : step (View.whole text) (atBoundary base) = .ok (.token found after)) :
    found = Token.endOfLine ∧ text.head? = some Byte.newline ∨
      ∃ kind, found.id = TokenKind.id (refine (σ := σ) kind (text.take found.len)) ∧
        Ended P (text.drop found.len) (text.take found.len) kind after.state := by
  obtain ⟨next, ending, hrun, hends⟩ := token_cases h
  simp only [atBoundary, Nat.sub_zero, List.drop_zero] at hrun
  have hbounds := (read_run_bounds base 0 text.length text).2
  rw [hrun] at hbounds
  have hle : next.read ≤ text.length := by dsimp only at hbounds; omega
  have hline : ending = .line → (text.drop next.read).head? = some Byte.newline := by
    rintro rfl
    simpa using (newline_of_line hrun).1
  rcases hends with ⟨hending, hread, hfound, -⟩ | ⟨kind, hfinish, hending⟩
  · have hhead := hline hending
    rw [hread] at hhead
    exact Or.inl ⟨hfound, hhead⟩
  · have hpos : 0 < next.read := by
      rcases Nat.eq_zero_or_pos next.read with hzero | hpos
      · rw [finish, if_pos hzero] at hfinish
        cases hfinish
      · exact hpos
    rw [finish_eq_token (View.whole text) kind hpos hle] at hfinish
    cases hfinish
    refine Or.inr ⟨kind, rfl, ?_⟩
    show Ended P (text.drop next.read) (text.take next.read) kind next.state
    rcases hending with rfl | ⟨rfl, rfl⟩ | ⟨rfl, rfl⟩
    · obtain ⟨t, b, before, ht, hends⟩ := run_preserves_kind hgrow [] hbase hrun
      rw [Nat.sub_zero, List.nil_append] at hends
      rcases hends with ⟨hclose, hword⟩ | ⟨hclose, rfl, hhead⟩
      · rw [hword]
        exact .close ht hclose
      · exact .closeBefore ht hhead hclose
    · have hreached := run_preserves hgrow [] hbase hrun (by simp)
      rw [Nat.sub_zero, List.nil_append] at hreached
      exact .line hreached (hline rfl)
    · have hreached := run_preserves hgrow [] hbase hrun (by simp)
      rw [Nat.sub_zero, List.nil_append] at hreached
      have hall := read_of_window hrun (Nat.le_refl _)
      rw [Nat.zero_add] at hall
      exact .input hreached (List.drop_eq_nil_of_le (Nat.le_of_eq hall.symm))

/-- A token is at least as long as what was read of it before, and it lies in the window. -/
theorem len_of_step {view : View} {scan after : Scan σ} {found : Token}
    (h : step view scan = .ok (.token found after)) :
    scan.read ≤ found.len ∧ found.len ≤ max scan.read view.room := by
  have hbounds := read_run_bounds scan.state scan.read (view.room - scan.read)
    (view.text.drop scan.read)
  obtain ⟨next, ending, hrun, hline | ⟨kind, hfinish, -⟩⟩ := token_cases h
  · obtain ⟨rfl, hread, rfl, -⟩ := hline
    have hlt := (newline_of_line hrun).2
    rw [hrun] at hbounds
    dsimp only at hbounds
    show scan.read ≤ 1 ∧ 1 ≤ max scan.read view.room
    omega
  · obtain ⟨word, rfl, -⟩ := token_of_finish hfinish
    rw [hrun] at hbounds
    dsimp only at hbounds ⊢
    omega

/-- A token leaves nothing read of the next one. -/
theorem read_of_token {view : View} {scan after : Scan σ} {found : Token}
    (h : step view scan = .ok (.token found after)) : after.read = 0 := by
  obtain ⟨next, ending, -, ⟨-, -, -, rfl⟩ | ⟨kind, hfinish, -⟩⟩ := token_cases h
  · rfl
  · obtain ⟨word, -, rfl⟩ := token_of_finish hfinish
    rfl

/-- What is read of a token lies in the window. -/
theorem read_of_hold {view : View} {scan held : Scan σ}
    (h : step view scan = .ok (.hold held)) : held.read ≤ max scan.read view.room := by
  have hbounds := (read_run_bounds scan.state scan.read (view.room - scan.read)
    (view.text.drop scan.read)).2
  rw [run_of_hold h] at hbounds
  dsimp only at hbounds
  omega

end Tokens

/-! ## Boundary states -/

variable [Boundaries σ]

/-- An automaton ends its tokens in boundary states. -/
theorem isBoundary_of_kind {s : σ} {n room : Nat} {ahead : Bytes} {scan : Scan σ} {kind : κ}
    (h : run s n room ahead = (scan, .kind kind)) :
    Boundaries.isBoundary scan.state = true := by
  induction room generalizing s n ahead with
  | zero => simp [run] at h
  | succ room ih =>
      cases ahead with
      | nil => simp [run] at h
      | cons b ahead =>
          simp only [run] at h
          split at h
          · simp at h
          · split at h
            · exact ih h
            · rename_i t found hc
              simp only [Prod.mk.injEq] at h
              rw [← h.1]
              exact Boundaries.isBoundary_of_consume hc (by simp)
            · rename_i t found hc
              simp only [Prod.mk.injEq] at h
              rw [← h.1]
              exact Boundaries.isBoundary_of_consume hc (by simp)

/-- A token that is ended inside leaves a boundary state. -/
theorem isBoundary_settled {scan : Scan σ} (h : 0 < scan.read) :
    Boundaries.isBoundary scan.settled.state = true := by
  rw [settled, if_neg (Nat.ne_of_gt h)]
  exact Boundaries.settle scan.state

/-! ## Where a token may start -/

/-- A token of `text` may be read from `state`: a boundary state, unless there is no token
or the token is a newline. -/
def Ready (text : Bytes) (state : σ) : Prop :=
  ∀ b, text.head? = some b → b ≠ Byte.newline → Boundaries.isBoundary state = true

theorem ready_of_isBoundary {state : σ} (h : Boundaries.isBoundary state = true)
    (text : Bytes) : Ready text state :=
  fun _ _ _ => h

theorem ready_of_newline {text : Bytes} (h : text.head? = some Byte.newline) (state : σ) :
    Ready text state := by
  intro b hb hne
  rw [h] at hb
  exact absurd (Option.some.inj hb).symm hne

/-- A text whose first byte is that of another may be read like the other. -/
theorem Ready.of_head {text other : Bytes} {state : σ} (h : Ready text state)
    (hhead : ∀ b, other.head? = some b → text.head? = some b) : Ready other state :=
  fun b hb hne => h b (hhead b hb) hne

theorem ready_nil (state : σ) : Ready [] state := by
  intro b hb
  simp at hb

/-- A token that an automaton ends is not empty. -/
theorem read_pos_of_kind {s : σ} {room : Nat} {text : Bytes} {scan : Scan σ} {kind : κ}
    (hready : Ready text s) (h : run s 0 room text = (scan, .kind kind)) : 0 < scan.read := by
  cases room with
  | zero => simp [run] at h
  | succ room =>
      cases text with
      | nil => simp [run] at h
      | cons b text =>
          simp only [run] at h
          split at h
          · simp at h
          · rename_i hb
            split at h
            · rename_i next hc
              have := (read_run_bounds next (0 + 1) room text).1
              rw [h] at this
              exact this
            · simp only [Prod.mk.injEq] at h
              rw [← h.1]
              exact Nat.succ_pos 0
            · rename_i hc
              exact absurd hc (Boundaries.consume_ne_closeBefore (hready b rfl hb))

/-! ## Tokens from boundary states -/

variable [TokenKind κ]

/-- A window either ends inside the token, or it completes the token that the whole text
would give as well. -/
theorem step_atBoundary {text : Bytes} {base : σ} {room : Nat} {last : Bool}
    (hready : Ready text base) (hroom : room ≤ text.length)
    (hlast : last = true → room = text.length) :
    (∃ scan : Scan σ, step ⟨text, room, last⟩ (atBoundary base) = .ok (.hold scan) ∧
        Reads text base scan ∧ scan.read = room ∧ (last = true → room = 0)) ∨
      (∃ found t, step ⟨text, room, last⟩ (atBoundary base) =
          .ok (.token found (atBoundary t)) ∧
        step (View.whole text) (atBoundary base) =
          .ok (.token found (atBoundary t)) ∧
        0 < found.len ∧ found.len ≤ room ∧ Ready (text.drop found.len) t) := by
  rcases h : run base 0 room text with ⟨scan, ending⟩
  have hbounds := (read_run_bounds base 0 room text).2
  rw [h] at hbounds
  have hle : scan.read ≤ text.length := by dsimp only at hbounds; omega
  have hleRoom : scan.read ≤ room := by dsimp only at hbounds; omega
  cases ending with
  | window =>
      have hread : scan.read = room := by
        rw [read_of_window h hroom, Nat.zero_add]
      have hreads : Reads text base scan := ⟨by rw [hread]; exact h, hle⟩
      have hstep := step_of_window ⟨text, room, last⟩ h
      by_cases hend : last = true ∧ 0 < scan.read
      · rw [if_pos hend, finish_eq_token _ _ hend.2 hle] at hstep
        have hfull : room = text.length := hlast hend.1
        refine Or.inr ⟨_, _, hstep, ?_, hend.2, hleRoom, ?_⟩
        · rw [← hstep, hfull, hend.1]
        · show Ready (text.drop scan.read) scan.state
          rw [hread, hfull, List.drop_length]
          exact ready_nil _
      · rw [if_neg hend] at hstep
        refine Or.inl ⟨scan, hstep, hreads, hread, ?_⟩
        intro htrue
        have : ¬ 0 < scan.read := fun hpos => hend ⟨htrue, hpos⟩
        omega
  | line =>
      obtain ⟨hhead, hlt⟩ := newline_of_line h
      rw [Nat.sub_zero] at hhead hlt
      have hwhole := step_whole_of_run hroom h (by simp) last (by simp)
      have hstep := step_of_line ⟨text, room, last⟩ h
      by_cases hpos : 0 < scan.read
      · rw [if_pos hpos, finish_eq_token _ _ hpos hle] at hstep
        exact Or.inr ⟨_, _, hstep, hwhole ▸ hstep, hpos, hleRoom, ready_of_newline hhead _⟩
      · rw [if_neg hpos] at hstep
        refine Or.inr ⟨_, _, hstep, hwhole ▸ hstep, Nat.one_pos, ?_, ?_⟩
        · show 1 ≤ room
          omega
        · exact ready_of_isBoundary (Boundaries.settle _) _
  | kind kind =>
      have hpos : 0 < scan.read := read_pos_of_kind hready h
      have hwhole := step_whole_of_run hroom h (by simp) last (fun _ => hpos)
      have hstep := step_of_kind ⟨text, room, last⟩ h
      rw [finish_eq_token _ _ hpos hle] at hstep
      exact Or.inr ⟨_, _, hstep, hwhole ▸ hstep, hpos, hleRoom,
        ready_of_isBoundary (isBoundary_of_kind h) _⟩

omit [TokenKind κ] in
/-- What was read of a token was read from a boundary state. -/
theorem isBoundary_of_reads {text : Bytes} {base : σ} {scan : Scan σ} (hready : Ready text base)
    (h : Reads text base scan) (hpos : 0 < scan.read) : Boundaries.isBoundary base = true := by
  have hne : 0 < text.length := Nat.lt_of_lt_of_le hpos h.le
  obtain ⟨b, rest, rfl⟩ := List.exists_cons_of_length_pos hne
  refine hready b rfl ?_
  -- A newline would have stood at the start of what was read.
  rintro rfl
  have hnone := newline_notMem_of_reads h
  obtain ⟨n, hn⟩ : ∃ n, scan.read = n + 1 := ⟨scan.read - 1, by omega⟩
  rw [hn, List.take_succ_cons] at hnone
  exact hnone (List.mem_cons_self ..)

/-- How a token comes to its end, if it starts where it may. -/
theorem ended_of_ready {P : σ → Bytes → Prop}
    (hgrow : ∀ (s t : σ) (b : UInt8) (seen : Bytes), consume s b = (t, .grow) → P s seen →
      P t (seen ++ [b]))
    {text : Bytes} {base : σ} {after : Scan σ} {found : Token}
    (hbase : Boundaries.isBoundary base = true → P base []) (hready : Ready text base)
    (h : step (View.whole text) (atBoundary base) = .ok (.token found after)) :
    found = Token.endOfLine ∧ text.head? = some Byte.newline ∨
      ∃ kind, found.id = TokenKind.id (refine (σ := σ) kind (text.take found.len)) ∧
        Ended P (text.drop found.len) (text.take found.len) kind after.state := by
  by_cases hline : text.head? = some Byte.newline
  · rw [step_of_newline hline] at h
    cases h
    exact Or.inl ⟨rfl, hline⟩
  · refine ended_of_step hgrow (hbase ?_) h
    cases text with
    | nil => cases h
    | cons b rest => exact hready b rfl fun heq => hline (congrArg some heq)

end Scan

end PageLexing
