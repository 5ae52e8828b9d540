import PageLexing.Markup
import PageLexing.Script
import PageLexing.Tag

/-!
# States in which a token may start

A token never is empty. This holds because an automaton ends its tokens only in states
that read the next byte, whatever it is, before they may end a token themselves. The
states of this kind are the *boundary states* of the automaton. Settling always leads to
one, and so does the end of a token, unless a newline or the end of the text was what
ended it: then the automaton stays where it was, and the newline that follows settles it.

## Main results

* `Boundaries.isBoundary_of_consume` — an automaton ends a token in a boundary state.
* `Boundaries.consume_ne_closeBefore` — a boundary state reads its first byte.
* `Tag.consume_ne_fragmentEnd` — a fragment ends with a token, never inside one.
-/

namespace PageLexing

open Automaton

/-- The states of an automaton in which a token may start. -/
class Boundaries (σ : Type) {κ : outParam Type} [Automaton σ κ] where
  isBoundary : σ → Bool
  initial : isBoundary (Automaton.initial : σ) = true
  settle : ∀ s : σ, isBoundary (Automaton.settle s) = true
  ends : ∀ (s : σ) (b : UInt8), (transition s b).2 = .continue ∨
    (transition s b).2 = .reprocess ∨ isBoundary (transition s b).1 = true
  reads : ∀ (s : σ) (b : UInt8), isBoundary s = true →
    (transition s b).2 = .continue ∨ ∃ kind, (transition s b).2 = .emit kind

namespace Boundaries

variable {σ κ : Type} [Automaton σ κ]

/-- What a byte comes to is what one transition does with it, after it was passed on at
most once. -/
theorem exists_transition_of_consume {s t : σ} {b : UInt8} {effect : Effect κ}
    (h : consume s b = (t, effect)) :
    ∃ r : σ, transition r b = (t, effect.toAction) ∧
      (r = s ∨ transition s b = (r, .reprocess)) := by
  rcases hs : transition s b with ⟨u, action⟩
  by_cases hr : action = .reprocess
  · subst hr
    rcases hu : transition u b with ⟨v, next⟩
    have hnext : next ≠ .reprocess := by
      have := reprocess_once s u b hs
      rwa [hu] at this
    obtain ⟨e, he⟩ : ∃ e : Effect κ, next = e.toAction := by
      cases next with
      | «continue» => exact ⟨.grow, rfl⟩
      | emit kind => exact ⟨.close kind, rfl⟩
      | emitBefore kind => exact ⟨.closeBefore kind, rfl⟩
      | reprocess => exact absurd rfl hnext
    subst he
    rw [consume_of_reprocess hs hu] at h
    cases h
    exact ⟨u, hu, Or.inr rfl⟩
  · obtain ⟨e, he⟩ : ∃ e : Effect κ, action = e.toAction := by
      cases action with
      | «continue» => exact ⟨.grow, rfl⟩
      | emit kind => exact ⟨.close kind, rfl⟩
      | emitBefore kind => exact ⟨.closeBefore kind, rfl⟩
      | reprocess => exact absurd rfl hr
    subst he
    rw [consume_of_transition hs] at h
    cases h
    exact ⟨s, hs, Or.inl rfl⟩

/-- A byte that is not passed on is consumed in one transition. -/
theorem transition_of_consume {s t : σ} {b : UInt8} {effect : Effect κ}
    (hreads : (transition s b).2 ≠ .reprocess) (h : consume s b = (t, effect)) :
    transition s b = (t, effect.toAction) := by
  obtain ⟨r, hr, rfl | hpass⟩ := exists_transition_of_consume h
  · exact hr
  · exact absurd (congrArg Prod.snd hpass) hreads

variable [Boundaries σ]

/-- An automaton ends a token in a boundary state. -/
theorem isBoundary_of_consume {s t : σ} {b : UInt8} {effect : Effect κ}
    (h : consume s b = (t, effect)) (hend : effect ≠ .grow) : isBoundary t = true := by
  obtain ⟨r, hr, -⟩ := exists_transition_of_consume h
  have hends := ends r b
  rw [hr] at hends
  cases effect with
  | grow => exact absurd rfl hend
  | close kind => simpa [Effect.toAction] using hends
  | closeBefore kind => simpa [Effect.toAction] using hends

/-- A boundary state reads its first byte. -/
theorem consume_ne_closeBefore {s t : σ} {b : UInt8} {kind : κ}
    (hs : isBoundary s = true) : consume s b ≠ (t, .closeBefore kind) := by
  intro h
  obtain ⟨r, hr, hrs⟩ := exists_transition_of_consume h
  rcases reads s b hs with hread | ⟨found, hread⟩
  · rcases hrs with rfl | hpass
    · simp [hr, Effect.toAction] at hread
    · simp [hpass] at hread
  · rcases hrs with rfl | hpass
    · simp [hr, Effect.toAction] at hread
    · simp [hpass] at hread

end Boundaries

/-! ## Markup -/

namespace Markup

/-- Whether a token may start in a state. -/
def isBoundary : State → Bool
  | .content | .comment | .declaration | .tagNameStart | .inTag => true
  | .afterAttribute | .afterEquals | .quoted _ => true
  | _ => false

theorem isBoundary_resume (gap : Gap) : isBoundary gap.resume = true := by
  cases gap <;> rfl

theorem isBoundary_settle (s : State) : isBoundary (settle s) = true := by
  cases s with
  | blank gap => exact isBoundary_resume gap
  | _ => rfl

/-- Where markup ends a token, another may start. -/
theorem isBoundary_of_transition (s : State) (b : UInt8) :
    (transition s b).2 = .continue ∨ (transition s b).2 = .reprocess ∨
      isBoundary (transition s b).1 = true := by
  fun_cases transition s b <;>
    first | exact Or.inl rfl | exact Or.inr (Or.inr rfl) | skip
  exact Or.inr (Or.inr (isBoundary_resume _))

/-- A boundary state of markup reads its first byte. -/
theorem reads_of_isBoundary (s : State) (b : UInt8) (hs : isBoundary s = true) :
    (transition s b).2 = .continue ∨ ∃ kind, (transition s b).2 = .emit kind := by
  revert hs
  fun_cases transition s b <;> simp [isBoundary]

instance : Boundaries State where
  isBoundary := isBoundary
  initial := rfl
  settle := isBoundary_settle
  ends := isBoundary_of_transition
  reads := reads_of_isBoundary

end Markup

/-! ## Tags -/

namespace Tag

/-- Whether a token may start in a state. -/
def isBoundary : State → Bool
  | .outside | .fragmentEnd | .directiveStart | .tagNameStart | .afterTagName => true
  | .afterAttribute | .afterEquals | .quoted _ | .comment => true
  | _ => false

theorem isBoundary_resume (gap : Gap) : isBoundary gap.resume = true := by
  cases gap <;> rfl

theorem isBoundary_settle (s : State) : isBoundary (settle s) = true := by
  cases s with
  | blank gap => exact isBoundary_resume gap
  | _ => rfl

/-- Where the tag language ends a token, another may start. -/
theorem isBoundary_of_transition (s : State) (b : UInt8) :
    (transition s b).2 = .continue ∨ (transition s b).2 = .reprocess ∨
      isBoundary (transition s b).1 = true := by
  fun_cases transition s b <;>
    first
      | exact Or.inl rfl
      | exact Or.inr (Or.inl rfl)
      | exact Or.inr (Or.inr rfl)
      | exact Or.inr (Or.inr (isBoundary_resume _))
      | (simp only [beforeFragment, awaitAttribute, awaitGreater, skipError]
         repeat' split
         all_goals first | exact Or.inl rfl | exact Or.inr (Or.inr rfl))

/-- A boundary state of the tag language reads its first byte. -/
theorem reads_of_isBoundary (s : State) (b : UInt8) (hs : isBoundary s = true) :
    (transition s b).2 = .continue ∨ ∃ kind, (transition s b).2 = .emit kind := by
  fun_cases transition s b <;>
    first
      | exact Or.inl rfl
      | exact Or.inr ⟨_, rfl⟩
      | (simp only [beforeFragment, awaitAttribute]
         repeat' split
         all_goals first | exact Or.inl rfl | exact Or.inr ⟨_, rfl⟩)
      | cases hs

instance : Boundaries State where
  isBoundary := isBoundary
  initial := rfl
  settle := isBoundary_settle
  ends := isBoundary_of_transition
  reads := reads_of_isBoundary

/-- A byte that joins a token does not end the fragment. -/
theorem transition_ne_fragmentEnd (s : State) (b : UInt8)
    (h : (transition s b).2 = .continue) : (transition s b).1 ≠ .fragmentEnd := by
  revert h
  fun_cases transition s b <;>
    simp only [beforeFragment, awaitAttribute, awaitGreater, skipError] <;>
    (try (repeat' split)) <;>
    simp

/-- A fragment ends with a token, never inside one. -/
theorem consume_ne_fragmentEnd {s t : State} {b : UInt8}
    (h : Automaton.consume s b = (t, .grow)) : t ≠ .fragmentEnd := by
  obtain ⟨r, hr, -⟩ := Boundaries.exists_transition_of_consume h
  have hne := transition_ne_fragmentEnd r b
  rw [show transition r b = (t, .continue) from hr] at hne
  exact hne rfl

theorem settle_ne_fragmentEnd {s : State} (h : s ≠ .fragmentEnd) : settle s ≠ .fragmentEnd := by
  cases s with
  | blank gap => cases gap <;> exact nofun
  | fragmentEnd => exact absurd rfl h
  | _ => exact nofun

end Tag

/-! ## Script -/

namespace Script

/-- Whether a token may start in a state. -/
def isBoundary : State → Bool
  | .start | .blockComment => true
  | _ => false

theorem isBoundary_settle (s : State) : isBoundary (settle s) = true := by
  cases s <;> rfl

/-- Where script ends a token, another may start. -/
theorem isBoundary_of_transition (s : State) (b : UInt8) :
    (transition s b).2 = .continue ∨ (transition s b).2 = .reprocess ∨
      isBoundary (transition s b).1 = true := by
  fun_cases transition s b <;>
    first | exact Or.inl rfl | exact Or.inr (Or.inr rfl)

/-- A boundary state of script reads its first byte. -/
theorem reads_of_isBoundary (s : State) (b : UInt8) (hs : isBoundary s = true) :
    (transition s b).2 = .continue ∨ ∃ kind, (transition s b).2 = .emit kind := by
  revert hs
  fun_cases transition s b <;> simp [isBoundary]

instance : Boundaries State where
  isBoundary := isBoundary
  initial := rfl
  settle := isBoundary_settle
  ends := isBoundary_of_transition
  reads := reads_of_isBoundary

end Script

end PageLexing
