import PageLexing.Proofs.Comments
import PageLexing.Proofs.Enclosure
import PageLexing.Proofs.Quotes

/-!
# Errors of the tag language

Inside a fragment an error is ended by a `>`, which then closes the fragment. This is so wherever an
attribute or the end of the fragment is expected. But behind the opening symbol of a directive or of
an element, and behind `=`, any byte that is not expected starts an error, and there a `>` is such a
byte. It becomes the first byte of the error and closes nothing; the error goes on to the next one.

Apart from such errors only values and comments have a `>`, and a value is an error if the end of the
text cuts it short.

## Main results

* `Tag.tagRead_of_grow` — what was read of a token inside a fragment, byte by byte.
* `Tag.kind_of_ends`, `Tag.error_of_ends` — the tokens and the errors with a `>`.
* `Tag.swallows_of_ends`, `Tag.closes_of_ends` — where a `>` starts an error, and where it closes the
  fragment.
* `Tag.not_unescapedQuote_of_error` — a value that is an error is not closed.
-/

namespace PageLexing

namespace Tag

open Automaton Byte

/-! ## What was read of a token -/

/-- Behind the opening symbol of a directive or of an element, and behind `=`, a byte that is not
expected there starts an error, whatever it is. -/
def TakesAny (s : State) : Prop := s = .directiveStart ∨ s = .tagNameStart ∨ s = .afterEquals

theorem TakesAny.ne_quoted {s : State} (h : TakesAny s) (q : UInt8) : s ≠ .quoted q := by
  rcases h with rfl | rfl | rfl <;> exact nofun

theorem TakesAny.ne_comment {s : State} (h : TakesAny s) : s ≠ .comment := by
  rcases h with rfl | rfl | rfl <;> exact nofun

/-- What was read is part of a value in the quotes `q`, from its opening quote on or from the start
of a token further on. -/
def InValue (base : State) (q : UInt8) (seen : Bytes) : Prop :=
  base = .quoted q ∨ base = .afterEquals ∧ (q = quote ∨ q = apostrophe) ∧ seen.head? = some q

/-- What was read is part of an error, which has a `>` only where it starts, and only where any byte
may start it. -/
def InError (base : State) (seen : Bytes) : Prop :=
  ∃ first tail, seen = first :: tail ∧ greater ∉ tail ∧ (first = greater → TakesAny base)

/-- Something was read, and no `>`. -/
def Plain (seen : Bytes) : Prop := seen ≠ [] ∧ greater ∉ seen

/-- What was read inside a fragment of a token that started in `base`. Only values, comments and
errors have a `>`. -/
def TagRead (base : State) : State → Bytes → Prop
  | .outside, _ | .afterLess, _ | .afterPercent, _ | .afterPercentDash, _ => False
  | .blank .outside, _ | .errorOutside, _ | .fragmentEnd, _ => False
  | .directiveStart, seen => base = .directiveStart ∧ seen = []
  | .tagNameStart, seen => base = .tagNameStart ∧ seen = []
  | .afterTagName, seen => base = .afterTagName ∧ seen = []
  | .afterAttribute, seen => base = .afterAttribute ∧ seen = []
  | .afterEquals, seen => base = .afterEquals ∧ seen = []
  | .comment, _ | .commentDash, _ | .commentDashes, _ | .commentPercent, _ => base = .comment
  | .quoted q, seen | .escaped q, seen => InValue base q seen
  | .errorInTag, seen => InError base seen
  | .tagName, seen | .attributeName, seen | .blank _, seen | .closingSlash, seen
  | .closingPercent, seen => Plain seen

variable {base s t after : State} {b : UInt8} {seen word rest : Bytes} {kind : Kind}
  {action : Action Kind}

theorem notMem_concat (hs : greater ∉ seen) (hb : b ≠ greater) : greater ∉ seen ++ [b] := by
  rw [List.mem_append, List.mem_singleton, not_or]
  exact ⟨hs, hb.symm⟩

theorem plain_singleton (hb : b ≠ greater) : Plain [b] :=
  ⟨List.cons_ne_nil b [], notMem_concat List.not_mem_nil hb⟩

theorem Plain.concat (hs : Plain seen) (hb : b ≠ greater) : Plain (seen ++ [b]) :=
  ⟨List.concat_ne_nil b seen, notMem_concat hs.2 hb⟩

theorem inError_singleton (h : b = greater → TakesAny base) : InError base [b] :=
  ⟨b, [], rfl, List.not_mem_nil, h⟩

theorem InError.concat (hs : InError base seen) (hb : b ≠ greater) :
    InError base (seen ++ [b]) := by
  obtain ⟨first, tail, rfl, htail, hfirst⟩ := hs
  exact ⟨first, tail ++ [b], rfl, notMem_concat htail hb, hfirst⟩

theorem InError.of_mem (hs : InError base seen) (hgreater : greater ∈ seen) :
    TakesAny base ∧ ∃ tail, seen = greater :: tail ∧ greater ∉ tail := by
  obtain ⟨first, tail, rfl, htail, hfirst⟩ := hs
  obtain rfl : greater = first := (List.mem_cons.mp hgreater).resolve_right htail
  exact ⟨hfirst rfl, tail, rfl, htail⟩

theorem InValue.concat {q : UInt8} (hs : InValue base q seen) : InValue base q (seen ++ [b]) := by
  refine hs.imp_right fun ⟨hbase, hq, hhead⟩ => ⟨hbase, hq, ?_⟩
  rw [List.head?_append, hhead, Option.some_or]

theorem ne_greater_of_isBlank (h : isBlank b = true) : b ≠ greater := by
  rintro rfl
  cases h

theorem ne_greater_of_isNameByte (h : isNameByte b = true) : b ≠ greater := by
  rintro rfl
  cases h

/-- Inside a fragment nothing was read at a boundary. -/
theorem tagRead_nil (hinside : isInside base = true)
    (hboundary : Boundaries.isBoundary base = true) : TagRead base base [] := by
  cases base with
  | directiveStart | tagNameStart | afterTagName | afterAttribute | afterEquals => exact ⟨rfl, rfl⟩
  | comment => exact rfl
  | quoted q => exact Or.inl rfl
  | outside | fragmentEnd => cases hinside
  | _ => cases hboundary

/-! ### First bytes -/

theorem tagRead_of_directiveStart (h : transition .directiveStart b = (t, .continue)) :
    TagRead .directiveStart t [b] := by
  simp only [transition] at h
  split at h
  · rename_i hblank
    cases h
    exact plain_singleton (ne_greater_of_isBlank hblank)
  split at h
  · rename_i hpercent
    cases h
    exact plain_singleton (by rw [hpercent]; decide)
  split at h
  · rename_i hname
    cases h
    exact plain_singleton (ne_greater_of_isNameByte hname)
  · cases h
    exact inError_singleton fun _ => Or.inl rfl

theorem tagRead_of_tagNameStart (h : transition .tagNameStart b = (t, .continue)) :
    TagRead .tagNameStart t [b] := by
  simp only [transition] at h
  split at h
  · rename_i hname
    cases h
    exact plain_singleton (ne_greater_of_isNameByte hname)
  · cases h
    exact inError_singleton fun _ => Or.inr (Or.inl rfl)

theorem tagRead_of_afterEquals (h : transition .afterEquals b = (t, .continue)) :
    TagRead .afterEquals t [b] := by
  simp only [transition] at h
  split at h
  · rename_i hblank
    cases h
    exact plain_singleton (ne_greater_of_isBlank hblank)
  split at h
  · rename_i hquote
    cases h
    exact Or.inr ⟨rfl, hquote, rfl⟩
  · cases h
    exact inError_singleton fun _ => Or.inr (Or.inr rfl)

/-- Where an attribute or the end of the fragment is expected, a `>` is never the first byte of a
longer token. -/
theorem tagRead_of_await {gap : Gap} (hgap : gap ≠ .outside)
    (h : awaitAttribute gap b = (t, .continue)) : TagRead base t [b] := by
  simp only [awaitAttribute] at h
  split at h
  · rename_i hblank
    cases h
    cases gap with
    | outside => exact absurd rfl hgap
    | _ => exact plain_singleton (ne_greater_of_isBlank hblank)
  split at h
  · rename_i hslash
    cases h
    exact plain_singleton (by rw [hslash]; decide)
  split at h
  · rename_i hpercent
    cases h
    exact plain_singleton (by rw [hpercent]; decide)
  split at h
  · cases h
  rename_i hgreater
  split at h
  · cases h
    exact plain_singleton hgreater
  · cases h
    exact inError_singleton fun heq => absurd heq hgreater

/-! ### All bytes -/

/-- What every byte that joins a token preserves. -/
theorem tagRead_of_continue (h : transition s b = (t, .continue)) (hs : TagRead base s seen) :
    TagRead base t (seen ++ [b]) := by
  cases s with
  | outside | afterLess | afterPercent | afterPercentDash | errorOutside | fragmentEnd =>
      exact hs.elim
  | directiveStart =>
      obtain ⟨rfl, rfl⟩ := hs
      exact tagRead_of_directiveStart h
  | tagNameStart =>
      obtain ⟨rfl, rfl⟩ := hs
      exact tagRead_of_tagNameStart h
  | afterEquals =>
      obtain ⟨rfl, rfl⟩ := hs
      exact tagRead_of_afterEquals h
  | afterTagName =>
      obtain ⟨rfl, rfl⟩ := hs
      have hgap : Gap.tag ≠ .outside := nofun
      exact tagRead_of_await hgap h
  | afterAttribute =>
      obtain ⟨rfl, rfl⟩ := hs
      have hgap : Gap.attr ≠ .outside := nofun
      simp only [transition] at h
      split at h
      · cases h
      · exact tagRead_of_await hgap h
  | tagName | attributeName =>
      simp only [transition] at h
      split at h
      · rename_i hname
        cases h
        exact Plain.concat hs (ne_greater_of_isNameByte hname)
      · cases h
  | blank gap =>
      simp only [transition] at h
      split at h
      · rename_i hblank
        cases h
        cases gap with
        | outside => exact hs.elim
        | _ => exact Plain.concat hs (ne_greater_of_isBlank hblank)
      · cases h
  | closingSlash | closingPercent =>
      simp only [transition, awaitGreater] at h
      split at h <;> cases h
  | quoted q =>
      simp only [transition] at h
      (repeat' split at h) <;> cases h <;> exact InValue.concat hs
  | escaped q =>
      simp only [transition] at h
      split at h <;> cases h
      exact InValue.concat hs
  | comment | commentDash | commentDashes | commentPercent =>
      simp only [transition] at h
      (repeat' split at h) <;> cases h <;> exact hs
  | errorInTag =>
      simp only [transition, skipError] at h
      split at h
      · cases h
      · rename_i hb
        cases h
        exact InError.concat hs fun heq => hb (Or.inl heq)

/-- A byte is read in one transition, or it is passed on inside a value. -/
theorem exists_transition_of_consume {effect : Effect Kind} (h : consume s b = (t, effect))
    (hs : TagRead base s seen) :
    ∃ r, transition r b = (t, effect.toAction) ∧ TagRead base r seen := by
  obtain ⟨r, hr, rfl | hpass⟩ := Boundaries.exists_transition_of_consume h
  · exact ⟨r, hr, hs⟩
  · obtain ⟨q, rfl, rfl⟩ := eq_of_transition_reprocess hpass
    exact ⟨.quoted q, hr, hs⟩

theorem tagRead_of_grow (base s t : State) (b : UInt8) (seen : Bytes)
    (h : consume s b = (t, .grow)) (hs : TagRead base s seen) : TagRead base t (seen ++ [b]) := by
  obtain ⟨r, hr, hread⟩ := exists_transition_of_consume h hs
  exact tagRead_of_continue hr hread

/-! ## Tokens with a `>` -/

/-- Where a `>` was read and its token goes on, the token is an error that starts with it, a value or
a comment. -/
theorem states_of_greater (hs : TagRead base s seen) (hgreater : greater ∈ seen) :
    s = .errorInTag ∧ TakesAny base ∧ (∃ tail, seen = greater :: tail ∧ greater ∉ tail) ∨
      (∃ q, (s = .quoted q ∨ s = .escaped q) ∧ InValue base q seen) ∨
      inProgress s = .comment ∧ base = .comment := by
  cases s with
  | outside | afterLess | afterPercent | afterPercentDash | errorOutside | fragmentEnd =>
      exact hs.elim
  | directiveStart | tagNameStart | afterEquals | afterTagName | afterAttribute =>
      obtain ⟨-, rfl⟩ := hs
      cases hgreater
  | tagName | attributeName | closingSlash | closingPercent => exact absurd hgreater hs.2
  | blank gap =>
      cases gap with
      | outside => exact hs.elim
      | _ => exact absurd hgreater hs.2
  | quoted q => exact Or.inr (Or.inl ⟨q, Or.inl rfl, hs⟩)
  | escaped q => exact Or.inr (Or.inl ⟨q, Or.inr rfl, hs⟩)
  | comment | commentDash | commentDashes | commentPercent => exact Or.inr (Or.inr ⟨rfl, hs⟩)
  | errorInTag => exact Or.inl ⟨rfl, InError.of_mem hs hgreater⟩

/-- Between values and comments nothing was read only where the token started. -/
theorem eq_base_of_nil (hquoted : ∀ q, base ≠ .quoted q) (hcomment : base ≠ .comment)
    (hs : TagRead base s []) : s = base := by
  cases s with
  | outside | afterLess | afterPercent | afterPercentDash | errorOutside | fragmentEnd =>
      exact hs.elim
  | directiveStart | tagNameStart | afterTagName | afterAttribute | afterEquals => exact hs.1.symm
  | blank gap =>
      cases gap with
      | outside => exact hs.elim
      | _ => exact absurd rfl hs.1
  | tagName | attributeName | closingSlash | closingPercent => exact absurd rfl hs.1
  | quoted q | escaped q =>
      rcases hs with hbase | ⟨-, -, hhead⟩
      · exact absurd hbase (hquoted q)
      · cases hhead
  | comment | commentDash | commentDashes | commentPercent => exact absurd hs hcomment
  | errorInTag =>
      obtain ⟨_, _, hnil, -⟩ := hs
      cases hnil

/-- Between values and comments, what goes on behind a `>` that was read first is an error. -/
theorem error_of_head (hquoted : ∀ q, base ≠ .quoted q) (hcomment : base ≠ .comment)
    (hs : TagRead base s seen) (hhead : seen.head? = some greater) :
    s = .errorInTag ∧ TakesAny base ∧ ∃ tail, seen = greater :: tail ∧ greater ∉ tail := by
  rcases states_of_greater hs (List.mem_of_mem_head? hhead) with herror | ⟨q, -, hvalue⟩ | ⟨-, hbase⟩
  · exact herror
  · rcases hvalue with hbase | ⟨-, hq, hfirst⟩
    · exact absurd hbase (hquoted q)
    · cases hhead.symm.trans hfirst
      rcases hq with h | h <;> cases h
  · exact absurd hbase hcomment

/-- A byte that completes a token completes a value, a comment or a symbol. A symbol with a `>` closes
the fragment. -/
theorem kind_of_emit (h : transition s b = (t, .emit kind)) (hs : TagRead base s seen) :
    kind = .value ∨ kind = .comment ∨
      kind = .symbol ∧ (t = .fragmentEnd ∨ greater ∉ seen ++ [b]) := by
  revert h
  fun_cases transition s b <;> intro h
  all_goals try simp only [beforeFragment, awaitAttribute, awaitGreater, skipError] at h
  all_goals (repeat' split at h) <;> cases h
  all_goals first | exact hs.elim | exact Or.inl rfl | exact Or.inr (Or.inl rfl) |
    exact Or.inr (Or.inr ⟨rfl, Or.inl rfl⟩) | skip
  -- What is left is the symbol `=`.
  obtain ⟨-, rfl⟩ := hs
  exact Or.inr (Or.inr ⟨rfl, Or.inr (by decide)⟩)

/-- A byte in front of which an error ends leads back to where the end of the fragment is expected. -/
theorem eq_afterTagName_of_emitBefore (h : transition s b = (t, .emitBefore .error))
    (hs : TagRead base s seen) : t = .afterTagName := by
  revert h
  fun_cases transition s b <;> intro h
  all_goals try simp only [beforeFragment, awaitAttribute, awaitGreater, skipError] at h
  all_goals (repeat' split at h) <;> cases h
  all_goals first | exact hs.elim | rfl

/-- A token with a `>` that ends in front of a byte is an error. -/
theorem eq_error_of_emitBefore (h : transition s b = (t, .emitBefore kind))
    (hs : TagRead base s seen) (hgreater : greater ∈ seen) : s = .errorInTag ∧ kind = .error := by
  rcases states_of_greater hs hgreater with ⟨rfl, -, -⟩ | ⟨q, rfl | rfl, -⟩ | ⟨hcomment, -⟩
  · simp only [transition, skipError] at h
    split at h <;> cases h
    exact ⟨rfl, rfl⟩
  · simp only [transition] at h
    (repeat' split at h) <;> cases h
  · simp only [transition] at h
    split at h <;> cases h
  · cases s with
    | comment | commentDash | commentDashes | commentPercent =>
        simp only [transition] at h
        (repeat' split at h) <;> cases h
    | _ => cases hcomment

/-! ## Tokens that end -/

/-- How the token `word` of a fragment comes to its end before `rest`, and the state that it leaves
behind: with a byte, in front of one, or from outside, at the end of its line or of the text or in
front of a script. -/
inductive Ends (base : State) (rest : Bytes) : (word : Bytes) → (kind : Kind) → (after : State) → Prop
  where
  | emit {s t : State} {b : UInt8} {seen : Bytes} {kind : Kind} (reached : TagRead base s seen)
      (ends : transition s b = (t, .emit kind)) : Ends base rest (seen ++ [b]) kind t
  | emitBefore {s t : State} {b : UInt8} {seen : Bytes} {kind : Kind} (reached : TagRead base s seen)
      (next : rest.head? = some b) (ends : transition s b = (t, .emitBefore kind)) :
      Ends base rest seen kind t
  | outside {s after : State} {seen : Bytes} {kind : Kind} (reached : TagRead base s seen)
      (next : rest.head? ≠ some greater)
      (unfinished : kind = inProgress s ∨ rest = [] ∧ kind = atEndOfInput s)
      (leaves : after ≠ .fragmentEnd) : Ends base rest seen kind after

theorem ne_fragmentEnd_of_tagRead (hs : TagRead base s seen) : s ≠ .fragmentEnd := by
  rintro rfl
  exact hs

theorem ends_of_ended (h : Scan.Ended (TagRead base) rest word kind after) :
    Ends base rest word kind after := by
  cases h with
  | close hreached hconsume =>
      obtain ⟨r, hr, hread⟩ := exists_transition_of_consume hconsume hreached
      exact .emit hread hr
  | closeBefore hreached hnext hconsume =>
      obtain ⟨r, hr, hread⟩ := exists_transition_of_consume hconsume hreached
      exact .emitBefore hread hnext hr
  | line hreached hnext =>
      refine .outside hreached ?_ (Or.inl rfl) (ne_fragmentEnd_of_tagRead hreached)
      rw [hnext]
      decide
  | input hreached hnext =>
      refine .outside hreached ?_ (Or.inr ⟨hnext, rfl⟩) (ne_fragmentEnd_of_tagRead hreached)
      rw [hnext]
      exact nofun

/-- What is cut in front of a script ends from outside. -/
theorem ends_of_cut (hs : TagRead base s seen) (hnext : rest.head? = some less) :
    Ends base rest seen (inProgress s) (settle s) := by
  refine .outside hs ?_ (Or.inl rfl) (settle_ne_fragmentEnd (ne_fragmentEnd_of_tagRead hs))
  rw [hnext]
  decide

/-- The kind of what ends from outside with a `>` in it. -/
theorem kind_of_unfinished (hs : TagRead base s seen) (hgreater : greater ∈ seen)
    (hkind : kind = inProgress s ∨ rest = [] ∧ kind = atEndOfInput s) :
    kind = .error ∧ TakesAny base ∧ (∃ tail, seen = greater :: tail ∧ greater ∉ tail) ∨
      kind = .error ∧ rest = [] ∧ (∃ q, InValue base q seen) ∨ kind = .value ∨ kind = .comment := by
  rcases states_of_greater hs hgreater with ⟨rfl, herror⟩ | ⟨q, hq, hvalue⟩ | ⟨hcomment, -⟩
  · rcases hkind with rfl | ⟨-, rfl⟩ <;> exact Or.inl ⟨rfl, herror⟩
  · rcases hkind with rfl | ⟨hrest, rfl⟩
    · rcases hq with rfl | rfl <;> exact Or.inr (Or.inr (Or.inl rfl))
    · refine Or.inr (Or.inl ⟨?_, hrest, q, hvalue⟩)
      rcases hq with rfl | rfl <;> rfl
  · have hend := (atEndOfInput_eq_comment_iff s).mpr ((inProgress_eq_comment_iff s).mp hcomment)
    rcases hkind with rfl | ⟨-, rfl⟩
    · exact Or.inr (Or.inr (Or.inr hcomment))
    · exact Or.inr (Or.inr (Or.inr hend))

/-- A token with a `>` is a value, a comment or an error, or the `>` closes the fragment. -/
theorem kind_of_ends (h : Ends base rest word kind after) (hgreater : greater ∈ word) :
    kind = .value ∨ kind = .comment ∨ kind = .symbol ∧ after = .fragmentEnd ∨ kind = .error := by
  cases h with
  | emit hreached hends =>
      rcases kind_of_emit hends hreached with hvalue | hcomment | ⟨hsymbol, hend | hnone⟩
      · exact Or.inl hvalue
      · exact Or.inr (Or.inl hcomment)
      · exact Or.inr (Or.inr (Or.inl ⟨hsymbol, hend⟩))
      · exact absurd hgreater hnone
  | emitBefore hreached _ hends =>
      exact Or.inr (Or.inr (Or.inr (eq_error_of_emitBefore hends hreached hgreater).2))
  | outside hreached _ hkind =>
      rcases kind_of_unfinished hreached hgreater hkind with h | h | h | h
      · exact Or.inr (Or.inr (Or.inr h.1))
      · exact Or.inr (Or.inr (Or.inr h.1))
      · exact Or.inl h
      · exact Or.inr (Or.inl h)

/-- An error with a `>` is a value that the end of the text cuts short, or it starts where any byte
may start one. -/
theorem error_of_ends (h : Ends base rest word Kind.error after) (hgreater : greater ∈ word) :
    TakesAny base ∧ word.head? = some greater ∨ rest = [] ∧ ∃ q, InValue base q word := by
  generalize hkind : Kind.error = kind at h
  cases h with
  | emit hreached hends =>
      subst hkind
      rcases kind_of_emit hends hreached with h | h | ⟨h, -⟩ <;> cases h
  | emitBefore hreached _ hends =>
      obtain ⟨rfl, -⟩ := eq_error_of_emitBefore hends hreached hgreater
      obtain ⟨hbase, tail, rfl, -⟩ := InError.of_mem hreached hgreater
      exact Or.inl ⟨hbase, rfl⟩
  | outside hreached _ hunfinished =>
      subst hkind
      rcases kind_of_unfinished hreached hgreater hunfinished with
        ⟨-, hbase, tail, rfl, -⟩ | ⟨-, hvalue⟩ | h | h
      · exact Or.inl ⟨hbase, rfl⟩
      · exact Or.inr hvalue
      · cases h
      · cases h

/-- Behind an error that is ended by a `>` the end of the fragment is expected. -/
theorem after_of_error (h : Ends base rest word Kind.error after)
    (hnext : rest.head? = some greater) : after = .afterTagName := by
  generalize hkind : Kind.error = kind at h
  cases h with
  | emit hreached hends =>
      subst hkind
      rcases kind_of_emit hends hreached with h | h | ⟨h, -⟩ <;> cases h
  | emitBefore hreached _ hends =>
      subst hkind
      exact eq_afterTagName_of_emitBefore hends hreached
  | outside _ hne => exact absurd hnext hne

/-- Where any byte may start an error, a `>` starts one that does not close the fragment. -/
theorem swallows_of_ends (h : Ends base rest word kind after) (hbase : TakesAny base)
    (hhead : word.head? = some greater) :
    kind = .error ∧ (∃ tail, word = greater :: tail ∧ greater ∉ tail) ∧ after ≠ .fragmentEnd := by
  cases h with
  | @emit s t b seen _ hreached hends =>
      exfalso
      cases seen with
      | nil =>
          cases hhead
          rw [eq_base_of_nil hbase.ne_quoted hbase.ne_comment hreached] at hends
          rcases hbase with rfl | rfl | rfl <;> cases hends
      | cons first seen =>
          obtain ⟨rfl, -⟩ := error_of_head hbase.ne_quoted hbase.ne_comment hreached hhead
          simp only [transition, skipError] at hends
          split at hends <;> cases hends
  | emitBefore hreached hnext hends =>
      obtain ⟨rfl, -, htail⟩ := error_of_head hbase.ne_quoted hbase.ne_comment hreached hhead
      simp only [transition, skipError] at hends
      split at hends <;> cases hends
      exact ⟨rfl, htail, State.noConfusion⟩
  | outside hreached _ hkind hafter =>
      obtain ⟨rfl, -, htail⟩ := error_of_head hbase.ne_quoted hbase.ne_comment hreached hhead
      refine ⟨?_, htail, hafter⟩
      rcases hkind with rfl | ⟨-, rfl⟩ <;> rfl

/-- Where the end of the fragment is expected, a `>` is the symbol that closes it. -/
theorem closes_of_ends (h : Ends .afterTagName rest word kind after)
    (hhead : word.head? = some greater) :
    word = [greater] ∧ kind = .symbol ∧ after = .fragmentEnd := by
  have hquoted : ∀ q, State.afterTagName ≠ .quoted q := fun q => nofun
  have hcomment : State.afterTagName ≠ .comment := nofun
  have hnone : ∀ {s seen}, TagRead .afterTagName s seen → seen.head? ≠ some greater := by
    intro s seen hs hhead
    obtain ⟨-, h | h | h, -⟩ := error_of_head hquoted hcomment hs hhead <;> cases h
  cases h with
  | @emit s t b seen _ hreached hends =>
      cases seen with
      | nil =>
          cases hhead
          rw [eq_base_of_nil hquoted hcomment hreached] at hends
          cases hends
          exact ⟨rfl, rfl, rfl⟩
      | cons first seen =>
          have hfirst : (first :: seen).head? = some greater := hhead
          exact absurd hfirst (hnone hreached)
  | emitBefore hreached => exact absurd hhead (hnone hreached)
  | outside hreached => exact absurd hhead (hnone hreached)

/-! ## Values -/

/-- A value stands in one of the two quotes. -/
def Quoted (s : State) : Prop :=
  ∀ q, s = .quoted q ∨ s = .escaped q → q = quote ∨ q = apostrophe

theorem not_quoted_resume (gap : Gap) (q : UInt8) :
    ¬ (gap.resume = .quoted q ∨ gap.resume = .escaped q) := by
  cases gap <;> rintro (h | h) <;> cases h

theorem quoted_of_transition (hs : Quoted s) (h : transition s b = (t, action)) : Quoted t := by
  revert h
  fun_cases transition s b <;> intro h
  all_goals try simp only [beforeFragment, awaitAttribute, awaitGreater, skipError] at h
  all_goals (repeat' split at h) <;> cases h
  all_goals rintro q hq
  all_goals first | exact absurd hq (not_quoted_resume _ q) | (rcases hq with hq | hq <;> cases hq)
  -- What is left are the quote that opens a value and the bytes of values.
  all_goals first | assumption | exact hs _ (Or.inl rfl) | exact hs _ (Or.inr rfl)

theorem kept_quoted : Kept Quoted where
  consume h hs := by
    obtain ⟨r, hr, rfl | hpass⟩ := Boundaries.exists_transition_of_consume h
    · exact Or.inl (quoted_of_transition hs hr)
    · exact Or.inl (quoted_of_transition (quoted_of_transition hs hpass) hr)
  settle {s} hs := by
    cases s with
    | quoted q => exact hs
    | escaped q =>
        rintro r (h | h) <;> cases h
        exact hs q (Or.inr rfl)
    | blank gap => exact fun q hq => absurd hq (not_quoted_resume gap q)
    | _ => rintro q (h | h) <;> cases h

/-- A value that is closed is no error. -/
theorem not_unescapedQuote_of_error {q : UInt8} (hq : q = quote ∨ q = apostrophe) {text w : Bytes}
    {found : Token} {scan : Scan State}
    (hvalue : base = .afterEquals ∧ text = q :: w ∨ base = .quoted q ∧ text = w)
    (h : Scan.step (View.whole text) (Scan.atBoundary base) = .ok (.token found scan))
    (herror : found.id = Kind.error.id) (place : Nat) : ¬ UnescapedQuote q w place := by
  intro hplace
  obtain ⟨first, hfirst⟩ := hplace.exists_first
  have hlt : first < w.length := (List.getElem?_eq_some_iff.mp hfirst.quote).1
  rcases hvalue with ⟨rfl, rfl⟩ | ⟨rfl, rfl⟩
  · have hstep := (quoting hq).step_of_firstUnescapedQuote hfirst
    cases h.symm.trans hstep
    cases herror
  · have hrun := (quoting hq).run_of_firstUnescapedQuote hfirst 0
    have hstep := Scan.step_of_kind (View.whole text) hrun
    rw [Scan.finish_eq_token _ _ (Nat.succ_pos _) (by simp only; omega)] at hstep
    cases h.symm.trans hstep
    cases herror

end Tag

end PageLexing
