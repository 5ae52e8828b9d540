import Mathlib.Algebra.Group.Nat.Even
import Mathlib.Data.List.DropRight
import Mathlib.Data.Nat.Find
import PageLexing.Proofs.Sublanguages
import PageLexing.Proofs.Whole

/-!
# Where quoted text ends

The values of tags and the literals of scripts are quoted text: from a quote to the first quote of
the same kind that no backslash escapes. A backslash is itself escaped by one before it, so a quote
closes exactly if the number of backslashes right before it is even. Quoted text never goes over the
end of a line; what the line or the text cuts off was not closed.

The two languages read a backslash in different ways. A script takes any byte behind it as a part of
the text. A tag takes a quote and a backslash in this way, and passes every other byte on to the
unescaped state, which takes it as well. So what is known of either automaton is that it has an
unescaped and an escaped state, and that it is in the escaped one behind an odd number of
backslashes.

## Main results

* `Quoting.run_of_open` — the state behind bytes that do not close the text.
* `Quoting.step_of_firstUnescapedQuote`, `Quoting.step_of_noUnescapedQuote` — the token that
  quoted text is.
* `quotes_close_first` — quoted text closes at the first unescaped quote, in tags and in scripts.
-/

namespace PageLexing

open Automaton Byte

/-! ## Closing quotes -/

/-- How many backslashes `text` ends with. -/
def trailingBackslashes (text : Bytes) : Nat := (text.rtakeWhile (· == backslash)).length

@[simp] theorem trailingBackslashes_concat_backslash (text : Bytes) :
    trailingBackslashes (text ++ [backslash]) = trailingBackslashes text + 1 := by
  rw [trailingBackslashes, List.rtakeWhile_concat_pos _ _ _ (by decide), List.length_append]
  rfl

theorem trailingBackslashes_concat_of_ne (text : Bytes) {b : UInt8} (hb : b ≠ backslash) :
    trailingBackslashes (text ++ [b]) = 0 := by
  rw [trailingBackslashes, List.rtakeWhile_concat_neg _ _ _ (by simpa using hb)]
  rfl

/-- Behind `w.take place`, which goes over no line and does not escape it, the quote `q` stands. -/
structure UnescapedQuote (q : UInt8) (w : Bytes) (place : Nat) : Prop where
  quote : w[place]? = some q
  inLine : newline ∉ w.take place
  unescaped : Even (trailingBackslashes (w.take place))

/-- The quote at `place` is the first one that is not escaped. -/
structure FirstUnescapedQuote (q : UInt8) (w : Bytes) (place : Nat) : Prop
    extends UnescapedQuote q w place where
  first : ∀ before < place, ¬ UnescapedQuote q w before

instance (q : UInt8) (w : Bytes) (place : Nat) : Decidable (UnescapedQuote q w place) :=
  decidable_of_iff
    (w[place]? = some q ∧ newline ∉ w.take place ∧ Even (trailingBackslashes (w.take place)))
    ⟨fun h => ⟨h.1, h.2.1, h.2.2⟩, fun h => ⟨h.quote, h.inLine, h.unescaped⟩⟩

instance (q : UInt8) (w : Bytes) (place : Nat) : Decidable (FirstUnescapedQuote q w place) :=
  decidable_of_iff (UnescapedQuote q w place ∧ ∀ before < place, ¬ UnescapedQuote q w before)
    ⟨fun h => ⟨h.1, h.2⟩, fun h => ⟨h.toUnescapedQuote, h.first⟩⟩

/-- Where there is an unescaped quote there is a first one. -/
theorem UnescapedQuote.exists_first {q : UInt8} {w : Bytes} {place : Nat}
    (h : UnescapedQuote q w place) : ∃ first, FirstUnescapedQuote q w first :=
  have hex : ∃ place, UnescapedQuote q w place := ⟨place, h⟩
  ⟨Nat.find hex, Nat.find_spec hex, fun _ hlt => Nat.find_min hex hlt⟩

/-! ## Automata that read quoted text -/

variable {σ κ : Type} [Automaton σ κ]

/-- From `before`, the quote `q` opens quoted text. -/
structure Quoting (q : UInt8) (before : σ) where
  /-- The state inside quoted text. -/
  plain : σ
  /-- The state behind a backslash that escapes. -/
  escaped : σ
  closed : σ
  whole : κ
  /-- The kind of a token that the end of a line cuts off. -/
  cutByLine : κ
  /-- The kind of a token that the end of the text cuts off. -/
  cutByEnd : κ
  ne_newline : q ≠ newline
  ne_backslash : q ≠ backslash
  opens : consume before q = (plain, .grow)
  consume_backslash : consume plain backslash = (escaped, .grow)
  consume_quote : consume plain q = (closed, .close whole)
  consume_other : ∀ b, b ≠ backslash → b ≠ q → consume plain b = (plain, .grow)
  consume_escaped : ∀ b, consume escaped b = (plain, .grow)
  atLineEnd : ∀ s, s = plain ∨ s = escaped → Automaton.atLineEnd s = cutByLine
  atEndOfInput : ∀ s, s = plain ∨ s = escaped → Automaton.atEndOfInput s = cutByEnd
  refine : ∀ kind, kind = whole ∨ kind = cutByLine ∨ kind = cutByEnd →
    ∀ text, Automaton.refine (σ := σ) kind text = kind

namespace Quoting

variable {q : UInt8} {before : σ} (quoting : Quoting q before) {w : Bytes}

/-- The state behind `seen`, which has not closed the text. -/
def stateAfter (seen : Bytes) : σ :=
  if Even (trailingBackslashes seen) then quoting.plain else quoting.escaped

theorem stateAfter_cases (seen : Bytes) :
    quoting.stateAfter seen = quoting.plain ∨ quoting.stateAfter seen = quoting.escaped := by
  unfold stateAfter
  split
  · exact Or.inl rfl
  · exact Or.inr rfl

/-! ### Single bytes -/

/-- A quote that nothing escapes closes the text. -/
theorem consume_of_unescaped {seen : Bytes} (h : Even (trailingBackslashes seen)) :
    consume (quoting.stateAfter seen) q = (quoting.closed, .close quoting.whole) := by
  rw [stateAfter, if_pos h]
  exact quoting.consume_quote

/-- Any other byte joins the text, and the state goes on to count backslashes. -/
theorem consume_of_open {seen : Bytes} {b : UInt8}
    (h : b = q → ¬ Even (trailingBackslashes seen)) :
    consume (quoting.stateAfter seen) b = (quoting.stateAfter (seen ++ [b]), .grow) := by
  by_cases heven : Even (trailingBackslashes seen)
  · have hquote : b ≠ q := fun heq => h heq heven
    rw [stateAfter, if_pos heven]
    by_cases hb : b = backslash
    · subst hb
      rw [quoting.consume_backslash, stateAfter, trailingBackslashes_concat_backslash,
        if_neg (by rwa [Nat.even_add_one, not_not])]
    · rw [quoting.consume_other b hb hquote, stateAfter, trailingBackslashes_concat_of_ne seen hb,
        if_pos (by decide)]
  · rw [stateAfter, if_neg heven, quoting.consume_escaped]
    -- A backslash that is escaped makes their number even, and any other byte makes it zero.
    have heven' : Even (trailingBackslashes (seen ++ [b])) := by
      by_cases hb : b = backslash
      · subst hb
        rwa [trailingBackslashes_concat_backslash, Nat.even_add_one]
      · rw [trailingBackslashes_concat_of_ne seen hb]
        decide
    rw [stateAfter, if_pos heven']

/-! ### The run -/

/-- As long as nothing closes the text and no line ends, every byte joins it. -/
theorem run_of_open {stop : Nat} (hstop : stop ≤ w.length) (hline : newline ∉ w.take stop)
    (hopen : ∀ place < stop, ¬ UnescapedQuote q w place) (read : Nat) :
    Scan.run quoting.plain read w.length w =
      Scan.run (quoting.stateAfter (w.take stop)) (read + stop) (w.length - stop)
        (w.drop stop) := by
  induction stop with
  | zero => rfl
  | succ stop ih =>
      have hlt : stop < w.length := hstop
      have htake : w.take (stop + 1) = w.take stop ++ [w[stop]] :=
        List.take_succ_eq_append_getElem hlt
      rw [htake, List.mem_append, not_or, List.mem_singleton] at hline
      have hbyte : w[stop] = q → ¬ Even (trailingBackslashes (w.take stop)) := by
        intro heq heven
        refine hopen stop (Nat.lt_succ_self stop) ⟨?_, hline.1, heven⟩
        rw [List.getElem?_eq_getElem hlt, heq]
      rw [ih (Nat.le_of_lt hlt) hline.1 fun place hplace => hopen place (Nat.lt_succ_of_lt hplace),
        List.drop_eq_getElem_cons hlt,
        show w.length - stop = (w.length - (stop + 1)) + 1 by omega, Scan.run,
        if_neg fun heq => hline.2 heq.symm, quoting.consume_of_open hbyte, htake]
      rfl

/-- The first quote that closes the text ends the run. -/
theorem run_of_firstUnescapedQuote {place : Nat} (h : FirstUnescapedQuote q w place) (read : Nat) :
    Scan.run quoting.plain read w.length w =
      (⟨quoting.closed, read + place + 1⟩, .kind quoting.whole) := by
  obtain ⟨hlt, hquote⟩ := List.getElem?_eq_some_iff.mp h.quote
  rw [quoting.run_of_open (Nat.le_of_lt hlt) h.inLine h.first,
    List.drop_eq_getElem_cons hlt, hquote,
    show w.length - place = (w.length - (place + 1)) + 1 by omega, Scan.run,
    if_neg quoting.ne_newline, quoting.consume_of_unescaped h.unescaped]

/-- If nothing closes the text, it goes on to the end of its line. -/
theorem run_of_noUnescapedQuote (h : ∀ place, ¬ UnescapedQuote q w place) (read : Nat) :
    Scan.run quoting.plain read w.length w =
      (⟨quoting.stateAfter (w.take (w.idxOf newline)), read + w.idxOf newline⟩,
        if newline ∈ w then .line else .window) := by
  have hle : w.idxOf newline ≤ w.length := List.idxOf_le_length
  have hline : newline ∉ w.take (w.idxOf newline) := by
    intro hmem
    exact Nat.lt_irrefl _ ((List.mem_take_iff_idxOf_lt (List.mem_of_mem_take hmem)).mp hmem)
  rw [quoting.run_of_open hle hline fun place _ => h place]
  by_cases hmem : newline ∈ w
  · have hlt : w.idxOf newline < w.length := List.idxOf_lt_length_iff.mpr hmem
    rw [List.drop_eq_getElem_cons hlt, List.getElem_idxOf hlt, if_pos hmem,
      show w.length - w.idxOf newline = (w.length - (w.idxOf newline + 1)) + 1 by omega, Scan.run,
      if_pos rfl]
  · rw [if_neg hmem, List.idxOf_of_notMem hmem, Nat.sub_self]
    rfl

/-- The quote opens the text. -/
theorem run_cons (w : Bytes) :
    Scan.run before 0 (q :: w).length (q :: w) = Scan.run quoting.plain 1 w.length w := by
  rw [List.length_cons, Scan.run, if_neg quoting.ne_newline, quoting.opens]

/-! ### The token -/

variable [TokenKind κ]

/-- Quoted text that is closed is one token, with both of its quotes. -/
theorem step_of_firstUnescapedQuote {place : Nat} (h : FirstUnescapedQuote q w place) :
    Scan.step (View.whole (q :: w)) (Scan.atBoundary before) =
      .ok (.token ⟨TokenKind.id quoting.whole, place + 2⟩ (Scan.atBoundary quoting.closed)) := by
  have hrun := (quoting.run_cons w).trans (quoting.run_of_firstUnescapedQuote h 1)
  have hlt : place < w.length := (List.getElem?_eq_some_iff.mp h.quote).1
  rw [Scan.step_of_kind (View.whole (q :: w)) hrun,
    Scan.finish_eq_token _ _ (Nat.succ_pos _) (by simp only [List.length_cons]; omega),
    quoting.refine _ (Or.inl rfl), show 1 + place + 1 = place + 2 by omega]

/-- Quoted text that is not closed is one token, which ends with its line. -/
theorem step_of_noUnescapedQuote (h : ∀ place, ¬ UnescapedQuote q w place) :
    ∃ after, Scan.step (View.whole (q :: w)) (Scan.atBoundary before) =
      .ok (.token ⟨TokenKind.id (if newline ∈ w then quoting.cutByLine else quoting.cutByEnd),
        1 + w.idxOf newline⟩ after) := by
  have hrun := (quoting.run_cons w).trans (quoting.run_of_noUnescapedQuote h 1)
  have hpos : 0 < 1 + w.idxOf newline := by omega
  have hle : 1 + w.idxOf newline ≤ (q :: w).length := by
    have := List.idxOf_le_length (a := newline) (l := w)
    simp only [List.length_cons]
    omega
  have hstate := quoting.stateAfter_cases (w.take (w.idxOf newline))
  refine ⟨Scan.atBoundary (quoting.stateAfter (w.take (w.idxOf newline))), ?_⟩
  by_cases hmem : newline ∈ w
  · rw [if_pos hmem] at hrun ⊢
    rw [Scan.step_of_line (View.whole (q :: w)) hrun, if_pos hpos,
      Scan.finish_eq_token _ _ hpos hle, quoting.atLineEnd _ hstate,
      quoting.refine _ (Or.inr (Or.inl rfl))]
  · rw [if_neg hmem] at hrun ⊢
    rw [Scan.step_of_window (View.whole (q :: w)) hrun, if_pos ⟨rfl, hpos⟩,
      Scan.finish_eq_token _ _ hpos hle, quoting.atEndOfInput _ hstate,
      quoting.refine _ (Or.inr (Or.inr rfl))]

end Quoting

/-! ## Quotes of tags and of scripts -/

section

variable {q : UInt8} (hq : q = quote ∨ q = apostrophe)

/-- Either quote opens the value of an attribute. -/
def Tag.quoting : Quoting q Tag.State.afterEquals where
  plain := .quoted q
  escaped := .escaped q
  closed := .afterTagName
  whole := .value
  cutByLine := .value
  cutByEnd := .error
  ne_newline := by rcases hq with rfl | rfl <;> decide
  ne_backslash := by rcases hq with rfl | rfl <;> decide
  opens := by rcases hq with rfl | rfl <;> rfl
  consume_backslash := rfl
  consume_quote := by rcases hq with rfl | rfl <;> rfl
  consume_other b hb hne := consume_of_transition (by
    show Tag.transition (.quoted q) b = (.quoted q, .continue)
    rw [Tag.transition, if_neg hb, if_neg hne])
  consume_escaped b := by
    by_cases hb : b = q ∨ b = backslash
    · exact consume_of_transition (if_pos hb)
    · -- The byte is passed on to the unescaped state, which takes it.
      refine consume_of_reprocess (if_neg hb) ?_
      rw [not_or] at hb
      show Tag.transition (.quoted q) b = (.quoted q, .continue)
      rw [Tag.transition, if_neg hb.2, if_neg hb.1]
  atLineEnd := by rintro s (rfl | rfl) <;> rfl
  atEndOfInput := by rintro s (rfl | rfl) <;> rfl
  refine _ _ _ := rfl

/-- Either quote opens a literal. -/
def Script.quoting : Quoting q Script.State.start where
  plain := .quoted q
  escaped := .escaped q
  closed := .start
  whole := Script.quotedKind q
  cutByLine := .error
  cutByEnd := .error
  ne_newline := by rcases hq with rfl | rfl <;> decide
  ne_backslash := by rcases hq with rfl | rfl <;> decide
  opens := by rcases hq with rfl | rfl <;> rfl
  consume_backslash := rfl
  consume_quote := by rcases hq with rfl | rfl <;> rfl
  consume_other b hb hne := consume_of_transition (by
    show Script.transition (.quoted q) b = (.quoted q, .continue)
    rw [Script.transition, if_neg hb, if_neg hne])
  consume_escaped _ := consume_of_transition rfl
  atLineEnd := by rintro s (rfl | rfl) <;> rfl
  atEndOfInput := by rintro s (rfl | rfl) <;> rfl
  refine := by
    rintro kind hkind text
    refine if_neg fun h => ?_
    rw [h.1] at hkind
    rcases hq with rfl | rfl <;> revert hkind <;> decide

end

/-- A reader that goes on from `state` at the start of `text` answers `token` first. -/
def Grammar.AnswersFirst {σ : Type} (grammar : Grammar σ) (state : σ) (text : Bytes)
    (token : Token) : Prop :=
  ∃ loaded after, (Reader.new grammar).load (some state) text 0 text.length true = .ok loaded ∧
    loaded.next = .ok (some token, after)

/-- The token that a step completes is answered. -/
theorem Grammar.answersFirst_of_step {σ : Type} {grammar : Grammar σ}
    (resumption : grammar.Resumption) {text : Bytes} {state next : σ} {token : Token}
    (hready : resumption.Ready text state)
    (hstep : grammar.step (View.whole text) state = .ok (.token token next)) :
    grammar.AnswersFirst state text token :=
  ⟨_, _, Reader.load_ofRest resumption hready (Nat.zero_le _), Reader.next_ofRest_of_token hstep⟩

/-- Quoted text closes at the first quote of its kind that is not escaped, or else it ends with its
line; the same in the values of tags and in the literals of scripts. -/
theorem quotes_close_first (q : UInt8) (hq : q = quote ∨ q = apostrophe) (w : Bytes) :
    (∀ place, FirstUnescapedQuote q w place →
        (grammar Tag.State Tag.Kind).AnswersFirst (Scan.atBoundary .afterEquals) (q :: w)
            ⟨Tag.Kind.value.id, place + 2⟩ ∧
          (grammar Script.State Script.Kind).AnswersFirst (Scan.atBoundary .start) (q :: w)
            ⟨if q = quote then Script.Kind.string.id else Script.Kind.char.id, place + 2⟩) ∧
      ((∀ place, ¬ UnescapedQuote q w place) →
        (grammar Tag.State Tag.Kind).AnswersFirst (Scan.atBoundary .afterEquals) (q :: w)
            ⟨if newline ∈ w then Tag.Kind.value.id else Tag.Kind.error.id,
              1 + w.idxOf newline⟩ ∧
          (grammar Script.State Script.Kind).AnswersFirst (Scan.atBoundary .start) (q :: w)
            ⟨Script.Kind.error.id, 1 + w.idxOf newline⟩) := by
  have htag : (resumption Tag.State Tag.Kind).Ready (q :: w) (Scan.atBoundary .afterEquals) :=
    ⟨rfl, Scan.ready_of_isBoundary rfl _⟩
  have hscript : (resumption Script.State Script.Kind).Ready (q :: w) (Scan.atBoundary .start) :=
    ⟨rfl, Scan.ready_of_isBoundary rfl _⟩
  have hkind : (if q = quote then Script.Kind.string.id else Script.Kind.char.id) =
      (Script.quotedKind q).id := by
    rcases hq with rfl | rfl <;> rfl
  constructor
  · intro place h
    rw [hkind]
    exact ⟨Grammar.answersFirst_of_step _ htag ((Tag.quoting hq).step_of_firstUnescapedQuote h),
      Grammar.answersFirst_of_step _ hscript ((Script.quoting hq).step_of_firstUnescapedQuote h)⟩
  · intro h
    obtain ⟨afterTag, hstepTag⟩ := (Tag.quoting hq).step_of_noUnescapedQuote h
    obtain ⟨afterScript, hstepScript⟩ := (Script.quoting hq).step_of_noUnescapedQuote h
    have hcut : TokenKind.id (if newline ∈ w then Tag.Kind.value else Tag.Kind.error) =
        if newline ∈ w then Tag.Kind.value.id else Tag.Kind.error.id := apply_ite Tag.Kind.id _ _ _
    have herror : TokenKind.id (if newline ∈ w then Script.Kind.error else Script.Kind.error) =
        Script.Kind.error.id := congrArg Script.Kind.id (ite_self _)
    have htoken := Grammar.answersFirst_of_step _ htag hstepTag
    have hliteral := Grammar.answersFirst_of_step _ hscript hstepScript
    exact ⟨hcut ▸ htoken, herror ▸ hliteral⟩

/-- In `\"a\\"` the first quote is escaped, and in `\"a` there is no other. -/
theorem quotes_close_first_escaped :
    (grammar Tag.State Tag.Kind).AnswersFirst (Scan.atBoundary .afterEquals)
        (quote :: [backslash, quote, 0x61, backslash, backslash, quote]) ⟨Tag.Kind.value.id, 7⟩ ∧
      (grammar Script.State Script.Kind).AnswersFirst (Scan.atBoundary .start)
        (quote :: [backslash, quote, 0x61]) ⟨Script.Kind.error.id, 4⟩ := by
  constructor
  · exact ((quotes_close_first quote (Or.inl rfl)
      [backslash, quote, 0x61, backslash, backslash, quote]).1 5 (by decide)).1
  · refine ((quotes_close_first quote (Or.inl rfl) [backslash, quote, 0x61]).2 ?_).2
    intro place h
    have hlt := (List.getElem?_eq_some_iff.mp h.quote).1
    have hnone : ∀ place < 3, ¬ UnescapedQuote quote [backslash, quote, 0x61] place := by decide
    exact hnone place hlt h

end PageLexing
