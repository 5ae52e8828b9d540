import PageLexing.Proofs.Partition
import PageLexing.Proofs.Sublanguages

/-!
# Symbols of markup

Markup has five symbols: `<`, `</`, `=`, `>` and `/>`. A `<` that opens no element and a `/` that
closes none are errors, whether another byte or the end of the text comes behind them. Before a
newline they are not: what a line ends has the kind that it had so far, and so far it was a symbol.
There a symbol `<` has no name behind it, and `/` is a sixth symbol. Nowhere else is a symbol
incomplete.

## Main results

* `Markup.symbol_of_ended` — a symbol that is ended.
* `Markup.step_of_unfinished` — what ends a `<` or a `/` tells its kind.
* `Markup.symbols_exact` — the symbols of a text.
-/

namespace PageLexing

namespace Markup

open Automaton Byte

/-- The symbols of markup. -/
def symbols : List Bytes := [[less], [less, slash], [equals], [greater], [slash, greater]]

/-! ## The automaton in front of symbols -/

/-- What was read of a token, in the states from which it may become a symbol or a text. -/
def SymbolRead : State → Bytes → Prop
  | .content, seen | .tagNameStart, seen | .inTag, seen | .afterAttribute, seen
  | .afterEquals, seen => seen = []
  | .text, seen | .charRef, seen => less ∉ seen
  | .afterLess, seen => seen = [less]
  | .afterSlash, seen => seen = [slash]
  | _, _ => True

variable {s t after : State} {b : UInt8} {seen word behind : Bytes} {kind : Kind}

/-- Markup reads each byte in one transition. -/
theorem transition_of_consume {effect : Effect Kind} (h : consume s b = (t, effect)) :
    transition s b = (t, effect.toAction) :=
  Boundaries.transition_of_consume (transition_reads s b) h

/-- At a boundary nothing was read. -/
theorem symbolRead_nil (h : Boundaries.isBoundary s = true) : SymbolRead s [] := by
  cases s with
  | content | tagNameStart | inTag | afterAttribute | afterEquals => rfl
  | text | charRef | afterLess | afterSlash => cases h
  | _ => trivial

theorem symbolRead_of_grow (s t : State) (b : UInt8) (seen : Bytes)
    (h : consume s b = (t, .grow)) (hs : SymbolRead s seen) : SymbolRead t (seen ++ [b]) := by
  have h := transition_of_consume h
  revert h
  fun_cases transition s b <;> intro h <;> cases h <;> first | trivial | skip
  -- What is left are first bytes, and the bytes that go on with a text: these are no `<`.
  all_goals simp_all only [SymbolRead, List.nil_append, List.mem_append, List.mem_singleton, not_or,
    true_and, not_false_eq_true]
  · decide
  · rename_i hless _
    exact fun heq => hless heq.symm
  · rename_i hless
    exact fun heq => hless.1 heq.symm
  · rename_i hbyte
    rintro rfl
    exact absurd hbyte (by decide)

/-- A byte that completes a symbol comes to one of the list, and to no `<`. -/
theorem mem_symbols_of_emit (h : transition s b = (t, .emit .symbol)) (hs : SymbolRead s seen) :
    seen ++ [b] ∈ symbols ∧ seen ++ [b] ≠ [less] := by
  revert h
  fun_cases transition s b <;> intro h <;> cases h <;>
    (rw [show seen = _ from hs]; decide)

/-- Only a byte that starts a name ends a symbol without joining it. -/
theorem name_of_emitBefore (h : transition s b = (t, .emitBefore .symbol))
    (hs : SymbolRead s seen) : seen = [less] ∧ t = .tagNameStart ∧ isNameStart b = true := by
  revert h
  fun_cases transition s b <;> intro h <;> cases h
  rename_i hname
  exact ⟨hs, rfl, hname⟩

/-- A token that is a symbol so far is a `<` or a `/`. -/
theorem eq_of_inProgress (h : inProgress s = .symbol) (hs : SymbolRead s seen) (hne : seen ≠ []) :
    seen = [less] ∨ seen = [slash] := by
  cases s with
  | afterLess => exact Or.inl hs
  | afterSlash => exact Or.inr hs
  | tagNameStart => exact absurd hs hne
  | _ => cases h

/-- No text has a `<`. -/
theorem less_notMem_of_inProgress (h : inProgress s = .text) (hs : SymbolRead s seen) :
    less ∉ seen := by
  cases s with
  | content =>
      rw [show seen = [] from hs]
      exact List.not_mem_nil
  | text | charRef => exact hs
  | _ => cases h

/-- The end of the text makes no symbol of what was read. -/
theorem nil_of_atEndOfInput (h : atEndOfInput s = .symbol) (hs : SymbolRead s seen) :
    seen = [] := by
  cases s with
  | tagNameStart => exact hs
  | _ => cases h

/-- The end of the text makes no text of what was none so far. -/
theorem inProgress_of_atEndOfInput (h : atEndOfInput s = .text) : inProgress s = .text := by
  cases s with
  | afterLess | afterSlash | quoted => cases h
  | _ => exact h

/-- A byte ends a text only in front of it. -/
theorem less_notMem_of_emitBefore (h : transition s b = (t, .emitBefore .text))
    (hs : SymbolRead s seen) : less ∉ seen := by
  revert h
  fun_cases transition s b <;> intro h <;> cases h <;> exact hs

theorem transition_ne_text : transition s b ≠ (t, .emit .text) := by
  fun_cases transition s b <;> intro h <;> cases h

/-! ## Tokens that end -/

/-- A symbol that is ended is one of the list, and a `<` has a name behind it; or it is a `<` or a
`/` that its line ends. -/
theorem symbol_of_ended (h : Scan.Ended SymbolRead behind word Kind.symbol after)
    (hne : word ≠ []) :
    word ∈ symbols ∧ (word = [less] →
        after = .tagNameStart ∧ ∃ b, behind.head? = some b ∧ isNameStart b = true) ∨
      (word = [less] ∨ word = [slash]) ∧ behind.head? = some newline := by
  generalize hkind : Kind.symbol = kind at h
  cases h with
  | close hreached hconsume =>
      subst hkind
      obtain ⟨hmem, hless⟩ := mem_symbols_of_emit (transition_of_consume hconsume) hreached
      exact Or.inl ⟨hmem, fun heq => absurd heq hless⟩
  | closeBefore hreached hnext hconsume =>
      subst hkind
      obtain ⟨rfl, rfl, hname⟩ := name_of_emitBefore (transition_of_consume hconsume) hreached
      exact Or.inl ⟨by decide, fun _ => ⟨rfl, _, hnext, hname⟩⟩
  | line hreached hnext =>
      exact Or.inr ⟨eq_of_inProgress hkind.symm hreached hne, hnext⟩
  | input hreached => exact absurd (nil_of_atEndOfInput hkind.symm hreached) hne

/-- A text that is ended has no `<`. -/
theorem less_notMem_of_ended (h : Scan.Ended SymbolRead behind word Kind.text after) :
    less ∉ word := by
  generalize hkind : Kind.text = kind at h
  cases h with
  | close _ hconsume =>
      subst hkind
      exact absurd (transition_of_consume hconsume) transition_ne_text
  | closeBefore hreached _ hconsume =>
      subst hkind
      exact less_notMem_of_emitBefore (transition_of_consume hconsume) hreached
  | line hreached => exact less_notMem_of_inProgress hkind.symm hreached
  | input hreached =>
      exact less_notMem_of_inProgress (inProgress_of_atEndOfInput hkind.symm) hreached

/-! ## Names behind symbols -/

/-- What was read where a name may start: a first byte that may stand in a name has begun one. -/
def NameRead (s : State) (seen : Bytes) : Prop :=
  seen = [] ∧ s = .tagNameStart ∨
    ∃ first rest, seen = first :: rest ∧ (isNameByte first = true → s = .tagName)

theorem nameRead_of_grow (s t : State) (b : UInt8) (seen : Bytes)
    (h : consume s b = (t, .grow)) (hs : NameRead s seen) : NameRead t (seen ++ [b]) := by
  have h := transition_of_consume h
  rcases hs with ⟨rfl, rfl⟩ | ⟨first, rest, rfl, hname⟩
  · refine Or.inr ⟨b, [], rfl, fun hbyte => ?_⟩
    simp only [transition, if_pos hbyte] at h
    cases h
    rfl
  · refine Or.inr ⟨first, rest ++ [b], rfl, fun hfirst => ?_⟩
    obtain rfl := hname hfirst
    simp only [transition] at h
    split at h
    · cases h
      rfl
    · cases h

/-- However a token is ended that starts with a byte of a name where a name may start, it is one. -/
theorem eq_tagName_of_ended (h : Scan.Ended NameRead behind word kind after)
    (hhead : word.head? = some b) (hb : isNameByte b = true) : kind = .tagName := by
  -- Behind the first byte the automaton stands in the name.
  have hstands : ∀ {s seen}, NameRead s seen → seen.head? = some b → s = .tagName := by
    rintro s seen (⟨rfl, -⟩ | ⟨first, rest, rfl, hname⟩) hhead
    · cases hhead
    · cases hhead
      exact hname hb
  cases h with
  | @close s _ c seen _ hreached hconsume =>
      have h := transition_of_consume hconsume
      cases seen with
      | nil =>
          cases hhead
          rcases hreached with ⟨-, rfl⟩ | ⟨_, _, hnil, -⟩
          · simp only [transition, if_pos hb] at h
            cases h
          · cases hnil
      | cons first rest =>
          obtain rfl := hstands hreached hhead
          simp only [transition] at h
          split at h <;> cases h
  | closeBefore hreached _ hconsume =>
      have h := transition_of_consume hconsume
      obtain rfl := hstands hreached hhead
      simp only [transition] at h
      split at h <;> cases h
      rfl
  | line hreached =>
      obtain rfl := hstands hreached hhead
      rfl
  | input hreached =>
      obtain rfl := hstands hreached hhead
      rfl

/-- Where a name may start, a byte of a name starts one. -/
theorem tagName_of_step {text : Bytes} {found : Token} {scan : Scan State}
    (hhead : text.head? = some b) (hb : isNameByte b = true) (hpos : 0 < found.len)
    (h : Scan.step (View.whole text) (Scan.atBoundary State.tagNameStart) =
      .ok (.token found scan)) : found.id = Kind.tagName.id := by
  rcases Scan.ended_of_step nameRead_of_grow (Or.inl ⟨rfl, rfl⟩) h with
    ⟨-, hline⟩ | ⟨kind, hid, hended⟩
  · cases hhead.symm.trans hline
    rw [isNameByte_newline] at hb
    cases hb
  · have hword : (text.take found.len).head? = some b := by
      rwa [List.head?_take, if_neg (Nat.ne_of_gt hpos)]
    rw [eq_tagName_of_ended hended hword hb] at hid
    exact hid

/-! ## Symbols that stay unfinished -/

/-- A `<` that opens nothing, or a `/` that does not close its element, is the next byte of a text
that is read from the state, and `behind` is what comes behind it. -/
inductive Stray (behind : Bytes) : State → Bytes → Prop where
  | less (opens : ∀ b, behind.head? = some b → b ≠ slash ∧ b ≠ bang ∧ isNameStart b = false) :
      Stray behind .content (less :: behind)
  | slash (closes : behind.head? ≠ some greater) : Stray behind .inTag (slash :: behind)
  | slashBehindAttribute (closes : behind.head? ≠ some greater) :
      Stray behind .afterAttribute (slash :: behind)

/-- The token of one byte that is a symbol if its line ends behind it, and an error otherwise. -/
def unfinished (behind : Bytes) : Token :=
  ⟨if behind.head? = some newline then Kind.symbol.id else Kind.error.id, 1⟩

theorem unfinished_of_newline (h : behind.head? = some newline) :
    unfinished behind = ⟨Kind.symbol.id, 1⟩ := by
  rw [unfinished, if_pos h]

theorem unfinished_of_ne (h : behind.head? ≠ some newline) :
    unfinished behind = ⟨Kind.error.id, 1⟩ := by
  rw [unfinished, if_neg h]

/-- A byte that only begins a symbol is a token that tells what ended it. -/
theorem step_of_unfinished (hb : b ≠ newline) (hread : transition s b = (t, .continue))
    (hline : inProgress t = .symbol) (hinput : atEndOfInput t = .error)
    (hends : ∀ c, behind.head? = some c → ∃ u, transition t c = (u, .emitBefore .error)) :
    ∃ scan, Scan.step (View.whole (b :: behind)) (Scan.atBoundary s) =
      .ok (.token (unfinished behind) scan) := by
  have hconsume : consume s b = (t, .grow) := consume_of_transition hread
  have hfinish : ∀ (u : State) (kind : Kind),
      Scan.finish (View.whole (b :: behind)) ⟨u, 1⟩ kind =
        .ok (.token ⟨kind.id, 1⟩ (Scan.atBoundary u)) := fun u kind =>
    Scan.finish_eq_token (View.whole (b :: behind)) kind Nat.one_pos
      (Nat.succ_le_succ (Nat.zero_le _))
  cases behind with
  | nil =>
      have hrun : Scan.run s 0 1 [b] = (⟨t, 1⟩, .window) := by
        simp only [Scan.run, if_neg hb, hconsume]
      have hstep := Scan.step_of_window (View.whole [b]) hrun
      rw [if_pos ⟨rfl, Nat.one_pos⟩, show Automaton.atEndOfInput t = Kind.error from hinput,
        hfinish] at hstep
      exact ⟨_, hstep⟩
  | cons c rest =>
      by_cases hc : c = newline
      · have hrun : Scan.run s 0 (b :: c :: rest).length (b :: c :: rest) = (⟨t, 1⟩, .line) := by
          simp only [List.length_cons, Scan.run, if_neg hb, hconsume, if_pos hc]
        have hstep := Scan.step_of_line (View.whole (b :: c :: rest)) hrun
        have hhead : (c :: rest).head? = some newline := congrArg some hc
        rw [if_pos Nat.one_pos, show Automaton.atLineEnd t = Kind.symbol from hline, hfinish,
          ← unfinished_of_newline hhead] at hstep
        exact ⟨_, hstep⟩
      · obtain ⟨u, hu⟩ := hends c rfl
        have hclose : consume t c = (u, .closeBefore .error) := consume_of_transition hu
        have hrun : Scan.run s 0 (b :: c :: rest).length (b :: c :: rest) =
            (⟨u, 1⟩, .kind .error) := by
          simp only [List.length_cons, Scan.run, if_neg hb, hconsume, if_neg hc, hclose]
        have hstep := Scan.step_of_kind (View.whole (b :: c :: rest)) hrun
        have hhead : (c :: rest).head? ≠ some newline := fun heq => hc (Option.some.inj heq)
        rw [hfinish, ← unfinished_of_ne hhead] at hstep
        exact ⟨_, hstep⟩

/-- A stray `<` or `/` is a token that tells what ended it. -/
theorem step_of_stray {text : Bytes} (h : Stray behind s text) :
    ∃ scan, Scan.step (View.whole text) (Scan.atBoundary s) =
      .ok (.token (unfinished behind) scan) := by
  have hslash : behind.head? ≠ some greater →
      ∀ c, behind.head? = some c → ∃ u, transition .afterSlash c = (u, .emitBefore .error) :=
    fun hcloses c hc => ⟨.inTag, if_neg (by rintro rfl; exact hcloses hc)⟩
  cases h with
  | less hopens =>
      refine step_of_unfinished (t := .afterLess) (by decide) rfl rfl rfl fun c hc => ?_
      obtain ⟨hslash, hbang, hname⟩ := hopens c hc
      refine ⟨.content, ?_⟩
      simp only [transition, if_neg hslash, if_neg hbang, hname, Bool.false_eq_true, if_false]
  | slash hcloses =>
      exact step_of_unfinished (t := .afterSlash) (by decide) rfl rfl rfl (hslash hcloses)
  | slashBehindAttribute hcloses =>
      exact step_of_unfinished (t := .afterSlash) (by decide) rfl rfl rfl (hslash hcloses)

/-! ## The symbols of a text -/

/-- The symbol is one of the list, and a `<` has the name of an element behind it. -/
structure Complete (source : Bytes) (passage : Passage (Scan State))
    (rest : List (Passage (Scan State))) : Prop where
  listed : passage.span.text source ∈ symbols
  named : passage.span.text source = [less] →
    ∃ name more, rest = name :: more ∧ name.token.id = Kind.tagName.id

/-- The symbol is a `<` or a `/` that its line ends. -/
def CutShort (source : Bytes) (passage : Passage (Scan State)) : Prop :=
  (passage.span.text source = [less] ∨ passage.span.text source = [slash]) ∧
    (source.drop passage.span.stop).head? = some newline

variable {source : Bytes} {passage : Passage (Scan State)} {rest : List (Passage (Scan State))}
  {final : Scan State}

/-- A token is a newline, or it has a kind and comes to its end in one of the ways in which a token
does. -/
theorem ended_of_stands
    (h : (Automaton.resumption State Kind).Stands source passage rest final) :
    passage.token = Token.endOfLine ∨ ∃ kind : Kind, passage.token.id = kind.id ∧
      Scan.Ended SymbolRead (source.drop passage.span.stop) (passage.span.text source) kind
        passage.after.state := by
  have hstep := h.step
  rw [← Scan.atBoundary_state h.ready.1] at hstep
  rcases Scan.ended_of_ready symbolRead_of_grow symbolRead_nil h.ready.2 hstep with
    ⟨hline, -⟩ | ⟨kind, hid, hended⟩
  · exact Or.inl hline
  · rw [List.drop_drop] at hended
    exact Or.inr ⟨kind, hid, hended⟩

/-- A token with the number of a kind is no newline, and it ends as one of that kind. -/
theorem ended_of_kind (h : (Automaton.resumption State Kind).Stands source passage rest final)
    (hid : passage.token.id = kind.id) :
    Scan.Ended SymbolRead (source.drop passage.span.stop) (passage.span.text source) kind
      passage.after.state := by
  rcases ended_of_stands h with hline | ⟨found, hfound, hended⟩
  · have hid := hid.symm.trans (congrArg Token.id hline)
    cases kind <;> cases hid
  · cases Kind.id_injective (hid.symm.trans hfound)
    exact hended

/-- Behind a `<` with a byte behind it that may start a name, the name is read. -/
theorem exists_name_of_stands
    (h : (Automaton.resumption State Kind).Stands source passage rest final)
    (hafter : passage.after.state = .tagNameStart)
    (hhead : (source.drop passage.span.stop).head? = some b) (hb : isNameStart b = true) :
    ∃ name more, rest = name :: more ∧ name.token.id = Kind.tagName.id := by
  obtain ⟨name, more, hrest, hname, hstart, hbefore⟩ := h.exists_next hhead
  refine ⟨name, more, hrest, ?_⟩
  have hstep := hname.step
  rw [← Scan.atBoundary_state hname.ready.1, hbefore, hafter, hstart] at hstep
  exact tagName_of_step hhead (isNameByte_of_isNameStart hb) hname.pos hstep

/-- A symbol that its line cuts short is not complete: it is no `/` of the list, and behind a newline
stands no name. -/
theorem not_complete_of_cutShort
    (h : (Automaton.resumption State Kind).Stands source passage rest final)
    (hcut : CutShort source passage) : ¬ Complete source passage rest := by
  rintro ⟨hlisted, hnamed⟩
  obtain ⟨hless | hslash, hline⟩ := hcut
  · obtain ⟨name, more, rfl, hid⟩ := hnamed hless
    obtain ⟨_, _, heq, hname, hstart, -⟩ := h.exists_next hline
    cases heq
    have hstep := hname.step
    rw [← Scan.atBoundary_state hname.ready.1, hstart] at hstep
    have hnewline := hstep.symm.trans (Scan.step_of_newline hline)
    simp only [Except.ok.injEq, Step.token.injEq] at hnewline
    rw [hnewline.1] at hid
    exact absurd hid (by decide)
  · rw [hslash] at hlisted
    exact absurd hlisted (by decide)

/-- A symbol is complete unless its line cuts it short. -/
theorem complete_iff (h : (Automaton.resumption State Kind).Stands source passage rest final)
    (hsymbol : passage.token.id = Kind.symbol.id) :
    Complete source passage rest ↔ ¬ CutShort source passage := by
  refine ⟨fun hcomplete hcut => not_complete_of_cutShort h hcut hcomplete, fun hwhole => ?_⟩
  obtain ⟨hlisted, hname⟩ :=
    (symbol_of_ended (ended_of_kind h hsymbol) h.text_ne_nil).resolve_right hwhole
  refine ⟨hlisted, fun hless => ?_⟩
  obtain ⟨hafter, b, hhead, hb⟩ := hname hless
  exact exists_name_of_stands h hafter hhead hb

/-- A stray `<` or `/` is read as a token of its own. -/
theorem eq_unfinished_of_stray
    (h : (Automaton.resumption State Kind).Stands source passage rest final)
    (hstray : Stray behind passage.before.state (source.drop passage.start)) :
    passage.token = unfinished behind := by
  have hstep := h.step
  rw [← Scan.atBoundary_state h.ready.1] at hstep
  obtain ⟨scan, hunfinished⟩ := step_of_stray hstray
  have htoken := hstep.symm.trans hunfinished
  simp only [Except.ok.injEq, Step.token.injEq] at htoken
  exact htoken.1

/-- How the symbols of a text are read. -/
structure SymbolsExact (source : Bytes) (passages : List (Passage (Scan State))) : Prop where
  /-- The symbols that are complete are those that no line cuts short. -/
  complete : ∀ front passage rest, passages = front ++ passage :: rest →
    passage.token.id = Kind.symbol.id → (Complete source passage rest ↔ ¬ CutShort source passage)
  /-- Every `<` of content starts a token. -/
  texts : ∀ passage ∈ passages, passage.token.id = Kind.text.id →
    less ∉ passage.span.text source
  /-- A stray `<` or `/` is a token of its own, and an error unless its line ends behind it. -/
  strays : ∀ passage ∈ passages, ∀ behind,
    Stray behind passage.before.state (source.drop passage.start) →
      passage.token = unfinished behind

/-- All symbols of markup are complete but those that a line cuts short. -/
theorem symbols_exact (source : Bytes) :
    ∃ passages, (grammar State Kind).Lexes source passages ∧ SymbolsExact source passages := by
  let resumption := Automaton.resumption State Kind
  obtain ⟨passages, final, hlexes, hpath, -⟩ := resumption.exists_lexes source
  refine ⟨passages, hlexes, ?_, ?_, ?_⟩
  · intro front passage rest hsplit hsymbol
    exact complete_iff (resumption.stands_of_path hpath hsplit) hsymbol
  · intro passage hmem htext
    obtain ⟨rest, h⟩ := resumption.exists_stands_of_mem hpath hmem
    exact less_notMem_of_ended (ended_of_kind h htext)
  · intro passage hmem behind hstray
    obtain ⟨rest, h⟩ := resumption.exists_stands_of_mem hpath hmem
    exact eq_unfinished_of_stray h hstray

/-- Not all symbols are complete: a `<` before a newline is none of an element. -/
theorem symbols_cut_short : ¬ ∀ source passages, (grammar State Kind).Lexes source passages →
    ∀ front passage rest, passages = front ++ passage :: rest →
      passage.token.id = Kind.symbol.id → Complete source passage rest := by
  intro hall
  let resumption := Automaton.resumption State Kind
  obtain ⟨passages, final, hlexes, hpath, hfinal⟩ := resumption.exists_lexes [less, newline]
  have hread : (grammar State Kind).Path [less, newline] 0 (grammar State Kind).initial
      [⟨0, Scan.atBoundary .content, ⟨Kind.symbol.id, 1⟩, Scan.atBoundary .afterLess⟩,
        ⟨1, Scan.atBoundary .afterLess, Token.endOfLine, Scan.atBoundary .content⟩]
      2 (Scan.atBoundary .content) := .cons rfl (.cons rfl (.nil _ _))
  obtain ⟨rfl, -⟩ := resumption.path_unique hpath hread hfinal ⟨rfl, Scan.ready_nil _⟩
  obtain ⟨name, more, hname, hid⟩ := (hall _ _ hlexes [] _ _ rfl rfl).named rfl
  cases hname
  exact absurd hid (by decide)

end Markup

end PageLexing
