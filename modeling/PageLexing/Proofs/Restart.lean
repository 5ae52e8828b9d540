import PageLexing.Proofs.Editing
import PageLexing.Proofs.Fitting

/-!
# Restarting at a line

A text that is parted at the start of a line is lexed as its parts are: first the lines on
their own, although their end is then the end of the text, and then the rest on its own, from
the state that the lines leave. That state is the checkpoint of the line, whatever the rest is,
and nothing of the rest was looked at in it.

## Main results

* `Checkpoint.exists_last` — behind whole lines there is a checkpoint.
* `Dialect.exists_path_append` — what is read of a text behind whole lines.
* `Dialect.lines_restart` — a page that is parted at a line.
-/

namespace PageLexing

open Page

variable {dialect : Dialect} {lines : Bytes}

namespace Checkpoint

/-- The last checkpoint of whole lines stands at their end. -/
theorem exists_last (hlines : WholeLines lines) {passages : List (Passage State)} {final : State}
    (h : dialect.grammar.Path lines 0 State.initial passages lines.length final) :
    ∃ before, .first :: ofPassages 0 passages =
      before ++ [⟨lines.length, passages.length, final⟩] := by
  rcases List.eq_nil_or_concat passages with rfl | ⟨front, passage, rfl⟩
  · generalize hstop : lines.length = stop at h
    cases h
    exact ⟨[], rfl⟩
  · rw [List.concat_eq_append] at h ⊢
    obtain ⟨mid, between, hfront, hlast⟩ := h.of_append
    have hready := (dialect.resumption.ready_of_path hfront (State.ready_initial _)).1
    generalize hstop : lines.length = stop at hlast
    cases hlast with
    | @cons _ _ _ next _ token _ hstep hnil =>
        cases hnil
        have hpos := (dialect.resumption.next_of_step hready hstep).1
        have hline := hlines mid (by omega)
        have hword : (lines.drop mid).take token.len = lines.drop mid :=
          List.take_of_length_le (by rw [List.length_drop]; omega)
        -- The last token holds the newline at the end, so it is the token of that newline.
        rcases Dialect.keepsLines_of_step hready hstep with ⟨rfl, -⟩ | ⟨-, hnone⟩
        · refine ⟨.first :: ofPassages 0 front, ?_⟩
          simp [ofPassages_append, ofPassages, Token.endOfLine]
        · rw [hword] at hnone
          exact absurd hline hnone

/-- The checkpoints of a text stand at different places. -/
theorem find?_offset {before behind : List Checkpoint} {checkpoint : Checkpoint}
    (h : (before ++ checkpoint :: behind).Pairwise (fun a b => a.offset < b.offset)) :
    (before ++ checkpoint :: behind).find?
      (fun other => other.offset = checkpoint.offset) = some checkpoint := by
  rw [List.find?_eq_some_iff_append]
  refine ⟨decide_eq_true rfl, before, behind, rfl, ?_⟩
  intro other hmem
  have hlt := (List.pairwise_append.mp h).2.2 other hmem checkpoint (List.mem_cons_self ..)
  simp only [Bool.not_eq_true', decide_eq_false_iff_not]
  omega

end Checkpoint

namespace Dialect

/-- Behind whole lines the rest of a text is read as it is on its own, from the state that the
lines leave. -/
theorem exists_path_append (hvalid : dialect.delimiters.Validated) (hlines : WholeLines lines)
    {front : List (Passage State)} {state : State}
    (h : dialect.grammar.Path lines 0 State.initial front lines.length state) (rest : Bytes) :
    ∃ more final, state.Ready rest ∧
      dialect.grammar.Path rest 0 state more rest.length final ∧ final.Ready [] ∧
      dialect.grammar.Path (lines ++ rest) 0 State.initial
        (front ++ more.map (Passage.move 0 lines.length)) (lines ++ rest).length final := by
  rw [← List.append_nil lines] at h
  have hfront := path_of_lines hvalid rest hlines h (by rw [List.append_nil])
    (State.ready_initial _) (State.ready_initial _)
  rw [List.append_nil] at hfront
  have hready := (dialect.resumption.ready_of_path hfront (State.ready_initial _)).1
  rw [List.drop_left] at hready
  obtain ⟨more, final, hmore, hfinal⟩ := dialect.resumption.exists_path rest (Nat.zero_le _)
    (show dialect.resumption.Ready (rest.drop 0) state from hready)
  have hmoved := hmore.move (Nat.zero_le 0)
    (show (lines ++ rest).drop lines.length = rest.drop 0 from List.drop_left)
  refine ⟨more, final, hready, hmore, hfinal, hfront.append ?_⟩
  rw [List.length_append, Nat.add_comm]
  simpa using hmoved

/-- The tokens of whole lines with a rest behind them are those of the lines alone, and then
those of the rest alone, when it is read from the state that the lines leave. In that state
nothing was read or searched, and it is the checkpoint at the start of the rest, whatever the
rest is. -/
theorem lines_restart (dialect : Dialect) (hvalid : dialect.delimiters.Validated) (lines : Bytes)
    (hlines : lines = [] ∨ lines.getLast? = some Byte.newline) :
    ∃ front after, dialect.grammar.lexWhole lines = .ok (front, after) ∧
      (after.store.prescan = 0 ∧ after.store.probed = 0 ∧ after.store.lookahead = none ∧
        ∀ language frame, after.store.frame? language = some frame → frame.read = 0) ∧
      ∀ rest : Bytes, ∃ loaded tokens final last document,
        (Reader.new dialect.grammar).load (some after.store) rest 0 rest.length true =
          .ok loaded ∧
        loaded.drain = .ok (tokens, final) ∧ final.offset = rest.length ∧
        dialect.grammar.lexWhole (lines ++ rest) = .ok (front ++ tokens, last) ∧
        last.store = final.store ∧
        Document.lex dialect (lines ++ rest) = .ok document ∧
        document.checkpoints.find? (fun checkpoint => checkpoint.offset = lines.length) =
          some ⟨lines.length, front.length, after.store⟩ := by
  have hwhole := wholeLines_iff.mpr hlines
  obtain ⟨front, state, hfront, hend⟩ := dialect.resumption.exists_path lines (Nat.zero_le _)
    (State.ready_initial _)
  have hrests := rests_of_ready (show state.Ready [] from hend)
  refine ⟨front.map Passage.token, _, dialect.resumption.lexSplit_eq lines hfront hend [], ?_, ?_⟩
  · show state.prescan = 0 ∧ state.probed = 0 ∧ state.lookahead = none ∧ _
    exact ⟨hrests.fresh ▸ rfl, hrests.fresh ▸ rfl, hrests.fresh ▸ rfl, hrests.read⟩
  · intro rest
    obtain ⟨more, final, hready, hmore, hfinal, hpath⟩ :=
      exists_path_append hvalid hwhole hfront rest
    obtain ⟨before, hbefore⟩ := Checkpoint.exists_last hwhole hfront
    have hcheckpoints : (Document.ofPassages dialect (lines ++ rest)
        (front ++ more.map (Passage.move 0 lines.length))).checkpoints =
          before ++ ⟨lines.length, front.length, state⟩ ::
            Checkpoint.ofPassages front.length (more.map (Passage.move 0 lines.length)) := by
      rw [List.append_cons, ← hbefore, Document.ofPassages, Checkpoint.ofPassages_append,
        Nat.zero_add, List.cons_append]
    have hpairwise := Document.pairwise_checkpoints hpath
    have htokens := dialect.resumption.lexSplit_eq (lines ++ rest) hpath hfinal []
    rw [List.map_append, Passage.map_token_move] at htokens
    refine ⟨_, more.map Passage.token, _, _, _,
      Reader.load_ofRest dialect.resumption hready (Nat.zero_le _),
      Reader.drain_of_path dialect.resumption hmore hready, rfl, htokens, rfl,
      Document.lex_eq hpath, ?_⟩
    rw [hcheckpoints, List.length_map]
    exact Checkpoint.find?_offset (hcheckpoints ▸ hpairwise)

/-- So it is with the default prefixes, for a line that ends inside a fragment. -/
theorem default_lines_restart :
    default.delimiters.Validated ∧
      (Bytes.ofString "<%@ a\n").getLast? = some Byte.newline ∧
      ∃ front after loaded tokens final last,
        default.grammar.lexWhole (Bytes.ofString "<%@ a\n") = .ok (front, after) ∧
        (Reader.new default.grammar).load (some after.store) (Bytes.ofString "b %>") 0 4 true =
          .ok loaded ∧
        loaded.drain = .ok (tokens, final) ∧
        default.grammar.lexWhole (Bytes.ofString "<%@ a\nb %>") = .ok (front ++ tokens, last) := by
  have hnewline : (Bytes.ofString "<%@ a\n").getLast? = some Byte.newline := by decide
  obtain ⟨front, after, hfront, -, hrest⟩ :=
    lines_restart default Delimiters.validated_default (Bytes.ofString "<%@ a\n")
      (Or.inr hnewline)
  obtain ⟨loaded, tokens, final, last, -, hload, hdrain, -, hwhole, -⟩ :=
    hrest (Bytes.ofString "b %>")
  exact ⟨Delimiters.validated_default, hnewline, front, after, loaded, tokens, final, last, hfront,
    hload, hdrain, hwhole⟩

end Dialect

end PageLexing
