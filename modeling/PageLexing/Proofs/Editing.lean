import PageLexing.Proofs.Lines
import PageLexing.Proofs.Whole

/-!
# Documents that were edited

A document that was edited is the one that lexing the edited text from scratch gives. The
checkpoint from which an edit is lexed stands behind whole lines that the edit leaves alone,
and a state that is met again at its old line reads the rest of the text as it did before.

## Main results

* `Pass.run_of_path` — what a pass brings, be it stopped at an old checkpoint or not.
* `Document.lex_eq` — the tokens and checkpoints of a text.
* `Document.relex_of_path` — one edit of a document.
* `Document.edited_eq_lexed` — any number of edits of a document.
-/

namespace PageLexing

/-! ## Edited texts -/

namespace Edit

variable {edit : Edit} {text : Bytes}

theorem offset_le_oldEnd (edit : Edit) : edit.offset ≤ edit.oldEnd := Nat.le_add_right _ _

theorem offset_le_newEnd (edit : Edit) : edit.offset ≤ edit.newEnd := Nat.le_add_right _ _

/-- An edit leaves alone what stands before it. -/
theorem take_apply (hfits : edit.oldEnd ≤ text.length) {n : Nat} (hn : n ≤ edit.offset) :
    (edit.apply text).take n = text.take n := by
  have hoffset := edit.offset_le_oldEnd
  have hlen : (text.take edit.offset).length = edit.offset := by
    rw [List.length_take]
    omega
  rw [apply, List.append_assoc, List.take_append_of_le_length (by omega), List.take_take,
    Nat.min_eq_left hn]

/-- An edit leaves alone what stands behind it. -/
theorem drop_apply (hfits : edit.oldEnd ≤ text.length) :
    (edit.apply text).drop edit.newEnd = text.drop edit.oldEnd := by
  have hoffset := edit.offset_le_oldEnd
  have hlen : (text.take edit.offset ++ edit.inserted).length = edit.newEnd := by
    rw [List.length_append, List.length_take, newEnd]
    omega
  rw [apply, ← hlen, List.drop_left]

theorem length_apply (hfits : edit.oldEnd ≤ text.length) :
    (edit.apply text).length = text.length - edit.oldEnd + edit.newEnd := by
  have hoffset := edit.offset_le_oldEnd
  rw [apply, List.length_append, List.length_append, List.length_take, List.length_drop, newEnd]
  omega

end Edit

/-! ## Passes -/

namespace Pass

/-- What a pass over passages brings that `count` tokens come before: all of them, or those up
to a newline behind which an old state is met again. -/
inductive Brings (old? : Nat → Option Checkpoint) (count : Nat)
    (passages : List (Passage Page.State)) (pass : Pass) : Prop where
  | all (met : pass.met = none) (tokens : pass.tokens = passages.map Passage.token)
      (checkpoints : pass.checkpoints = Checkpoint.ofPassages count passages)
  | met {front rest : List (Passage Page.State)} {passage : Passage Page.State}
      {old : Checkpoint} (split : passages = front ++ passage :: rest)
      (id : passage.token.id = TokenId.endOfLine)
      (found : old? (passage.start + passage.token.len) = some old)
      (same : old.state = passage.after) (met : pass.met = some old)
      (tokens : pass.tokens = (front ++ [passage]).map Passage.token)
      (checkpoints : pass.checkpoints = Checkpoint.ofPassages count (front ++ [passage]))

variable {old? : Nat → Option Checkpoint} {count : Nat}

/-- One more passage before those of a pass. -/
theorem Brings.cons {passages : List (Passage Page.State)} {pass longer : Pass}
    {passage : Passage Page.State} (h : Brings old? (count + 1) passages pass)
    (hmet : longer.met = pass.met) (htokens : longer.tokens = passage.token :: pass.tokens)
    (hcheckpoints : longer.checkpoints =
      (if passage.token.id = TokenId.endOfLine then
        ⟨passage.start + passage.token.len, count + 1, passage.after⟩ :: pass.checkpoints
      else pass.checkpoints)) : Brings old? count (passage :: passages) longer := by
  cases h with
  | all met tokens checkpoints =>
      refine .all (hmet.trans met) ?_ ?_
      · rw [htokens, tokens]
        rfl
      · rw [hcheckpoints, checkpoints]
        rfl
  | @met front rest last old split id found same met tokens checkpoints =>
      have hsplit : passage :: passages = (passage :: front) ++ last :: rest :=
        congrArg (List.cons passage) split
      refine .met hsplit id found same (hmet.trans met) ?_ ?_
      · rw [htokens, tokens]
        rfl
      · rw [hcheckpoints, checkpoints]
        rfl

/-- The checkpoints that a pass brings are the first of its passages, and all of them unless it
stopped. -/
theorem Brings.exists_checkpoints {passages : List (Passage Page.State)} {pass : Pass}
    (h : Brings old? count passages pass) :
    ∃ rest, Checkpoint.ofPassages count passages = pass.checkpoints ++ rest ∧
      (pass.met = none → rest = []) := by
  cases h with
  | all _ _ checkpoints => exact ⟨[], by rw [checkpoints, List.append_nil], fun _ => rfl⟩
  | @met front rest passage old split _ _ _ met _ checkpoints =>
      refine ⟨Checkpoint.ofPassages (count + (front ++ [passage]).length) rest, ?_,
        fun hnone => ?_⟩
      · rw [split, List.append_cons, Checkpoint.ofPassages_append, checkpoints]
      · rw [met] at hnone
        cases hnone

variable {grammar : Grammar Page.State} {source : Bytes}

/-- A pass from a state on brings the tokens that are read from it. -/
theorem run_of_path (resumption : grammar.Resumption) {offset stop fuel : Nat}
    {state final : Page.State} {passages : List (Passage Page.State)}
    (h : grammar.Path source offset state passages stop final) (hstop : stop = source.length)
    (hready : resumption.Ready (source.drop offset) state) (hfuel : passages.length < fuel) :
    ∃ pass, run old? (Reader.ofRest grammar source offset state) count fuel =
        .ok pass ∧ Brings old? count passages pass := by
  induction h generalizing count fuel with
  | @nil offset state =>
      obtain ⟨fuel, rfl⟩ : ∃ rest, fuel = rest + 1 := ⟨fuel - 1, by omega⟩
      subst hstop
      rw [List.drop_length] at hready
      have hnext := Reader.next_ofRest_of_length resumption source hready
      refine ⟨.empty, ?_, .all rfl rfl rfl⟩
      simp only [run, hnext, bind, Except.bind]
  | @cons offset stop state next final token passages hstep hrest ih =>
      obtain ⟨fuel, rfl⟩ : ∃ rest, fuel = rest + 1 := ⟨fuel - 1, by omega⟩
      have hnext := Reader.next_ofRest_of_token hstep
      have hready' := (resumption.next_of_step hready hstep).2
      obtain ⟨pass, hrun, hbrings⟩ := @ih (count + 1) fuel hstop hready'
        (Nat.lt_of_succ_lt_succ hfuel)
      have hoffset : (Reader.ofRest grammar source (offset + token.len) next).offset =
        offset + token.len := rfl
      have hstore : (Reader.ofRest grammar source (offset + token.len) next).store = next := rfl
      simp only [run, hnext, hrun, hoffset, hstore, bind, Except.bind]
      by_cases hid : token.id = TokenId.endOfLine
      · rw [if_pos hid]
        cases hold : old? (offset + token.len) with
        | none => exact ⟨_, rfl, hbrings.cons rfl rfl (if_pos hid).symm⟩
        | some old =>
            by_cases hsame : old.state = next
            · have hsplit : (⟨offset, state, token, next⟩ : Passage Page.State) :: passages =
                  [] ++ ⟨offset, state, token, next⟩ :: passages := rfl
              refine ⟨_, if_pos hsame, .met hsplit hid hold hsame rfl rfl ?_⟩
              simp [Checkpoint.ofPassages, hid]
            · exact ⟨_, if_neg hsame, hbrings.cons rfl rfl (if_pos hid).symm⟩
      · rw [if_neg hid]
        exact ⟨_, rfl, hbrings.cons rfl rfl (if_neg hid).symm⟩

/-- A pass over the lines from a checkpoint on. -/
theorem ofText_of_path {dialect : Dialect} {text : Bytes} {start : Checkpoint}
    {final : Page.State} {passages : List (Passage Page.State)}
    (h : dialect.grammar.Path text start.offset start.state passages text.length final)
    (hready : start.state.Ready (text.drop start.offset)) (old? : Nat → Option Checkpoint) :
    ∃ pass, ofText dialect text start old? = .ok pass ∧
      Brings old? start.tokenIndex passages pass := by
  have hle := h.offset_le
  have hlen := (dialect.resumption.ready_of_path h hready).2
  have hload := Reader.load_ofRest dialect.resumption hready hle
  obtain ⟨pass, hrun, hbrings⟩ := @run_of_path old? start.tokenIndex _ _ dialect.resumption _ _
    (text.length - start.offset + 1) _ _ _ h rfl hready (by omega)
  refine ⟨pass, ?_, hbrings⟩
  simp only [ofText, hload, hrun, bind, Except.bind]

end Pass

/-! ## Documents -/

namespace Document

/-- The document that the tokens of a text make up. -/
def ofPassages (dialect : Dialect) (text : Bytes) (passages : List (Passage Page.State)) :
    Document :=
  ⟨dialect, text, passages.map Passage.token, .first :: Checkpoint.ofPassages 0 passages⟩

variable {dialect : Dialect} {text : Bytes} {passages : List (Passage Page.State)}
  {final : Page.State}

/-- Lexing a text from scratch gives its tokens and the checkpoints of its lines. -/
theorem lex_eq
    (h : dialect.grammar.Path text 0 Page.State.initial passages text.length final) :
    lex dialect text = .ok (ofPassages dialect text passages) := by
  obtain ⟨pass, hpass, hbrings⟩ := @Pass.ofText_of_path dialect text .first final passages h
    (Page.State.ready_initial _) (fun _ => none)
  cases hbrings with
  | all _ tokens checkpoints =>
      simp only [lex, hpass, bind, Except.bind, ofPassages, tokens, checkpoints]
      rfl
  | met _ _ found => cases found

/-- The checkpoints of a text stand in order. -/
theorem pairwise_checkpoints
    (h : dialect.grammar.Path text 0 Page.State.initial passages text.length final) :
    (ofPassages dialect text passages).checkpoints.Pairwise (fun a b => a.offset < b.offset) :=
  List.pairwise_cons.mpr
    (Checkpoint.pairwise_offset dialect.resumption 0 h (Page.State.ready_initial _))

/-- The old checkpoint of a line that an edit has moved. -/
theorem mem_of_counterpart {document : Document} {edit : Edit} {offset : Nat}
    {old : Checkpoint} (h : document.counterpart edit offset = some old) :
    old ∈ document.checkpoints ∧ edit.newEnd ≤ offset ∧
      old.offset = offset - edit.newEnd + edit.oldEnd := by
  unfold counterpart at h
  split at h
  · cases h
  · rename_i hle
    exact ⟨List.mem_of_find?_eq_some h, Nat.le_of_not_lt hle, by
      simpa using List.find?_some h⟩

/-- Behind a checkpoint stand those that come after it. -/
theorem filter_behind {before behind : List Checkpoint} {old : Checkpoint}
    (h : (before ++ old :: behind).Pairwise (fun a b => a.offset < b.offset)) :
    (before ++ old :: behind).filter (fun checkpoint => old.offset < checkpoint.offset) =
      behind := by
  obtain ⟨-, hold, hbefore⟩ := List.pairwise_append.mp h
  have hbehind := (List.pairwise_cons.mp hold).1
  have hnone : before.filter (fun checkpoint => old.offset < checkpoint.offset) = [] := by
    rw [List.filter_eq_nil_iff]
    intro checkpoint hmem
    have hlt := hbefore checkpoint hmem old (List.mem_cons_self ..)
    rw [decide_eq_true_eq]
    omega
  have hall : behind.filter (fun checkpoint => old.offset < checkpoint.offset) = behind :=
    List.filter_eq_self.mpr fun checkpoint hmem => decide_eq_true (hbehind checkpoint hmem)
  rw [List.filter_append, hnone, List.filter_cons, hall, List.nil_append, if_neg (by simp)]

/-- The line from which an edit is lexed starts at or before the edit. -/
theorem exists_restart (document : Document) (offset : Nat) {rest : List Checkpoint}
    (h : document.checkpoints = .first :: rest) :
    ∃ before start behind, document.checkpoints = before ++ start :: behind ∧
      document.checkpointsUpTo offset = before ++ [start] ∧ start.offset ≤ offset := by
  have hupTo : document.checkpointsUpTo offset =
      .first :: rest.takeWhile (fun checkpoint => checkpoint.offset ≤ offset) := by
    rw [checkpointsUpTo, h, List.takeWhile_cons, if_pos]
    exact decide_eq_true (Nat.zero_le offset)
  obtain ⟨before, start, hlast⟩ : ∃ before start,
      document.checkpointsUpTo offset = before ++ [start] :=
    ⟨_, _, (List.dropLast_concat_getLast (by rw [hupTo]; exact List.cons_ne_nil _ _)).symm⟩
  have hmem : start ∈ document.checkpointsUpTo offset := by
    rw [hlast]
    exact List.mem_append_right _ (List.mem_singleton_self _)
  refine ⟨before, start, document.checkpoints.dropWhile
    (fun checkpoint => checkpoint.offset ≤ offset), ?_, hlast, ?_⟩
  · rw [List.append_cons, ← hlast, checkpointsUpTo, List.takeWhile_append_dropWhile]
  · exact of_decide_eq_true (List.all_eq_true.mp List.all_takeWhile start hmem)

/-- An edit that fits is lexed from its restart on. -/
theorem relex_of_pass {document : Document} {edit : Edit} {before : List Checkpoint}
    {start : Checkpoint} {pass : Pass} (hfits : document.Fits edit)
    (hupTo : document.checkpointsUpTo edit.offset = before ++ [start])
    (hpass : Pass.ofText document.dialect (edit.apply document.text) start
      (document.counterpart edit) = .ok pass) :
    document.relex edit = .ok (.ok (document.splice edit start pass, {
      restartOffset := start.offset
      comparisons := pass.comparisons
      convergedAt := if pass.met.isSome then pass.checkpoints.getLast?.map (·.offset) else none
      relexedTokens := pass.tokens.length })) := by
  have hstart : ((document.checkpointsUpTo edit.offset).getLast?).getD .first = start := by
    rw [hupTo, List.getLast?_append]
    rfl
  unfold relex
  rw [if_pos hfits]
  simp only [hstart, hpass, bind, Except.bind]

/-- The tokens before a checkpoint. -/
theorem take_tokens {front rest : List (Passage Page.State)} (hsplit : passages = front ++ rest) :
    (passages.map Passage.token).take front.length = front.map Passage.token := by
  rw [hsplit, List.map_append]
  exact List.take_left' (List.length_map _)

/-- The tokens behind a checkpoint. -/
theorem drop_tokens {front rest : List (Passage Page.State)} (hsplit : passages = front ++ rest) :
    (passages.map Passage.token).drop front.length = rest.map Passage.token := by
  rw [hsplit, List.map_append]
  exact List.drop_left' (List.length_map _)

variable {front more : List (Passage Page.State)} {edit : Edit} {start : Checkpoint} {pass : Pass}

/-- The document of a pass that came to the end of the text. -/
theorem splice_of_all {rest : List (Passage Page.State)} (hsplit : passages = front ++ rest)
    (hindex : start.tokenIndex = front.length)
    (hupTo : (ofPassages dialect text passages).checkpointsUpTo edit.offset =
      .first :: Checkpoint.ofPassages 0 front)
    (hmet : pass.met = none) (htokens : pass.tokens = more.map Passage.token)
    (hcheckpoints : pass.checkpoints = Checkpoint.ofPassages front.length more) :
    (ofPassages dialect text passages).splice edit start pass =
      ofPassages dialect (edit.apply text) (front ++ more) := by
  simp only [splice, hmet, hupTo, hindex]
  simp only [ofPassages, take_tokens hsplit, htokens, hcheckpoints, Checkpoint.ofPassages_append,
    Nat.zero_add, List.map_append, List.cons_append]

/-- The document of a pass that met an old state again. -/
theorem splice_of_met {rest old kept : List (Passage Page.State)} {met : Checkpoint}
    (hsplit : passages = front ++ rest) (hindex : start.tokenIndex = front.length)
    (hupTo : (ofPassages dialect text passages).checkpointsUpTo edit.offset =
      .first :: Checkpoint.ofPassages 0 front)
    (hmet : pass.met = some met) (htokens : pass.tokens = more.map Passage.token)
    (hcheckpoints : pass.checkpoints = Checkpoint.ofPassages front.length more)
    (hkept : passages = old ++ kept) (hmetIndex : met.tokenIndex = old.length)
    (hbehind : (Checkpoint.first :: Checkpoint.ofPassages 0 passages).filter
      (fun checkpoint => met.offset < checkpoint.offset) =
        Checkpoint.ofPassages old.length kept)
    (hmoved : ∀ count, Checkpoint.ofPassages count
        (kept.map (Passage.move edit.oldEnd edit.newEnd)) =
      (Checkpoint.ofPassages old.length kept).map (fun checkpoint =>
        { checkpoint with
          offset := checkpoint.offset - edit.oldEnd + edit.newEnd
          tokenIndex := checkpoint.tokenIndex - old.length + count })) :
    (ofPassages dialect text passages).splice edit start pass =
      ofPassages dialect (edit.apply text)
        (front ++ (more ++ kept.map (Passage.move edit.oldEnd edit.newEnd))) := by
  simp only [splice, hmet, hupTo, hindex, movedCheckpoints, hmetIndex]
  simp only [ofPassages, hbehind, take_tokens hsplit, drop_tokens hkept, htokens,
    Passage.map_token_move,
    hcheckpoints, hmoved, Checkpoint.ofPassages_append, Nat.zero_add, List.map_append,
    List.cons_append, List.append_assoc, List.length_append, List.length_map]

/-- The lines before a restart are read in the edited text as they were before. -/
theorem path_of_restart (hvalid : dialect.delimiters.Validated)
    (hfits : edit.oldEnd ≤ text.length) (hstart : start.offset ≤ edit.offset)
    (hlines : WholeLines (text.take start.offset))
    (h : dialect.grammar.Path text 0 Page.State.initial front start.offset start.state) :
    dialect.grammar.Path (edit.apply text) 0 Page.State.initial front start.offset
      start.state := by
  have hoffset := edit.offset_le_oldEnd
  have hold : text.take start.offset ++ text.drop start.offset = text :=
    List.take_append_drop _ _
  have hnew : text.take start.offset ++ (edit.apply text).drop start.offset =
      edit.apply text := by
    rw [← Edit.take_apply hfits hstart]
    exact List.take_append_drop _ _
  have hlen : start.offset = (text.take start.offset).length := by
    rw [List.length_take]
    omega
  rw [← hold] at h
  rw [← hnew]
  exact Dialect.path_of_lines hvalid _ hlines h hlen (Page.State.ready_initial _)
    (Page.State.ready_initial _)

/-- Behind the old checkpoint of a moved line the old tokens stand, and the checkpoints after it
are theirs. -/
theorem exists_kept
    (h : dialect.grammar.Path text 0 Page.State.initial passages text.length final)
    {met : Checkpoint} (hmem : met ∈ (ofPassages dialect text passages).checkpoints) :
    ∃ old kept, passages = old ++ kept ∧ met.tokenIndex = old.length ∧
      dialect.grammar.Path text met.offset met.state kept text.length final ∧
      (Checkpoint.first :: Checkpoint.ofPassages 0 passages).filter
          (fun checkpoint => met.offset < checkpoint.offset) =
        Checkpoint.ofPassages old.length kept := by
  obtain ⟨before, behind, hcheckpoints⟩ := List.append_of_mem hmem
  replace hcheckpoints : Checkpoint.first :: Checkpoint.ofPassages 0 passages =
    before ++ met :: behind := hcheckpoints
  obtain ⟨old, kept, hkept, -, hbehind, hindex, -, hpath, -⟩ :=
    Checkpoint.exists_split h hcheckpoints
  refine ⟨old, kept, hkept, hindex, hpath, ?_⟩
  rw [hcheckpoints, ← hbehind]
  exact filter_behind (hcheckpoints ▸ pairwise_checkpoints h)

/-- A state that is met again at its old line reads the rest of the edited text as it read the
rest of the old one. -/
theorem path_of_met (hfits : edit.oldEnd ≤ text.length)
    (h : dialect.grammar.Path text 0 Page.State.initial passages text.length final)
    {met : Checkpoint} {kept after : List (Passage Page.State)} {offset : Nat}
    {final' : Page.State}
    (hnewEnd : edit.newEnd ≤ offset) (hoffset : met.offset = offset - edit.newEnd + edit.oldEnd)
    (hkept : dialect.grammar.Path text met.offset met.state kept text.length final)
    (hafter : dialect.grammar.Path (edit.apply text) offset met.state after
      (edit.apply text).length final')
    (hfinal' : final'.Ready []) : after = kept.map (Passage.move edit.oldEnd edit.newEnd) := by
  have hmove := hkept.move (show edit.oldEnd ≤ met.offset by omega) (Edit.drop_apply hfits)
  rw [← Edit.length_apply hfits,
    show met.offset - edit.oldEnd + edit.newEnd = offset by omega] at hmove
  have hfinal := (dialect.resumption.ready_of_path h (Page.State.ready_initial _)).1
  rw [List.drop_length] at hfinal
  exact (dialect.resumption.path_unique hafter hmove hfinal' hfinal).1

/-- How an edited text is lexed: what was read before the line `start` is kept, and `more` is
what stands behind it, of which a pass brings as much as is needed. -/
structure Relexed (dialect : Dialect) (text : Bytes) (passages : List (Passage Page.State))
    (edit : Edit) (start : Checkpoint) (front more : List (Passage Page.State)) (pass : Pass) :
    Prop where
  kept : ∃ rest, passages = front ++ rest
  upTo : (ofPassages dialect text passages).checkpointsUpTo edit.offset =
    .first :: Checkpoint.ofPassages 0 front
  last : ∃ before, .first :: Checkpoint.ofPassages 0 front = before ++ [start]
  index : start.tokenIndex = front.length
  le : start.offset ≤ edit.offset
  before : dialect.grammar.Path (edit.apply text) 0 Page.State.initial front start.offset
    start.state
  behind : ∃ final, dialect.grammar.Path (edit.apply text) start.offset start.state more
    (edit.apply text).length final ∧ final.Ready []
  runs : Pass.ofText dialect (edit.apply text) start
    ((ofPassages dialect text passages).counterpart edit) = .ok pass
  brings : Pass.Brings ((ofPassages dialect text passages).counterpart edit) front.length more
    pass

/-- An edit that fits is lexed from a line on. -/
theorem exists_relexed (hvalid : dialect.delimiters.Validated)
    (h : dialect.grammar.Path text 0 Page.State.initial passages text.length final)
    (hfits : edit.oldEnd ≤ text.length) :
    ∃ start front more pass, Relexed dialect text passages edit start front more pass := by
  have hoffset := edit.offset_le_oldEnd
  have hinserted := edit.offset_le_newEnd
  obtain ⟨before, start, behind, hcheckpoints, hlast, hstart⟩ :=
    exists_restart (ofPassages dialect text passages) edit.offset rfl
  obtain ⟨front, rest, hsplit, hbefore, -, hindex, hfront, -, hlines⟩ :=
    Checkpoint.exists_split h hcheckpoints
  have hfront' := path_of_restart hvalid hfits hstart hlines hfront
  have hrestart := (dialect.resumption.ready_of_path hfront' (Page.State.ready_initial _)).1
  obtain ⟨more, final', hmore, hfinal'⟩ := dialect.resumption.exists_path (edit.apply text)
    (by rw [Edit.length_apply hfits]; omega) hrestart
  obtain ⟨pass, hpass, hbrings⟩ := Pass.ofText_of_path hmore hrestart
    ((ofPassages dialect text passages).counterpart edit)
  exact ⟨start, front, more, pass, {
    kept := ⟨rest, hsplit⟩
    upTo := hlast.trans hbefore
    last := ⟨before, hbefore.symm⟩
    index := hindex
    le := hstart
    before := hfront'
    behind := ⟨final', hmore, hfinal'⟩
    runs := hpass
    brings := hindex ▸ hbrings }⟩

/-- What is kept and what stands behind it are the edited text, and its document is what the
edit leads to. -/
theorem splice_of_relexed
    (h : dialect.grammar.Path text 0 Page.State.initial passages text.length final)
    (hfits : edit.oldEnd ≤ text.length)
    (hrelexed : Relexed dialect text passages edit start front more pass) :
    (ofPassages dialect text passages).splice edit start pass =
      ofPassages dialect (edit.apply text) (front ++ more) := by
  have hinserted := edit.offset_le_newEnd
  obtain ⟨⟨rest, hsplit⟩, hupTo, -, hindex, -, -, ⟨final', hmore, hfinal'⟩, -, hbrings⟩ := hrelexed
  cases hbrings with
  | all hmet htokens hpassed => exact splice_of_all hsplit hindex hupTo hmet htokens hpassed
  | @met inner after passage met hinner hid hfound hsame hmet htokens hpassed =>
      obtain ⟨hmem, hnewEnd, hmetOffset⟩ := mem_of_counterpart hfound
      obtain ⟨old, kept, hkept, hmetIndex, hkeptPath, hbehind⟩ := exists_kept h hmem
      have hafter : after = kept.map (Passage.move edit.oldEnd edit.newEnd) := by
        rw [hinner] at hmore
        obtain ⟨mid, between, -, hpassage⟩ := hmore.of_append
        cases hpassage with
        | @cons _ _ _ next _ token _ _ hpath =>
            rw [← show met.state = next from hsame] at hpath
            exact path_of_met hfits h hnewEnd hmetOffset hkeptPath hpath hfinal'
      have hoffset := edit.offset_le_oldEnd
      rw [splice_of_met hsplit hindex hupTo hmet htokens hpassed hkept hmetIndex hbehind
        (Checkpoint.ofPassages_move hkeptPath (by omega) _), hinner, hafter]
      simp only [List.append_assoc, List.cons_append, List.nil_append]

/-- One edit of a document leads to the document of the edited text. -/
theorem relex_of_path (hvalid : dialect.delimiters.Validated)
    (h : dialect.grammar.Path text 0 Page.State.initial passages text.length final)
    (hfits : edit.oldEnd ≤ text.length) :
    ∃ edited final' report,
      dialect.grammar.Path (edit.apply text) 0 Page.State.initial edited
        (edit.apply text).length final' ∧
      (ofPassages dialect text passages).relex edit =
        .ok (.ok (ofPassages dialect (edit.apply text) edited, report)) := by
  obtain ⟨start, front, more, pass, hrelexed⟩ := exists_relexed hvalid h hfits
  obtain ⟨final', hmore, -⟩ := hrelexed.behind
  obtain ⟨before, hlast⟩ := hrelexed.last
  have hrelex := relex_of_pass (show (ofPassages dialect text passages).Fits edit from hfits)
    (hrelexed.upTo.trans hlast) hrelexed.runs
  rw [splice_of_relexed h hfits hrelexed] at hrelex
  exact ⟨front ++ more, final', _, hrelexed.before.append hmore, hrelex⟩

/-! ## Any number of edits -/

/-- Applies edits one after the other. Those that do not fit are refused and change
nothing. -/
def relexAll (document : Document) : List Edit → Except Fault Document
  | [] => .ok document
  | edit :: edits => do
      match ← document.relex edit with
      | .ok (edited, _) => edited.relexAll edits
      | .error _ => document.relexAll edits

end Document

/-- The text after edits of which those that do not fit change nothing. -/
def Edit.applyAll (text : Bytes) : List Edit → Bytes
  | [] => text
  | edit :: edits =>
      applyAll (if edit.oldEnd ≤ text.length then edit.apply text else text) edits

namespace Document

variable {dialect : Dialect} {text : Bytes}

/-- An edit that does not fit is refused. -/
theorem relex_of_not_fits {document : Document} {edit : Edit}
    (h : document.text.length < edit.oldEnd) :
    document.relex edit =
      .ok (.error ⟨edit.offset, edit.removed, document.text.length⟩) :=
  relex_eq_error_iff.mpr ⟨Nat.not_le.mpr h, rfl⟩

/-- Edits lead to the document of the edited text. -/
theorem relexAll_of_path (hvalid : dialect.delimiters.Validated)
    {passages : List (Passage Page.State)} {final : Page.State}
    (h : dialect.grammar.Path text 0 Page.State.initial passages text.length final)
    (edits : List Edit) :
    ∃ edited final',
      dialect.grammar.Path (Edit.applyAll text edits) 0 Page.State.initial edited
        (Edit.applyAll text edits).length final' ∧
      (ofPassages dialect text passages).relexAll edits =
        .ok (ofPassages dialect (Edit.applyAll text edits) edited) := by
  induction edits generalizing text passages final with
  | nil => exact ⟨passages, final, h, rfl⟩
  | cons edit edits ih =>
      rw [Edit.applyAll, relexAll]
      by_cases hfits : edit.oldEnd ≤ text.length
      · obtain ⟨edited, final', report, hpath, hrelex⟩ := relex_of_path hvalid h hfits
        rw [if_pos hfits, hrelex]
        exact ih hpath
      · rw [if_neg hfits, relex_of_not_fits (Nat.lt_of_not_le hfits)]
        exact ih h

/-- A document that was lexed and then edited is the document that lexing its text from
scratch gives, however often it was edited. An edit of it that does not fit is refused, and
any other edit leads to such a document again. -/
theorem edited_eq_lexed (dialect : Dialect) (hvalid : dialect.delimiters.Validated)
    (text : Bytes) (edits : List Edit) :
    ∃ original document, lex dialect text = .ok original ∧
      original.relexAll edits = .ok document ∧
      document.text = Edit.applyAll text edits ∧ lex dialect document.text = .ok document ∧
      ∀ edit : Edit,
        (document.text.length < edit.offset + edit.removed →
          document.relex edit =
            .ok (.error ⟨edit.offset, edit.removed, document.text.length⟩)) ∧
        (edit.offset + edit.removed ≤ document.text.length →
          ∃ edited report, document.relex edit = .ok (.ok (edited, report)) ∧
            edited.text = document.text.take edit.offset ++ edit.inserted ++
              document.text.drop (edit.offset + edit.removed) ∧
            lex dialect edited.text = .ok edited) := by
  obtain ⟨passages, final, hpath, -⟩ := dialect.resumption.exists_path text (Nat.zero_le _)
    (Page.State.ready_initial _)
  obtain ⟨edited, final', hedited, hrelex⟩ := relexAll_of_path hvalid hpath edits
  refine ⟨_, _, lex_eq hpath, hrelex, rfl, lex_eq hedited, fun edit => ⟨?_, ?_⟩⟩
  · exact relex_of_not_fits
  · intro hfits
    obtain ⟨again, final'', report, hagain, hrelex'⟩ := relex_of_path hvalid hedited hfits
    exact ⟨_, report, hrelex', text_relex hrelex', lex_eq hagain⟩

/-- So it is with the default prefixes, when a fragment that spans two lines is closed. -/
theorem default_edited_eq_lexed :
    Dialect.default.delimiters.Validated ∧
      ∃ original document,
        lex Dialect.default (Bytes.ofString "<%@ a\nb\nc") = .ok original ∧
          original.relexAll [Edit.insert 5 (Bytes.ofString " %>")] = .ok document ∧
          lex Dialect.default document.text = .ok document := by
  obtain ⟨original, document, horiginal, hedited, -, hlexed, -⟩ :=
    edited_eq_lexed Dialect.default Delimiters.validated_default
      (Bytes.ofString "<%@ a\nb\nc") [Edit.insert 5 (Bytes.ofString " %>")]
  exact ⟨Delimiters.validated_default, original, document, horiginal, hedited, hlexed⟩

end Document

end PageLexing
