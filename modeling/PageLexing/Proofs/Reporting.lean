import Mathlib.Order.Bounds.Defs
import PageLexing.Proofs.Partition
import PageLexing.Proofs.Restart

/-!
# Reports on edits

A report tells where lexing restarted after an edit, at which lines the new state was compared
with the old one, where the comparisons ended and how much was read again. What it tells can
be said without following the pass: which lines are compared is a matter of where the newlines
of the two texts are, and how a comparison ends is a matter of the two documents.

## Main results

* `Pass.reports_of_run` — what a pass reports about the checkpoints it brings.
* `Checkpoint.map_offset_eq_lineStarts` — the checkpoints of a text stand where its lines start.
* `Document.relex_report_exact` — the report on one more edit of a document.
-/

namespace PageLexing

open Page

/-! ## Lines -/

/-- Where the lines of a text start: at its start and behind each newline. -/
def Bytes.lineStarts (text : Bytes) : List Nat := 0 :: (text.idxsOf Byte.newline).map (· + 1)

theorem Bytes.mem_lineStarts {text : Bytes} {start : Nat} :
    start ∈ text.lineStarts ↔
      start = 0 ∨ 0 < start ∧ text[start - 1]? = some Byte.newline := by
  rw [lineStarts, List.mem_cons, List.mem_map]
  refine or_congr_right ⟨?_, ?_⟩
  · rintro ⟨place, hplace, rfl⟩
    obtain ⟨hlt, hnewline⟩ := List.mem_idxsOf_iff_exists_getElem_pos.mp hplace
    exact ⟨Nat.succ_pos place, List.getElem?_eq_some_iff.mpr ⟨hlt, eq_of_beq hnewline⟩⟩
  · rintro ⟨hpos, hnewline⟩
    obtain ⟨hlt, hnewline⟩ := List.getElem?_eq_some_iff.mp hnewline
    exact ⟨start - 1, List.mem_idxsOf_iff_exists_getElem_pos.mpr ⟨hlt, beq_iff_eq.mpr hnewline⟩,
      Nat.sub_add_cancel hpos⟩

/-- The lines of a text start one behind the other. -/
theorem Bytes.pairwise_lineStarts (text : Bytes) : text.lineStarts.Pairwise (· < ·) := by
  refine List.pairwise_cons.mpr ⟨?_, ?_⟩
  · intro start hstart
    obtain ⟨place, -, rfl⟩ := List.mem_map.mp hstart
    exact Nat.succ_pos place
  · exact List.Pairwise.map _ (fun _ _ => Nat.succ_lt_succ) List.pairwise_idxsOf

/-- An edit leaves alone the lines that start at or before it. -/
theorem Edit.mem_lineStarts_apply {edit : Edit} {text : Bytes}
    (hfits : edit.oldEnd ≤ text.length) {start : Nat} (hle : start ≤ edit.offset) :
    start ∈ (edit.apply text).lineStarts ↔ start ∈ text.lineStarts := by
  rw [Bytes.mem_lineStarts, Bytes.mem_lineStarts]
  refine or_congr_right (and_congr_right fun hpos => ?_)
  have hlt : start - 1 < edit.offset := by omega
  rw [← List.getElem?_take_of_lt hlt, Edit.take_apply hfits (Nat.le_refl _),
    List.getElem?_take_of_lt hlt]

namespace Checkpoint

variable {dialect : Dialect} {text : Bytes}

/-- The checkpoints of passages stand behind the newlines among them. -/
theorem map_offset_ofPassages (count : Nat) {passages : List (Passage State)}
    (hlines : ∀ passage ∈ passages, passage.token.id = TokenId.endOfLine → passage.token.len = 1) :
    (ofPassages count passages).map Checkpoint.offset =
      (((passages.map Passage.span).filter
        (fun span => span.token.id = TokenId.endOfLine)).map Span.start).map (· + 1) := by
  induction passages generalizing count with
  | nil => rfl
  | cons passage passages ih =>
      have hrest := ih (count + 1) (fun other hmem => hlines other (List.mem_cons_of_mem _ hmem))
      have hid : passage.span.token.id = passage.token.id := rfl
      rw [ofPassages, List.map_cons, List.filter_cons, hid]
      by_cases hnewline : passage.token.id = TokenId.endOfLine
      · have hlen := hlines passage (List.mem_cons_self ..) hnewline
        rw [if_pos hnewline, if_pos (decide_eq_true hnewline), List.map_cons, List.map_cons,
          List.map_cons, hrest, hlen]
        rfl
      · rw [if_neg hnewline, if_neg (by simpa using hnewline), hrest]

/-- The checkpoints of a text stand where its lines start. -/
theorem map_offset_eq_lineStarts {passages : List (Passage State)} {final : State}
    (h : dialect.grammar.Path text 0 State.initial passages text.length final) :
    (.first :: ofPassages 0 passages).map Checkpoint.offset = text.lineStarts := by
  have hready := State.ready_initial (text.drop 0)
  have hkeeps : ∀ passage ∈ passages,
      passage.token.KeepsLines (passage.span.text text) := by
    intro passage hmem
    obtain ⟨hready, hstep⟩ := dialect.resumption.step_of_mem h hready passage hmem
    exact Dialect.keepsLines_of_step hready hstep
  have hlen : ∀ passage ∈ passages, passage.token.id = TokenId.endOfLine →
      passage.token.len = 1 := by
    intro passage hmem hid
    rcases hkeeps passage hmem with ⟨htoken, -⟩ | ⟨hkind, -⟩
    · rw [htoken]
      rfl
    · exact absurd hid (Nat.ne_of_gt hkind)
  have hstarts := Span.starts_of_tiles (dialect.resumption.tiles_of_path h hready) (by
    intro span hmem
    obtain ⟨passage, hpassage, rfl⟩ := List.mem_map.mp hmem
    exact hkeeps passage hpassage)
  rw [List.map_cons, map_offset_ofPassages 0 hlen, hstarts, List.drop_zero]
  rfl

end Checkpoint

/-! ## What a pass reports -/

/-- The comparisons that checkpoints are due: one for each that has an old counterpart. -/
def Comparison.ofCheckpoints (old? : Nat → Option Checkpoint) (checkpoints : List Checkpoint) :
    List Comparison :=
  checkpoints.filterMap fun checkpoint =>
    (old? checkpoint.offset).map fun old =>
      ⟨checkpoint.offset, old.state = checkpoint.state⟩

namespace Comparison

variable {old? : Nat → Option Checkpoint}

theorem ofCheckpoints_cons (checkpoint : Checkpoint) (checkpoints : List Checkpoint) :
    ofCheckpoints old? (checkpoint :: checkpoints) =
      ((old? checkpoint.offset).map fun old =>
        (⟨checkpoint.offset, old.state = checkpoint.state⟩ : Comparison)).toList ++
        ofCheckpoints old? checkpoints := by
  rw [ofCheckpoints, List.filterMap_cons]
  cases old? checkpoint.offset <;> rfl

/-- Compared are the lines that have a counterpart. -/
theorem map_offset_ofCheckpoints (checkpoints : List Checkpoint) :
    (ofCheckpoints old? checkpoints).map Comparison.offset =
      (checkpoints.map Checkpoint.offset).filter (fun start => (old? start).isSome) := by
  induction checkpoints with
  | nil => rfl
  | cons checkpoint checkpoints ih =>
      rw [ofCheckpoints_cons, List.map_append, ih, List.map_cons, List.filter_cons]
      cases old? checkpoint.offset <;> rfl

/-- A comparison tells whether the two states are the same. -/
theorem exists_of_mem {checkpoints : List Checkpoint} {comparison : Comparison}
    (h : comparison ∈ ofCheckpoints old? checkpoints) :
    ∃ checkpoint ∈ checkpoints, ∃ old, old? comparison.offset = some old ∧
      checkpoint.offset = comparison.offset ∧
      (comparison.equal = true ↔ checkpoint.state = old.state) := by
  obtain ⟨checkpoint, hmem, hcomparison⟩ := List.mem_filterMap.mp h
  obtain ⟨old, hold, rfl⟩ := Option.map_eq_some_iff.mp hcomparison
  exact ⟨checkpoint, hmem, old, hold, rfl, decide_eq_true_iff.trans eq_comm⟩

end Comparison

namespace Pass

/-- What a pass reports: the comparisons that its checkpoints are due. They all have another
outcome unless the pass stopped, and then the last one, for its last checkpoint, has not. -/
structure Reports (old? : Nat → Option Checkpoint) (pass : Pass) : Prop where
  comparisons : pass.comparisons = Comparison.ofCheckpoints old? pass.checkpoints
  all : pass.met = none → ∀ comparison ∈ pass.comparisons, comparison.equal = false
  stopped : pass.met.isSome → ∃ front checkpoint,
    pass.checkpoints.getLast? = some checkpoint ∧
      pass.comparisons = front ++ [⟨checkpoint.offset, true⟩] ∧
      ∀ comparison ∈ front, comparison.equal = false

variable {old? : Nat → Option Checkpoint} {pass : Pass}

theorem reports_empty (old? : Nat → Option Checkpoint) : Reports old? empty where
  comparisons := rfl
  all _ _ hmem := nomatch hmem
  stopped h := nomatch h

theorem Reports.addToken (h : Reports old? pass) (token : Token) :
    Reports old? (pass.addToken token) := ⟨h.comparisons, h.all, h.stopped⟩

/-- A line without a counterpart is not compared. -/
theorem Reports.addCheckpoint (h : Reports old? pass) {checkpoint : Checkpoint}
    (hold : old? checkpoint.offset = none) : Reports old? (pass.addCheckpoint checkpoint) where
  comparisons := by
    rw [Pass.addCheckpoint, Comparison.ofCheckpoints_cons, hold]
    exact h.comparisons
  all := h.all
  stopped hmet := by
    obtain ⟨front, last, hlast, hrest⟩ := h.stopped hmet
    refine ⟨front, last, ?_, hrest⟩
    rw [Pass.addCheckpoint, List.getLast?_cons, hlast]
    rfl

/-- A line in another state is compared, and the pass goes on. -/
theorem Reports.addDifference (h : Reports old? pass) {checkpoint old : Checkpoint}
    (hold : old? checkpoint.offset = some old) (hne : old.state ≠ checkpoint.state) :
    Reports old? ((pass.addDifference checkpoint.offset).addCheckpoint checkpoint) where
  comparisons := by
    simp only [Pass.addCheckpoint, Pass.addDifference, Comparison.ofCheckpoints_cons, hold,
      Option.map_some, decide_eq_false hne, ← h.comparisons]
    rfl
  all hmet comparison hmem := by
    rcases List.mem_cons.mp hmem with rfl | hmem
    · rfl
    · exact h.all hmet comparison hmem
  stopped hmet := by
    obtain ⟨front, last, hlast, hcomparisons, hfront⟩ := h.stopped hmet
    refine ⟨⟨checkpoint.offset, false⟩ :: front, last, ?_, ?_, ?_⟩
    · simp only [Pass.addCheckpoint, Pass.addDifference, List.getLast?_cons, hlast]
      rfl
    · simp only [Pass.addCheckpoint, Pass.addDifference, hcomparisons]
      rfl
    · intro comparison hmem
      rcases List.mem_cons.mp hmem with rfl | hmem
      · rfl
      · exact hfront comparison hmem

/-- A line in the same state is the last that is compared. -/
theorem reports_of_same {checkpoint old : Checkpoint} (token : Token)
    (hold : old? checkpoint.offset = some old) (hsame : old.state = checkpoint.state) :
    Reports old? ⟨[token], [checkpoint], [⟨checkpoint.offset, true⟩], some old⟩ where
  comparisons := by
    simp only [Comparison.ofCheckpoints_cons, hold, Option.map_some, hsame, decide_true]
    rfl
  all h := nomatch h
  stopped _ := ⟨[], checkpoint, rfl, rfl, fun _ hmem => nomatch hmem⟩

/-- Whatever a pass reads, it reports about the checkpoints that it brings. -/
theorem reports_of_run {reader : Reader State} {count fuel : Nat}
    (h : run old? reader count fuel = .ok pass) : Reports old? pass := by
  induction fuel generalizing reader count pass with
  | zero =>
      cases h
      exact reports_empty old?
  | succ fuel ih =>
      rw [run] at h
      obtain ⟨⟨answer, after⟩, -, h⟩ := exists_of_bind h
      cases answer with
      | none =>
          cases h
          exact reports_empty old?
      | some token =>
          by_cases hid : token.id = TokenId.endOfLine
          · simp only [if_pos hid] at h
            cases hold : old? after.offset with
            | none =>
                simp only [hold] at h
                obtain ⟨rest, hrest, h⟩ := exists_of_bind h
                cases h
                exact ((ih hrest).addCheckpoint hold).addToken token
            | some old =>
                simp only [hold] at h
                by_cases hsame : old.state = after.store
                · rw [if_pos hsame] at h
                  cases h
                  exact reports_of_same token hold hsame
                · rw [if_neg hsame] at h
                  obtain ⟨rest, hrest, h⟩ := exists_of_bind h
                  cases h
                  exact ((ih hrest).addDifference hold hsame).addToken token
          · simp only [if_neg hid] at h
            obtain ⟨rest, hrest, h⟩ := exists_of_bind h
            cases h
            exact (ih hrest).addToken token

/-- All comparisons but the last have another outcome. -/
theorem Reports.different (h : Reports old? pass) :
    ∀ comparison ∈ pass.comparisons.dropLast, comparison.equal = false := by
  intro comparison hmem
  cases hmet : pass.met with
  | none => exact h.all hmet comparison (List.dropLast_subset _ hmem)
  | some old =>
      obtain ⟨front, checkpoint, -, hcomparisons, hfront⟩ := h.stopped (by rw [hmet]; rfl)
      rw [hcomparisons, List.dropLast_concat] at hmem
      exact hfront comparison hmem

/-- Where no comparison finds the same state the pass did not stop. -/
theorem Reports.met_of_different (h : Reports old? pass)
    (hdifferent : ∀ comparison ∈ pass.comparisons, comparison.equal = false) :
    pass.met = none := by
  cases hmet : pass.met with
  | none => rfl
  | some old =>
      obtain ⟨front, checkpoint, -, hcomparisons, -⟩ := h.stopped (by rw [hmet]; rfl)
      rw [hcomparisons] at hdifferent
      cases hdifferent _ (List.mem_append_right _ (List.mem_singleton_self _))

/-- A pass stopped at the line of its last comparison if that found the same state. -/
theorem Reports.converged (h : Reports old? pass) (place : Nat) :
    (if pass.met.isSome then pass.checkpoints.getLast?.map (·.offset) else none) = some place ↔
      pass.comparisons.getLast? = some ⟨place, true⟩ := by
  cases hmet : pass.met with
  | none =>
      rw [Option.isSome_none, if_neg Bool.false_ne_true]
      refine ⟨fun hnone => (nomatch hnone), fun hlast => ?_⟩
      cases h.all hmet _ (List.mem_of_getLast? hlast)
  | some old =>
      obtain ⟨front, checkpoint, hlast, hcomparisons, -⟩ := h.stopped (by rw [hmet]; rfl)
      rw [Option.isSome_some, if_pos rfl, hlast, hcomparisons, List.getLast?_concat]
      simp

theorem reports_of_ofText {dialect : Dialect} {text : Bytes} {start : Checkpoint}
    (h : ofText dialect text start old? = .ok pass) : Reports old? pass := by
  obtain ⟨reader, -, hrun⟩ := exists_of_bind h
  exact reports_of_run hrun

end Pass

/-! ## What a report tells -/

namespace Document

/-- The state in which the line at `start` is lexed, if a line starts there. -/
def stateAt (document : Document) (start : Nat) : Option State :=
  (document.checkpoints.find? (fun checkpoint => checkpoint.offset = start)).map Checkpoint.state

/-- The lines of the edited text that start behind an edit and started a line of the old text
too, where what follows the edit stood there. -/
def sharedLines (document : Document) (edit : Edit) : List Nat :=
  (edit.apply document.text).lineStarts.filter fun start =>
    edit.offset < start ∧ edit.offset + edit.inserted.length ≤ start ∧
      start - edit.inserted.length + edit.removed ∈ document.text.lineStarts

end Document

/-- What a report tells about an edit that led from one document to another. -/
structure RelexReport.Exact (document : Document) (edit : Edit) (edited : Document)
    (report : RelexReport) : Prop where
  /-- Lexing restarted at the last line that starts at or before the edit. -/
  restart : IsGreatest {start | start ∈ document.text.lineStarts ∧ start ≤ edit.offset}
    report.restartOffset
  /-- It is such a line of the edited text, too. -/
  restart_edited : IsGreatest {start | start ∈ edited.text.lineStarts ∧ start ≤ edit.offset}
    report.restartOffset
  increasing : (report.comparisons.map Comparison.offset).Pairwise (· < ·)
  behind : ∀ comparison ∈ report.comparisons, edit.offset < comparison.offset ∧
    edit.offset + edit.inserted.length ≤ comparison.offset
  /-- The lines that both texts share are compared one after the other, from the first on, and
  all of them if no two states are the same. -/
  listed : ∃ rest, document.sharedLines edit = report.comparisons.map Comparison.offset ++ rest ∧
    ((∀ comparison ∈ report.comparisons, comparison.equal = false) → rest = [])
  /-- Compared are the state of the line in the edited document and that of its counterpart. -/
  outcome : ∀ comparison ∈ report.comparisons, ∃ state old,
    edited.stateAt comparison.offset = some state ∧
      document.stateAt (comparison.offset - edit.inserted.length + edit.removed) = some old ∧
      (comparison.equal = true ↔ state = old)
  /-- Only the last comparison can find the same state. -/
  different : ∀ comparison ∈ report.comparisons.dropLast, comparison.equal = false
  converged : ∀ place, report.convergedAt = some place ↔
    report.comparisons.getLast? = some ⟨place, true⟩
  relexed : report.relexedTokens = edited.spans.countP fun span =>
    report.restartOffset ≤ span.start ∧
      span.start < report.convergedAt.getD edited.text.length

namespace Document

variable {dialect : Dialect} {text : Bytes} {passages : List (Passage State)} {final : State}
  {edit : Edit}

/-- The state of a line is that of its checkpoint. -/
theorem stateAt_of_mem
    (h : dialect.grammar.Path text 0 State.initial passages text.length final)
    {checkpoint : Checkpoint} (hmem : checkpoint ∈ (ofPassages dialect text passages).checkpoints) :
    (ofPassages dialect text passages).stateAt checkpoint.offset = some checkpoint.state := by
  have hpairwise := pairwise_checkpoints h
  obtain ⟨before, behind, hsplit⟩ := List.append_of_mem hmem
  rw [hsplit] at hpairwise
  rw [stateAt, hsplit, Checkpoint.find?_offset hpairwise]
  rfl

/-- Where what follows an edit stood before. -/
theorem eq_origin {start : Nat} (h : edit.newEnd ≤ start) :
    start - edit.newEnd + edit.oldEnd = start - edit.inserted.length + edit.removed := by
  rw [Edit.newEnd] at h
  rw [Edit.newEnd, Edit.oldEnd]
  omega

/-- A line has an old counterpart if it stands behind what was inserted and a line started
there before. -/
theorem isSome_counterpart_iff
    (h : dialect.grammar.Path text 0 State.initial passages text.length final) {start : Nat} :
    ((ofPassages dialect text passages).counterpart edit start).isSome ↔
      edit.newEnd ≤ start ∧
        start - edit.inserted.length + edit.removed ∈ text.lineStarts := by
  rw [counterpart]
  split
  · rename_i hlt
    exact ⟨fun hnone => absurd hnone (by decide), fun hle => absurd hle.1 (Nat.not_le.mpr hlt)⟩
  · rename_i hle
    have hle := Nat.le_of_not_lt hle
    rw [eq_origin hle, ← Checkpoint.map_offset_eq_lineStarts h, List.mem_map, List.find?_isSome]
    simp only [decide_eq_true_eq, hle, true_and]
    rfl

/-- In order, the checkpoints up to a place are all that stand there or before. -/
theorem mem_checkpointsUpTo {document : Document} {checkpoint : Checkpoint} {offset : Nat}
    (h : document.checkpoints.Pairwise (fun a b => a.offset < b.offset))
    (hmem : checkpoint ∈ document.checkpoints) (hle : checkpoint.offset ≤ offset) :
    checkpoint ∈ document.checkpointsUpTo offset := by
  rw [checkpointsUpTo]
  generalize document.checkpoints = checkpoints at h hmem
  induction checkpoints with
  | nil => cases hmem
  | cons head checkpoints ih =>
      obtain ⟨hhead, hrest⟩ := List.pairwise_cons.mp h
      rcases List.mem_cons.mp hmem with rfl | hmem
      · rw [List.takeWhile_cons, if_pos (decide_eq_true hle)]
        exact List.mem_cons_self ..
      · have hlt := hhead checkpoint hmem
        rw [List.takeWhile_cons, if_pos (decide_eq_true (by omega))]
        exact List.mem_cons_of_mem _ (ih hrest hmem)

variable {start : Checkpoint} {front more : List (Passage State)} {pass : Pass}

/-- Lexing restarts at the last line that starts at or before an edit. -/
theorem Relexed.isGreatest (hrelexed : Relexed dialect text passages edit start front more pass)
    (h : dialect.grammar.Path text 0 State.initial passages text.length final) :
    IsGreatest {place | place ∈ text.lineStarts ∧ place ≤ edit.offset} start.offset := by
  have hpairwise := pairwise_checkpoints h
  obtain ⟨before, hlast⟩ := hrelexed.last
  have hupTo := hrelexed.upTo.trans hlast
  have hcheckpoints := Checkpoint.map_offset_eq_lineStarts h
  have hfront : before ++ [start] <+: (ofPassages dialect text passages).checkpoints :=
    hupTo ▸ List.takeWhile_prefix _
  refine ⟨⟨?_, hrelexed.le⟩, ?_⟩
  · rw [← hcheckpoints]
    exact List.mem_map_of_mem
      (hfront.subset (List.mem_append_right _ (List.mem_singleton_self _)))
  · rintro place ⟨hplace, hle⟩
    rw [← hcheckpoints] at hplace
    obtain ⟨checkpoint, hmem, rfl⟩ := List.mem_map.mp hplace
    have hmem := mem_checkpointsUpTo hpairwise hmem hle
    rw [hupTo] at hmem
    rcases List.mem_append.mp hmem with hmem | hmem
    · have hbefore := hpairwise.sublist hfront.sublist
      exact Nat.le_of_lt
        ((List.pairwise_append.mp hbefore).2.2 checkpoint hmem start (List.mem_singleton_self _))
    · exact Nat.le_of_eq (congrArg Checkpoint.offset (List.mem_singleton.mp hmem))

/-- What was kept and what was read behind it are the edited text. -/
theorem Relexed.path (hrelexed : Relexed dialect text passages edit start front more pass) :
    ∃ final, dialect.grammar.Path (edit.apply text) 0 State.initial (front ++ more)
      (edit.apply text).length final := by
  obtain ⟨final, hmore, -⟩ := hrelexed.behind
  exact ⟨final, hrelexed.before.append hmore⟩

/-- Lexing restarts at the same line of the edited text. -/
theorem Relexed.isGreatest_apply
    (hrelexed : Relexed dialect text passages edit start front more pass)
    (h : dialect.grammar.Path text 0 State.initial passages text.length final)
    (hfits : edit.oldEnd ≤ text.length) :
    IsGreatest {place | place ∈ (edit.apply text).lineStarts ∧ place ≤ edit.offset}
      start.offset := by
  have hsame : {place | place ∈ (edit.apply text).lineStarts ∧ place ≤ edit.offset} =
      {place | place ∈ text.lineStarts ∧ place ≤ edit.offset} :=
    Set.ext fun place => and_congr_left (Edit.mem_lineStarts_apply hfits)
  rw [hsame]
  exact hrelexed.isGreatest h

/-- The lines that start behind the restart start behind the edit. -/
theorem Relexed.offset_lt
    (hrelexed : Relexed dialect text passages edit start front more pass)
    (h : dialect.grammar.Path text 0 State.initial passages text.length final)
    (hfits : edit.oldEnd ≤ text.length) {place : Nat}
    (hplace : place ∈ (Checkpoint.ofPassages front.length more).map Checkpoint.offset) :
    edit.offset < place := by
  obtain ⟨final', hpath⟩ := hrelexed.path
  obtain ⟨last, hmore, -⟩ := hrelexed.behind
  have hready := (dialect.resumption.ready_of_path hrelexed.before (State.ready_initial _)).1
  obtain ⟨checkpoint, hmem, rfl⟩ := List.mem_map.mp hplace
  have hbehind := (Checkpoint.pairwise_offset dialect.resumption front.length hmore hready).1
    checkpoint hmem
  have hstarts : checkpoint.offset ∈ (edit.apply text).lineStarts := by
    rw [← Checkpoint.map_offset_eq_lineStarts hpath, Checkpoint.ofPassages_append, Nat.zero_add]
    exact List.mem_map_of_mem (List.mem_cons_of_mem _ (List.mem_append_right _ hmem))
  by_contra hle
  have hle := (hrelexed.isGreatest_apply h hfits).2 ⟨hstarts, Nat.le_of_not_lt hle⟩
  omega

/-- The lines of both texts behind an edit are those behind the restart that have a
counterpart. -/
theorem Relexed.sharedLines_eq
    (hrelexed : Relexed dialect text passages edit start front more pass)
    (h : dialect.grammar.Path text 0 State.initial passages text.length final)
    (hfits : edit.oldEnd ≤ text.length) :
    (ofPassages dialect text passages).sharedLines edit =
      (Comparison.ofCheckpoints ((ofPassages dialect text passages).counterpart edit)
        (Checkpoint.ofPassages front.length more)).map Comparison.offset := by
  obtain ⟨final', hpath⟩ := hrelexed.path
  have hkept : ∀ checkpoint ∈ Checkpoint.first :: Checkpoint.ofPassages 0 front,
      checkpoint.offset ≤ edit.offset := by
    rw [← hrelexed.upTo]
    intro checkpoint hmem
    exact of_decide_eq_true (List.all_eq_true.mp List.all_takeWhile checkpoint hmem)
  have hstarts : (edit.apply text).lineStarts =
      (Checkpoint.first :: Checkpoint.ofPassages 0 front).map Checkpoint.offset ++
        (Checkpoint.ofPassages front.length more).map Checkpoint.offset := by
    rw [← Checkpoint.map_offset_eq_lineStarts hpath, Checkpoint.ofPassages_append, Nat.zero_add,
      ← List.cons_append, List.map_append]
  have hnone : ((Checkpoint.first :: Checkpoint.ofPassages 0 front).map Checkpoint.offset).filter
      (fun place => edit.offset < place ∧ edit.offset + edit.inserted.length ≤ place ∧
        place - edit.inserted.length + edit.removed ∈ text.lineStarts) = [] := by
    rw [List.filter_eq_nil_iff]
    intro place hplace
    obtain ⟨checkpoint, hmem, rfl⟩ := List.mem_map.mp hplace
    have hle := hkept checkpoint hmem
    rw [decide_eq_true_eq]
    omega
  rw [sharedLines, show (ofPassages dialect text passages).text = text from rfl, hstarts,
    List.filter_append, hnone, List.nil_append, Comparison.map_offset_ofCheckpoints]
  refine List.filter_congr fun place hplace => ?_
  have hlt := hrelexed.offset_lt h hfits hplace
  rw [Bool.eq_iff_iff, decide_eq_true_iff, isSome_counterpart_iff h]
  exact ⟨fun hshared => hshared.2, fun hshared => ⟨hlt, hshared⟩⟩

/-- The tokens that stand between two places where tokens start. -/
theorem countP_spans {offset mid stop last : Nat} {state between next final : State}
    {front middle rest : List (Passage State)} (hready : state.Ready (text.drop offset))
    (hfront : dialect.grammar.Path text offset state front mid between)
    (hmiddle : dialect.grammar.Path text mid between middle stop next)
    (hrest : dialect.grammar.Path text stop next rest last final) :
    ((front ++ middle ++ rest).map Passage.span).countP
      (fun span => mid ≤ span.start ∧ span.start < stop) = middle.length := by
  have hbetween := (dialect.resumption.ready_of_path hfront hready).1
  have hnext := (dialect.resumption.ready_of_path hmiddle hbetween).1
  have hbefore := Span.start_of_mem_tiles (dialect.resumption.tiles_of_path hfront hready)
  have hinside := Span.start_of_mem_tiles (dialect.resumption.tiles_of_path hmiddle hbetween)
  have hbehind := Span.start_of_mem_tiles (dialect.resumption.tiles_of_path hrest hnext)
  have hnone : (front.map Passage.span).countP
      (fun span => mid ≤ span.start ∧ span.start < stop) = 0 := by
    rw [List.countP_eq_zero]
    intro span hmem
    have := hbefore span hmem
    rw [decide_eq_true_eq]
    omega
  have hnone' : (rest.map Passage.span).countP
      (fun span => mid ≤ span.start ∧ span.start < stop) = 0 := by
    rw [List.countP_eq_zero]
    intro span hmem
    have := hbehind span hmem
    rw [decide_eq_true_eq]
    omega
  have hall : (middle.map Passage.span).countP
      (fun span => mid ≤ span.start ∧ span.start < stop) = middle.length := by
    rw [← List.length_map Passage.span, List.countP_eq_length]
    intro span hmem
    exact decide_eq_true (hinside span hmem)
  rw [List.map_append, List.map_append, List.countP_append, List.countP_append, hnone, hnone',
    hall, Nat.zero_add, Nat.add_zero]

/-- The tokens that a pass brings are those from the restart up to where it stopped. -/
theorem Relexed.length_tokens
    (hrelexed : Relexed dialect text passages edit start front more pass) :
    pass.tokens.length = (ofPassages dialect (edit.apply text) (front ++ more)).spans.countP
      fun span => start.offset ≤ span.start ∧ span.start <
        (if pass.met.isSome then pass.checkpoints.getLast?.map (·.offset) else none).getD
          (edit.apply text).length := by
  obtain ⟨final', hpath⟩ := hrelexed.path
  obtain ⟨last, hmore, -⟩ := hrelexed.behind
  have hready := State.ready_initial ((edit.apply text).drop 0)
  have hspans : (ofPassages dialect (edit.apply text) (front ++ more)).spans =
      (front ++ more).map Passage.span := hpath.span_eq
  rw [hspans]
  cases hrelexed.brings with
  | all hmet htokens _ =>
      have hcount := countP_spans hready hrelexed.before hmore (.nil _ _)
      rw [List.append_nil] at hcount
      rw [hmet, htokens, List.length_map, ← hcount]
      rfl
  | @met inner after passage met hinner hid _ _ hmet htokens hcheckpoints =>
      rw [hinner, List.append_cons] at hmore
      obtain ⟨mid, between, hread, hafter⟩ := hmore.of_append
      have hlast : (if pass.met.isSome then pass.checkpoints.getLast?.map (·.offset)
          else none) = some mid := by
        obtain ⟨place, base, -, hpassage⟩ := hread.of_append
        rw [hmet, Option.isSome_some, if_pos rfl, hcheckpoints, Checkpoint.ofPassages_append,
          Checkpoint.ofPassages, if_pos hid, Checkpoint.ofPassages, List.getLast?_concat]
        cases hpassage with
        | cons _ hnil =>
            cases hnil
            rfl
      have hcount := countP_spans hready hrelexed.before hread hafter
      have hsplit : front ++ more = front ++ (inner ++ [passage]) ++ after := by
        rw [hinner, List.append_cons, ← List.append_assoc]
      rw [hlast, htokens, List.length_map, hsplit, ← hcount]
      rfl

/-- The report on an edit is exact. -/
theorem Relexed.exact
    (hrelexed : Relexed dialect text passages edit start front more pass)
    (h : dialect.grammar.Path text 0 State.initial passages text.length final)
    (hfits : edit.oldEnd ≤ text.length) :
    RelexReport.Exact (ofPassages dialect text passages) edit
      (ofPassages dialect (edit.apply text) (front ++ more)) {
        restartOffset := start.offset
        comparisons := pass.comparisons
        convergedAt := if pass.met.isSome then pass.checkpoints.getLast?.map (·.offset) else none
        relexedTokens := pass.tokens.length } := by
  obtain ⟨final', hpath⟩ := hrelexed.path
  have hreports := Pass.reports_of_ofText hrelexed.runs
  obtain ⟨unread, hunread, hall⟩ := hrelexed.brings.exists_checkpoints
  have hshared : (ofPassages dialect text passages).sharedLines edit =
      pass.comparisons.map Comparison.offset ++
        (Comparison.ofCheckpoints ((ofPassages dialect text passages).counterpart edit)
          unread).map Comparison.offset := by
    rw [hrelexed.sharedLines_eq h hfits, hunread, Comparison.ofCheckpoints, List.filterMap_append,
      List.map_append, hreports.comparisons]
    rfl
  have hmem : ∀ comparison ∈ pass.comparisons,
      comparison.offset ∈ (ofPassages dialect text passages).sharedLines edit := by
    intro comparison hmem
    rw [hshared]
    exact List.mem_append_left _ (List.mem_map_of_mem hmem)
  exact {
    restart := hrelexed.isGreatest h
    restart_edited := hrelexed.isGreatest_apply h hfits
    increasing := by
      have hpairwise : ((ofPassages dialect text passages).sharedLines edit).Pairwise (· < ·) :=
        (Bytes.pairwise_lineStarts (edit.apply text)).sublist List.filter_sublist
      rw [hshared] at hpairwise
      exact (List.pairwise_append.mp hpairwise).1
    behind := by
      intro comparison hcomparison
      have hlines := of_decide_eq_true (List.mem_filter.mp (hmem comparison hcomparison)).2
      exact ⟨hlines.1, hlines.2.1⟩
    listed := by
      refine ⟨_, hshared, fun hdifferent => ?_⟩
      rw [hall (hreports.met_of_different hdifferent)]
      rfl
    outcome := by
      intro comparison hcomparison
      rw [hreports.comparisons] at hcomparison
      obtain ⟨checkpoint, hchecked, old, hold, hoffset, hequal⟩ :=
        Comparison.exists_of_mem hcomparison
      obtain ⟨hmem, hle, horigin⟩ := mem_of_counterpart hold
      refine ⟨checkpoint.state, old.state, ?_, ?_, hequal⟩
      · rw [← hoffset]
        refine stateAt_of_mem hpath (List.mem_cons_of_mem _ ?_)
        rw [Checkpoint.ofPassages_append, Nat.zero_add, hunread]
        exact List.mem_append_right _ (List.mem_append_left _ hchecked)
      · rw [← eq_origin hle, ← horigin]
        exact stateAt_of_mem h hmem
    different := hreports.different
    converged := hreports.converged
    relexed := hrelexed.length_tokens }

/-- However often a document was edited after it was lexed, one more edit that fits is reported
exactly: where lexing restarted, which lines were compared with what outcome, where the old
document was met again, and how many tokens were read until then. -/
theorem relex_report_exact (dialect : Dialect) (hvalid : dialect.delimiters.Validated)
    (text : Bytes) (edits : List Edit) :
    ∃ original document, lex dialect text = .ok original ∧
      original.relexAll edits = .ok document ∧ document.text = Edit.applyAll text edits ∧
      ∀ edit : Edit, edit.offset + edit.removed ≤ document.text.length →
        ∃ edited report, document.relex edit = .ok (.ok (edited, report)) ∧
          edited.text = edit.apply document.text ∧ lex dialect edited.text = .ok edited ∧
          RelexReport.Exact document edit edited report := by
  obtain ⟨passages, final, hpath, -⟩ := dialect.resumption.exists_path text (Nat.zero_le _)
    (State.ready_initial _)
  obtain ⟨before, final', hbefore, hrelexAll⟩ := relexAll_of_path hvalid hpath edits
  refine ⟨_, _, lex_eq hpath, hrelexAll, rfl, fun edit hfits => ?_⟩
  obtain ⟨start, front, more, pass, hrelexed⟩ := exists_relexed hvalid hbefore hfits
  obtain ⟨final'', hedited⟩ := hrelexed.path
  obtain ⟨kept, hlast⟩ := hrelexed.last
  have hrelex := relex_of_pass hfits (hrelexed.upTo.trans hlast) hrelexed.runs
  rw [splice_of_relexed hbefore hfits hrelexed] at hrelex
  exact ⟨_, _, hrelex, text_relex hrelex, lex_eq hedited, hrelexed.exact hbefore hfits⟩

/-- So it is with the default prefixes, when a comment over several lines was closed early and
its old end is then removed. -/
theorem default_relex_report_exact :
    Dialect.default.delimiters.Validated ∧
      ∃ original document,
        lex Dialect.default (Bytes.ofString "<%-- a\nb\nc --%>\nd") = .ok original ∧
        original.relexAll [Edit.insert 6 (Bytes.ofString " --%>")] = .ok document ∧
        15 + 5 ≤ document.text.length ∧
        ∃ edited report, document.relex (Edit.delete 15 20) = .ok (.ok (edited, report)) ∧
          lex Dialect.default edited.text = .ok edited ∧
          RelexReport.Exact document (Edit.delete 15 20) edited report := by
  obtain ⟨original, document, horiginal, hdocument, htext, hall⟩ :=
    relex_report_exact Dialect.default Delimiters.validated_default
      (Bytes.ofString "<%-- a\nb\nc --%>\nd") [Edit.insert 6 (Bytes.ofString " --%>")]
  have hfits : 15 + 5 ≤ document.text.length := by
    rw [htext]
    decide +kernel
  obtain ⟨edited, report, hrelex, -, hlex, hexact⟩ := hall (Edit.delete 15 20) hfits
  exact ⟨Delimiters.validated_default, original, document, horiginal, hdocument, hfits, edited,
    report, hrelex, hlex, hexact⟩

/-- Once a comment is closed early its lines are in another state, up to where it ended
before. -/
example :
    (do
      let document ← lex Dialect.default (Bytes.ofString "<%-- a\nb\nc --%>\nd\n")
      let relexed ← document.relex (Edit.insert 6 (Bytes.ofString " --%>"))
      return relexed.toOption.map Prod.snd : Except Fault (Option RelexReport)) =
      .ok (some ⟨0, [⟨12, false⟩, ⟨14, false⟩, ⟨21, true⟩], some 21, 6⟩) := by
  decide +kernel

end Document

end PageLexing
