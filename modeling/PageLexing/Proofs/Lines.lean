import PageLexing.Document
import PageLexing.Proofs.Locality
import PageLexing.Proofs.Newlines

/-!
# Lines of a page

What is read of whole lines does not depend on what comes behind them, and what is read from
a state on does not depend on where in a text it stands. A checkpoint parts the tokens of a
text into those of whole lines and those that are read from its state on.

## Main results

* `Grammar.Path.move` — the same bytes are read in the same way at another place.
* `Dialect.path_of_lines` — what is read of whole lines depends on them alone.
* `Checkpoint.exists_split` — a checkpoint parts the tokens of a text.
* `Checkpoint.pairwise_offset` — checkpoints stand in order.
-/

namespace PageLexing

/-! ## Reading at another place -/

/-- The passage at which the bytes of `origin` stand at `target`. -/
def Passage.move {σ : Type} (origin target : Nat) (passage : Passage σ) : Passage σ :=
  { passage with start := passage.start - origin + target }

@[simp] theorem Passage.map_token_move {σ : Type} (origin target : Nat)
    (passages : List (Passage σ)) :
    (passages.map (Passage.move origin target)).map Passage.token = passages.map Passage.token := by
  rw [List.map_map]
  rfl

/-- The same bytes are read in the same way at another place. -/
theorem Grammar.Path.move {σ : Type} {grammar : Grammar σ} {source other : Bytes}
    {origin target offset stop : Nat} {state final : σ} {passages : List (Passage σ)}
    (h : Grammar.Path grammar source offset state passages stop final) (hle : origin ≤ offset)
    (hsame : other.drop target = source.drop origin) :
    Grammar.Path grammar other (offset - origin + target) state
      (passages.map (Passage.move origin target)) (stop - origin + target) final := by
  induction h with
  | nil => exact .nil _ _
  | @cons offset stop state next final token passages hstep _ ih =>
      have hdrop : other.drop (offset - origin + target) = source.drop offset := by
        rw [Nat.add_comm, ← List.drop_drop, hsame, List.drop_drop, Nat.add_sub_cancel' hle]
      have hrest := ih (Nat.le_trans hle (Nat.le_add_right _ _))
      rw [show offset + token.len - origin + target = offset - origin + target + token.len by
        omega] at hrest
      refine .cons ?_ hrest
      rw [hdrop]
      exact hstep

/-! ## Whole lines -/

/-- From every place in the text on there is a newline. -/
def WholeLines (text : Bytes) : Prop :=
  ∀ offset, offset < text.length → Byte.newline ∈ text.drop offset

/-- Whole lines are no text at all, or they end with a newline. -/
theorem wholeLines_iff {text : Bytes} :
    WholeLines text ↔ text = [] ∨ text.getLast? = some Byte.newline := by
  rcases List.eq_nil_or_concat text with rfl | ⟨front, byte, rfl⟩
  · exact ⟨fun _ => Or.inl rfl, fun _ offset h => absurd h (Nat.not_lt_zero offset)⟩
  · rw [List.concat_eq_append, List.getLast?_concat]
    constructor
    · intro h
      have hlast := h front.length (by rw [List.length_append]; exact Nat.lt_succ_self _)
      rw [List.drop_left, List.mem_singleton] at hlast
      exact Or.inr (congrArg some hlast.symm)
    · rintro (hnil | hlast) offset hoffset
      · exact absurd hnil (by simp)
      · cases hlast
        rw [List.length_append, List.length_singleton] at hoffset
        rw [List.drop_append_of_le_length (by omega)]
        exact List.mem_append_right _ (List.mem_singleton_self _)

theorem wholeLines_take {text : Bytes} {n : Nat}
    (h : (text.drop n).head? = some Byte.newline) : WholeLines (text.take (n + 1)) := by
  obtain ⟨rest, hrest⟩ := List.head?_eq_some_iff.mp h
  have htake : text.take (n + 1) = text.take n ++ [Byte.newline] := by
    rw [List.take_add, hrest, List.take_succ_cons, List.take_zero]
  rw [wholeLines_iff, htake]
  exact Or.inr List.getLast?_concat

namespace Dialect

open Page

variable {dialect : Dialect}

/-- What is read of whole lines depends on them alone. -/
theorem path_of_lines (hvalid : dialect.delimiters.Validated) {lines behind : Bytes}
    (other : Bytes) (hlines : WholeLines lines) {offset stop : Nat} {base final : State}
    {passages : List (Passage State)}
    (h : dialect.grammar.Path (lines ++ behind) offset base passages stop final)
    (hstop : stop = lines.length) (hready : base.Ready ((lines ++ behind).drop offset))
    (hother : base.Ready ((lines ++ other).drop offset)) :
    dialect.grammar.Path (lines ++ other) offset base passages stop final := by
  refine dialect.resumption.path_of_agree h ?_ hready hother
  intro offset base next token hle hready hother hstep
  have hpos := (dialect.resumption.next_of_step hready hstep).1
  have hline := hlines offset (by omega)
  rw [List.drop_append_of_le_length (by omega)] at hready hother hstep ⊢
  obtain ⟨token', next', hwindow, hwhole, -⟩ := step_of_newline hvalid behind hready hline
  rw [show dialect.grammar.step (View.whole (lines.drop offset ++ behind)) base = _ from hwhole]
    at hstep
  cases hstep
  exact step_of_completed other hother hwindow

/-- The token of a newline is a newline. -/
theorem newline_of_step {text : Bytes} {base next : State} {token : Token}
    (h : base.Ready text)
    (hstep : dialect.step (View.whole text) base = .ok (.token token next))
    (hid : token.id = TokenId.endOfLine) :
    token.len = 1 ∧ text.head? = some Byte.newline := by
  rcases keepsLines_of_step h hstep with ⟨rfl, hword⟩ | ⟨hkind, -⟩
  · refine ⟨rfl, ?_⟩
    have hhead := congrArg List.head? hword
    rwa [List.head?_take, if_neg (by decide)] at hhead
  · rw [hid] at hkind
    exact absurd hkind (by decide)

end Dialect

/-! ## Checkpoints -/

namespace Checkpoint

/-- The checkpoints behind the newlines of passages that `count` tokens come before. -/
def ofPassages (count : Nat) : List (Passage Page.State) → List Checkpoint
  | [] => []
  | passage :: rest =>
      if passage.token.id = TokenId.endOfLine then
        ⟨passage.start + passage.token.len, count + 1, passage.after⟩ ::
          ofPassages (count + 1) rest
      else ofPassages (count + 1) rest

theorem ofPassages_append (count : Nat) (front rest : List (Passage Page.State)) :
    ofPassages count (front ++ rest) =
      ofPassages count front ++ ofPassages (count + front.length) rest := by
  induction front generalizing count with
  | nil => rfl
  | cons passage front ih =>
      have hcount : count + 1 + front.length = count + (front.length + 1) := by omega
      simp only [List.cons_append, ofPassages, ih, List.length_cons, hcount]
      split <;> rfl

/-- A checkpoint is one of those before it, or the one behind the newline it stands after. -/
theorem split_ofPassages {count : Nat} {passages : List (Passage Page.State)}
    {before behind : List Checkpoint} {checkpoint : Checkpoint}
    (h : ofPassages count passages = before ++ checkpoint :: behind) :
    ∃ front passage rest, passages = front ++ passage :: rest ∧
      passage.token.id = TokenId.endOfLine ∧
      checkpoint = ⟨passage.start + passage.token.len, count + front.length + 1,
        passage.after⟩ ∧
      before = ofPassages count front ∧
      behind = ofPassages (count + front.length + 1) rest := by
  induction passages generalizing count before with
  | nil => simp [ofPassages] at h
  | cons passage passages ih =>
      by_cases hid : passage.token.id = TokenId.endOfLine
      · rw [ofPassages, if_pos hid] at h
        cases before with
        | nil =>
            obtain ⟨rfl, rfl⟩ := List.cons.inj h
            exact ⟨[], passage, passages, rfl, hid, rfl, rfl, rfl⟩
        | cons head before =>
            obtain ⟨rfl, hrest⟩ := List.cons.inj h
            obtain ⟨front, found, rest, rfl, hfound, hcheckpoint, hbefore, hbehind⟩ := ih hrest
            have hcount : count + 1 + front.length = count + (front.length + 1) := by omega
            refine ⟨passage :: front, found, rest, rfl, hfound, ?_, ?_, ?_⟩
            · rw [hcheckpoint, List.length_cons, hcount]
            · rw [ofPassages, if_pos hid, hbefore]
            · rw [hbehind, List.length_cons, hcount]
      · rw [ofPassages, if_neg hid] at h
        obtain ⟨front, found, rest, rfl, hfound, hcheckpoint, hbefore, hbehind⟩ := ih h
        have hcount : count + 1 + front.length = count + (front.length + 1) := by omega
        refine ⟨passage :: front, found, rest, rfl, hfound, ?_, ?_, ?_⟩
        · rw [hcheckpoint, List.length_cons, hcount]
        · rw [ofPassages, if_neg hid, hbefore]
        · rw [hbehind, List.length_cons, hcount]

variable {grammar : Grammar Page.State} {source : Bytes}

/-- All checkpoints of a path stand behind its start, and they stand in order. -/
theorem pairwise_offset (resumption : grammar.Resumption) (count : Nat) {offset stop : Nat}
    {state final : Page.State} {passages : List (Passage Page.State)}
    (h : grammar.Path source offset state passages stop final)
    (hready : resumption.Ready (source.drop offset) state) :
    (∀ checkpoint ∈ ofPassages count passages, offset < checkpoint.offset) ∧
      (ofPassages count passages).Pairwise (fun a b => a.offset < b.offset) := by
  induction h generalizing count with
  | nil => simp [ofPassages]
  | @cons offset stop state next final token passages hstep _ ih =>
      obtain ⟨hpos, hnext⟩ := resumption.next_of_step hready hstep
      obtain ⟨hbehind, hpairwise⟩ := ih (count + 1) hnext
      rw [ofPassages]
      split
      · refine ⟨?_, List.pairwise_cons.mpr ⟨hbehind, hpairwise⟩⟩
        intro checkpoint hmem
        rcases List.mem_cons.mp hmem with rfl | hmem
        · exact Nat.lt_add_of_pos_right hpos
        · have := hbehind checkpoint hmem
          omega
      · refine ⟨?_, hpairwise⟩
        intro checkpoint hmem
        have := hbehind checkpoint hmem
        omega

/-- No checkpoint stands before the tokens that it counts. -/
theorem lt_tokenIndex_of_mem {count : Nat} {passages : List (Passage Page.State)}
    {checkpoint : Checkpoint} (h : checkpoint ∈ ofPassages count passages) :
    count < checkpoint.tokenIndex := by
  induction passages generalizing count with
  | nil => cases h
  | cons passage passages ih =>
      rw [ofPassages] at h
      split at h
      · rcases List.mem_cons.mp h with rfl | hmem
        · exact Nat.lt_succ_self count
        · have := ih hmem
          omega
      · have := ih h
        omega

/-- The checkpoints of passages at another place are theirs at that place. -/
theorem ofPassages_move {offset stop origin target : Nat} {state final : Page.State}
    {passages : List (Passage Page.State)}
    (h : grammar.Path source offset state passages stop final) (hle : origin ≤ offset)
    (count other : Nat) :
    ofPassages other (passages.map (Passage.move origin target)) =
      (ofPassages count passages).map (fun checkpoint =>
        { checkpoint with
          offset := checkpoint.offset - origin + target
          tokenIndex := checkpoint.tokenIndex - count + other }) := by
  induction h generalizing count other with
  | nil => rfl
  | @cons offset stop state next final token passages hstep _ ih =>
      have hrest := ih (Nat.le_trans hle (Nat.le_add_right _ _)) (count + 1) (other + 1)
      have hindex : (ofPassages (count + 1) passages).map (fun checkpoint =>
            { checkpoint with
              offset := checkpoint.offset - origin + target
              tokenIndex := checkpoint.tokenIndex - (count + 1) + (other + 1) }) =
          (ofPassages (count + 1) passages).map (fun checkpoint =>
            { checkpoint with
              offset := checkpoint.offset - origin + target
              tokenIndex := checkpoint.tokenIndex - count + other }) := by
        refine List.map_congr_left fun checkpoint hmem => ?_
        have hlt := lt_tokenIndex_of_mem hmem
        rw [show checkpoint.tokenIndex - (count + 1) + (other + 1) =
          checkpoint.tokenIndex - count + other by omega]
      rw [hindex] at hrest
      simp only [List.map_cons, ofPassages, Passage.move]
      split
      · rw [List.map_cons]
        refine List.cons_eq_cons.mpr ⟨?_, hrest⟩
        rw [show offset - origin + target + token.len = offset + token.len - origin + target by
          omega, show other + 1 = count + 1 - count + other by omega]
      · exact hrest

/-- A checkpoint parts the tokens of a text into those of whole lines and those that are read
from its state on. -/
theorem exists_split {dialect : Dialect} {text : Bytes} {final : Page.State}
    {passages : List (Passage Page.State)} {before behind : List Checkpoint}
    {checkpoint : Checkpoint}
    (h : dialect.grammar.Path text 0 Page.State.initial passages text.length final)
    (hsplit : .first :: ofPassages 0 passages = before ++ checkpoint :: behind) :
    ∃ front rest, passages = front ++ rest ∧
      before ++ [checkpoint] = .first :: ofPassages 0 front ∧
      behind = ofPassages front.length rest ∧ checkpoint.tokenIndex = front.length ∧
      dialect.grammar.Path text 0 Page.State.initial front checkpoint.offset
        checkpoint.state ∧
      dialect.grammar.Path text checkpoint.offset checkpoint.state rest text.length final ∧
      WholeLines (text.take checkpoint.offset) := by
  cases before with
  | nil =>
      obtain ⟨rfl, rfl⟩ := List.cons.inj hsplit
      refine ⟨[], passages, rfl, rfl, rfl, rfl, .nil 0 _, h, ?_⟩
      intro offset hlt
      exact absurd hlt (Nat.not_lt_zero offset)
  | cons head before =>
      obtain ⟨rfl, hbehind⟩ := List.cons_eq_cons.mp hsplit
      obtain ⟨front, passage, rest, rfl, hid, rfl, rfl, rfl⟩ := split_ofPassages hbehind
      obtain ⟨mid, between, hfront, hrest⟩ := h.of_append
      have hready := (dialect.resumption.ready_of_path hfront
        (Page.State.ready_initial _)).1
      cases hrest with
      | @cons _ _ _ next _ token _ hstep hrest =>
          have hid : token.id = TokenId.endOfLine := hid
          obtain ⟨hlen, hhead⟩ := Dialect.newline_of_step hready hstep hid
          refine ⟨front ++ [⟨mid, between, token, next⟩], rest, by simp, ?_, by simp, by simp,
            hfront.snoc hstep, hrest, ?_⟩
          · simp [ofPassages_append, ofPassages, hid]
          · show WholeLines (text.take (mid + token.len))
            rw [hlen]
            exact wholeLines_take hhead

end Checkpoint

end PageLexing
