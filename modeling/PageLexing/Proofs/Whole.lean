import PageLexing.Proofs.Resumption

/-!
# The rest of a text in one window

A window that ends with the text holds all that is left of it. What a reader answers in it
are the tokens that are read from its state on, one at each call, and behind the last of
them nothing, however often it is asked.

## Main results

* `answers_of_path` — what a reader answers, call by call.
* `drain_of_path` — what a reader answers if it is asked until it answers nothing.
-/

namespace PageLexing.Reader

variable {σ : Type} {grammar : Grammar σ} {source : Bytes} {offset stop : Nat}
  {state final : σ} {passages : List (Passage σ)}

/-- A reader of the rest of a text. -/
abbrev ofRest (grammar : Grammar σ) (source : Bytes) (offset : Nat) (state : σ) : Reader σ :=
  window grammar source offset source.length true state

theorem view_ofRest (grammar : Grammar σ) (source : Bytes) (offset : Nat) (state : σ) :
    (ofRest grammar source offset state).view = View.whole (source.drop offset) := by
  simp [view, window]

/-- A state before a token is loaded where it stands. -/
theorem load_ofRest (resumption : grammar.Resumption)
    (h : resumption.Ready (source.drop offset) state) (hoffset : offset ≤ source.length) :
    (Reader.new grammar).load (some state) source offset (source.length - offset) true =
      .ok (ofRest grammar source offset state) := by
  have hprescan : grammar.prescan state = 0 := resumption.prescan_of_ready h
  have hload := @load_eq_window σ source (Reader.new grammar) offset (source.length - offset)
    (some state) true (by
      show grammar.prescan state ≤ offset
      omega)
  rw [hload]
  show Except.ok (window grammar source (offset - grammar.prescan state) _ true state) = _
  rw [hprescan, Nat.sub_zero, Nat.add_sub_cancel' hoffset, Nat.min_self]

/-! ## Single calls -/

/-- The next token of the text is answered. -/
theorem next_ofRest_of_token {token : Token} {next : σ}
    (h : grammar.step (View.whole (source.drop offset)) state = .ok (.token token next)) :
    (ofRest grammar source offset state).next =
      .ok (some token, ofRest grammar source (offset + token.len) next) := by
  have hstep : (ofRest grammar source offset state).grammar.step
      (ofRest grammar source offset state).view (ofRest grammar source offset state).state =
        .ok (.token token next) := by
    rw [view_ofRest]
    exact h
  rw [next_of_token hstep]
  simp [behind, window, List.drop_drop]

/-- At the end of the text nothing is answered, and nothing changes. -/
theorem next_ofRest_of_length (resumption : grammar.Resumption) (source : Bytes)
    (h : resumption.Ready [] state) :
    (ofRest grammar source source.length state).next =
      .ok (none, ofRest grammar source source.length state) := by
  have hprescan := resumption.prescan_of_ready h
  have hview := view_ofRest grammar source source.length state
  rw [List.drop_length] at hview
  rcases resumption.step 0 true (resumption.pending_of_ready h) (by omega) (Nat.le_refl 0)
    (fun _ => rfl) with ⟨held, hstep, hpending, hheld, -⟩ | ⟨token, next, -, -, hpos, hlen, -⟩
  · have hsame := resumption.eq_of_prescan hpending hheld
    subst hsame
    exact next_of_hold (by rw [hview]; exact hstep)
  · omega

/-! ## Many calls -/

/-- Each call answers the next token, behind which the reader then stands, and none once the
text is read. -/
theorem answers_of_path (resumption : grammar.Resumption)
    (h : grammar.Path source offset state passages source.length final)
    (hready : resumption.Ready (source.drop offset) state) (calls : Nat) :
    ∃ answers after, (ofRest grammar source offset state).answers calls = .ok (answers, after) ∧
      answers.length = calls ∧
      ∀ (i : Nat) answer, answers[i]? = some answer →
        answer.token = passages[i]?.map Passage.token ∧
        answer.reader.offset =
          (passages[i]?.map fun passage => passage.start + passage.token.len).getD
            source.length := by
  induction calls generalizing offset state passages with
  | zero => exact ⟨[], _, rfl, rfl, by simp⟩
  | succ calls ih =>
      cases h with
      | nil =>
          obtain ⟨answers, after, hanswers, hlength, hall⟩ := ih (.nil _ final) hready
          rw [List.drop_length] at hready
          have hnext := next_ofRest_of_length resumption source hready
          refine ⟨_, after, answers_of_next hnext hanswers, congrArg (· + 1) hlength, ?_⟩
          intro i answer hanswer
          cases i with
          | zero =>
              cases hanswer
              exact ⟨rfl, rfl⟩
          | succ i => simpa using hall i answer hanswer
      | @cons _ _ _ next _ token passages hstep hrest =>
          have hnext := next_ofRest_of_token hstep
          have hready' := (resumption.next_of_step hready hstep).2
          obtain ⟨answers, after, hanswers, hlength, hall⟩ := ih hrest hready'
          refine ⟨_, after, answers_of_next hnext hanswers, congrArg (· + 1) hlength, ?_⟩
          intro i answer hanswer
          cases i with
          | zero =>
              cases hanswer
              exact ⟨rfl, rfl⟩
          | succ i => exact hall i answer hanswer

/-- Asked until it answers nothing, a reader answers all tokens that are left. -/
theorem drainWithin_of_path (resumption : grammar.Resumption)
    (h : grammar.Path source offset state passages stop final) (hstop : stop = source.length)
    (hready : resumption.Ready (source.drop offset) state) {fuel : Nat}
    (hfuel : passages.length < fuel) :
    (ofRest grammar source offset state).drainWithin fuel =
      .ok (passages.map Passage.token, ofRest grammar source source.length final) := by
  induction h generalizing fuel with
  | nil offset state =>
      obtain ⟨fuel, rfl⟩ : ∃ rest, fuel = rest + 1 := ⟨fuel - 1, by omega⟩
      subst hstop
      have hnext := next_ofRest_of_length resumption source (by rwa [List.drop_length] at hready)
      simp only [drainWithin, hnext, bind, Except.bind, List.map_nil]
  | cons hstep _ ih =>
      obtain ⟨fuel, rfl⟩ : ∃ rest, fuel = rest + 1 := ⟨fuel - 1, by omega⟩
      have hnext := next_ofRest_of_token hstep
      have hready' := (resumption.next_of_step hready hstep).2
      have hdrain := ih hstop hready' (Nat.lt_of_succ_lt_succ hfuel)
      simp only [drainWithin, hnext, hdrain, bind, Except.bind, List.map_cons]

/-- Draining a window that ends with the text answers all tokens that are left. -/
theorem drain_of_path (resumption : grammar.Resumption)
    (h : grammar.Path source offset state passages source.length final)
    (hready : resumption.Ready (source.drop offset) state) :
    (ofRest grammar source offset state).drain =
      .ok (passages.map Passage.token, ofRest grammar source source.length final) := by
  have hlen := (resumption.ready_of_path h hready).2
  refine drainWithin_of_path resumption h rfl hready ?_
  show passages.length < source.length - offset + 4
  omega

end PageLexing.Reader
