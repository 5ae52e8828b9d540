import PageLexing.Proofs.Lines
import PageLexing.Proofs.Scripts

/-!
# Bodies of scripts

What stands inside a script does not matter to the tokens around it. Before the script this is
because of the `=` that ends its opening: no probe that has read a `=` is undecided, so in a window
that ends with it a token is held back only if it goes on to the end of the window at least. The
tokens before the opening do not, and the opening is a delimiter, hence they are completed in that
window. Behind the script the page goes on from a state that the body is no part of.

## Main results

* `Dialect.step_of_foreign` — a token that ends inside such a window is completed in it.
* `Dialect.path_of_foreign` — what is read before such a window ends depends on the window alone.
* `Dialect.bodies_isolated` — only the tokens inside a script depend on what stands in it.
-/

namespace PageLexing

/-! ## Windows that end with a foreign byte -/

namespace Page

variable {dialect : Dialect} {text : Bytes} {base state : State} {start frame : Frame}

/-- No probe is undecided where a window ends with a byte that is foreign to delimiters. -/
theorem lookahead_of_foreign {byte : UInt8} (hforeign : dialect.delimiters.Foreign byte)
    (h : Pending dialect text base start state frame)
    (hlast : (text.take state.prescan).getLast? = some byte) : state.lookahead = none := by
  cases hlookahead : state.lookahead with
  | none => rfl
  | some lookahead =>
      obtain ⟨-, -, hprobes, -⟩ := h.busy lookahead hlookahead
      have hprobe := Delimiters.notMem_of_matches hforeign
        (Delimiters.matches_of_probes hprobes).1
      have hpos := hprobes.pos
      have hle := h.prescan_le
      have hne : (text.drop state.probed).take (state.prescan - state.probed) ≠ [] := by
        rw [← List.length_pos_iff, List.length_take, List.length_drop]
        omega
      rw [show state.prescan = state.probed + (state.prescan - state.probed) by omega,
        List.take_add, List.getLast?_append_of_ne_nil _ hne] at hlast
      exact absurd (List.mem_of_getLast? hlast) hprobe

/-- What is held back without a probe reaches at least as far as the window, and it is no
delimiter. -/
theorem prescan_le_len (h : Pending dialect text base start state frame)
    (hidle : state.lookahead = none) (hpos : 0 < state.prescan) {token : Token} {next : State}
    (hstep : dialect.step (View.whole text) base = .ok (.token token next)) :
    state.prescan ≤ token.len ∧ token.id ≠ delimiterId := by
  have hread := h.idle hidle
  have hprobed : state.probed = state.prescan :=
    Nat.le_antisymm h.probed_le (hread ▸ h.read_le)
  have hready := (start_ready h).1
  obtain ⟨found, after, hwhole, -⟩ :=
    exists_token hready (Nat.lt_of_lt_of_le hpos h.prescan_le)
  have hfound : state.prescan ≤ found.len := room_le_of_reads hready h.reads hread hwhole
  have hfree := h.free
  rw [hprobed] at hfree
  rcases scans_or_changes dialect h.ready h.starts hwhole with
    ⟨token', next', hattempt, hscans, hlen⟩ | ⟨«switch», hsearched, hfirst, -, -⟩
  · rw [Dialect.step_of_attempt hattempt] at hstep
    cases hstep
    refine ⟨?_, (scannedIn_of_scans hscans).1⟩
    rcases hlen with hlen | ⟨«switch», hsearched, hfirst⟩
    · omega
    · -- A cut before the end of the window would be at a delimiter in what was searched.
      refine Nat.le_of_not_lt fun hlt => ?_
      have hnone := hfree hsearched token.len (Nat.zero_le _) hlt
      rw [hfirst.starts] at hnone
      cases hnone
  · have hnone := hfree hsearched 0 (Nat.le_refl 0) hpos
    rw [hfirst.starts] at hnone
    cases hnone

end Page

namespace Dialect

open Page

variable {dialect : Dialect} {byte : UInt8} {text behind : Bytes} {base next : State}
  {token : Token}

/-- A window that ends with a foreign byte completes every token that ends before this byte, and
every delimiter. -/
theorem step_of_foreign (hforeign : dialect.delimiters.Foreign byte)
    (hlast : text.getLast? = some byte) (h : base.Ready (text ++ behind))
    (hstep : dialect.step (View.whole (text ++ behind)) base = .ok (.token token next))
    (htoken : token.len < text.length ∨ token.id = delimiterId) :
    dialect.step ⟨text, text.length, false⟩ base = .ok (.token token next) := by
  have hpos : 0 < text.length := by
    rw [List.length_pos_iff]
    rintro rfl
    cases hlast
  rcases step_of_window behind h with
    ⟨held, -, hresumes, hroom⟩ | ⟨found, after, hfound, hwhole, -⟩
  · obtain ⟨inner, start, frame, hpending, hsame, -⟩ := Resumes.pending hresumes
    have hidle := lookahead_of_foreign hforeign hpending (by rwa [hroom, List.take_left])
    obtain ⟨hle, hid⟩ := prescan_le_len hpending hidle (by omega) (hsame.trans hstep)
    rcases htoken with hlt | hdelimiter
    · omega
    · exact absurd hdelimiter hid
  · rw [hstep] at hwhole
    cases hwhole
    exact hfound

/-- What is read before such a window ends depends on the window alone. -/
theorem path_of_foreign (hforeign : dialect.delimiters.Foreign byte)
    (hlast : text.getLast? = some byte) (other : Bytes) {offset stop : Nat} {final : State}
    {passages : List (Passage State)}
    (h : dialect.grammar.Path (text ++ behind) offset base passages stop final)
    (hstop : stop < text.length) (hready : base.Ready ((text ++ behind).drop offset))
    (hother : base.Ready ((text ++ other).drop offset)) :
    dialect.grammar.Path (text ++ other) offset base passages stop final := by
  refine dialect.resumption.path_of_agree h ?_ hready hother
  intro offset base next token hle hready hother hstep
  have hlast' : (text.drop offset).getLast? = some byte := by
    rw [List.getLast?_drop, if_neg (by omega), hlast]
  rw [List.drop_append_of_le_length (by omega)] at hready hother hstep ⊢
  have hlt : token.len < (text.drop offset).length := by
    rw [List.length_drop]
    omega
  exact step_of_completed other hother
    (step_of_foreign hforeign hlast' hready hstep (Or.inl hlt))

end Dialect

/-! ## Pages around a script -/

namespace Page

/-- The text that opens a script inside a tag as well as outside. -/
def valueOpening : Bytes := Bytes.ofString "<%="

/-- The page in which a script with `body` stands between `before` and `after`. -/
def around (before after body : Bytes) : Bytes :=
  before ++ (valueOpening ++ (body ++ (closing ++ after)))

/-- The tokens of a page around a script with `body`. -/
structure Around (before body : Bytes) (front inside behind tokens : List Token) : Prop where
  eq : tokens = front ++ ⟨delimiterId, 3⟩ :: (inside ++ ⟨delimiterId, 2⟩ :: behind)
  front : Span.Tiles 0 before.length (Span.ofTokens 0 front)
  inside : Span.Tiles (before.length + 3) (before.length + 3 + body.length)
    (Span.ofTokens (before.length + 3) inside)

section Texts

variable (before after body : Bytes)

@[simp] theorem length_valueOpening : valueOpening.length = 3 := rfl

theorem length_around :
    (around before after body).length = before.length + 3 + body.length + 2 + after.length := by
  simp only [around, List.length_append, length_valueOpening,
    show closing.length = 2 from rfl]
  omega

theorem drop_opening :
    (around before after body).drop before.length =
      valueOpening ++ (body ++ (closing ++ after)) :=
  List.drop_left

theorem drop_body :
    (around before after body).drop (before.length + 3) = body ++ (closing ++ after) := by
  rw [← List.drop_drop, drop_opening]
  rfl

theorem drop_behind :
    (around before after body).drop (before.length + 3 + body.length + 2) = after := by
  rw [← List.drop_drop, ← List.drop_drop, drop_body, List.drop_left]
  rfl

variable {body}

/-- Where `body` holds no `%>`, none starts in it, not even with its last byte. -/
theorem not_closing_of_append (h : ¬ closing <:+: body) (hne : body ≠ []) :
    ¬ closing <+: body ++ (closing ++ after) := by
  intro hprefix
  match body, h, hne with
  | [_], _, _ =>
      have hgreater := (List.cons_prefix_cons.mp (List.cons_prefix_cons.mp hprefix).2).1
      exact absurd hgreater (by decide)
  | first :: second :: rest, h, _ =>
      obtain ⟨hfirst, hrest⟩ := List.cons_prefix_cons.mp hprefix
      have hsecond := (List.cons_prefix_cons.mp hrest).1
      exact h (List.cons_prefix_cons.mpr ⟨hfirst, List.cons_prefix_cons.mpr
        ⟨hsecond, List.nil_prefix⟩⟩).isInfix

/-- A script ends behind its body. -/
theorem closesFirst_around (h : ¬ closing <:+: body) :
    ClosesFirst (around before after body) (before.length + 3)
      (before.length + 3 + body.length) where
  le := Nat.le_add_right _ _
  closes := by
    rw [← List.drop_drop, drop_body, List.drop_left]
    exact List.prefix_append _ _
  free := by
    intro place hlo hhi
    obtain ⟨k, rfl⟩ := Nat.exists_eq_add_of_le hlo
    rw [← List.drop_drop, drop_body, List.drop_append_of_le_length (by omega)]
    refine not_closing_of_append after (fun hclosing => h ?_) ?_
    · exact hclosing.trans (List.drop_suffix k body).isInfix
    · rw [← List.length_pos_iff, List.length_drop]
      omega

end Texts

end Page

namespace Dialect

open Page

variable {dialect : Dialect} {before after body : Bytes} {base next : State}
  {front : List (Passage State)}

/-- What comes before a script, and its opening, do not depend on its body. -/
theorem opening_of_other (other : Bytes) (hforeign : dialect.delimiters.Foreign Byte.equals)
    (hfront : dialect.grammar.Path (around before after body) 0 State.initial front before.length
      base)
    (hstep : dialect.step (View.whole ((around before after body).drop before.length)) base =
      .ok (.token ⟨delimiterId, 3⟩ next)) :
    dialect.grammar.Path (around before after other) 0 State.initial front before.length base ∧
      dialect.step (View.whole ((around before after other).drop before.length)) base =
        .ok (.token ⟨delimiterId, 3⟩ next) := by
  have hlast : (before ++ valueOpening).getLast? = some Byte.equals := by
    rw [List.getLast?_append_of_ne_nil _ (by decide)]
    rfl
  have hassoc : ∀ body, around before after body =
      (before ++ valueOpening) ++ (body ++ (closing ++ after)) :=
    fun body => (List.append_assoc ..).symm
  have hfront' : dialect.grammar.Path (around before after other) 0 State.initial front
      before.length base := by
    rw [hassoc] at hfront ⊢
    exact path_of_foreign hforeign hlast _ hfront (by simp) (State.ready_initial _)
      (State.ready_initial _)
  have hready := (dialect.resumption.ready_of_path hfront (State.ready_initial _)).1
  have hready' := (dialect.resumption.ready_of_path hfront' (State.ready_initial _)).1
  rw [drop_opening] at hready hready' hstep ⊢
  have hopening := step_of_foreign hforeign (by decide) hready hstep (Or.inr rfl)
  exact ⟨hfront', step_of_completed _ hready' hopening⟩

/-- A page is read through a script up to a state behind it that does not depend on its body. -/
theorem exists_path_through (hswitching : dialect.switching = true)
    (hslash : dialect.delimiters.NoSlash) (hbody : ¬ closing <:+: body)
    (hfront : dialect.grammar.Path (around before after body) 0 State.initial front before.length
      base)
    (hstep : dialect.step (View.whole ((around before after body).drop before.length)) base =
      .ok (.token ⟨delimiterId, 3⟩ next)) :
    ∃ outer passages inside, next.nesting.leave = .ok outer ∧
      dialect.grammar.Path (around before after body) 0 State.initial passages
        (before.length + 3 + body.length + 2) (closed next outer) ∧
      ∀ behind, Around before body (front.map Passage.token) inside behind
        (passages.map Passage.token ++ behind) := by
  have hready := (dialect.resumption.ready_of_path hfront (State.ready_initial _)).1
  have hnext := (dialect.resumption.next_of_step hready hstep).2
  obtain ⟨hlanguage, hscript⟩ := between_of_opening hslash hready hstep rfl (by
    rw [drop_opening]
    exact List.mem_cons_of_mem _ List.mem_cons_self)
  obtain ⟨_, _, _, inside, passages, outer, -, -, -, hinside, houter, htokens, hpath⟩ :=
    exists_closing_path hswitching hlanguage hscript hnext (closesFirst_around before after hbody)
  have hfrontTiles := dialect.resumption.tiles_of_path hfront (State.ready_initial _)
  rw [← hfront.span_eq] at hfrontTiles
  refine ⟨outer, _, inside, houter, (hfront.snoc hstep).append hpath,
    fun behind => ⟨?_, hfrontTiles, hinside⟩⟩
  rw [List.map_append, List.map_append, htokens]
  simp

/-- Scripts do not leak: of the tokens of a page, only those inside a script depend on what stands
in it, if the tag prefixes were validated. -/
theorem bodies_isolated (delimiters : Delimiters) (h : delimiters.Validated)
    (before after body other : Bytes) (hbody : ¬ closing <:+: body)
    (hother : ¬ closing <:+: other) {tokens : List Token} {reader : Reader State}
    (hlex : (ofVariant .page delimiters).grammar.lexWhole (around before after body) =
      .ok (tokens, reader))
    (hopener : ⟨⟨delimiterId, 3⟩, before.length⟩ ∈ Span.ofTokens 0 tokens) :
    ∃ front inside inside' behind tokens' reader',
      Around before body front inside behind tokens ∧
      (ofVariant .page delimiters).grammar.lexWhole (around before after other) =
        .ok (tokens', reader') ∧
      Around before other front inside' behind tokens' ∧ reader'.store = reader.store := by
  have hslash := Delimiters.noSlash_of_validated h
  let resumption := (ofVariant .page delimiters).resumption
  obtain ⟨whole, final, hpath, hfinal⟩ := resumption.exists_path (around before after body)
    (Nat.zero_le _) (State.ready_initial _)
  have hwhole : (ofVariant .page delimiters).grammar.lexWhole (around before after body) = _ :=
    resumption.lexSplit_eq _ hpath hfinal []
  rw [hlex] at hwhole
  cases hwhole
  -- The tokens up to the opening stand in both pages.
  obtain ⟨left, right, hsplit⟩ := List.append_of_mem hopener
  obtain ⟨front, -, base, next, -, -, hfront, hstep, -⟩ := hpath.of_spans hsplit
  obtain ⟨hfront', hstep'⟩ := opening_of_other other (Delimiters.foreign_equals h) hfront hstep
  -- Behind the script both pages go on from one state with the same text.
  obtain ⟨outer, passages, inside, houter, hthrough, haround⟩ :=
    exists_path_through rfl hslash hbody hfront hstep
  obtain ⟨outer', passages', inside', houter', hthrough', haround'⟩ :=
    exists_path_through rfl hslash hother hfront' hstep'
  rw [houter] at houter'
  cases houter'
  obtain ⟨rest, rfl, hrest⟩ := resumption.rest_of_path hthrough hpath hfinal
  have hmoved := hrest.move (Nat.le_refl _)
    ((drop_behind before after other).trans (drop_behind before after body).symm)
  have hstop : (around before after body).length - (before.length + 3 + body.length + 2) +
      (before.length + 3 + other.length + 2) = (around before after other).length := by
    rw [length_around, length_around]
    omega
  rw [Nat.sub_self, Nat.zero_add, hstop] at hmoved
  have hother := resumption.lexSplit_eq _ (hthrough'.append hmoved) hfinal []
  refine ⟨front.map Passage.token, inside, inside', rest.map Passage.token, _, _, ?_, hother, ?_,
    rfl⟩
  · rw [List.map_append]
    exact haround _
  · rw [List.map_append, Passage.map_token_move]
    exact haround' _

/-- So it is with a value in a tag, whatever quotes stand in it. -/
theorem default_bodies_isolated :
    Delimiters.default.Validated ∧ ¬ closing <:+: Bytes.ofString " x " ∧
      ¬ closing <:+: Bytes.ofString "\"'" ∧
      ∃ tokens reader, default.grammar.lexWhole (around (Bytes.ofString "<tpl:a b=\"")
          (Bytes.ofString "\"/>") (Bytes.ofString " x ")) = .ok (tokens, reader) ∧
        ⟨⟨delimiterId, 3⟩, 10⟩ ∈ Span.ofTokens 0 tokens ∧
        ∃ front inside inside' behind tokens' reader',
          Around (Bytes.ofString "<tpl:a b=\"") (Bytes.ofString " x ") front inside behind
            tokens ∧
          default.grammar.lexWhole (around (Bytes.ofString "<tpl:a b=\"")
            (Bytes.ofString "\"/>") (Bytes.ofString "\"'")) = .ok (tokens', reader') ∧
          Around (Bytes.ofString "<tpl:a b=\"") (Bytes.ofString "\"'") front inside' behind
            tokens' ∧ reader'.store = reader.store := by
  have htokens : ((default.grammar.lexWhole (around (Bytes.ofString "<tpl:a b=\"")
      (Bytes.ofString "\"/>") (Bytes.ofString " x "))).map Prod.fst).toOption =
        some [⟨14, 1⟩, ⟨16, 5⟩, ⟨19, 1⟩, ⟨17, 1⟩, ⟨14, 1⟩, ⟨18, 1⟩, ⟨delimiterId, 3⟩, ⟨24, 1⟩,
          ⟨25, 1⟩, ⟨24, 1⟩, ⟨delimiterId, 2⟩, ⟨18, 1⟩, ⟨14, 2⟩] := by
    decide +kernel
  cases hlex : default.grammar.lexWhole (around (Bytes.ofString "<tpl:a b=\"")
      (Bytes.ofString "\"/>") (Bytes.ofString " x ")) with
  | error fault =>
      rw [hlex] at htokens
      cases htokens
  | ok result =>
      obtain ⟨tokens, reader⟩ := result
      rw [hlex] at htokens
      cases htokens
      refine ⟨Delimiters.validated_default, by decide, by decide, _, reader, rfl, ?_,
        bodies_isolated Delimiters.default Delimiters.validated_default _ _ _ _ (by decide)
          (by decide) hlex ?_⟩
      · decide
      · decide

end Dialect

end PageLexing
