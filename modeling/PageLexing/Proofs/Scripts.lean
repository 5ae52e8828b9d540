import PageLexing.Proofs.Brackets
import PageLexing.Proofs.Candidates

/-!
# Scripts of a page

Between its opening and the first `%>` behind it, or the end of the text if there is none, a
script is read as the script language alone would read these bytes. Strings, literals and comments
do not hide a `%>`: what they have begun is cut before it.

The last token before a `%>` comes about in two ways. The language may end it in front of the `%`,
or it would go on and is cut there. In both cases it is what the language alone has begun when its
window ends, of the kind that it would have if it ended there.

## Main results

* `Scan.step_of_reads_byte` — what ends a token in front of a byte gives it the kind that it had.
* `drainWithin_before` — a script before its `%>`, read by the page and alone.
* `Dialect.between_of_opening` — what opens a script, and the state behind it.
* `Dialect.scripts_isolated` — every script of a page is read as on its own.
-/

namespace PageLexing

/-! ## Ending in front of a delimiter -/

namespace Scan

open Automaton

variable {σ κ : Type} [Automaton σ κ] [TokenKind κ]

/-- Where `byte` comes next in an unfinished token, the token goes on with it, or it ends in front
of it with the kind that it has there. -/
theorem step_of_reads_byte {byte : UInt8} (hline : byte ≠ Byte.newline)
    (hkind : ∀ (s t : σ) (kind : κ), consume s byte = (t, .closeBefore kind) →
      kind = inProgress s)
    {text : Bytes} {base : σ} {scan : Scan σ} (h : Reads text base scan) (hpos : 0 < scan.read)
    (hnext : (text.drop scan.read).head? = some byte) {found : Token} {after : Scan σ}
    (hwhole : step (View.whole text) (atBoundary base) = .ok (.token found after)) :
    scan.read < found.len ∨
      found = ⟨TokenKind.id (refine (σ := σ) (inProgress scan.state) (text.take scan.read)),
        scan.read⟩ := by
  obtain ⟨rest, hrest⟩ := List.head?_eq_some_iff.mp hnext
  have hlen := congrArg List.length hrest
  rw [List.length_drop, List.length_cons] at hlen
  -- The run over the text passes through the state of the scan, so it goes on from there.
  have hrun : ∀ more, run scan.state scan.read (more + 1) (text.drop scan.read) =
      run base 0 (scan.read + more + 1) text := by
    intro more
    rw [← run_of_reads h (show scan.read ≤ scan.read + more + 1 by omega)]
    congr 1
    omega
  rcases hconsume : consume scan.state byte with ⟨next, effect⟩
  have hone := hrun 0
  have hall := hrun (text.length - scan.read - 1)
  rw [show scan.read + (text.length - scan.read - 1) + 1 = text.length by omega] at hall
  cases effect with
  | grow =>
      simp only [hrest, run, if_neg hline, hconsume] at hone
      have hreads : Reads text base ⟨next, scan.read + 1⟩ :=
        ⟨hone.symm, by show scan.read + 1 ≤ _; omega⟩
      rw [← step_of_reads hreads hreads.le] at hwhole
      exact Or.inl (len_of_step hwhole).1
  | close kind =>
      simp only [hrest, run, if_neg hline, hconsume] at hall
      rw [step_of_kind (View.whole text) hall.symm] at hwhole
      obtain ⟨word, rfl, -⟩ := token_of_finish hwhole
      exact Or.inl (Nat.lt_succ_self _)
  | closeBefore kind =>
      simp only [hrest, run, if_neg hline, hconsume] at hall
      have hfinish := @finish_eq_token σ κ _ _ (View.whole text) ⟨next, scan.read⟩ kind hpos h.le
      rw [step_of_kind (View.whole text) hall.symm, hfinish] at hwhole
      cases hwhole
      rw [hkind scan.state next kind hconsume]
      exact Or.inr rfl

end Scan

namespace Script

/-- What ends in front of a `%` has the kind that it had so far. -/
theorem eq_inProgress_of_percent (s t : State) (kind : Kind)
    (h : Automaton.consume s Byte.percent = (t, .closeBefore kind)) : kind = inProgress s := by
  obtain ⟨r, hr, rfl | hpass⟩ := Boundaries.exists_transition_of_consume h
  · have hr : transition r Byte.percent = (t, .emitBefore kind) := hr
    cases r with
    | quoted q =>
        simp only [transition] at hr
        repeat' split at hr
        all_goals cases hr
    | blank | word | number | afterSlash | operator =>
        simp +decide [transition] at hr
        exact hr.2.symm
    | _ => simp +decide [transition] at hr
  · exact absurd (congrArg Prod.snd hpass) (transition_reads s Byte.percent)

/-- Scripts as a grammar of their own. -/
abbrev grammar : Grammar (Scan State) := Automaton.grammar State Kind

end Script

namespace Page

/-! ## The end of a script -/

/-- The first text that closes a script, from `start` on, stands at `stop`. -/
structure ClosesFirst (source : Bytes) (start stop : Nat) : Prop where
  le : start ≤ stop
  closes : closing <+: source.drop stop
  free : ∀ place, start ≤ place → place < stop → ¬ closing <+: source.drop place

theorem delimiter?_script_eq (delimiters : Delimiters) (text : Bytes) :
    delimiters.delimiter? .script text =
      if closing <+: text then some (.leaveScript 2) else none :=
  Delimiters.delimiter?_script text

variable {source : Bytes} {start stop : Nat}

/-- The text goes on with a `%` where a script is closed. -/
theorem head_of_closing {text : Bytes} (h : closing <+: text) :
    text.head? = some Byte.percent := by
  obtain ⟨rest, rfl⟩ := h
  rfl

theorem ClosesFirst.lt_length (h : ClosesFirst source start stop) : stop + 2 ≤ source.length := by
  have hlen := h.closes.length_le
  rw [List.length_drop, show closing.length = 2 from rfl] at hlen
  omega

theorem ClosesFirst.of_le {place : Nat} (h : ClosesFirst source start stop)
    (hstart : start ≤ place) (hstop : place ≤ stop) : ClosesFirst source place stop :=
  ⟨hstop, h.closes, fun other hlo hhi => h.free other (Nat.le_trans hstart hlo) hhi⟩

/-- Before the end of a script no delimiter of scripts starts. -/
theorem ClosesFirst.free_drop (h : ClosesFirst source start stop) (delimiters : Delimiters) :
    Free delimiters .script (source.drop start) 0 (stop - start) := by
  intro place _ hlt
  rw [List.drop_drop, delimiter?_script_eq, if_neg (h.free _ (Nat.le_add_right _ _) (by omega))]

theorem ClosesFirst.first (h : ClosesFirst source start stop) (delimiters : Delimiters) :
    First delimiters .script (source.drop start) 0 (stop - start) (.leaveScript 2) where
  le := Nat.zero_le _
  free := h.free_drop delimiters
  starts := by
    rw [List.drop_drop, Nat.add_sub_cancel' h.le, delimiter?_script_eq, if_pos h.closes]

/-- What was read of a script may be searched for its end. -/
theorem searched_script {dialect : Dialect} {text : Bytes} {scan : Scan Script.State}
    (h : dialect.switching = true) : Searched dialect text (.script scan) := by
  refine ⟨h, fun hcomments => ?_⟩
  obtain ⟨tag, htag⟩ := tag_of_comments hcomments
  cases htag

/-! ## Steps inside a script -/

variable {dialect : Dialect} {base : State} {s : Script.State}

/-- A token that ends no later than the script is the token of the page. -/
theorem attempt_of_script_token {text : Bytes} {room : Nat}
    (hlanguage : base.nesting.active = .script)
    (hready : (base.between (.script (Scan.atBoundary s))).Ready text)
    (hfree : Free dialect.delimiters .script text 0 room) {found : Token}
    {after : Scan Script.State}
    (hwhole : Scan.step (View.whole text) (Scan.atBoundary s) = .ok (.token found after))
    (hle : found.len ≤ room) :
    dialect.attempt (View.whole text) (base.between (.script (Scan.atBoundary s))) =
      .ok (.step (.token (shifted .script found) (base.between (.script after)))) := by
  have hactive : (base.between (.script (Scan.atBoundary s))).active =
      .ok (.script (Scan.atBoundary s)) := State.active_between hlanguage.symm
  have hstep : (Frame.script (Scan.atBoundary s)).step (View.whole text) =
      .ok (.token found (.script after)) := by
    rw [Frame.step, hwhole]
    rfl
  have hclear : Searched dialect text (.script (Scan.atBoundary s)) →
      Free dialect.delimiters .script text 0 found.len :=
    fun _ place hlo hhi => hfree place hlo (by omega)
  exact attempt_of_clear hready hactive hstep hclear trivial

/-- A token of a script that is unfinished at the end of the script ends there. -/
theorem attempt_of_script_end {text : Bytes} {n : Nat} (hswitching : dialect.switching = true)
    (hlanguage : base.nesting.active = .script)
    (hready : (base.between (.script (Scan.atBoundary s))).Ready text)
    (hfirst : First dialect.delimiters .script text 0 (n + 1) (.leaveScript 2))
    (hnext : (text.drop (n + 1)).head? = some Byte.percent) {scan : Scan Script.State}
    (hheld : Scan.step ⟨text, n + 1, false⟩ (Scan.atBoundary s) = .ok (.hold scan))
    (hreads : Scan.Reads text s scan) (hread : scan.read = n + 1) :
    ∃ scan', dialect.attempt (View.whole text) (base.between (.script (Scan.atBoundary s))) =
      .ok (.step (.token
        ⟨globalId .script (Script.refine (Script.inProgress scan.state)
          (text.take (n + 1))).id, n + 1⟩ (base.between (.script scan')))) := by
  have hactive : (base.between (.script (Scan.atBoundary s))).active =
      .ok (.script (Scan.atBoundary s)) := State.active_between hlanguage.symm
  have hle := hreads.le
  obtain ⟨found, after, hwhole, -⟩ := exists_token
    (hready.of_active hactive).1 (by omega)
  obtain ⟨next, hscan, rfl⟩ := Step.exists_of_map hwhole
  -- The language would go on with the `%` and is cut before it, or it ends the token there itself.
  rcases Scan.step_of_reads_byte (by decide) Script.eq_inProgress_of_percent hreads (by omega)
    (by rwa [hread]) hscan with hlt | rfl
  · rw [hread] at hlt
    have hid : (Frame.script scan).pendingId (View.whole text) =
        .ok (some (Script.refine (Script.inProgress scan.state) (text.take (n + 1))).id) := by
      rw [Frame.pendingId, Scan.pendingKind_of_le (View.whole text) (by omega) hle, hread]
      rfl
    have hhold : (Frame.script (Scan.atBoundary s)).step ⟨text, n + 1, false⟩ =
        .ok (.hold (.script scan)) := by
      rw [Frame.step, hheld]
      rfl
    exact ⟨_, attempt_of_first hready hactive hwhole (searched_script hswitching) hfirst hlt hhold
      hid⟩
  · refine ⟨next, ?_⟩
    rw [attempt_of_script_token hlanguage hready hfirst.free hscan (Nat.le_of_eq hread), hread]
    rfl

/-- The state behind the end of a script. -/
def closed (base : State) (outer : Nesting) : State :=
  { base.fresh with nesting := outer, script := none }

/-- The `%>` at the end of a script is the next token. -/
theorem attempt_of_closing {text : Bytes} (hswitching : dialect.switching = true)
    (hlanguage : base.nesting.active = .script) {scan : Scan Script.State}
    (hready : (base.between (.script scan)).Ready text) (hcloses : closing <+: text) :
    ∃ outer, base.nesting.leave = .ok outer ∧
      dialect.attempt (View.whole text) (base.between (.script scan)) =
        .ok (.step (.token ⟨delimiterId, 2⟩ (closed base outer))) := by
  have hactive : (base.between (.script scan)).active = .ok (.script scan) :=
    State.active_between hlanguage.symm
  have hlen := hcloses.length_le
  rw [show closing.length = 2 from rfl] at hlen
  obtain ⟨outer, houter⟩ := @Nesting.exists_leave base.nesting (by rw [hlanguage]; decide)
  refine ⟨outer, houter, ?_⟩
  rcases Frame.step_of_ready text.length true
    (hready.of_active hactive).1 (Nat.le_refl _) (fun _ => rfl) with
    ⟨held, -, -, -, hzero⟩ | ⟨found, after, -, hwhole, hpos, -, -, -⟩
  · have := hzero rfl
    omega
  · rw [attempt_of_delimiter hready hactive hwhole (searched_script hswitching) hpos
      (by rw [Frame.language, delimiter?_script_eq, if_pos hcloses])]
    simp only [change, State.nesting_between, houter, bind, Except.bind]
    rfl

end Page

/-! ## A script on its own -/

namespace Reader

open Page

variable {dialect : Dialect} {base : State} {source : Bytes} {offset stop : Nat}

/-- Where a window holds a token back, the reader stays in it. -/
theorem next_window_of_hold {σ : Type} {grammar : Grammar σ} {start : Nat} {last : Bool}
    {state held : σ}
    (h : grammar.step ⟨source.drop start, stop - start, last⟩ state = .ok (.hold held)) :
    (window grammar source start stop last state).next =
      .ok (none, window grammar source start stop last held) :=
  next_of_hold h

/-- Behind a token the reader stands in the same window. -/
theorem next_window_of_token {σ : Type} {grammar : Grammar σ} {start : Nat} {last : Bool}
    {state next : σ} {token : Token}
    (h : grammar.step ⟨source.drop start, stop - start, last⟩ state = .ok (.token token next)) :
    (window grammar source start stop last state).next =
      .ok (some token, window grammar source (start + token.len) stop last next) := by
  have hnext : (window grammar source start stop last state).next = _ := next_of_token h
  rw [hnext]
  simp [behind, window, List.drop_drop]

/-- What is left of a script at the end of its window, as a token of the page. -/
def leftover (stop : Nat) (after : Reader (Scan Script.State)) (kind : Script.Kind) : Token :=
  ⟨globalId .script kind.id, stop - after.offset⟩

/-- What a script has begun when its window ends is the last token of the page before the
`%>`. -/
theorem path_of_leftover (hswitching : dialect.switching = true)
    (hlanguage : base.nesting.active = .script) {s : Script.State}
    (hready : (base.between (.script (Scan.atBoundary s))).Ready (source.drop offset))
    (hstop : ClosesFirst source offset stop) {scan : Scan Script.State}
    (hheld : Scan.step ⟨source.drop offset, stop - offset, false⟩ (Scan.atBoundary s) =
      .ok (.hold scan))
    (hreads : Scan.Reads (source.drop offset) s scan) (hread : scan.read = stop - offset) :
    ∃ pending inside scan', Scan.pendingKind ⟨source.drop offset, stop - offset, false⟩ scan =
        .ok pending ∧
      dialect.grammar.Path source offset (base.between (.script (Scan.atBoundary s))) inside stop
        (base.between (.script scan')) ∧
      inside.map Passage.token =
        (pending.map fun kind => ⟨globalId .script kind.id, stop - offset⟩).toList := by
  have hle := hstop.le
  by_cases hzero : stop = offset
  · subst hzero
    exact ⟨none, [], Scan.atBoundary s, if_pos (by omega), .nil _ _, rfl⟩
  · obtain ⟨n, hn⟩ : ∃ n, stop - offset = n + 1 := ⟨stop - offset - 1, by omega⟩
    have hpercent : ((source.drop offset).drop (n + 1)).head? = some Byte.percent := by
      rw [List.drop_drop, ← hn, Nat.add_sub_cancel' hle]
      exact head_of_closing hstop.closes
    have hfirst := hstop.first dialect.delimiters
    have hkind := Scan.pendingKind_of_le ⟨source.drop offset, stop - offset, false⟩
      (show 0 < scan.read by omega) hreads.le
    rw [hn] at hfirst hheld hread hkind ⊢
    rw [hread] at hkind
    obtain ⟨scan', hattempt⟩ := attempt_of_script_end hswitching hlanguage hready hfirst hpercent
      hheld hreads hread
    refine ⟨_, [_], scan', hkind, .cons (Dialect.step_of_attempt hattempt) ?_, rfl⟩
    rw [show offset + (n + 1) = stop by omega]
    exact .nil _ _

/-- In the window of a script a token is held back up to the `%>`, or it is the token of the whole
text. -/
theorem step_before_closing (hlanguage : base.nesting.active = .script) {s : Script.State}
    (hready : (base.between (.script (Scan.atBoundary s))).Ready (source.drop offset))
    (hstop : ClosesFirst source offset stop) :
    (∃ scan, Scan.step ⟨source.drop offset, stop - offset, false⟩ (Scan.atBoundary s) =
          .ok (.hold scan) ∧
        Scan.Reads (source.drop offset) s scan ∧ scan.read = stop - offset) ∨
      ∃ found t, Scan.step ⟨source.drop offset, stop - offset, false⟩ (Scan.atBoundary s) =
          .ok (.token found (Scan.atBoundary t)) ∧
        Scan.step (View.whole (source.drop offset)) (Scan.atBoundary s) =
          .ok (.token found (Scan.atBoundary t)) ∧ found.len ≤ stop - offset := by
  have hlen := hstop.lt_length
  have hactive : (base.between (.script (Scan.atBoundary s))).active =
      .ok (.script (Scan.atBoundary s)) := State.active_between hlanguage.symm
  have hstarts : Scan.Ready (source.drop offset) s :=
    (hready.of_active hactive).1.2
  have hroom : stop - offset ≤ (source.drop offset).length := by
    rw [List.length_drop]
    omega
  have hlast : false = true → stop - offset = (source.drop offset).length := nofun
  rcases Scan.step_atBoundary hstarts hroom hlast with
    ⟨scan, hheld, hreads, hread, -⟩ | ⟨found, t, htoken, hwhole, -, hfound, -⟩
  · exact Or.inl ⟨scan, hheld, hreads, hread⟩
  · exact Or.inr ⟨found, t, htoken, hwhole, hfound⟩

/-- A script before its `%>`: a reader of the script alone answers the tokens of the page, but for
the one that its window does not complete. -/
theorem drainWithin_before (hswitching : dialect.switching = true)
    (hlanguage : base.nesting.active = .script) {s : Script.State}
    (hready : (base.between (.script (Scan.atBoundary s))).Ready (source.drop offset))
    (hstop : ClosesFirst source offset stop) {fuel : Nat} (hfuel : stop - offset < fuel) :
    ∃ tokens after pending inside scan,
      (window Script.grammar source offset stop false (Scan.atBoundary s)).drainWithin fuel =
          .ok (tokens, after) ∧
        Scan.pendingKind after.view after.store = .ok pending ∧
        dialect.grammar.Path source offset (base.between (.script (Scan.atBoundary s))) inside stop
          (base.between (.script scan)) ∧
        inside.map Passage.token =
          tokens.map (shifted .script) ++ (pending.map (leftover stop after)).toList := by
  -- By induction on the fuel, a token each: the page reads the same one, and the `%>` stays where
  -- it is.
  induction fuel generalizing offset s with
  | zero => omega
  | succ fuel ih =>
      have hle := hstop.le
      rcases step_before_closing hlanguage hready hstop with
        ⟨scan, hheld, hreads, hread⟩ | ⟨found, t, htoken, hwhole, hfound⟩
      · have hnext : (window Script.grammar source offset stop false (Scan.atBoundary s)).next =
            .ok (none, window Script.grammar source offset stop false scan) :=
          next_window_of_hold hheld
        obtain ⟨pending, inside, scan', hkind, hpath, htokens⟩ :=
          path_of_leftover hswitching hlanguage hready hstop hheld hreads hread
        refine ⟨[], window Script.grammar source offset stop false scan, pending, inside, scan',
          ?_, hkind, hpath, htokens⟩
        simp only [drainWithin, hnext, bind, Except.bind]
      · have hnext : (window Script.grammar source offset stop false (Scan.atBoundary s)).next =
            .ok (some found, window Script.grammar source (offset + found.len) stop false
              (Scan.atBoundary t)) := next_window_of_token htoken
        have hattempt := attempt_of_script_token hlanguage hready
          (hstop.free_drop dialect.delimiters) hwhole hfound
        have hstep := Dialect.step_of_attempt hattempt
        have hrest : (base.between (.script (Scan.atBoundary t))).Ready
            (source.drop (offset + found.len)) := (dialect.resumption.next_of_step hready hstep).2
        have hpos : 0 < found.len := (dialect.resumption.next_of_step hready hstep).1
        obtain ⟨tokens, after, pending, inside, scan, hdrain, hkind, hpath, htokens⟩ :=
          ih hrest (hstop.of_le (by omega) (by omega)) (by omega)
        refine ⟨found :: tokens, after, pending, _, scan, ?_, hkind, .cons hstep hpath, ?_⟩
        · simp only [drainWithin, hnext, bind, Except.bind, hdrain]
        · rw [List.map_cons, htokens]
          rfl

end Reader

/-! ## Openings -/

namespace Dialect

open Page

variable {dialect : Dialect} {text source : Bytes} {base next : State} {token : Token}

/-- A script delimiter is read in one attempt, which changes the language. -/
theorem change_of_delimiterId (hslash : dialect.delimiters.NoSlash) (h : base.Ready text)
    (hstep : dialect.step (View.whole text) base = .ok (.token token next))
    (hid : token.id = delimiterId) :
    ∃ start switch, base.active = .ok start ∧ Searched dialect text start ∧
      dialect.delimiters.delimiter? start.language text = some switch ∧
      change base switch = .ok (.step (.token token next)) := by
  have hne : text ≠ [] := dialect.resumption.ne_nil_of_step h hstep
  have hnot : ∀ {inner : State}, ¬ Scans dialect text inner token next := fun hscans =>
    (scannedIn_of_scans hscans).1 hid
  -- No fragment was opened before the delimiter.
  have hattempt : dialect.attempt (View.whole text) base = .ok (.step (.token token next)) := by
    rcases step_reads hslash h hne hstep with hdelimits | ⟨inner, -, -, hscans⟩
    · obtain ⟨inner, hfrom, hinner, -⟩ := exists_reads h hne hstep
      rcases hinner with rfl | ⟨hhost, -, hdelimiter⟩
      · cases hfrom with
        | active hattempt => exact hattempt
        | opened hopened hattempt =>
            rw [hopened] at hattempt
            cases hattempt
      · have hnesting := hdelimits.nesting
        rw [hhost, Nesting.active, hdelimiter] at hnesting
        rcases hnesting with ⟨hsome, -⟩ | ⟨hsome, -⟩ <;> cases hsome
    · exact absurd hscans hnot
  obtain ⟨start, hactive, hready, -, hstart⟩ := State.exists_active_of_ready h
  obtain ⟨found, after, hwhole, -⟩ := exists_token hready (List.length_pos_iff.mpr hne)
  rcases scans_or_changes dialect h hactive hwhole with
    ⟨token', next', hscanned, hscans, -⟩ | ⟨«switch», hsearched, hfirst, -, hchange⟩
  · rw [hattempt] at hscanned
    cases hscanned
    exact absurd hscans hnot
  · exact ⟨start, «switch», hactive, hsearched, hfirst.starts, hchange.symm.trans hattempt⟩

/-- Behind the opening of a script the script language begins. -/
theorem between_of_opening (hslash : dialect.delimiters.NoSlash) (h : base.Ready text)
    (hstep : dialect.step (View.whole text) base = .ok (.token token next))
    (hid : token.id = delimiterId) (htext : text.take token.len ∈ openings .host) :
    next.nesting.active = .script ∧
      next = next.between (.script (Scan.atBoundary Automaton.initial)) := by
  obtain ⟨start, «switch», hactive, -, hdelimiter, hchange⟩ :=
    change_of_delimiterId hslash h hstep hid
  have hnext : next.Ready (text.drop token.len) := by
    obtain ⟨token', next', hstep', -, -, hready⟩ :=
      dialect.resumption.exists_token h (dialect.resumption.ne_nil_of_step h hstep)
    rw [show dialect.grammar.step (View.whole text) base = _ from hstep] at hstep'
    cases hstep'
    exact hready
  cases «switch» with
  | enterTag =>
      cases henter : base.nesting.enter .tag <;>
        simp [change, henter, bind, Except.bind] at hchange
  | leaveScript len =>
      rw [State.language_active hactive] at hdelimiter
      have hspelled := Delimiters.spelled?_of_delimiter? hdelimiter (by rintro ⟨⟩)
      have htake := (take_eq_closing hspelled).1
      cases hleave : base.nesting.leave with
      | error fault => simp [change, hleave, bind, Except.bind] at hchange
      | ok outer =>
          simp only [change, hleave, bind, Except.bind, Except.ok.injEq, Attempt.step.injEq,
            Step.token.injEq] at hchange
          rw [← hchange.1, htake] at htext
          exact absurd htext (by decide)
  | enterScript len =>
      cases henter : base.nesting.enter .script with
      | error fault => simp [change, henter, bind, Except.bind] at hchange
      | ok inner =>
          simp only [change, henter, bind, Except.bind, Except.ok.injEq, Attempt.step.injEq,
            Step.token.injEq] at hchange
          obtain ⟨-, rfl⟩ := hchange
          have hscript := Nesting.active_enter henter
          refine ⟨hscript, (State.between_active hnext (State.active_of_frame? ?_)).symm⟩
          rw [hscript]
          rfl

end Dialect

/-! ## Scripts in a page -/

namespace Page

/-- The tokens from `start` on, where a script begins, are those of the script alone: up to the
first `%>`, which is the next token, or to the end of the text. -/
structure ScriptAlone (source : Bytes) (start : Nat) (tokens : List Token) : Prop where
  closed : ∀ stop, ClosesFirst source start stop →
    ∃ loaded inside after pending front behind,
      (Reader.new Script.grammar).load none source start (stop - start) false = .ok loaded ∧
      loaded.drain = .ok (inside, after) ∧
      Scan.pendingKind after.view after.store = .ok pending ∧
      front = inside.map (shifted .script) ++ (pending.map (Reader.leftover stop after)).toList ∧
      Span.Tiles start stop (Span.ofTokens start front) ∧
      tokens = front ++ ⟨delimiterId, 2⟩ :: behind
  unclosed : (∀ place, start ≤ place → ¬ closing <+: source.drop place) →
    ∃ loaded inside after,
      (Reader.new Script.grammar).load none source start (source.length - start) true =
          .ok loaded ∧
        loaded.drain = .ok (inside, after) ∧ tokens = inside.map (shifted .script)

variable {dialect : Dialect} {source : Bytes} {base final : State} {start stop : Nat}
  {passages : List (Passage State)}

/-- The script that begins at `start`, up to its `%>` and with it. -/
theorem exists_closing_path (hswitching : dialect.switching = true)
    (hlanguage : base.nesting.active = .script)
    (hbase : base = base.between (.script (Scan.atBoundary Automaton.initial)))
    (hready : base.Ready (source.drop start)) (hstop : ClosesFirst source start stop) :
    ∃ tokens after pending front inside outer,
      (Reader.window Script.grammar source start stop false
          (Scan.atBoundary Automaton.initial)).drain = .ok (tokens, after) ∧
      Scan.pendingKind after.view after.store = .ok pending ∧
      front = tokens.map (shifted .script) ++ (pending.map (Reader.leftover stop after)).toList ∧
      Span.Tiles start stop (Span.ofTokens start front) ∧
      base.nesting.leave = .ok outer ∧
      inside.map Passage.token = front ++ [⟨delimiterId, 2⟩] ∧
      dialect.grammar.Path source start base inside (stop + 2) (closed base outer) := by
  rw [hbase] at hready
  obtain ⟨tokens, after, pending, inside, scan, hdrain, hkind, hpath, htokens⟩ :=
    Reader.drainWithin_before hswitching hlanguage hready hstop
      (show stop - start < stop - start + 4 by omega)
  have htiles := dialect.resumption.tiles_of_path hpath hready
  have hclosing : (base.between (.script scan)).Ready (source.drop stop) :=
    (dialect.resumption.ready_of_path hpath hready).1
  obtain ⟨outer, houter, hattempt⟩ :=
    attempt_of_closing hswitching hlanguage hclosing hstop.closes
  rw [← hpath.span_eq] at htiles
  rw [← hbase] at hpath
  refine ⟨tokens, after, pending, _, _, outer, hdrain, hkind, htokens, htiles, houter, ?_,
    hpath.snoc (Dialect.step_of_attempt hattempt)⟩
  rw [List.map_append]
  rfl

/-- What is read behind the opening of a script is the script alone. -/
theorem scriptAlone_of_path (hswitching : dialect.switching = true)
    (hlanguage : base.nesting.active = .script)
    (hbase : base = base.between (.script (Scan.atBoundary Automaton.initial)))
    (hready : base.Ready (source.drop start)) (hfinal : final.Ready [])
    (hpath : dialect.grammar.Path source start base passages source.length final) :
    ScriptAlone source start (passages.map Passage.token) := by
  have hload := fun (len : Nat) (last : Bool) => @Reader.load_none _ Script.grammar source
    (Reader.new Script.grammar) start len last rfl rfl
  constructor
  · intro stop hstop
    have hle := hstop.le
    have hlen := hstop.lt_length
    have hload := hload (stop - start) false
    rw [show min (start + (stop - start)) source.length = stop by omega] at hload
    obtain ⟨tokens, after, pending, front, inside, outer, hdrain, hkind, hfront, htiles, -,
      htokens, hinside⟩ := exists_closing_path hswitching hlanguage hbase hready hstop
    obtain ⟨rest, rfl, -⟩ := dialect.resumption.rest_of_path hinside hpath hfinal
    refine ⟨_, tokens, after, pending, front, rest.map Passage.token, hload, hdrain, hkind, hfront,
      htiles, ?_⟩
    rw [List.map_append, htokens, List.append_assoc]
    rfl
  · intro hnone
    have hload := hload (source.length - start) true
    have hle := hpath.offset_le
    rw [show min (start + (source.length - start)) source.length = source.length by omega]
      at hload
    rw [hbase] at hpath hready
    obtain ⟨inside, scan, hinside, -, htokens⟩ :=
      Dialect.path_of_embeds Frame.embeds_script hlanguage hpath hready (by
        intro _ place hplace
        rw [delimiter?_script_eq, if_neg (hnone place hplace)])
    have hdrain := Reader.drain_of_path (Automaton.resumption Script.State Script.Kind) hinside
      ⟨rfl, Scan.ready_of_isBoundary (Boundaries.initial (σ := Script.State)) _⟩
    exact ⟨_, _, _, hload, hdrain, htokens⟩

end Page

namespace Dialect

open Page

/-- Every script of a page is read as the script language alone reads it, if the tag prefixes were
validated. -/
theorem scripts_isolated (delimiters : Delimiters) (h : delimiters.Validated) (source : Bytes) :
    ∃ tokens after, (ofVariant .page delimiters).grammar.lexWhole source = .ok (tokens, after) ∧
      ∀ front opener rest, Span.ofTokens 0 tokens = front ++ opener :: rest →
        opener.token.id = delimiterId → opener.text source ∈ openings .host →
        ScriptAlone source opener.stop (rest.map Span.token) := by
  have hslash := Delimiters.noSlash_of_validated h
  obtain ⟨whole, final, hpath, hfinal⟩ := (ofVariant .page delimiters).resumption.exists_path
    source (Nat.zero_le _) (State.ready_initial _)
  refine ⟨_, _, (ofVariant .page delimiters).resumption.lexSplit_eq source hpath hfinal [], ?_⟩
  intro front opener rest hsplit hid htext
  obtain ⟨before, behind, base, next, -, hbehind, hbefore, hstep, hrest⟩ := hpath.of_spans hsplit
  have hbase := ((ofVariant .page delimiters).resumption.ready_of_path hbefore
    (State.ready_initial _)).1
  have hnext := ((ofVariant .page delimiters).resumption.next_of_step hbase hstep).2
  obtain ⟨hlanguage, hscript⟩ := between_of_opening hslash hbase hstep hid htext
  rw [hbehind]
  exact scriptAlone_of_path rfl hlanguage hscript hnext hfinal hrest

/-- So it is with a string that is cut before the `%>` in it. -/
theorem default_scripts_isolated :
    Delimiters.default.Validated ∧
      ((default.grammar.lexWhole (Bytes.ofString "<%= \"%> b")).map Prod.fst).toOption =
        some [⟨delimiterId, 3⟩, ⟨24, 1⟩, ⟨28, 1⟩, ⟨delimiterId, 2⟩, ⟨2, 2⟩] ∧
      ScriptAlone (Bytes.ofString "<%= \"%> b") 3
        [⟨24, 1⟩, ⟨28, 1⟩, ⟨delimiterId, 2⟩, ⟨2, 2⟩] := by
  have htokens : ((default.grammar.lexWhole (Bytes.ofString "<%= \"%> b")).map
      Prod.fst).toOption = some [⟨delimiterId, 3⟩, ⟨24, 1⟩, ⟨28, 1⟩, ⟨delimiterId, 2⟩, ⟨2, 2⟩] := by
    decide +kernel
  obtain ⟨tokens, after, hlex, halone⟩ := scripts_isolated Delimiters.default
    Delimiters.validated_default (Bytes.ofString "<%= \"%> b")
  refine ⟨Delimiters.validated_default, htokens, ?_⟩
  rw [default, hlex] at htokens
  cases htokens
  exact halone [] _ _ rfl rfl (by decide)

end Dialect

end PageLexing
