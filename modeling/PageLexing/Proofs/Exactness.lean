import PageLexing.Proofs.Delimiters
import PageLexing.Proofs.Reading
import PageLexing.Proofs.Sessions

/-!
# Delimiters in the tokens of a page

The tokens of a page and the nestings between them can be told from how the delimiters of
the text are spelled. No token contains a delimiter of the language that reads it, unless it
is a tag comment. Every script delimiter is spelled out where its token starts, and a
fragment is opened nowhere but where the text spells one.

## Main results

* `Dialect.step_reads` — what a step of a page comes to.
* `Dialect.delimiters_exact` — what any session over a page says of the delimiters.
-/

namespace PageLexing

open Page Delimiters

/-! ## Steps -/

namespace Dialect

variable {dialect : Dialect} {text : Bytes} {base next : State} {token : Token}

/-- A token is a delimiter, or the active language reads it, or it is the first one of a
fragment. -/
theorem step_reads (hslash : dialect.delimiters.NoSlash) (h : base.Ready text)
    (hne : text ≠ [])
    (hstep : dialect.step (View.whole text) base = .ok (.token token next)) :
    Delimits dialect.delimiters text base token next ∨
      ∃ inner, ReadsFrom dialect text base token next inner ∧
        (inner = base ∨ base.nesting = .host ∧ inner.nesting = .hostTag ∧
          dialect.delimiters.delimiter? .host text = some .enterTag) ∧
        Scans dialect text inner token next := by
  obtain ⟨inner, hfrom, hinner, hdelimits | hscans⟩ := exists_reads h hne hstep
  · rcases hinner with rfl | ⟨-, hinner, hdelimiter⟩
    · exact Or.inl hdelimits
    · -- Where a fragment starts, the tag language has no delimiter.
      rw [delimiter?_eq_spelled? hslash] at hdelimiter
      have hnone := spelled?_tag_of_enterTag hdelimiter
      rw [← delimiter?_eq_spelled? hslash] at hnone
      have hactive : inner.nesting.active = .tag := by rw [hinner]; rfl
      rcases hdelimits.nesting with ⟨hsome, -⟩ | ⟨hsome, -⟩
      · rw [hactive, hnone] at hsome
        cases hsome
      · rw [hactive, hnone] at hsome
        cases hsome
  · exact Or.inr ⟨inner, hfrom, hinner, hscans⟩

end Dialect

/-! ## Exactness -/

namespace Page

/-- The token is scanned in `language`: it is no script delimiter, and it is one of the
language's own tokens or a newline. -/
def ScannedIn (language : Language) (token : Token) : Prop :=
  token.id ≠ delimiterId ∧ (token.id = TokenId.endOfLine ∨ languageOf? token.id = some language)

/-- A token is what the spelling of the delimiters in the text says. -/
structure Exact (prefixes : List Bytes) (source : Bytes) (passage : Passage State) : Prop where
  /-- No token but a tag comment contains a delimiter of its language. -/
  clear : ∀ language, ScannedIn language passage.token → passage.token.id ≠ commentId →
    ∀ offset, passage.start ≤ offset → offset < passage.start + passage.token.len →
      spelled? prefixes language (source.drop offset) = none
  /-- The active language reads the token, or the tag language does after a fragment was
  opened. -/
  language : passage.token.id ≠ delimiterId →
    ScannedIn passage.before.nesting.active passage.token ∨
      passage.before.nesting = .host ∧ ScannedIn .tag passage.token ∧
        spelled? prefixes .host (source.drop passage.start) = some .enterTag
  /-- A script delimiter of the active language is spelled out at its token, has its length
  and changes the nesting as it says. -/
  delimiter : passage.token.id = delimiterId →
    spelled? prefixes passage.before.nesting.active (source.drop passage.start) =
          some (.enterScript passage.token.len) ∧
        passage.before.nesting.enter .script = .ok passage.after.nesting ∨
      spelled? prefixes passage.before.nesting.active (source.drop passage.start) =
          some (.leaveScript passage.token.len) ∧
        passage.before.nesting.leave = .ok passage.after.nesting
  /-- A fragment is opened where it is spelled out, and its first token starts there. -/
  opening : passage.before.nesting = .host →
    passage.after.nesting = .hostTag ∨ languageOf? passage.token.id = some .tag ∧
      passage.token.id ≠ delimiterId →
    spelled? prefixes .host (source.drop passage.start) = some .enterTag ∧
      languageOf? passage.token.id = some .tag ∧ passage.token.id ≠ delimiterId

variable {dialect : Dialect} {text : Bytes} {base next : State} {token : Token}

theorem scannedIn_of_scans (h : Scans dialect text base token next) :
    ScannedIn base.nesting.active token := by
  rcases h.id with ⟨rfl, -⟩ | ⟨hlanguage, hne⟩
  · exact ⟨endOfLine_ne_delimiterId, Or.inl rfl⟩
  · exact ⟨hne, Or.inr hlanguage⟩

/-- A token that a language reads contains none of the language's delimiters. -/
theorem clear_of_scans (hslash : dialect.delimiters.NoSlash)
    (hswitching : dialect.switching = true) (h : Scans dialect text base token next)
    {language : Language} (hscanned : ScannedIn language token)
    (hcomment : token.id ≠ commentId) {offset : Nat} (hoffset : offset < token.len) :
    spelled? dialect.delimiters.prefixes language (text.drop offset) = none := by
  rw [← delimiter?_eq_spelled? hslash]
  rcases h.id with ⟨rfl, hhead⟩ | ⟨howner, -⟩
  · obtain ⟨ahead, rfl⟩ := List.head?_eq_some_iff.mp hhead
    have hzero : offset = 0 := Nat.lt_one_iff.mp hoffset
    rw [hzero, List.drop_zero]
    exact delimiter?_of_start (start_newline language)
  · have hlanguage : languageOf? token.id = some language := by
      rcases hscanned.2 with hline | hlanguage
      · rw [hline, languageOf?_endOfLine] at howner
        cases howner
      · exact hlanguage
    rw [howner] at hlanguage
    cases hlanguage
    exact h.free hswitching hcomment offset (Nat.zero_le offset) hoffset

variable {source : Bytes} {passage : Passage State}

/-- No token that a language reads at its place in the text contains a delimiter. -/
theorem clear_at (hslash : dialect.delimiters.NoSlash) (hswitching : dialect.switching = true)
    (h : Scans dialect (source.drop passage.start) base passage.token next)
    (language : Language) (hscanned : ScannedIn language passage.token)
    (hcomment : passage.token.id ≠ commentId) (offset : Nat) (hle : passage.start ≤ offset)
    (hlt : offset < passage.start + passage.token.len) :
    spelled? dialect.delimiters.prefixes language (source.drop offset) = none := by
  have hclear := @clear_of_scans _ _ _ _ _ hslash hswitching h language hscanned hcomment
    (offset - passage.start) (by omega)
  rwa [List.drop_drop, Nat.add_sub_cancel' hle] at hclear

/-- A script delimiter is what the text spells. -/
theorem exact_of_delimits (hslash : dialect.delimiters.NoSlash)
    (h : Delimits dialect.delimiters (source.drop passage.start) passage.before passage.token
      passage.after) : Exact dialect.delimiters.prefixes source passage := by
  have hnesting := h.nesting
  rw [delimiter?_eq_spelled? hslash] at hnesting
  refine ⟨fun _ hscanned => absurd h.id hscanned.1, absurd h.id, fun _ => hnesting, ?_⟩
  intro hhost hopen
  rcases hopen with hopen | ⟨-, hnot⟩
  · -- A script is opened in the host language, not a fragment.
    rw [hhost] at hnesting
    rcases hnesting with ⟨-, henter⟩ | ⟨-, hleave⟩
    · rw [hopen] at henter
      cases henter
    · cases hleave
  · exact absurd h.id hnot

/-- A token of the active language is what the text spells. -/
theorem exact_of_scans (hslash : dialect.delimiters.NoSlash)
    (hswitching : dialect.switching = true)
    (h : Scans dialect (source.drop passage.start) passage.before passage.token
      passage.after) : Exact dialect.delimiters.prefixes source passage := by
  have hscanned := scannedIn_of_scans h
  refine ⟨clear_at hslash hswitching h, fun _ => Or.inl hscanned,
    fun hid => absurd hid hscanned.1, ?_⟩
  intro hhost hopen
  rw [hhost] at hscanned
  rcases hopen with hopen | ⟨htag, -⟩
  · rcases h.nesting with hsame | ⟨hinside, -⟩
    · rw [hsame, hhost] at hopen
      cases hopen
    · rw [hhost] at hinside
      cases hinside
  · rcases hscanned.2 with hline | hlanguage
    · rw [hline, languageOf?_endOfLine] at htag
      cases htag
    · rw [htag] at hlanguage
      cases hlanguage

/-- The first token of a fragment is what the text spells. -/
theorem exact_of_opening (hslash : dialect.delimiters.NoSlash)
    (hswitching : dialect.switching = true) (hhost : passage.before.nesting = .host)
    (hactive : base.nesting.active = .tag)
    (hdelimiter : dialect.delimiters.delimiter? .host (source.drop passage.start) =
      some .enterTag)
    (h : Scans dialect (source.drop passage.start) base passage.token passage.after) :
    Exact dialect.delimiters.prefixes source passage := by
  have hscanned := scannedIn_of_scans h
  rw [hactive] at hscanned
  obtain ⟨byte, ahead, htext, hbyte⟩ := head_of_delimiter? hdelimiter
  have htag : languageOf? passage.token.id = some .tag := by
    rcases h.id with ⟨-, hhead⟩ | ⟨howner, -⟩
    · rw [htext] at hhead
      exact absurd (Option.some.inj hhead) hbyte
    · rwa [hactive] at howner
  rw [delimiter?_eq_spelled? hslash] at hdelimiter
  exact ⟨clear_at hslash hswitching h, fun _ => Or.inr ⟨hhost, hscanned, hdelimiter⟩,
    fun hid => absurd hid hscanned.1, fun _ _ => ⟨hdelimiter, htag, hscanned.1⟩⟩

/-- The token that a step reads is what the spelling of the delimiters says. -/
theorem exact_of_step (hslash : dialect.delimiters.NoSlash)
    (hswitching : dialect.switching = true)
    (hready : passage.before.Ready (source.drop passage.start))
    (hne : source.drop passage.start ≠ [])
    (hstep : dialect.step (View.whole (source.drop passage.start)) passage.before =
      .ok (.token passage.token passage.after)) :
    Exact dialect.delimiters.prefixes source passage := by
  rcases Dialect.step_reads hslash hready hne hstep with
    hdelimits | ⟨inner, -, rfl | ⟨hhost, hinner, hdelimiter⟩, hscans⟩
  · exact exact_of_delimits hslash hdelimits
  · exact exact_of_scans hslash hswitching hscans
  · exact exact_of_opening hslash hswitching hhost (by rw [hinner]; rfl) hdelimiter hscans

end Page

namespace Dialect

/-- Whatever is done in a session over a page, its tokens are what the spelling of the
delimiters says, if the tag prefixes were validated. -/
theorem delimiters_exact (delimiters : Delimiters) (h : delimiters.Validated) (source : Bytes)
    (turns : List Turn) :
    ∃ answers, (ofVariant .page delimiters).grammar.drive source turns = .ok answers ∧
      ∀ passage ∈ Passage.ofMarks 0 State.initial (answers.filterMap Answer.mark?),
        Exact delimiters.prefixes source passage := by
  have hslash := noSlash_of_validated h
  obtain ⟨answers, passages, offset, base, hdrive, hpath, -, -, -, hmarks, -⟩ :=
    Reader.drive_standing (Reader.new (ofVariant .page delimiters).grammar) none
      (Reader.stored_initial (resumption _) source) rfl turns
  refine ⟨answers, hdrive, ?_⟩
  rw [List.map_nil, List.nil_append] at hmarks
  intro passage hmem
  rw [← hmarks, show State.initial = (ofVariant .page delimiters).grammar.initial from rfl,
    hpath.ofMarks_eq] at hmem
  obtain ⟨hready, hstep⟩ := (resumption _).step_of_mem hpath (State.ready_initial _) passage hmem
  refine exact_of_step hslash rfl hready ?_ hstep
  intro hnil
  rw [hnil] at hready hstep
  exact (resumption _).not_token_of_nil hready _ _ hstep

/-- So it is with the default prefixes, in a session that lexes a script in one window. -/
theorem default_delimiters_exact :
    Delimiters.default.Validated ∧
      ∃ answers,
        default.grammar.drive (Bytes.ofString "<%= x %>") [⟨false, false, 8, true, 8⟩] =
            .ok answers ∧
          ∀ passage ∈ Passage.ofMarks 0 State.initial (answers.filterMap Answer.mark?),
            Exact Delimiters.default.prefixes (Bytes.ofString "<%= x %>") passage :=
  ⟨validated_default, delimiters_exact Delimiters.default validated_default _ _⟩

end Dialect

end PageLexing
