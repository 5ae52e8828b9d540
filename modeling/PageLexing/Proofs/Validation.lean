import PageLexing.Proofs.Delimiters
import PageLexing.Proofs.Reading

/-!
# Valid and refused settings

Settings have a fault if there are too many prefixes, or else if one of them is no tag prefix, or
else if windows are empty. Everything that is made of settings is refused with this fault: their
delimiters, their dialect, a lexer, and the tokens of a text. If there is none, nothing is refused,
and none of the checks fails that the lexing of a text relies on.

The tokens then depend on the text, the variant and the set of the prefixes. Windows do not matter,
as in every session. Neither does the order in which the prefixes are listed, nor how often: probes
tell them apart by their place in the list, but all that a probe comes to is whether one of them was
read.

## Main results

* `Settings.validate_eq_error_iff` — settings are refused for the first of their faults.
* `Dialect.step_congr` — dialects that recognise the same delimiters read the same tokens.
* `Settings.outcomes_agree` — what is made of settings is refused for the same fault or not at all.
-/

namespace PageLexing

namespace Settings

variable {settings other : Settings}

/-! ## Faults -/

/-- An ASCII letter of either case. -/
def Letter (c : Char) : Prop := 'A' ≤ c ∧ c ≤ 'Z' ∨ 'a' ≤ c ∧ c ≤ 'z'

/-- A letter, and behind it letters, digits, `_`, `.` and `-`. -/
def TagPrefix (text : String) : Prop :=
  ∃ first rest, text.toList = first :: rest ∧ Letter first ∧
    ∀ c ∈ rest, Letter c ∨ '0' ≤ c ∧ c ≤ '9' ∨ c = '_' ∨ c = '.' ∨ c = '-'

theorem isAlpha_iff (c : Char) : c.isAlpha = true ↔ Letter c := by
  have hupper : c.isUpper = true ↔ 'A' ≤ c ∧ c ≤ 'Z' := decide_eq_true_iff
  have hlower : c.isLower = true ↔ 'a' ≤ c ∧ c ≤ 'z' :=
    Bool.and_eq_true_iff.trans (and_congr decide_eq_true_iff decide_eq_true_iff)
  exact Bool.or_eq_true_iff.trans (or_congr hupper hlower)

theorem isPrefixChar_iff (c : Char) :
    isPrefixChar c = true ↔ Letter c ∨ '0' ≤ c ∧ c ≤ '9' ∨ c = '_' ∨ c = '.' ∨ c = '-' := by
  simp [isPrefixChar, Char.isAlphanum, isAlpha_iff, Char.isDigit, Char.le_def, or_assoc]

theorem isTagPrefix_iff (text : String) : isTagPrefix text = true ↔ TagPrefix text := by
  unfold isTagPrefix TagPrefix
  cases text.toList with
  | nil => simp
  | cons first rest =>
      simp only [Bool.and_eq_true, isAlpha_iff, List.all_eq_true, isPrefixChar_iff]
      constructor
      · rintro ⟨hfirst, hrest⟩
        exact ⟨first, rest, rfl, hfirst, hrest⟩
      · rintro ⟨_, _, heq, hfirst, hrest⟩
        cases heq
        exact ⟨hfirst, hrest⟩

/-- The fault for which settings are refused. -/
def Faulty (settings : Settings) : InvalidSettings → Prop
  | .tooManyTagPrefixes count => count = settings.tagPrefixes.length ∧ 32 < count
  | .invalidTagPrefix bad =>
      settings.tagPrefixes.length ≤ 32 ∧ ∃ front rest, settings.tagPrefixes = front ++ bad :: rest ∧
        (∀ text ∈ front, TagPrefix text) ∧ ¬ TagPrefix bad
  | .zeroChunkSize =>
      settings.tagPrefixes.length ≤ 32 ∧ (∀ text ∈ settings.tagPrefixes, TagPrefix text) ∧
        settings.chunkSize = 0

theorem find?_eq_some_iff (prefixes : List String) (bad : String) :
    prefixes.find? (fun text => ! isTagPrefix text) = some bad ↔
      ∃ front rest, prefixes = front ++ bad :: rest ∧ (∀ text ∈ front, TagPrefix text) ∧
        ¬ TagPrefix bad := by
  simp only [List.find?_eq_some_iff_append, ← isTagPrefix_iff, Bool.not_not, Bool.not_eq_true',
    Bool.not_eq_true]
  constructor
  · rintro ⟨hbad, front, rest, hsplit, hfront⟩
    exact ⟨front, rest, hsplit, hfront, hbad⟩
  · rintro ⟨front, rest, hsplit, hfront, hbad⟩
    exact ⟨hbad, front, rest, hsplit, hfront⟩

theorem find?_eq_none_iff (prefixes : List String) :
    prefixes.find? (fun text => ! isTagPrefix text) = none ↔
      ∀ text ∈ prefixes, TagPrefix text := by
  simp only [List.find?_eq_none, ← isTagPrefix_iff, Bool.not_eq_true', Bool.not_eq_false]

/-- Settings are refused for the first of their faults. -/
theorem validate_eq_error_iff (settings : Settings) (invalid : InvalidSettings) :
    settings.validate = .error invalid ↔ settings.Faulty invalid := by
  constructor
  · intro h
    unfold validate at h
    split at h
    · rename_i hcount
      cases h
      exact ⟨rfl, hcount⟩
    · rename_i hcount
      split at h
      · rename_i bad hfind
        cases h
        exact ⟨Nat.le_of_not_lt hcount, (find?_eq_some_iff _ _).mp hfind⟩
      · rename_i hfind
        split at h
        · rename_i hzero
          cases h
          exact ⟨Nat.le_of_not_lt hcount, (find?_eq_none_iff _).mp hfind, hzero⟩
        · cases h
  · intro h
    cases invalid with
    | tooManyTagPrefixes count =>
        obtain ⟨rfl, hcount⟩ := h
        rw [validate, if_pos hcount]
    | invalidTagPrefix bad =>
        obtain ⟨hcount, hbad⟩ := h
        rw [validate, if_neg (Nat.not_lt.mpr hcount), (find?_eq_some_iff _ _).mpr hbad]
    | zeroChunkSize =>
        obtain ⟨hcount, hall, hzero⟩ := h
        rw [validate, if_neg (Nat.not_lt.mpr hcount), (find?_eq_none_iff _).mpr hall]
        exact if_pos hzero

/-- Settings without faults are valid. -/
theorem validate_of_not_faulty (h : ∀ invalid, ¬ settings.Faulty invalid) :
    settings.validate = .ok () := by
  cases hvalidate : settings.validate with
  | error invalid => exact absurd ((validate_eq_error_iff settings invalid).mp hvalidate) (h invalid)
  | ok valid => rfl

/-- Valid settings have no faults. -/
theorem not_faulty_of_validate (h : settings.validate = .ok ()) (invalid : InvalidSettings) :
    ¬ settings.Faulty invalid := by
  intro hfaulty
  cases h.symm.trans ((validate_eq_error_iff settings invalid).mpr hfaulty)

/-! ## What is made of settings -/

/-- Everything that is made of the settings is refused with the fault. -/
structure Refused (settings : Settings) (invalid : InvalidSettings) : Prop where
  validate : settings.validate = .error invalid
  delimiters : settings.delimiters = .error invalid
  dialect : settings.dialect = .error invalid
  lexer : settings.lexer = .error invalid
  tokenize : ∀ source, settings.tokenize source = .ok (.error invalid)

theorem refused_of_faulty {invalid : InvalidSettings} (h : settings.Faulty invalid) :
    settings.Refused invalid := by
  have hvalidate := (validate_eq_error_iff settings invalid).mpr h
  have hdelimiters : settings.delimiters = .error invalid := by
    unfold Settings.delimiters
    split
    · rename_i hinvalid
      rw [hvalidate] at hinvalid
      cases hinvalid
      rfl
    · rename_i hvalid
      cases hvalidate.symm.trans hvalid
  have hdialect : settings.dialect = .error invalid := by
    rw [Settings.dialect, hdelimiters]
    rfl
  refine ⟨hvalidate, hdelimiters, hdialect, ?_, fun source => ?_⟩
  · rw [Settings.lexer, hdialect]
    rfl
  · rw [Settings.tokenize, hdialect]

/-- Nothing that is made of the settings is refused, and none of the checks behind it fails: the
prefixes can be kept apart, and windows of the set size lead through every text, with the tokens
that one window gives. -/
structure Accepted (settings : Settings) (table : Delimiters) : Prop where
  validate : settings.validate = .ok ()
  delimiters : settings.delimiters = .ok table
  apart : Delimiters.ofPrefixes settings.prefixBytes = .ok table
  dialect : settings.dialect = .ok (Dialect.ofVariant settings.variant table)
  lexer : settings.lexer = .ok (Reader.new (Dialect.ofVariant settings.variant table).grammar)
  tokenize : ∀ source, ∃ tokens whole chunked,
    (Dialect.ofVariant settings.variant table).grammar.lexWhole source = .ok (tokens, whole) ∧
      (Dialect.ofVariant settings.variant table).grammar.lexChunked source settings.chunkSize =
        .ok (tokens, chunked) ∧
      settings.tokenize source = .ok (.ok (Span.ofTokens 0 tokens))

/-- The tokens that settings give are those that are read from the whole text. -/
theorem tokenize_of_path {dialect : Dialect} (hdialect : settings.dialect = .ok dialect)
    (hchunk : settings.chunkSize ≠ 0) {source : Bytes} {passages : List (Passage Page.State)}
    {final : Page.State}
    (hpath : dialect.grammar.Path source 0 dialect.grammar.initial passages source.length final)
    (hfinal : final.Ready []) :
    ∃ whole chunked, dialect.grammar.lexWhole source = .ok (passages.map Passage.token, whole) ∧
      dialect.grammar.lexChunked source settings.chunkSize =
        .ok (passages.map Passage.token, chunked) ∧
      settings.tokenize source = .ok (.ok (Span.ofTokens 0 (passages.map Passage.token))) := by
  have hsplit := dialect.resumption.lexSplit_eq source hpath hfinal
  have hchunked : dialect.grammar.lexChunked source settings.chunkSize =
      dialect.grammar.lexSplit source (Schedule.evenCuts source.length settings.chunkSize) :=
    if_neg hchunk
  rw [hsplit] at hchunked
  refine ⟨_, _, hsplit [], hchunked, ?_⟩
  simp only [Settings.tokenize, hdialect, hchunked]
  rfl

end Settings

/-! ## Dialects that are alike -/

namespace Dialect

open Page

variable {dialect other : Dialect} {text source : Bytes} {base : State}

/-- Both dialects recognise the same delimiters, wherever they recognise any. -/
structure Alike (dialect other : Dialect) : Prop where
  switching : dialect.switching = other.switching
  delimiter : ∀ language text,
    dialect.delimiters.delimiter? language text = other.delimiters.delimiter? language text

theorem Alike.free (h : Alike dialect other) {language : Language} {lo hi : Nat} :
    Free dialect.delimiters language text lo hi ↔ Free other.delimiters language text lo hi := by
  simp only [Free, h.delimiter]

theorem Alike.searched (h : Alike dialect other) {start : Frame} :
    Searched dialect text start ↔ Searched other text start := by
  rw [Searched, Searched, h.switching]

/-- What is found in a candidate is the same for both, and so is what becomes of it. -/
theorem attempt_congr (h : Alike dialect other) (hready : base.Ready text) (hne : text ≠ []) :
    dialect.attempt (View.whole text) base = other.attempt (View.whole text) base := by
  obtain ⟨start, hactive, hstart, -, -⟩ := State.exists_active_of_ready hready
  obtain ⟨found, after, hwhole, -⟩ := exists_token hstart (List.length_pos_iff.mpr hne)
  obtain ⟨finding, hholds, hattempt⟩ := exists_finding dialect hready hactive hwhole
  obtain ⟨finding', hholds', hattempt'⟩ := exists_finding other hready hactive hwhole
  rw [hattempt, hattempt']
  cases finding with
  | clear =>
      rw [eq_clear_of_holds hholds' fun hsearched => h.free.mp (hholds (h.searched.mpr hsearched))]
  | «switch» offset switch =>
      obtain ⟨hsearched, -, hfirst, hlt, -⟩ := hholds
      have hfirst' : First other.delimiters start.language text 0 offset switch :=
        ⟨hfirst.le, h.free.mp hfirst.free, by rw [← h.delimiter]; exact hfirst.starts⟩
      rw [eq_switch_of_holds hholds' (h.searched.mp hsearched) hfirst' hlt]
  | suspend offset probe => cases hholds.2.1

/-- Dialects that recognise the same delimiters read the same tokens. -/
theorem step_congr (h : Alike dialect other) (hready : base.Ready text) (hne : text ≠ []) :
    dialect.step (View.whole text) base = other.step (View.whole text) base := by
  have hsame := attempt_congr h hready hne
  rcases attempt_reads dialect hready hne with
    ⟨inner, hopened, hinner, -, henter⟩ | ⟨token, next, htoken, -⟩
  · -- The first token of the fragment takes another attempt, which opens none.
    have hagain := attempt_congr h hinner hne
    rw [step_of_opened hopened, step_of_opened (hsame.symm.trans hopened)]
    rcases attempt_reads dialect hinner hne with
      ⟨again, -, -, -, henter'⟩ | ⟨token, next, htoken, -⟩
    · rw [(Nesting.eq_host_of_enter_tag henter).2] at henter'
      cases henter'
    · rw [step_of_attempt htoken, step_of_attempt (hagain.symm.trans htoken)]
  · rw [step_of_attempt htoken, step_of_attempt (hsame.symm.trans htoken)]

theorem path_congr (h : Alike dialect other) {offset stop : Nat} {final : State}
    {passages : List (Passage State)}
    (hpath : dialect.grammar.Path source offset base passages stop final)
    (hready : base.Ready (source.drop offset)) :
    other.grammar.Path source offset base passages stop final := by
  induction hpath with
  | nil => exact .nil _ _
  | cons hstep _ ih =>
      have hne := dialect.resumption.ne_nil_of_step hready hstep
      have hnext := (dialect.resumption.next_of_step hready hstep).2
      exact .cons ((step_congr h hready hne).symm.trans hstep) (ih hnext)

end Dialect

namespace Delimiters

/-- A set of prefixes spells the same delimiters in whatever order they are listed. -/
theorem spelled?_congr {prefixes others : List Bytes}
    (h : ∀ candidate, candidate ∈ prefixes ↔ candidate ∈ others) (language : Language)
    (text : Bytes) : spelled? prefixes language text = spelled? others language text := by
  have hprefixed : Prefixed prefixes text ↔ Prefixed others text := by
    simp only [Prefixed, h]
  cases language with
  | host => simp only [spelled?, hprefixed]
  | tag | script => rfl

end Delimiters

/-! ## Settings that agree -/

namespace Settings

variable {settings other : Settings}

theorem accepted_of_not_faulty (h : ∀ invalid, ¬ settings.Faulty invalid) :
    ∃ table, settings.Accepted table := by
  have hvalidate := validate_of_not_faulty h
  obtain ⟨table, hdelimiters, -⟩ := exists_delimiters hvalidate
  have hdialect : settings.dialect = .ok (Dialect.ofVariant settings.variant table) := by
    rw [Settings.dialect, hdelimiters]
    rfl
  have hchunk : settings.chunkSize ≠ 0 :=
    Nat.ne_of_gt ((validate_eq_ok_iff settings).mp hvalidate).2.2
  refine ⟨table, hvalidate, hdelimiters, delimiters_eq_ofPrefixes hdelimiters, hdialect, ?_, ?_⟩
  · rw [Settings.lexer, hdialect]
    rfl
  · intro source
    let dialect := Dialect.ofVariant settings.variant table
    obtain ⟨passages, final, hpath, hfinal⟩ :=
      dialect.resumption.exists_path source (Nat.zero_le _) (Page.State.ready_initial _)
    exact ⟨_, tokenize_of_path hdialect hchunk hpath hfinal⟩

/-- The table of valid settings lists their prefixes. -/
theorem Accepted.prefixes {table : Delimiters} (h : settings.Accepted table) :
    table.prefixes = settings.prefixBytes := by
  obtain ⟨found, hfound, hprefixes⟩ := exists_delimiters h.validate
  cases h.delimiters.symm.trans hfound
  exact hprefixes

theorem Accepted.noSlash {table : Delimiters} (h : settings.Accepted table) : table.NoSlash :=
  Delimiters.noSlash_of_validated (Delimiters.validated_of_settings h.delimiters)

/-- Settings with the same set of prefixes have dialects that are alike. -/
theorem alike_of_accepted {table table' : Delimiters} (h : settings.Accepted table)
    (h' : other.Accepted table') (hvariant : settings.variant = other.variant)
    (hprefixes : ∀ text, text ∈ settings.tagPrefixes ↔ text ∈ other.tagPrefixes) :
    (Dialect.ofVariant settings.variant table).Alike (Dialect.ofVariant other.variant table') := by
  refine ⟨by rw [hvariant]; rfl, fun language text => ?_⟩
  show table.delimiter? language text = table'.delimiter? language text
  rw [Delimiters.delimiter?_eq_spelled? h.noSlash, Delimiters.delimiter?_eq_spelled? h'.noSlash,
    h.prefixes, h'.prefixes]
  refine Delimiters.spelled?_congr (fun candidate => ?_) language text
  simp only [prefixBytes, List.mem_map, hprefixes]

/-- Valid settings with the same variant and the same set of prefixes give the same tokens. -/
theorem tokenize_congr {table table' : Delimiters} (h : settings.Accepted table)
    (h' : other.Accepted table') (hvariant : settings.variant = other.variant)
    (hprefixes : ∀ text, text ∈ settings.tagPrefixes ↔ text ∈ other.tagPrefixes)
    (source : Bytes) : settings.tokenize source = other.tokenize source := by
  let dialect := Dialect.ofVariant settings.variant table
  have halike := alike_of_accepted h h' hvariant hprefixes
  have hready := Page.State.ready_initial (source.drop 0)
  obtain ⟨passages, final, hpath, hfinal⟩ :=
    dialect.resumption.exists_path source (Nat.zero_le _) hready
  have hpath' := Dialect.path_congr halike hpath hready
  have hchunk := ((validate_eq_ok_iff settings).mp h.validate).2.2
  have hchunk' := ((validate_eq_ok_iff other).mp h'.validate).2.2
  obtain ⟨-, -, -, -, htokens⟩ := tokenize_of_path h.dialect (Nat.ne_of_gt hchunk) hpath hfinal
  obtain ⟨-, -, -, -, htokens'⟩ :=
    tokenize_of_path h'.dialect (Nat.ne_of_gt hchunk') hpath' hfinal
  exact htokens.trans htokens'.symm

/-- Whatever is made of settings is refused for the same fault, or nothing is; and what valid
settings give depends on their variant and on the set of their prefixes only. -/
theorem outcomes_agree (settings : Settings) :
    (∀ invalid, settings.Faulty invalid → settings.Refused invalid) ∧
      ((∀ invalid, ¬ settings.Faulty invalid) →
        (∃ table, settings.Accepted table) ∧
          ∀ other : Settings, (∀ invalid, ¬ other.Faulty invalid) →
            settings.variant = other.variant →
            (∀ text, text ∈ settings.tagPrefixes ↔ text ∈ other.tagPrefixes) →
            ∀ source, settings.tokenize source = other.tokenize source) := by
  refine ⟨fun _ => refused_of_faulty, fun h => ⟨accepted_of_not_faulty h, ?_⟩⟩
  intro other hother hvariant hprefixes source
  obtain ⟨table, haccepted⟩ := accepted_of_not_faulty h
  obtain ⟨table', haccepted'⟩ := accepted_of_not_faulty hother
  exact tokenize_congr haccepted haccepted' hvariant hprefixes source

/-- So a prefix may be listed twice, and windows may hold a byte each. A text that is no prefix is
reported before windows that are empty. -/
theorem repeated_outcomes_agree :
    (Settings.mk .page ["tpl", "1"] 0).Refused (.invalidTagPrefix "1") ∧
      default.tokenize (Bytes.ofString "<tpl:a>") =
        (Settings.mk .page ["tpl", "tpl"] 1).tokenize (Bytes.ofString "<tpl:a>") := by
  constructor
  · exact (outcomes_agree (.mk .page ["tpl", "1"] 0)).1 _
      ((validate_eq_error_iff _ _).mp (by decide))
  · exact ((outcomes_agree default).2 (not_faulty_of_validate (by decide))).2
      (.mk .page ["tpl", "tpl"] 1) (not_faulty_of_validate (by decide)) rfl (by simp [default]) _

end Settings

end PageLexing
