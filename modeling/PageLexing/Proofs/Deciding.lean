import PageLexing.Proofs.Delimiters

/-!
# What probes decide

Fed one byte at a time, a probe recognises the delimiters of its language and nothing else.
`Delimiters.Determines` lists the words by which a delimiter is recognised: some of them are a
byte longer than the delimiter, since `<%` opens a plain script by what does not follow it. No
word begins another one, so at any time at most one of three things is the case: a word was
read, what was read is the beginning of a word, or no word can come of it any more.

## Main results

* `Determines.eq_of_isPrefix` — no word begins another one.
* `exists_says_advance`, `exists_says_feed` — what one byte decides, and what a text does.
* `probes_decide` — the verdict on every text, in every language.
-/

namespace PageLexing

namespace Delimiters

open Byte

/-! ## Feeding a text -/

/-- The verdict on the first byte of a text. -/
def opened (language : Language) (byte : UInt8) : Verdict :=
  match start language byte with
  | some probe => .undecided probe
  | none => .rejected

/-- Feeds bytes one at a time, until a verdict is reached. -/
def feed (delimiters : Delimiters) : Verdict → Bytes → Except Fault Verdict
  | .undecided probe, byte :: rest => do
      let verdict ← delimiters.advance probe byte
      feed delimiters verdict rest
  | verdict, _ => .ok verdict

/-! ## The words of a language -/

/-- When all of `word` was read in `language`, the delimiter is known. -/
inductive Determines (prefixes : List Bytes) : Language → (word : Bytes) → Switch → Prop where
  | directive : Determines prefixes .host [less, percent, commercialAt] .enterTag
  | comment : Determines prefixes .host [less, percent, dash, dash] .enterTag
  | element (closing : Bool) {candidate : Bytes} (h : candidate ∈ prefixes) :
      Determines prefixes .host (opening closing ++ candidate ++ [colon]) .enterTag
  | marked {byte : UInt8} (h : byte = equals ∨ byte = bang) :
      Determines prefixes .host [less, percent, byte] (.enterScript 3)
  | plain {byte : UInt8} (h : byte ∉ [commercialAt, dash, equals, bang]) :
      Determines prefixes .host [less, percent, byte] (.enterScript 2)
  | dashed {byte : UInt8} (h : byte ≠ dash) :
      Determines prefixes .host [less, percent, dash, byte] (.enterScript 2)
  | nested : Determines prefixes .tag [less, percent, equals] (.enterScript 3)
  | leaving : Determines prefixes .script [percent, greater] (.leaveScript 2)

variable {delimiters : Delimiters}

/-- None of the bytes with a meaning in a delimiter stands in a tag prefix. -/
theorem noMarks_of_validated (h : delimiters.Validated) {candidate : Bytes}
    (hmem : candidate ∈ delimiters.prefixes) :
    colon ∉ candidate ∧ slash ∉ candidate ∧ percent ∉ candidate :=
  ⟨notMem_of_validated h (show Settings.isPrefixChar ':' = false by decide) (by decide) hmem,
    notMem_of_validated h (show Settings.isPrefixChar '/' = false by decide) (by decide) hmem,
    notMem_of_validated h (show Settings.isPrefixChar '%' = false by decide) (by decide) hmem⟩

/-- What a name must be followed by to be that of an element ends it. -/
theorem eq_of_append_colon {name candidate : Bytes} (hcolon : colon ∉ candidate)
    (h : name ++ [colon] <+: candidate ++ [colon]) : name = candidate := by
  rcases List.prefix_concat_iff.mp h with heq | hbegins
  · exact List.append_cancel_right heq
  · exact absurd (hbegins.subset (List.mem_append_right name (List.mem_singleton_self colon)))
      hcolon

/-- The words of markup start with `<%`, or they are the openings of elements. -/
theorem Determines.host_cases {prefixes : List Bytes} {word : Bytes} {switch : Switch}
    (h : Determines prefixes .host word switch) :
    (∃ rest, word = less :: percent :: rest) ∨
      ∃ closing, ∃ candidate ∈ prefixes,
        word = opening closing ++ candidate ++ [colon] ∧ switch = .enterTag := by
  cases h with
  | element closing hmem => exact Or.inr ⟨closing, _, hmem, rfl, rfl⟩
  | _ => exact Or.inl ⟨_, rfl⟩

/-- The byte behind the first one where an element is opened. -/
theorem exists_opening_eq {closing : Bool} {byte : UInt8} {rest : Bytes}
    (h : closing = false → byte ≠ slash ∧ byte ≠ percent) :
    ∃ second more, opening closing ++ byte :: rest = less :: second :: more ∧
      second ≠ percent ∧ (second = slash ↔ closing = true) := by
  cases closing with
  | true => exact ⟨slash, byte :: rest, rfl, by decide, by simp⟩
  | false =>
      obtain ⟨hslash, hpercent⟩ := h rfl
      exact ⟨byte, rest, rfl, hpercent, by simpa using hslash⟩

/-- The byte behind the first one in the opening of an element. -/
theorem exists_element_eq (h : delimiters.Validated) (closing : Bool) {candidate : Bytes}
    (hmem : candidate ∈ delimiters.prefixes) :
    ∃ second more, opening closing ++ candidate ++ [colon] = less :: second :: more ∧
      second ≠ percent ∧ (second = slash ↔ closing = true) := by
  rw [List.append_assoc]
  cases candidate with
  | nil => exact exists_opening_eq fun _ => by decide
  | cons byte rest =>
      obtain ⟨-, hslash, hpercent⟩ := noMarks_of_validated h hmem
      rw [List.mem_cons, not_or] at hslash hpercent
      exact exists_opening_eq fun _ => ⟨Ne.symm hslash.1, Ne.symm hpercent.1⟩

/-- The opening of an element begins no other one. -/
theorem element_unique (h : delimiters.Validated) {closing closing' : Bool}
    {candidate candidate' : Bytes} (hmem : candidate ∈ delimiters.prefixes)
    (hmem' : candidate' ∈ delimiters.prefixes)
    (hbegins : opening closing ++ candidate ++ [colon] <+:
      opening closing' ++ candidate' ++ [colon]) :
    closing = closing' ∧ candidate = candidate' := by
  have hclosing : closing = closing' := by
    obtain ⟨byte, rest, hword, -, hslash⟩ := exists_element_eq h closing hmem
    obtain ⟨byte', rest', hword', -, hslash'⟩ := exists_element_eq h closing' hmem'
    rw [hword, hword'] at hbegins
    have hbyte : byte = byte' :=
      (List.cons_prefix_cons.mp (List.cons_prefix_cons.mp hbegins).2).1
    rw [Bool.eq_iff_iff, ← hslash, ← hslash', hbyte]
  subst hclosing
  rw [List.append_assoc, List.append_assoc, List.prefix_append_right_inj] at hbegins
  exact ⟨rfl, eq_of_append_colon (noMarks_of_validated h hmem').1 hbegins⟩

/-- No word begins another one. -/
theorem Determines.eq_of_isPrefix (h : delimiters.Validated) {language : Language}
    {word word' : Bytes} {switch switch' : Switch}
    (hword : Determines delimiters.prefixes language word switch)
    (hword' : Determines delimiters.prefixes language word' switch')
    (hbegins : word <+: word') : word = word' ∧ switch = switch' := by
  have hdistinct : ∀ (closing : Bool) (candidate rest : Bytes),
      candidate ∈ delimiters.prefixes →
      ¬ opening closing ++ candidate ++ [colon] <+: less :: percent :: rest ∧
        ¬ less :: percent :: rest <+: opening closing ++ candidate ++ [colon] := by
    intro closing candidate rest hmem
    obtain ⟨byte, tail, heq, hpercent, -⟩ := exists_element_eq h closing hmem
    rw [heq]
    simp [List.cons_prefix_cons, hpercent, Ne.symm hpercent]
  cases hword with
  | element closing hmem =>
      rcases hword'.host_cases with ⟨rest, rfl⟩ | ⟨closing', candidate', hmem', rfl, rfl⟩
      · exact absurd hbegins (hdistinct closing _ rest hmem).1
      · obtain ⟨rfl, rfl⟩ := element_unique h hmem hmem' hbegins
        exact ⟨rfl, rfl⟩
  | nested =>
      cases hword'
      exact ⟨rfl, rfl⟩
  | leaving =>
      cases hword'
      exact ⟨rfl, rfl⟩
  | _ =>
      cases hword' with
      | element closing' hmem' => exact absurd hbegins (hdistinct closing' _ _ hmem').2
      | marked hbyte =>
          clear hdistinct
          rcases hbyte with rfl | rfl <;> simp_all +decide [List.cons_prefix_cons]
      | _ =>
          clear hdistinct
          simp_all +decide [List.cons_prefix_cons]

/-! ## One byte -/

/-- What was read is no beginning of a word and does not start with one. -/
def Excludes (prefixes : List Bytes) (language : Language) (read : Bytes) : Prop :=
  ∀ word switch, Determines prefixes language word switch →
    ¬ word <+: read ∧ ¬ read <+: word

/-- What a verdict says of the bytes that were read. -/
def Says (delimiters : Delimiters) (language : Language) (read : Bytes) :
    Verdict → Prop
  | .confirmed switch => ∃ word, Determines delimiters.prefixes language word switch ∧
      word <+: read
  | .rejected => Excludes delimiters.prefixes language read
  | .undecided probe => probe.Matches delimiters read ∧ probe.language = language ∧
      ∀ matched viable, probe = .tagPrefix false matched viable → 0 < matched

/-- The byte behind a part of `candidate` with which it is neither complete nor goes on. -/
theorem excludes_candidate {name candidate : Bytes} {byte : UInt8} (hcolon : colon ∉ name)
    (hopen : ¬ (byte = colon ∧ name = candidate)) (hnone : ¬ name ++ [byte] <+: candidate) :
    ¬ candidate ++ [colon] <+: name ++ [byte] ∧ ¬ name ++ [byte] <+: candidate ++ [colon] := by
  constructor
  · intro hbegins
    rcases List.prefix_concat_iff.mp hbegins with heq | hbegins
    · obtain ⟨rfl, hbyte⟩ := List.append_inj' heq rfl
      exact hopen ⟨(List.singleton_inj.mp hbyte).symm, rfl⟩
    · exact hcolon (hbegins.subset (List.mem_append_right _ (List.mem_singleton_self _)))
  · intro hbegins
    rcases List.prefix_concat_iff.mp hbegins with heq | hbegins
    · obtain ⟨rfl, hbyte⟩ := List.append_inj' heq rfl
      exact hopen ⟨List.singleton_inj.mp hbyte, rfl⟩
    · exact hnone hbegins

/-- What is read of a tag prefix excludes all words, if neither a prefix is complete nor any
goes on. -/
theorem excludes_name (h : delimiters.Validated) {closing : Bool} {name : Bytes} {byte : UInt8}
    (hname : name = [] ∨ ∃ candidate ∈ delimiters.prefixes, name <+: candidate)
    (hfirst : closing = false → name = [] → byte ≠ slash ∧ byte ≠ percent)
    (hopen : ¬ (byte = colon ∧ name ∈ delimiters.prefixes))
    (hnone : ∀ candidate ∈ delimiters.prefixes, ¬ name ++ [byte] <+: candidate) :
    Excludes delimiters.prefixes .host (opening closing ++ (name ++ [byte])) := by
  have hbytes : colon ∉ name ∧ slash ∉ name ∧ percent ∉ name := by
    rcases hname with rfl | ⟨candidate, hmem, hbegins⟩
    · simp
    · obtain ⟨hcolon, hslash, hpercent⟩ := noMarks_of_validated h hmem
      exact ⟨fun hin => hcolon (hbegins.subset hin), fun hin => hslash (hbegins.subset hin),
        fun hin => hpercent (hbegins.subset hin)⟩
  obtain ⟨second, rest, hread, hpercent, hslash⟩ : ∃ second rest,
      opening closing ++ (name ++ [byte]) = less :: second :: rest ∧ second ≠ percent ∧
        (second = slash ↔ closing = true) := by
    cases name with
    | nil => exact exists_opening_eq fun hclosing => hfirst hclosing rfl
    | cons first name =>
        simp only [List.mem_cons, not_or] at hbytes
        exact exists_opening_eq fun _ => ⟨Ne.symm hbytes.2.1.1, Ne.symm hbytes.2.2.1⟩
  intro word «switch» hword
  rcases hword.host_cases with ⟨more, rfl⟩ | ⟨closing', candidate, hmem, rfl, -⟩
  · rw [hread]
    simp [List.cons_prefix_cons, hpercent, Ne.symm hpercent]
  · by_cases hclosing : closing' = closing
    · subst hclosing
      rw [List.append_assoc, List.prefix_append_right_inj, List.prefix_append_right_inj]
      refine excludes_candidate hbytes.1 ?_ (hnone candidate hmem)
      rintro ⟨hcolon, rfl⟩
      exact hopen ⟨hcolon, hmem⟩
    · -- A closing form has a slash there, and an opening one has none.
      obtain ⟨second', rest', hword', -, hslash'⟩ := exists_element_eq h closing' hmem
      have hne : second' ≠ second := by
        rintro rfl
        exact hclosing (Bool.eq_iff_iff.mpr (hslash'.symm.trans hslash))
      rw [hread, hword']
      simp [List.cons_prefix_cons, hne, Ne.symm hne]

/-- What the byte behind a part of a tag prefix decides. -/
theorem says_matchPrefix (h : delimiters.Validated) {closing : Bool} {name : Bytes}
    {viable : Nat} (hviable : ∀ i, viable.testBit i = true ↔
      ∃ candidate, delimiters.prefixes[i]? = some candidate ∧ name <+: candidate)
    (hname : name = [] ∨ ∃ candidate ∈ delimiters.prefixes, name <+: candidate) {byte : UInt8}
    (hfirst : closing = false → name = [] → byte ≠ slash ∧ byte ≠ percent) :
    ∃ verdict, delimiters.matchPrefix closing name.length viable byte = .ok verdict ∧
      Says delimiters .host (opening closing ++ (name ++ [byte])) verdict := by
  rcases matchPrefix_spec hviable closing byte with
    ⟨hmatch, rfl, hmem⟩ | ⟨hopen, ⟨hmatch, hnone⟩ | ⟨bits, hmatch, hmatches⟩⟩
  · refine ⟨_, hmatch, _, .element closing hmem, ?_⟩
    simp only [List.append_assoc, List.prefix_rfl]
  · exact ⟨_, hmatch, excludes_name h hname hfirst hopen hnone⟩
  · refine ⟨_, hmatch, hmatches, rfl, ?_⟩
    rintro matched viable ⟨⟩
    exact Nat.succ_pos _

/-- After `</` and no tag prefix there is nothing to come. -/
theorem excludes_slash (h : delimiters.allPrefixes = 0) :
    Excludes delimiters.prefixes .host [less, slash] := by
  have hnone : delimiters.prefixes = [] := by
    rw [List.eq_nil_iff_forall_not_mem]
    intro candidate hmem
    obtain ⟨i, hi⟩ := List.getElem?_of_mem hmem
    have hbit := (testBit_allPrefixes i).mpr ⟨candidate, hi, List.nil_prefix⟩
    simp [h] at hbit
  intro word «switch» hword
  rcases hword.host_cases with ⟨rest, rfl⟩ | ⟨closing, candidate, hmem, -⟩
  · simp +decide [List.cons_prefix_cons]
  · rw [hnone] at hmem
    cases hmem

/-- What the byte after `<` decides in markup. -/
theorem says_less (h : delimiters.Validated) (byte : UInt8) :
    ∃ verdict, delimiters.advance .less byte = .ok verdict ∧
      Says delimiters .host [less, byte] verdict := by
  simp only [advance]
  by_cases hpercent : byte = percent
  · exact ⟨_, if_pos hpercent, by rw [hpercent]; rfl, rfl, by rintro _ _ ⟨⟩⟩
  · rw [if_neg hpercent]
    by_cases hslash : byte = slash
    · rw [if_pos hslash, hslash]
      by_cases hnone : delimiters.allPrefixes = 0
      · exact ⟨.rejected, by rw [if_pos hnone], excludes_slash hnone⟩
      · exact ⟨.undecided (.tagPrefix true 0 delimiters.allPrefixes), by rw [if_neg hnone],
          ⟨[], rfl, rfl, hnone, testBit_allPrefixes⟩, rfl, by rintro _ _ ⟨⟩⟩
    · rw [if_neg hslash]
      have hfirst : false = false → ([] : Bytes) = [] → byte ≠ slash ∧ byte ≠ percent :=
        fun _ _ => ⟨hslash, hpercent⟩
      exact says_matchPrefix h testBit_allPrefixes (Or.inl rfl) hfirst

/-- What the byte after `<%` decides in markup. -/
theorem says_lessPercent (byte : UInt8) :
    ∃ verdict, delimiters.advance .lessPercent byte = .ok verdict ∧
      Says delimiters .host [less, percent, byte] verdict := by
  simp only [advance]
  by_cases hat : byte = commercialAt
  · subst hat
    exact ⟨_, rfl, _, .directive, List.prefix_rfl⟩
  · rw [if_neg hat]
    by_cases hdash : byte = dash
    · exact ⟨_, if_pos hdash, by rw [hdash]; rfl, rfl, by rintro _ _ ⟨⟩⟩
    · rw [if_neg hdash]
      by_cases hmarked : byte = equals ∨ byte = bang
      · exact ⟨_, if_pos hmarked, _, .marked hmarked, List.prefix_rfl⟩
      · refine ⟨_, if_neg hmarked, _, .plain ?_, List.prefix_rfl⟩
        rw [not_or] at hmarked
        simp [hat, hdash, hmarked.1, hmarked.2]

/-- What the byte behind those that a probe has read decides. -/
theorem exists_says_advance (h : delimiters.Validated) {language : Language} {read : Bytes}
    {probe : Probe} (hprobe : Says delimiters language read (.undecided probe))
    (byte : UInt8) :
    ∃ verdict, delimiters.advance probe byte = .ok verdict ∧
      Says delimiters language (read ++ [byte]) verdict := by
  obtain ⟨hmatches, rfl, hstarted⟩ := hprobe
  cases probe with
  | tagPrefix closing matched viable =>
      obtain ⟨name, rfl, rfl, hne, hviable⟩ := hmatches
      obtain ⟨i, hi⟩ := Nat.exists_testBit_of_ne_zero hne
      obtain ⟨candidate, hcandidate, hname⟩ := (hviable i).mp hi
      rw [List.append_assoc]
      refine says_matchPrefix h hviable
        (Or.inr ⟨candidate, List.mem_of_getElem? hcandidate, hname⟩) ?_
      -- A probe that looks for an opening form has read a byte of the prefix.
      rintro rfl rfl
      exact absurd (hstarted 0 viable rfl) (Nat.lt_irrefl 0)
  | less =>
      simp only [Probe.Matches] at hmatches
      subst hmatches
      exact says_less h byte
  | lessPercent =>
      simp only [Probe.Matches] at hmatches
      subst hmatches
      exact says_lessPercent byte
  | lessPercentDash =>
      simp only [Probe.Matches] at hmatches
      subst hmatches
      simp only [advance]
      by_cases hdash : byte = dash
      · subst hdash
        exact ⟨_, rfl, _, .comment, List.prefix_rfl⟩
      · exact ⟨_, if_neg hdash, _, .dashed hdash, List.prefix_rfl⟩
  | tagLess =>
      simp only [Probe.Matches] at hmatches
      subst hmatches
      simp only [advance]
      by_cases hpercent : byte = percent
      · exact ⟨_, if_pos hpercent, by rw [hpercent]; rfl, rfl, by rintro _ _ ⟨⟩⟩
      · refine ⟨_, if_neg hpercent, ?_⟩
        rintro word «switch» ⟨⟩
        simp [List.cons_prefix_cons, hpercent, Ne.symm hpercent]
  | tagLessPercent =>
      simp only [Probe.Matches] at hmatches
      subst hmatches
      simp only [advance]
      by_cases hequals : byte = equals
      · subst hequals
        exact ⟨_, rfl, _, .nested, List.prefix_rfl⟩
      · refine ⟨_, if_neg hequals, ?_⟩
        rintro word «switch» ⟨⟩
        simp [List.cons_prefix_cons, hequals, Ne.symm hequals]
  | percent =>
      simp only [Probe.Matches] at hmatches
      subst hmatches
      simp only [advance]
      by_cases hgreater : byte = greater
      · subst hgreater
        exact ⟨_, rfl, _, .leaving, List.prefix_rfl⟩
      · refine ⟨_, if_neg hgreater, ?_⟩
        rintro word «switch» ⟨⟩
        simp [List.cons_prefix_cons, hgreater, Ne.symm hgreater]

/-- What the first byte of a text decides. -/
theorem says_opened (delimiters : Delimiters) (language : Language) (byte : UInt8) :
    Says delimiters language [byte] (opened language byte) := by
  unfold opened
  cases hstart : start language byte with
  | some probe =>
      obtain ⟨hmatches, hlanguage⟩ := matches_of_start delimiters hstart
      refine ⟨hmatches, hlanguage, ?_⟩
      rintro matched viable rfl
      cases language <;> simp only [start] at hstart <;> split at hstart <;> cases hstart
  | none =>
      have hfirst : ∀ {word «switch»}, Determines delimiters.prefixes language word «switch» →
          ∃ first rest, word = first :: rest ∧ first ≠ byte := by
        intro word «switch» hword
        have hless : ∀ rest : Bytes, (if byte = less then some Probe.less else none) = none →
            ∃ first tail, less :: rest = first :: tail ∧ first ≠ byte := by
          intro rest hnone
          refine ⟨less, rest, rfl, ?_⟩
          rintro rfl
          simp at hnone
        cases hword with
        | element closing hmem => cases closing <;> exact hless _ hstart
        | nested =>
            refine ⟨_, _, rfl, ?_⟩
            rintro rfl
            cases hstart
        | leaving =>
            refine ⟨_, _, rfl, ?_⟩
            rintro rfl
            cases hstart
        | _ => exact hless _ hstart
      intro word «switch» hword
      obtain ⟨first, rest, rfl, hne⟩ := hfirst hword
      simp [List.cons_prefix_cons, hne, Ne.symm hne]

/-! ## A whole text -/

/-- A verdict that was reached stands, whatever comes after it. -/
theorem says_append {language : Language} {read : Bytes} {verdict : Verdict}
    (h : Says delimiters language read verdict)
    (hfinal : ∀ probe, verdict ≠ .undecided probe) (more : Bytes) :
    Says delimiters language (read ++ more) verdict := by
  cases verdict with
  | confirmed switch =>
      obtain ⟨word, hword, hbegins⟩ := h
      exact ⟨word, hword, hbegins.trans (List.prefix_append read more)⟩
  | rejected =>
      intro word «switch» hword
      obtain ⟨hnot, hnot'⟩ := h word «switch» hword
      constructor
      · intro hbegins
        rcases List.prefix_or_prefix_of_prefix hbegins (List.prefix_append read more) with
          hle | hle
        · exact hnot hle
        · exact hnot' hle
      · intro hbegins
        exact hnot' ((List.prefix_append read more).trans hbegins)
  | undecided probe => exact absurd rfl (hfinal probe)

/-- What feeding more bytes decides. -/
theorem exists_says_feed (h : delimiters.Validated) {language : Language} {read : Bytes}
    {verdict : Verdict} (hdecides : Says delimiters language read verdict) (rest : Bytes) :
    ∃ final, delimiters.feed verdict rest = .ok final ∧
      Says delimiters language (read ++ rest) final := by
  induction rest generalizing read verdict with
  | nil => exact ⟨verdict, by cases verdict <;> rfl, by rwa [List.append_nil]⟩
  | cons byte rest ih =>
      cases verdict with
      | undecided probe =>
          obtain ⟨next, hadvance, hnext⟩ := exists_says_advance h hdecides byte
          obtain ⟨final, hfeed, hfinal⟩ := ih hnext
          rw [List.append_assoc] at hfinal
          exact ⟨final, by simp only [feed, hadvance, bind, Except.bind, hfeed], hfinal⟩
      | confirmed switch => exact ⟨_, rfl, says_append hdecides nofun _⟩
      | rejected => exact ⟨_, rfl, says_append hdecides nofun _⟩

/-! ## The verdicts -/

/-- The verdict on the bytes that were read is what the words of the language say. -/
structure Decided (delimiters : Delimiters) (language : Language) (read : Bytes)
    (verdict : Verdict) : Prop where
  /-- A delimiter is confirmed when one of its words is complete. -/
  confirmed : ∀ switch, verdict = .confirmed switch ↔
    ∃ word, Determines delimiters.prefixes language word switch ∧ word <+: read
  /-- It is undecided as long as a word has begun and is not complete. -/
  undecided : (∃ probe, verdict = .undecided probe) ↔
    ∃ word switch, Determines delimiters.prefixes language word switch ∧ read <+: word ∧
      read ≠ word
  /-- It is rejected when no word can be completed any more. -/
  rejected : verdict = .rejected ↔ Excludes delimiters.prefixes language read
  /-- An undecided probe has read all the bytes. -/
  consumed : ∀ probe, verdict = .undecided probe → probe.consumed = read.length
  /-- The viable prefixes are those that begin with the bytes behind `<` or `</`. -/
  viable : ∀ closing matched viable, verdict = .undecided (.tagPrefix closing matched viable) →
    (closing = true ↔ [less, slash] <+: read) ∧
      ∀ i, viable.testBit i = true ↔ ∃ candidate, delimiters.prefixes[i]? = some candidate ∧
        read.drop (opening closing).length <+: candidate
  /-- Only `<%` and `<%-` of markup open a script at the end of the text. -/
  ending : ∀ probe, verdict = .undecided probe →
    atEndOfInput probe =
      if language = .host ∧ (read = [less, percent] ∨ read = [less, percent, dash]) then
        .confirmed (.enterScript 2)
      else .rejected

/-- What an undecided probe has read begins a word. -/
theorem exists_word_of_matches {read : Bytes} {probe : Probe}
    (h : probe.Matches delimiters read) :
    ∃ word switch, Determines delimiters.prefixes probe.language word switch ∧ read <+: word ∧
      read ≠ word := by
  cases probe with
  | tagPrefix closing matched viable =>
      obtain ⟨name, rfl, -, hne, hviable⟩ := h
      obtain ⟨i, hi⟩ := Nat.exists_testBit_of_ne_zero hne
      obtain ⟨candidate, hcandidate, hname⟩ := (hviable i).mp hi
      refine ⟨_, _, .element closing (List.mem_of_getElem? hcandidate), ?_, ?_⟩
      · rw [List.append_assoc, List.prefix_append_right_inj]
        exact hname.trans (List.prefix_append candidate [colon])
      · intro heq
        have hlength := congrArg List.length heq
        have hle := hname.length_le
        simp only [List.length_append, List.length_singleton] at hlength
        omega
  | less | lessPercent =>
      simp only [Probe.Matches] at h
      subst h
      exact ⟨_, _, .directive, by decide, by decide⟩
  | lessPercentDash =>
      simp only [Probe.Matches] at h
      subst h
      exact ⟨_, _, .comment, by decide, by decide⟩
  | tagLess | tagLessPercent =>
      simp only [Probe.Matches] at h
      subst h
      exact ⟨_, _, .nested, by decide, by decide⟩
  | percent =>
      simp only [Probe.Matches] at h
      subst h
      exact ⟨_, _, .leaving, by decide, by decide⟩

/-- What a probe for a tag prefix tells of the prefixes. -/
theorem viable_of_matches (h : delimiters.Validated) {read : Bytes} {closing : Bool}
    {matched viable : Nat}
    (hmatches : (Probe.tagPrefix closing matched viable).Matches delimiters read) :
    (closing = true ↔ [less, slash] <+: read) ∧
      ∀ i, viable.testBit i = true ↔ ∃ candidate, delimiters.prefixes[i]? = some candidate ∧
        read.drop (opening closing).length <+: candidate := by
  obtain ⟨name, rfl, -, hne, hviable⟩ := hmatches
  refine ⟨⟨?_, ?_⟩, by simpa only [List.drop_left] using hviable⟩
  · rintro rfl
    exact List.prefix_append _ name
  · intro hslash
    obtain ⟨i, hi⟩ := Nat.exists_testBit_of_ne_zero hne
    obtain ⟨candidate, hcandidate, hname⟩ := (hviable i).mp hi
    have hnot := (noMarks_of_validated h (List.mem_of_getElem? hcandidate)).2.1
    cases closing with
    | true => rfl
    | false =>
        have hmem : slash ∈ name :=
          (List.cons_prefix_cons.mp hslash).2.subset (List.mem_singleton_self slash)
        exact absurd (hname.subset hmem) hnot

/-- What the end of the text makes of a probe can be told from the bytes that it has read. -/
theorem atEndOfInput_of_matches (h : delimiters.Validated) {read : Bytes} {probe : Probe}
    (hmatches : probe.Matches delimiters read) :
    atEndOfInput probe =
      if probe.language = .host ∧ (read = [less, percent] ∨ read = [less, percent, dash]) then
        .confirmed (.enterScript 2)
      else .rejected := by
  cases probe with
  | tagPrefix closing matched viable =>
      rw [if_neg]
      · rfl
      · rintro ⟨-, hread⟩
        obtain ⟨word, «switch», hword, hbegins, -⟩ := exists_word_of_matches hmatches
        obtain ⟨name, heq, -, hne, hviable⟩ := hmatches
        obtain ⟨i, hi⟩ := Nat.exists_testBit_of_ne_zero hne
        obtain ⟨candidate, hcandidate, hname⟩ := (hviable i).mp hi
        have hmem := List.mem_of_getElem? hcandidate
        obtain ⟨second, rest, helement, hpercent, -⟩ := exists_element_eq h closing hmem
        have hread' : read <+: less :: second :: rest := by
          rw [← helement, heq, List.append_assoc, List.prefix_append_right_inj]
          exact hname.trans (List.prefix_append candidate [colon])
        rcases hread with rfl | rfl
        · exact hpercent (List.cons_prefix_cons.mp (List.cons_prefix_cons.mp hread').2).1.symm
        · exact hpercent (List.cons_prefix_cons.mp (List.cons_prefix_cons.mp hread').2).1.symm
  | _ =>
      simp only [Probe.Matches] at hmatches
      subst hmatches
      rfl

/-- A word that was read is the only one, and nothing longer can come of it. -/
theorem Determines.eq_of_read (h : delimiters.Validated) {language : Language}
    {read word word' : Bytes} {switch switch' : Switch}
    (hword : Determines delimiters.prefixes language word switch)
    (hword' : Determines delimiters.prefixes language word' switch') (hbegins : word <+: read)
    (hread : read <+: word' ∨ word' <+: read) : word = word' ∧ switch = switch' := by
  rcases hread with hread | hread
  · exact hword.eq_of_isPrefix h hword' (hbegins.trans hread)
  · rcases List.prefix_or_prefix_of_prefix hbegins hread with hle | hle
    · exact hword.eq_of_isPrefix h hword' hle
    · obtain ⟨hwords, hswitches⟩ := hword'.eq_of_isPrefix h hword hle
      exact ⟨hwords.symm, hswitches.symm⟩

/-- At most one of the three verdicts can be right. -/
theorem decided_of_says (h : delimiters.Validated) {language : Language} {read : Bytes}
    {verdict : Verdict} (hdecides : Says delimiters language read verdict) :
    Decided delimiters language read verdict := by
  cases verdict with
  | confirmed found =>
      obtain ⟨word, hword, hbegins⟩ := hdecides
      refine ⟨?_, ?_, ?_, nofun, nofun, nofun⟩
      · intro «switch»
        constructor
        · rintro ⟨⟩
          exact ⟨word, hword, hbegins⟩
        · rintro ⟨word', hword', hbegins'⟩
          rw [(hword.eq_of_read h hword' hbegins (Or.inr hbegins')).2]
      · constructor
        · rintro ⟨probe, ⟨⟩⟩
        · rintro ⟨word', switch', hword', hread, hne⟩
          obtain ⟨rfl, -⟩ := hword.eq_of_read h hword' hbegins (Or.inl hread)
          exact absurd (hread.eq_of_length_le hbegins.length_le) hne
      · exact ⟨nofun, fun hnone => absurd hbegins (hnone word found hword).1⟩
  | rejected =>
      refine ⟨?_, ?_, ⟨fun _ => hdecides, fun _ => rfl⟩, nofun, nofun, nofun⟩
      · intro «switch»
        exact ⟨nofun, fun ⟨word, hword, hbegins⟩ => absurd hbegins (hdecides word _ hword).1⟩
      · constructor
        · rintro ⟨probe, ⟨⟩⟩
        · rintro ⟨word, «switch», hword, hread, -⟩
          exact absurd hread (hdecides word «switch» hword).2
  | undecided probe =>
      obtain ⟨hmatches, rfl, -⟩ := hdecides
      obtain ⟨word, found, hword, hread, hne⟩ := exists_word_of_matches hmatches
      refine ⟨?_, ⟨fun _ => ⟨word, found, hword, hread, hne⟩, fun _ => ⟨probe, rfl⟩⟩, ?_, ?_, ?_,
        ?_⟩
      · intro «switch»
        constructor
        · exact nofun
        · rintro ⟨word', hword', hbegins⟩
          obtain ⟨rfl, -⟩ := hword'.eq_of_read h hword hbegins (Or.inl hread)
          exact absurd (hread.eq_of_length_le hbegins.length_le) hne
      · exact ⟨nofun, fun hnone => absurd hread (hnone word found hword).2⟩
      · rintro _ ⟨⟩
        exact consumed_of_matches hmatches
      · rintro closing matched viable ⟨⟩
        exact viable_of_matches h hmatches
      · rintro _ ⟨⟩
        exact atEndOfInput_of_matches h hmatches

/-- Fed any text in any language, a probe decides as the words of the language say. -/
theorem probes_decide (delimiters : Delimiters) (h : delimiters.Validated)
    (language : Language) (first : UInt8) (rest : Bytes) :
    ∃ verdict, delimiters.feed (opened language first) rest = .ok verdict ∧
      Decided delimiters language (first :: rest) verdict := by
  obtain ⟨verdict, hfeed, hdecides⟩ :=
    exists_says_feed h (says_opened delimiters language first) rest
  exact ⟨verdict, hfeed, decided_of_says h hdecides⟩

/-- So it is with the default prefix, on the closing form of an element. -/
theorem default_probes_decide :
    Delimiters.default.Validated ∧
      Delimiters.default.feed (opened .host less) (Bytes.ofString "/tpl:") =
        .ok (.confirmed .enterTag) ∧
      Decided Delimiters.default .host (Bytes.ofString "</tpl:") (.confirmed .enterTag) := by
  have hfeed : Delimiters.default.feed (opened .host less) (Bytes.ofString "/tpl:") =
      .ok (.confirmed .enterTag) := by decide +kernel
  obtain ⟨verdict, hverdict, hdecided⟩ :=
    probes_decide Delimiters.default validated_default .host less (Bytes.ofString "/tpl:")
  rw [hfeed] at hverdict
  cases hverdict
  exact ⟨validated_default, hfeed, hdecided⟩

end Delimiters

end PageLexing
