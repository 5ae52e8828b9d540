import PageLexing.Delimiter

/-!
# What a probe knows

A probe is a summary of the bytes that it has read: which of the fixed delimiters they
begin, or which tag prefixes they agree with so far. `Probe.Matches` says so; it is kept
by every byte that leaves the probe undecided, and from it follows that feeding a probe
never fails and that a confirmed delimiter lies within the bytes that were read.

A verdict reached inside a window is final, and a probe that a window leaves undecided
goes on in the next one as if there had been one window.

## Main results

* `narrow_spec` — the prefixes that remain viable are those that go on with the byte.
* `advance_of_matches`, `follow_of_matches` — probes never fail and keep their meaning.
* `follow_of_le`, `follow_append` — verdicts are final, undecided probes can be resumed.
-/

namespace PageLexing

/-! ## Languages of probes and switches -/

/-- The language in which a probe seeks a delimiter. -/
def Probe.language : Probe → Language
  | less | lessPercent | lessPercentDash | tagPrefix .. => .host
  | tagLess | tagLessPercent => .tag
  | percent => .script

/-- A switch may occur in `language`, and its delimiter, if it is a token, is one of at
most `read` bytes. -/
def Switch.Suits (language : Language) (read : Nat) : Switch → Prop
  | enterTag => language = .host
  | enterScript len => language ≠ .script ∧ 0 < len ∧ len ≤ read
  | leaveScript len => language = .script ∧ 0 < len ∧ len ≤ read

theorem Switch.Suits.mono {language : Language} {read more : Nat} {switch : Switch}
    (h : switch.Suits language read) (hle : read ≤ more) : switch.Suits language more := by
  cases switch with
  | enterTag => exact h
  | enterScript len => exact ⟨h.1, h.2.1, Nat.le_trans h.2.2 hle⟩
  | leaveScript len => exact ⟨h.1, h.2.1, Nat.le_trans h.2.2 hle⟩

/-! ## The meaning of a probe -/

/-- The bytes before the name in the opening of a prefixed element. -/
def Delimiters.opening (closing : Bool) : Bytes :=
  if closing then [Byte.less, Byte.slash] else [Byte.less]

/-- The probe stands for having read the bytes `read`. -/
def Probe.Matches (delimiters : Delimiters) (read : Bytes) : Probe → Prop
  | less => read = [Byte.less]
  | lessPercent => read = [Byte.less, Byte.percent]
  | lessPercentDash => read = [Byte.less, Byte.percent, Byte.dash]
  | tagPrefix closing matched viable =>
      ∃ name, read = Delimiters.opening closing ++ name ∧ name.length = matched ∧
        viable ≠ 0 ∧ ∀ i, viable.testBit i = true ↔
          ∃ candidate, delimiters.prefixes[i]? = some candidate ∧ name <+: candidate
  | tagLess => read = [Byte.less]
  | tagLessPercent => read = [Byte.less, Byte.percent]
  | percent => read = [Byte.percent]

/-- What a verdict on a probe of `language` that has read `read` promises. -/
def Verdict.Sound (delimiters : Delimiters) (language : Language) (read : Bytes) :
    Verdict → Prop
  | .confirmed switch => switch.Suits language read.length
  | .rejected => True
  | .undecided probe => probe.Matches delimiters read ∧ probe.language = language

namespace Delimiters

variable {delimiters : Delimiters}

theorem length_opening (closing : Bool) :
    (opening closing).length = if closing then 2 else 1 := by
  cases closing <;> rfl

/-- A probe knows how many bytes it has read. -/
theorem consumed_of_matches {read : Bytes} {probe : Probe}
    (h : probe.Matches delimiters read) : probe.consumed = read.length := by
  cases probe with
  | tagPrefix closing matched viable =>
      obtain ⟨name, rfl, rfl, -, -⟩ := h
      rw [List.length_append, length_opening]
      rfl
  | _ =>
      simp only [Probe.Matches] at h
      subst h
      rfl

/-- The first byte of a delimiter is all that its probe has read. -/
theorem matches_of_start (delimiters : Delimiters) {language : Language} {byte : UInt8}
    {probe : Probe}
    (h : start language byte = some probe) :
    probe.Matches delimiters [byte] ∧ probe.language = language := by
  cases language <;> simp only [start] at h <;> split at h <;> cases h <;>
    rename_i hbyte <;> exact ⟨by rw [hbyte]; rfl, rfl⟩

/-! ## Narrowing the prefixes -/

/-- One of the viable prefixes ends after `matched` bytes. -/
def Completes (matched viable index : Nat) (prefixes : List Bytes) : Prop :=
  ∃ i candidate, prefixes[i]? = some candidate ∧ viable.testBit (index + i) = true ∧
    candidate.length = matched

/-- The bit of a prefix that is viable and goes on with `byte` after `matched` bytes. -/
def GoesOn (matched viable : Nat) (byte : UInt8) (index : Nat) (prefixes : List Bytes)
    (bit : Nat) : Prop :=
  ∃ i candidate, bit = index + i ∧ prefixes[i]? = some candidate ∧
    viable.testBit bit = true ∧ candidate[matched]? = some byte

theorem completes_cons {matched viable index : Nat} {candidate : Bytes} {rest : List Bytes} :
    Completes matched viable index (candidate :: rest) ↔
      (viable.testBit index = true ∧ candidate.length = matched) ∨
        Completes matched viable (index + 1) rest := by
  constructor
  · rintro ⟨i, found, hget, hbit, hlen⟩
    cases i with
    | zero =>
        simp only [List.getElem?_cons_zero, Option.some.injEq] at hget
        exact Or.inl ⟨hbit, hget ▸ hlen⟩
    | succ i =>
        rw [List.getElem?_cons_succ] at hget
        exact Or.inr ⟨i, found, hget, by rwa [Nat.add_right_comm, Nat.add_assoc], hlen⟩
  · rintro (⟨hbit, hlen⟩ | ⟨i, found, hget, hbit, hlen⟩)
    · exact ⟨0, candidate, rfl, hbit, hlen⟩
    · exact ⟨i + 1, found, hget, by rwa [Nat.add_right_comm, Nat.add_assoc] at hbit, hlen⟩

theorem goesOn_cons {matched viable : Nat} {byte : UInt8} {index : Nat} {candidate : Bytes}
    {rest : List Bytes} {bit : Nat} :
    GoesOn matched viable byte index (candidate :: rest) bit ↔
      (bit = index ∧ viable.testBit index = true ∧ candidate[matched]? = some byte) ∨
        GoesOn matched viable byte (index + 1) rest bit := by
  constructor
  · rintro ⟨i, found, rfl, hget, hbit, hbyte⟩
    cases i with
    | zero =>
        simp only [List.getElem?_cons_zero, Option.some.injEq] at hget
        exact Or.inl ⟨rfl, hbit, hget ▸ hbyte⟩
    | succ i =>
        rw [List.getElem?_cons_succ] at hget
        exact Or.inr ⟨i, found, by omega, hget, hbit, hbyte⟩
  · rintro (⟨rfl, hbit, hbyte⟩ | ⟨i, found, rfl, hget, hbit, hbyte⟩)
    · exact ⟨0, candidate, rfl, rfl, hbit, hbyte⟩
    · exact ⟨i + 1, found, by omega, hget, hbit, hbyte⟩

/-- What narrowing comes to: the byte is the colon after a complete prefix, or the prefixes
that remain viable are those that go on with it. -/
def Narrows (matched viable : Nat) (byte : UInt8) (index : Nat) (prefixes : List Bytes) :
    Prop :=
  (narrow matched viable byte index prefixes = .ok none ∧ byte = Byte.colon ∧
      Completes matched viable index prefixes) ∨
    ∃ bits, narrow matched viable byte index prefixes = .ok (some bits) ∧
      ¬ (byte = Byte.colon ∧ Completes matched viable index prefixes) ∧
      ∀ bit, bits.testBit bit = true ↔ GoesOn matched viable byte index prefixes bit

section Narrows

variable {matched viable index : Nat} {byte : UInt8} {candidate : Bytes} {rest : List Bytes}

/-- A prefix that is not viable changes nothing. -/
theorem narrows_of_not_viable (hbit : ¬ viable.testBit index = true)
    (hrest : Narrows matched viable byte (index + 1) rest) :
    Narrows matched viable byte index (candidate :: rest) := by
  have heq : narrow matched viable byte index (candidate :: rest) =
      narrow matched viable byte (index + 1) rest := by
    simp [narrow, hbit]
  simpa [Narrows, completes_cons, goesOn_cons, heq, hbit] using hrest

/-- A viable prefix that has more bytes remains if the next one is the byte. -/
theorem narrows_of_longer (hbit : viable.testBit index = true) {next : UInt8}
    (hnext : candidate[matched]? = some next)
    (hrest : Narrows matched viable byte (index + 1) rest) :
    Narrows matched viable byte index (candidate :: rest) := by
  have hlen : candidate.length ≠ matched := by
    have := (List.getElem?_eq_some_iff.mp hnext).1
    omega
  simp only [Narrows, completes_cons, goesOn_cons]
  rcases hrest with ⟨hnarrow, hcolon, hdone⟩ | ⟨bits, hnarrow, hopen, hbits⟩
  · refine Or.inl ⟨?_, hcolon, Or.inr hdone⟩
    simp [narrow, hbit, hnext, hnarrow, bind, Except.bind]
  · refine Or.inr ⟨if next = byte then 1 <<< index ||| bits else bits, ?_, ?_, ?_⟩
    · simp [narrow, hbit, hnext, hnarrow, bind, Except.bind]
    · rintro ⟨hcolon, ⟨-, heq⟩ | hdone⟩
      · exact hlen heq
      · exact hopen ⟨hcolon, hdone⟩
    · intro bit
      by_cases hbyte : next = byte
      · rw [if_pos hbyte, Nat.testBit_or, Nat.one_shiftLeft, Nat.testBit_two_pow,
          Bool.or_eq_true, decide_eq_true_eq, hbits]
        simp [hnext, hbit, hbyte, eq_comm]
      · rw [if_neg hbyte, hbits]
        simp [hnext, hbyte]

/-- A viable prefix that is complete is found by the colon, and else remains behind. -/
theorem narrows_of_complete (hbit : viable.testBit index = true)
    (hlen : candidate.length = matched)
    (hrest : Narrows matched viable byte (index + 1) rest) :
    Narrows matched viable byte index (candidate :: rest) := by
  have hnext : candidate[matched]? = none := List.getElem?_eq_none_iff.mpr (Nat.le_of_eq hlen)
  simp only [Narrows, completes_cons, goesOn_cons]
  by_cases hcolon : byte = Byte.colon
  · refine Or.inl ⟨?_, hcolon, Or.inl ⟨hbit, hlen⟩⟩
    simp [narrow, hbit, hcolon, hlen]
  · have heq : narrow matched viable byte index (candidate :: rest) =
        narrow matched viable byte (index + 1) rest := by
      simp [narrow, hbit, hcolon, hlen]
    rcases hrest with ⟨-, hcolon', -⟩ | ⟨bits, hnarrow, -, hbits⟩
    · exact absurd hcolon' hcolon
    · refine Or.inr ⟨bits, heq ▸ hnarrow, fun h => hcolon h.1, ?_⟩
      intro bit
      simp [hnext, hbits]

end Narrows

/-- Narrowing never fails, as long as no viable prefix is shorter than what was matched. -/
theorem narrow_spec (matched viable : Nat) (byte : UInt8) (index : Nat)
    (prefixes : List Bytes)
    (hfits : ∀ i candidate, prefixes[i]? = some candidate →
      viable.testBit (index + i) = true → matched ≤ candidate.length) :
    Narrows matched viable byte index prefixes := by
  induction prefixes generalizing index with
  | nil =>
      refine Or.inr ⟨0, rfl, ?_, ?_⟩
      · rintro ⟨-, i, candidate, hget, -⟩
        simp at hget
      · intro bit
        simp [GoesOn]
  | cons candidate rest ih =>
      have hrest := ih (index + 1) (by
        intro i found hget hbit
        refine hfits (i + 1) found hget ?_
        rwa [show index + (i + 1) = index + 1 + i by omega])
      by_cases hbit : viable.testBit index = true
      · cases hnext : candidate[matched]? with
        | some next => exact narrows_of_longer hbit hnext hrest
        | none =>
            have hlen : candidate.length = matched :=
              Nat.le_antisymm (List.getElem?_eq_none_iff.mp hnext) (hfits 0 candidate rfl hbit)
            exact narrows_of_complete hbit hlen hrest
      · exact narrows_of_not_viable hbit hrest

/-- A name with one more byte begins a text if the name does and the byte comes next. -/
theorem append_singleton_isPrefix {name text : Bytes} {byte : UInt8} :
    name ++ [byte] <+: text ↔ name <+: text ∧ text[name.length]? = some byte := by
  induction name generalizing text with
  | nil => cases text <;> simp [eq_comm]
  | cons b name ih =>
      cases text with
      | nil => simp
      | cons c text => simp [ih, and_assoc]

section Prefixes

variable {name : Bytes} {viable : Nat}
  (hviable : ∀ i, viable.testBit i = true ↔
    ∃ candidate, delimiters.prefixes[i]? = some candidate ∧ name <+: candidate)

include hviable

/-- Some prefix is complete exactly if the name is one. -/
theorem completes_iff_mem :
    Completes name.length viable 0 delimiters.prefixes ↔ name ∈ delimiters.prefixes := by
  constructor
  · rintro ⟨i, candidate, hget, hbit, hlen⟩
    rw [Nat.zero_add, hviable] at hbit
    obtain ⟨found, hfound, hbegins⟩ := hbit
    rw [hget] at hfound
    cases hfound
    rw [hbegins.eq_of_length hlen.symm]
    exact List.mem_of_getElem? hget
  · intro hmem
    obtain ⟨i, hi⟩ := List.getElem?_of_mem hmem
    refine ⟨i, name, hi, ?_, rfl⟩
    rw [Nat.zero_add, hviable]
    exact ⟨name, hi, List.prefix_rfl⟩

/-- A prefix goes on exactly if it begins with the name and the byte. -/
theorem goesOn_iff_isPrefix (byte : UInt8) (bit : Nat) :
    GoesOn name.length viable byte 0 delimiters.prefixes bit ↔
      ∃ candidate, delimiters.prefixes[bit]? = some candidate ∧
        name ++ [byte] <+: candidate := by
  constructor
  · rintro ⟨i, candidate, hi, hget, hbit, hbyte⟩
    rw [Nat.zero_add] at hi
    subst hi
    obtain ⟨found, hfound, hbegins⟩ := (hviable bit).mp hbit
    rw [hget] at hfound
    cases hfound
    exact ⟨candidate, hget, append_singleton_isPrefix.mpr ⟨hbegins, hbyte⟩⟩
  · rintro ⟨candidate, hget, hbegins⟩
    obtain ⟨hname, hbyte⟩ := append_singleton_isPrefix.mp hbegins
    exact ⟨bit, candidate, (Nat.zero_add bit).symm, hget,
      (hviable bit).mpr ⟨candidate, hget, hname⟩, hbyte⟩

/-- The byte after a name opens a fragment if it is the colon after a tag prefix; else the
probe goes on if some prefix does. -/
theorem matchPrefix_spec (closing : Bool) (byte : UInt8) :
    (delimiters.matchPrefix closing name.length viable byte =
        .ok (.confirmed .enterTag) ∧ byte = Byte.colon ∧ name ∈ delimiters.prefixes) ∨
      (¬ (byte = Byte.colon ∧ name ∈ delimiters.prefixes) ∧
        ((delimiters.matchPrefix closing name.length viable byte = .ok .rejected ∧
            ∀ candidate ∈ delimiters.prefixes, ¬ name ++ [byte] <+: candidate) ∨
          ∃ bits, delimiters.matchPrefix closing name.length viable byte =
              .ok (.undecided (.tagPrefix closing (name.length + 1) bits)) ∧
            (Probe.tagPrefix closing (name.length + 1) bits).Matches delimiters
              (opening closing ++ (name ++ [byte])))) := by
  have hspec := narrow_spec name.length viable byte 0 delimiters.prefixes (by
      intro i candidate hget hbit
      rw [Nat.zero_add] at hbit
      obtain ⟨found, hfound, hbegins⟩ := (hviable i).mp hbit
      rw [hget] at hfound
      cases hfound
      exact hbegins.length_le)
  rw [Narrows, completes_iff_mem hviable] at hspec
  rcases hspec with ⟨hnarrow, hcolon, hmem⟩ | ⟨bits, hnarrow, hopen, hbits⟩
  · refine Or.inl ⟨?_, hcolon, hmem⟩
    simp [matchPrefix, hnarrow, bind, Except.bind]
  · refine Or.inr ⟨hopen, ?_⟩
    have hbits' : ∀ bit, bits.testBit bit = true ↔
        ∃ candidate, delimiters.prefixes[bit]? = some candidate ∧
          name ++ [byte] <+: candidate := by
      intro bit
      rw [hbits, goesOn_iff_isPrefix hviable]
    by_cases hzero : bits = 0
    · refine Or.inl ⟨?_, ?_⟩
      · simp [matchPrefix, hnarrow, hzero, bind, Except.bind]
      · intro candidate hmem hbegins
        obtain ⟨i, hi⟩ := List.getElem?_of_mem hmem
        have := (hbits' i).mpr ⟨candidate, hi, hbegins⟩
        simp [hzero] at this
    · refine Or.inr ⟨bits, ?_, name ++ [byte], rfl, ?_, hzero, hbits'⟩
      · simp [matchPrefix, hnarrow, hzero, bind, Except.bind]
      · simp

end Prefixes

/-- All prefixes begin with nothing. -/
theorem testBit_allPrefixes (i : Nat) :
    delimiters.allPrefixes.testBit i = true ↔
      ∃ candidate, delimiters.prefixes[i]? = some candidate ∧ [] <+: candidate := by
  simp only [allPrefixes, Nat.one_shiftLeft, Nat.testBit_two_pow_sub_one, decide_eq_true_eq,
    List.nil_prefix, and_true]
  constructor
  · intro hlt
    exact ⟨delimiters.prefixes[i], List.getElem?_eq_getElem hlt⟩
  · rintro ⟨candidate, hget⟩
    exact (List.getElem?_eq_some_iff.mp hget).1

/-! ## Feeding a probe -/

/-- Matching a tag prefix never fails. -/
theorem matchPrefix_of_matches (name : Bytes) {viable : Nat}
    (hviable : ∀ i, viable.testBit i = true ↔
      ∃ candidate, delimiters.prefixes[i]? = some candidate ∧ name <+: candidate)
    (closing : Bool) (byte : UInt8) :
    ∃ verdict, delimiters.matchPrefix closing name.length viable byte = .ok verdict ∧
      verdict.Sound delimiters .host (opening closing ++ (name ++ [byte])) := by
  rcases matchPrefix_spec hviable closing byte with
    ⟨hmatch, -, -⟩ | ⟨-, ⟨hmatch, -⟩ | ⟨bits, hmatch, hbits⟩⟩
  · exact ⟨_, hmatch, rfl⟩
  · exact ⟨_, hmatch, trivial⟩
  · exact ⟨_, hmatch, hbits, rfl⟩

/-- After `<` a script or a directive may follow, or a tag prefix. -/
theorem advance_less (byte : UInt8) :
    ∃ verdict, delimiters.advance .less byte = .ok verdict ∧
      verdict.Sound delimiters .host [Byte.less, byte] := by
  simp only [advance]
  by_cases hpercent : byte = Byte.percent
  · exact ⟨_, if_pos hpercent, by rw [hpercent]; rfl, rfl⟩
  · rw [if_neg hpercent]
    by_cases hslash : byte = Byte.slash
    · rw [if_pos hslash]
      by_cases hnone : delimiters.allPrefixes = 0
      · exact ⟨.rejected, by rw [if_pos hnone], trivial⟩
      · refine ⟨.undecided (.tagPrefix true 0 delimiters.allPrefixes),
          by rw [if_neg hnone], ⟨[], ?_, rfl, hnone, testBit_allPrefixes⟩, rfl⟩
        rw [hslash]
        rfl
    · rw [if_neg hslash]
      exact matchPrefix_of_matches [] testBit_allPrefixes false byte

/-- After `<%` the byte decides, unless it may be the first dash of a comment. -/
theorem advance_lessPercent (byte : UInt8) :
    ∃ verdict, delimiters.advance .lessPercent byte = .ok verdict ∧
      verdict.Sound delimiters .host [Byte.less, Byte.percent, byte] := by
  simp only [advance]
  by_cases hat : byte = Byte.commercialAt
  · exact ⟨_, if_pos hat, rfl⟩
  · rw [if_neg hat]
    by_cases hdash : byte = Byte.dash
    · exact ⟨_, if_pos hdash, by rw [hdash]; rfl, rfl⟩
    · rw [if_neg hdash]
      split
      · exact ⟨_, rfl, by simp [Verdict.Sound, Switch.Suits]⟩
      · exact ⟨_, rfl, by simp [Verdict.Sound, Switch.Suits]⟩

/-- Feeding the next byte to a probe never fails. -/
theorem advance_of_matches {read : Bytes} {probe : Probe}
    (h : probe.Matches delimiters read) (byte : UInt8) :
    ∃ verdict, delimiters.advance probe byte = .ok verdict ∧
      verdict.Sound delimiters probe.language (read ++ [byte]) := by
  cases probe with
  | less =>
      simp only [Probe.Matches] at h
      subst h
      exact advance_less byte
  | lessPercent =>
      simp only [Probe.Matches] at h
      subst h
      exact advance_lessPercent byte
  | lessPercentDash =>
      simp only [Probe.Matches] at h
      subst h
      simp only [advance]
      split
      · exact ⟨_, rfl, rfl⟩
      · exact ⟨_, rfl, by simp [Verdict.Sound, Switch.Suits, Probe.language]⟩
  | tagPrefix closing matched viable =>
      obtain ⟨name, rfl, rfl, -, hviable⟩ := h
      rw [List.append_assoc]
      exact matchPrefix_of_matches name hviable closing byte
  | tagLess =>
      simp only [Probe.Matches] at h
      subst h
      simp only [advance]
      split
      · rename_i hpercent
        exact ⟨_, rfl, by rw [hpercent]; rfl, rfl⟩
      · exact ⟨_, rfl, trivial⟩
  | tagLessPercent =>
      simp only [Probe.Matches] at h
      subst h
      simp only [advance]
      split
      · exact ⟨_, rfl, by simp [Verdict.Sound, Switch.Suits, Probe.language]⟩
      · exact ⟨_, rfl, trivial⟩
  | percent =>
      simp only [Probe.Matches] at h
      subst h
      simp only [advance]
      split
      · exact ⟨_, rfl, by simp [Verdict.Sound, Switch.Suits, Probe.language]⟩
      · exact ⟨_, rfl, trivial⟩

/-- What the end of the text makes of a probe. -/
theorem sound_atEndOfInput {read : Bytes} {probe : Probe}
    (h : probe.Matches delimiters read) :
    (atEndOfInput probe).Sound delimiters probe.language read := by
  cases probe with
  | lessPercent =>
      simp only [Probe.Matches] at h
      subst h
      simp [atEndOfInput, Verdict.Sound, Switch.Suits, Probe.language]
  | lessPercentDash =>
      simp only [Probe.Matches] at h
      subst h
      simp [atEndOfInput, Verdict.Sound, Switch.Suits, Probe.language]
  | _ => trivial

/-- Feeding all that a window holds never fails, and only a window that does not end the
text leaves a probe undecided. -/
theorem follow_of_matches {read : Bytes} {probe : Probe} (h : probe.Matches delimiters read)
    (last : Bool) {room : Nat} {ahead : Bytes} (hroom : room ≤ ahead.length) :
    ∃ verdict, delimiters.follow last probe room ahead = .ok verdict ∧
      verdict.Sound delimiters probe.language (read ++ ahead.take room) ∧
      ∀ next, verdict = .undecided next → last = false := by
  induction room generalizing read probe ahead with
  | zero =>
      cases last with
      | true =>
          refine ⟨atEndOfInput probe, by simp [follow], ?_, ?_⟩
          · simpa using sound_atEndOfInput h
          · intro next hnext
            cases probe <;> simp [atEndOfInput] at hnext
      | false => exact ⟨.undecided probe, by simp [follow], by simpa using ⟨h, rfl⟩, by simp⟩
  | succ room ih =>
      cases ahead with
      | nil => simp at hroom
      | cons byte ahead =>
          simp only [List.length_cons, Nat.add_le_add_iff_right] at hroom
          obtain ⟨verdict, hadvance, hsound⟩ := advance_of_matches h byte
          simp only [follow, hadvance, bind, Except.bind, List.take_succ_cons]
          cases verdict with
          | confirmed switch =>
              refine ⟨_, rfl, hsound.mono ?_, by simp⟩
              simp
          | rejected => exact ⟨_, rfl, trivial, by simp⟩
          | undecided next =>
              obtain ⟨found, hfollow, hfound, hlast⟩ := ih hsound.1 hroom
              rw [hsound.2, List.append_assoc] at hfound
              exact ⟨found, hfollow, hfound, hlast⟩

/-- A verdict that a window reaches is final. -/
theorem follow_of_le {probe : Probe} {room more : Nat} {ahead : Bytes} {verdict : Verdict}
    (h : delimiters.follow false probe room ahead = .ok verdict)
    (hfinal : ∀ next, verdict ≠ .undecided next) (hle : room ≤ more) (last : Bool) :
    delimiters.follow last probe more ahead = .ok verdict := by
  induction room generalizing probe more ahead with
  | zero =>
      simp only [follow, Bool.false_eq_true, if_false, Except.ok.injEq] at h
      exact absurd h.symm (hfinal probe)
  | succ room ih =>
      obtain ⟨rest, rfl⟩ : ∃ rest, more = rest + 1 := ⟨more - 1, by omega⟩
      cases ahead with
      | nil =>
          simp only [follow, Bool.false_eq_true, if_false, Except.ok.injEq] at h
          exact absurd h.symm (hfinal probe)
      | cons byte ahead =>
          simp only [follow, bind, Except.bind] at h ⊢
          cases hadvance : delimiters.advance probe byte with
          | error fault => simp [hadvance] at h
          | ok next =>
              rw [hadvance] at h
              cases next with
              | undecided next => exact ih h (by omega)
              | confirmed switch => exact h
              | rejected => exact h

/-- An undecided probe goes on in the next window as if there had been one window. -/
theorem follow_append {probe next : Probe} {room : Nat} (more : Nat) {ahead : Bytes}
    (h : delimiters.follow false probe room ahead = .ok (.undecided next))
    (hroom : room ≤ ahead.length) (last : Bool) :
    delimiters.follow last probe (room + more) ahead =
      delimiters.follow last next more (ahead.drop room) := by
  induction room generalizing probe ahead with
  | zero =>
      simp only [follow, Bool.false_eq_true, if_false, Except.ok.injEq,
        Verdict.undecided.injEq] at h
      rw [h, Nat.zero_add, List.drop_zero]
  | succ room ih =>
      cases ahead with
      | nil => simp at hroom
      | cons byte ahead =>
          simp only [List.length_cons, Nat.add_le_add_iff_right] at hroom
          rw [show room + 1 + more = room + more + 1 by omega]
          simp only [follow, bind, Except.bind, List.drop_succ_cons] at h ⊢
          cases hadvance : delimiters.advance probe byte with
          | error fault => simp [hadvance] at h
          | ok verdict =>
              rw [hadvance] at h
              cases verdict with
              | undecided probe => exact ih h hroom
              | confirmed switch => simp at h
              | rejected => simp at h

end Delimiters

end PageLexing
