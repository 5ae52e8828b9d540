import PageLexing.Proofs.Searching
import PageLexing.Settings

/-!
# What delimiters look like

`Delimiters.spelled?` says by plain comparison which delimiter a text starts with. Probes
find exactly these, if no tag prefix starts with a slash: after `</` a probe only looks for
the closing form of an element. The prefixes of settings that were validated start with a
letter, and none of them has a newline.

## Main results

* `delimiter?_eq_spelled?` — what a probe finds is what is spelled out.
* `spelled?_of_delimiter?` — the delimiters of scripts do not depend on the prefixes.
* `spelled?_tag_of_enterTag` — no fragment starts like a script inside a tag.
* `noSlash_of_validated`, `notMem_of_validated` — the bytes of validated prefixes.
-/

namespace PageLexing

namespace Delimiters

open Byte

/-! ## Spelling -/

/-- The text starts with the opening of an element that has one of the prefixes. -/
def Prefixed (prefixes : List Bytes) (text : Bytes) : Prop :=
  ∃ candidate ∈ prefixes, [less] ++ candidate ++ [colon] <+: text ∨
    [less, slash] ++ candidate ++ [colon] <+: text

instance (prefixes : List Bytes) (text : Bytes) : Decidable (Prefixed prefixes text) :=
  inferInstanceAs (Decidable (∃ candidate ∈ prefixes, _))

/-- The delimiter of `language` with which a text starts, by its spelling. -/
def spelled? (prefixes : List Bytes) (language : Language) (text : Bytes) : Option Switch :=
  match language with
  | .host =>
      if [less, percent, commercialAt] <+: text ∨ [less, percent, dash, dash] <+: text then
        some .enterTag
      else if [less, percent, equals] <+: text ∨ [less, percent, bang] <+: text then
        some (.enterScript 3)
      else if [less, percent] <+: text then some (.enterScript 2)
      else if Prefixed prefixes text then some .enterTag
      else none
  | .tag => if [less, percent, equals] <+: text then some (.enterScript 3) else none
  | .script => if [percent, greater] <+: text then some (.leaveScript 2) else none

/-- No prefix starts with a slash. -/
def NoSlash (delimiters : Delimiters) : Prop :=
  ∀ candidate ∈ delimiters.prefixes, candidate.head? ≠ some slash

variable {delimiters : Delimiters}

/-- Unless a name is complete, what it may become goes on with the next byte. -/
theorem exists_prefix_cons_iff {prefixes : List Bytes} {name ahead : Bytes} {byte : UInt8}
    (hopen : ¬ (byte = colon ∧ name ∈ prefixes)) :
    (∃ candidate ∈ prefixes, name <+: candidate ∧
        candidate ++ [colon] <+: name ++ byte :: ahead) ↔
      ∃ candidate ∈ prefixes, name ++ [byte] <+: candidate ∧
        candidate ++ [colon] <+: name ++ [byte] ++ ahead := by
  constructor
  · rintro ⟨candidate, hmem, ⟨rest, rfl⟩, hcolon⟩
    rw [List.append_assoc, List.prefix_append_right_inj] at hcolon
    cases rest with
    | nil =>
        obtain ⟨hbyte, -⟩ := List.cons_prefix_cons.mp hcolon
        rw [List.append_nil] at hmem
        exact absurd ⟨hbyte.symm, hmem⟩ hopen
    | cons next rest =>
        obtain ⟨rfl, hrest⟩ := List.cons_prefix_cons.mp hcolon
        refine ⟨_, hmem, ⟨rest, by simp⟩, ?_⟩
        rw [List.append_assoc, List.append_assoc, List.prefix_append_right_inj]
        exact List.cons_prefix_cons.mpr ⟨rfl, hrest⟩
  · rintro ⟨candidate, hmem, hname, hcolon⟩
    refine ⟨candidate, hmem, (List.prefix_append name [byte]).trans hname, ?_⟩
    rwa [List.append_assoc] at hcolon

/-- What a probe for a tag prefix makes of the rest of the text. -/
theorem follow_tagPrefix {closing : Bool} {name : Bytes} {viable : Nat} {ahead : Bytes}
    (hviable : ∀ i, viable.testBit i = true ↔
      ∃ candidate, delimiters.prefixes[i]? = some candidate ∧ name <+: candidate) :
    delimiters.follow true (.tagPrefix closing name.length viable) ahead.length ahead =
      .ok (if ∃ candidate ∈ delimiters.prefixes,
          name <+: candidate ∧ candidate ++ [colon] <+: name ++ ahead
        then .confirmed .enterTag else .rejected) := by
  induction ahead generalizing name viable with
  | nil =>
      rw [if_neg]
      · rfl
      · rintro ⟨candidate, -, hname, hcolon⟩
        have hshort := hcolon.length_le
        have hlong := hname.length_le
        simp only [List.length_append, List.length_singleton, List.append_nil] at hshort
        omega
  | cons byte ahead ih =>
      simp only [List.length_cons, follow, advance, bind, Except.bind]
      rcases matchPrefix_spec hviable closing byte with
        ⟨hmatch, hcolon, hmem⟩ | ⟨hopen, ⟨hmatch, hnone⟩ | ⟨bits, hmatch, hbits⟩⟩
      · rw [hmatch, if_pos]
        refine ⟨name, hmem, List.prefix_rfl, ?_⟩
        rw [hcolon, List.prefix_append_right_inj]
        exact List.cons_prefix_cons.mpr ⟨rfl, List.nil_prefix⟩
      · rw [hmatch, if_neg]
        rw [exists_prefix_cons_iff hopen]
        rintro ⟨candidate, hmem, hname, -⟩
        exact hnone candidate hmem hname
      · obtain ⟨next, hnext, -, -, hviable'⟩ := hbits
        have hname : name ++ [byte] = next := List.append_cancel_left hnext
        subst hname
        have hrest := ih hviable'
        rw [List.length_append, List.length_singleton] at hrest
        rw [hmatch]
        simp only [hrest, exists_prefix_cons_iff hopen]

/-! ## Probes and spelling -/

/-- What a search that has just begun finds at the start of a text. -/
theorem delimiter?_cons {language : Language} {byte : UInt8} {ahead : Bytes} {probe : Probe}
    (h : start language byte = some probe) :
    delimiters.delimiter? language (byte :: ahead) =
      confirmed? (delimiters.follow true probe ahead.length ahead) := by
  simp [delimiter?, test, h]

/-- After `<` and neither `%` nor `/` there may only be the name of an element. -/
theorem follow_less {byte : UInt8} {ahead : Bytes} (hpercent : byte ≠ percent)
    (hslash : byte ≠ slash) :
    delimiters.follow true .less (byte :: ahead).length (byte :: ahead) =
      delimiters.follow true (.tagPrefix false 0 delimiters.allPrefixes)
        (byte :: ahead).length (byte :: ahead) := by
  simp only [List.length_cons, follow, advance, if_neg hpercent, if_neg hslash]

/-- The opening of an element after its `<`. -/
theorem prefixed_cons_iff {prefixes : List Bytes} {ahead : Bytes} :
    Prefixed prefixes (less :: ahead) ↔
      ∃ candidate ∈ prefixes, candidate ++ [colon] <+: ahead ∨
        [slash] ++ candidate ++ [colon] <+: ahead := by
  simp [Prefixed, List.cons_prefix_cons]

/-- The closing form of an element. -/
theorem prefixed_slash_iff (h : delimiters.NoSlash) {ahead : Bytes} :
    Prefixed delimiters.prefixes (less :: slash :: ahead) ↔
      ∃ candidate ∈ delimiters.prefixes, candidate ++ [colon] <+: ahead := by
  rw [prefixed_cons_iff]
  constructor
  · rintro ⟨candidate, hmem, hopening | hclosing⟩
    · cases candidate with
      | nil =>
          have heq := (List.cons_prefix_cons.mp hopening).1
          exact absurd heq (by decide)
      | cons byte name =>
          obtain ⟨rfl, -⟩ := List.cons_prefix_cons.mp hopening
          exact absurd rfl (h _ hmem)
    · exact ⟨candidate, hmem, (List.cons_prefix_cons.mp hclosing).2⟩
  · rintro ⟨candidate, hmem, hclosing⟩
    exact ⟨candidate, hmem, Or.inr (List.cons_prefix_cons.mpr ⟨rfl, hclosing⟩)⟩

/-- The opening form of an element. -/
theorem prefixed_opening_iff {prefixes : List Bytes} {byte : UInt8} {ahead : Bytes}
    (hslash : byte ≠ slash) :
    Prefixed prefixes (less :: byte :: ahead) ↔
      ∃ candidate ∈ prefixes, candidate ++ [colon] <+: byte :: ahead := by
  rw [prefixed_cons_iff]
  constructor
  · rintro ⟨candidate, hmem, hopening | hclosing⟩
    · exact ⟨candidate, hmem, hopening⟩
    · exact absurd (List.cons_prefix_cons.mp hclosing).1.symm hslash
  · rintro ⟨candidate, hmem, hopening⟩
    exact ⟨candidate, hmem, Or.inl hopening⟩

/-- What is confirmed after the opening of an element. -/
theorem confirmed?_follow_tagPrefix (closing : Bool) (ahead : Bytes) :
    confirmed? (delimiters.follow true (.tagPrefix closing 0 delimiters.allPrefixes)
        ahead.length ahead) =
      if ∃ candidate ∈ delimiters.prefixes, candidate ++ [colon] <+: ahead
      then some .enterTag else none := by
  have hfollow := @follow_tagPrefix delimiters closing [] _ ahead testBit_allPrefixes
  simp only [List.length_nil, List.nil_prefix, true_and, List.nil_append] at hfollow
  rw [hfollow]
  split <;> rfl

/-- What follows `<%` in markup. -/
theorem delimiter?_host_percent (ahead : Bytes) :
    delimiters.delimiter? .host (less :: percent :: ahead) =
      spelled? delimiters.prefixes .host (less :: percent :: ahead) := by
  rw [delimiter?_cons (show start .host less = some .less from rfl)]
  cases ahead with
  | nil => simp +decide [spelled?, follow, advance, atEndOfInput, bind, Except.bind]
  | cons b ahead =>
      by_cases hat : b = commercialAt
      · subst hat
        simp +decide [spelled?, follow, advance, bind, Except.bind, List.cons_prefix_cons]
      · by_cases hdash : b = dash
        · subst hdash
          cases ahead with
          | nil => simp +decide [spelled?, follow, advance, atEndOfInput, bind, Except.bind]
          | cons c ahead =>
              by_cases hc : c = dash
              · subst hc
                simp +decide [spelled?, follow, advance, bind, Except.bind, List.cons_prefix_cons]
              · simp +decide [spelled?, follow, advance, bind, Except.bind, List.cons_prefix_cons,
                  hc, Ne.symm hc]
        · by_cases hscript : b = equals ∨ b = bang
          · rcases hscript with rfl | rfl
            · simp +decide [spelled?, follow, advance, bind, Except.bind, List.cons_prefix_cons]
            · simp +decide [spelled?, follow, advance, bind, Except.bind, List.cons_prefix_cons]
          · obtain ⟨hequals, hbang⟩ := not_or.mp hscript
            simp +decide [spelled?, follow, advance, bind, Except.bind, List.cons_prefix_cons, hat,
              hdash, hequals, hbang, Ne.symm hat, Ne.symm hdash, Ne.symm hequals,
              Ne.symm hbang]

/-- What follows `</` in markup. -/
theorem delimiter?_host_slash (h : delimiters.NoSlash) (ahead : Bytes) :
    delimiters.delimiter? .host (less :: slash :: ahead) =
      if Prefixed delimiters.prefixes (less :: slash :: ahead) then some .enterTag
      else none := by
  rw [delimiter?_cons (show start .host less = some .less from rfl)]
  simp only [List.length_cons, follow, advance, if_neg (show ¬ slash = percent by decide),
    if_true, bind, Except.bind, prefixed_slash_iff h]
  by_cases hnone : delimiters.allPrefixes = 0
  · rw [if_pos hnone, if_neg]
    · rfl
    · rintro ⟨candidate, hmem, -⟩
      obtain ⟨i, hi⟩ := List.getElem?_of_mem hmem
      have hbit := (testBit_allPrefixes i).mpr ⟨candidate, hi, List.nil_prefix⟩
      simp [hnone] at hbit
  · rw [if_neg hnone]
    exact confirmed?_follow_tagPrefix true ahead

/-- What a probe finds in markup is what is spelled out. -/
theorem delimiter?_host (h : delimiters.NoSlash) (text : Bytes) :
    delimiters.delimiter? .host text = spelled? delimiters.prefixes .host text := by
  match text with
  | [] => simp [delimiter?, test, spelled?, Prefixed]
  | [byte] =>
      by_cases hless : byte = less
      · subst hless
        rw [delimiter?_cons (show start .host less = some .less from rfl)]
        simp [spelled?, Prefixed, follow, atEndOfInput, List.cons_prefix_cons]
      · rw [delimiter?_of_start (show start .host byte = none from if_neg hless)]
        simp [spelled?, Prefixed, List.cons_prefix_cons, Ne.symm hless]
  | first :: byte :: ahead =>
      by_cases hless : first = less
      · subst hless
        by_cases hpercent : byte = percent
        · subst hpercent
          exact delimiter?_host_percent ahead
        · have hspelled : spelled? delimiters.prefixes .host (less :: byte :: ahead) =
              if Prefixed delimiters.prefixes (less :: byte :: ahead) then some .enterTag
              else none := by
            simp [spelled?, List.cons_prefix_cons, Ne.symm hpercent]
          rw [hspelled]
          by_cases hslash : byte = slash
          · subst hslash
            exact delimiter?_host_slash h ahead
          · rw [delimiter?_cons (show start .host less = some .less from rfl),
              follow_less hpercent hslash, confirmed?_follow_tagPrefix]
            simp only [prefixed_opening_iff hslash]
      · rw [delimiter?_of_start (show start .host first = none from if_neg hless)]
        simp [spelled?, Prefixed, List.cons_prefix_cons, Ne.symm hless]

/-- What a probe finds in a tag is what is spelled out. -/
theorem delimiter?_tag (text : Bytes) :
    delimiters.delimiter? .tag text = spelled? delimiters.prefixes .tag text := by
  match text with
  | [] => rfl
  | [b] =>
      by_cases hb : b = less
      · subst hb
        rfl
      · simp [spelled?, delimiter?_of_start (show start .tag b = none from if_neg hb),
          List.cons_prefix_cons, Ne.symm hb]
  | [b, c] =>
      by_cases hb : b = less
      · subst hb
        rw [delimiter?_cons (show start .tag less = some .tagLess from rfl)]
        by_cases hc : c = percent
        · subst hc
          simp [spelled?, follow, advance, atEndOfInput, bind, Except.bind,
            List.cons_prefix_cons]
        · simp [spelled?, follow, advance, bind, Except.bind, List.cons_prefix_cons, hc,
            Ne.symm hc]
      · simp [spelled?, delimiter?_of_start (show start .tag b = none from if_neg hb),
          List.cons_prefix_cons, Ne.symm hb]
  | b :: c :: d :: rest =>
      by_cases hb : b = less
      · subst hb
        rw [delimiter?_cons (show start .tag less = some .tagLess from rfl)]
        by_cases hc : c = percent
        · subst hc
          by_cases hd : d = equals
          · subst hd
            simp [spelled?, follow, advance, bind, Except.bind, List.cons_prefix_cons]
          · simp [spelled?, follow, advance, bind, Except.bind, List.cons_prefix_cons, hd,
              Ne.symm hd]
        · simp [spelled?, follow, advance, bind, Except.bind, List.cons_prefix_cons, hc,
            Ne.symm hc]
      · simp [spelled?, delimiter?_of_start (show start .tag b = none from if_neg hb),
          List.cons_prefix_cons, Ne.symm hb]

/-- What a probe finds in a script is what is spelled out. -/
theorem delimiter?_script (text : Bytes) :
    delimiters.delimiter? .script text = spelled? delimiters.prefixes .script text := by
  match text with
  | [] => rfl
  | [b] =>
      by_cases hb : b = percent
      · subst hb
        rfl
      · simp [spelled?, delimiter?_of_start (show start .script b = none from if_neg hb),
          List.cons_prefix_cons, Ne.symm hb]
  | b :: c :: rest =>
      by_cases hb : b = percent
      · subst hb
        rw [delimiter?_cons (show start .script percent = some .percent from rfl)]
        by_cases hc : c = greater
        · subst hc
          simp [spelled?, follow, advance, bind, Except.bind, List.cons_prefix_cons]
        · simp [spelled?, follow, advance, bind, Except.bind, List.cons_prefix_cons, hc,
            Ne.symm hc]
      · simp [spelled?, delimiter?_of_start (show start .script b = none from if_neg hb),
          List.cons_prefix_cons, Ne.symm hb]

/-- What a probe finds is what is spelled out. -/
theorem delimiter?_eq_spelled? (h : delimiters.NoSlash) (language : Language) (text : Bytes) :
    delimiters.delimiter? language text = spelled? delimiters.prefixes language text := by
  cases language with
  | host => exact delimiter?_host h text
  | tag => exact delimiter?_tag text
  | script => exact delimiter?_script text

/-- After `<` and a byte other than `%` no script starts. -/
theorem eq_enterTag_of_less {byte : UInt8} {ahead : Bytes} {switch : Switch}
    (hpercent : byte ≠ percent)
    (h : delimiters.delimiter? .host (less :: byte :: ahead) = some switch) :
    switch = .enterTag := by
  rw [delimiter?_cons (show start .host less = some .less from rfl)] at h
  have helement : ∀ closing ahead,
      confirmed? (delimiters.follow true (.tagPrefix closing 0 delimiters.allPrefixes)
        ahead.length ahead) = some switch → switch = .enterTag := by
    intro closing ahead h
    rw [confirmed?_follow_tagPrefix] at h
    split at h
    · cases h
      rfl
    · cases h
  by_cases hslash : byte = slash
  · subst hslash
    simp only [List.length_cons, follow, advance, if_neg hpercent, if_true, bind,
      Except.bind] at h
    by_cases hnone : delimiters.allPrefixes = 0
    · rw [if_pos hnone] at h
      cases h
    · rw [if_neg hnone] at h
      exact helement true ahead h
  · rw [follow_less hpercent hslash] at h
    exact helement false (byte :: ahead) h

/-- The delimiters of scripts are spelled out, whatever the prefixes are. -/
theorem spelled?_of_delimiter? {language : Language} {text : Bytes} {switch : Switch}
    (h : delimiters.delimiter? language text = some switch) (hne : switch ≠ .enterTag) :
    spelled? delimiters.prefixes language text = some switch := by
  cases language with
  | tag => rwa [← delimiter?_tag]
  | script => rwa [← delimiter?_script]
  | host =>
      match text with
      | [] => cases h
      | [byte] =>
          by_cases hless : byte = less
          · subst hless
            cases h
          · rw [delimiter?_of_start (show start .host byte = none from if_neg hless)] at h
            cases h
      | first :: byte :: ahead =>
          by_cases hless : first = less
          · subst hless
            by_cases hpercent : byte = percent
            · subst hpercent
              rwa [← delimiter?_host_percent]
            · exact absurd (eq_enterTag_of_less hpercent h) hne
          · rw [delimiter?_of_start (show start .host first = none from if_neg hless)] at h
            cases h

/-- A delimiter that is a token of its own has no newline. -/
theorem newline_notMem_of_spelled? {prefixes : List Bytes} {language : Language} {text : Bytes}
    {switch : Switch} {len : Nat} (h : spelled? prefixes language text = some switch)
    (hlen : switch = .enterScript len ∨ switch = .leaveScript len) :
    newline ∉ text.take len := by
  have hprefix : ∀ {word : Bytes} {len : Nat}, word <+: text → len ≤ word.length →
      newline ∉ word → newline ∉ text.take len := by
    rintro word len ⟨rest, rfl⟩ hle hnone hmem
    rw [List.take_append_of_le_length hle] at hmem
    exact hnone (List.mem_of_mem_take hmem)
  unfold spelled? at h
  repeat' split at h
  all_goals cases h
  all_goals rcases hlen with hlen | hlen
  all_goals cases hlen
  · rename_i hword
    rcases hword with hword | hword
    · exact hprefix hword (by decide) (by decide)
    · exact hprefix hword (by decide) (by decide)
  · rename_i hword
    exact hprefix hword (by decide) (by decide)
  · rename_i hword
    exact hprefix hword (by decide) (by decide)
  · rename_i hword
    exact hprefix hword (by decide) (by decide)

/-- No fragment starts like a script inside a tag. -/
theorem spelled?_tag_of_enterTag {prefixes : List Bytes} {text : Bytes}
    (h : spelled? prefixes .host text = some .enterTag) :
    spelled? prefixes .tag text = none := by
  simp only [spelled?] at h ⊢
  split
  · rename_i hequals
    obtain ⟨rest, rfl⟩ := hequals
    simp +decide [List.cons_prefix_cons] at h
  · rfl

end Delimiters

/-! ## Validated prefixes -/

theorem Bytes.ofString_eq_flatMap (text : String) :
    Bytes.ofString text = text.toList.flatMap String.utf8EncodeChar := by
  rw [Bytes.ofString, String.toUTF8_eq_toByteArray, ← String.utf8Encode_toList,
    List.utf8Encode, List.data_toByteArray]

namespace Settings

theorem toNat_lt_of_isPrefixChar {c : Char} (h : isPrefixChar c = true) : c.toNat < 128 := by
  -- Each range of characters ends below 128.
  have hrange {low high : UInt32} (hhigh : high.toNat < 128)
      (h : c.val ≥ low ∧ c.val ≤ high) : c.toNat < 128 :=
    Nat.lt_of_le_of_lt (UInt32.le_iff_toNat_le.mp h.2) hhigh
  have hsingle {other : Char} (hother : other.toNat < 128) (h : (c == other) = true) :
      c.toNat < 128 := by
    rwa [beq_iff_eq.mp h]
  rcases Bool.or_eq_true_iff.mp h with h | hdash
  · rcases Bool.or_eq_true_iff.mp h with h | hdot
    · rcases Bool.or_eq_true_iff.mp h with hword | hunderscore
      · rcases Bool.or_eq_true_iff.mp hword with hletter | hdigit
        · rcases Bool.or_eq_true_iff.mp hletter with hupper | hlower
          · exact hrange (by decide) (of_decide_eq_true hupper)
          · obtain ⟨hlow, hhigh⟩ := Bool.and_eq_true_iff.mp hlower
            exact hrange (by decide) ⟨of_decide_eq_true hlow, of_decide_eq_true hhigh⟩
        · obtain ⟨hlow, hhigh⟩ := Bool.and_eq_true_iff.mp hdigit
          exact hrange (by decide) ⟨of_decide_eq_true hlow, of_decide_eq_true hhigh⟩
      · exact hsingle (by decide) hunderscore
    · exact hsingle (by decide) hdot
  · exact hsingle (by decide) hdash

/-- What may stand in a tag prefix is one byte in a page. -/
theorem utf8EncodeChar_of_isPrefixChar {c : Char} (h : isPrefixChar c = true) :
    String.utf8EncodeChar c = [UInt8.ofNat c.toNat] := by
  have hlt := toNat_lt_of_isPrefixChar h
  have hle : c.val.toNat ≤ 127 := Nat.le_of_lt_succ hlt
  simp only [String.utf8EncodeChar, if_pos hle]
  rfl

/-- A byte that is no character of a tag prefix is not among the bytes of one. -/
theorem ofNat_ne_of_isPrefixChar {c other : Char} (h : isPrefixChar c = true)
    (hother : isPrefixChar other = false) (hlt : other.toNat < 128) :
    UInt8.ofNat c.toNat ≠ UInt8.ofNat other.toNat := by
  intro heq
  have hc := toNat_lt_of_isPrefixChar h
  have hnat := congrArg UInt8.toNat heq
  simp only [UInt8.toNat_ofNat', Nat.reducePow] at hnat
  rw [Nat.mod_eq_of_lt (by omega), Nat.mod_eq_of_lt (by omega)] at hnat
  rw [Char.toNat_inj.mp hnat, hother] at h
  cases h

/-- All characters of a tag prefix may stand in one. -/
theorem isPrefixChar_of_isTagPrefix {text : String} (h : isTagPrefix text = true) :
    ∀ c ∈ text.toList, isPrefixChar c = true := by
  unfold isTagPrefix at h
  split at h
  · cases h
  · rename_i first rest htext
    obtain ⟨hfirst, hrest⟩ := Bool.and_eq_true_iff.mp h
    intro c hmem
    rw [htext] at hmem
    rcases List.mem_cons.mp hmem with rfl | hmem
    · simp [isPrefixChar, Char.isAlphanum, hfirst]
    · exact List.all_eq_true.mp hrest c hmem

/-- No byte of a tag prefix is one of a character that may not stand in it. -/
theorem notMem_ofString {text : String} (h : isTagPrefix text = true) {other : Char}
    (hother : isPrefixChar other = false) (hlt : other.toNat < 128) :
    UInt8.ofNat other.toNat ∉ Bytes.ofString text := by
  rw [Bytes.ofString_eq_flatMap, List.mem_flatMap]
  rintro ⟨c, hc, hmem⟩
  have hchar := isPrefixChar_of_isTagPrefix h c hc
  rw [utf8EncodeChar_of_isPrefixChar hchar, List.mem_singleton] at hmem
  exact ofNat_ne_of_isPrefixChar hchar hother hlt hmem.symm

end Settings

/-- Valid settings have delimiters, with their prefixes. -/
theorem Settings.exists_delimiters {settings : Settings} (h : settings.validate = .ok ()) :
    ∃ delimiters, settings.delimiters = .ok delimiters ∧
      delimiters.prefixes = settings.prefixBytes := by
  unfold Settings.delimiters
  split
  · rename_i hinvalid
    cases h.symm.trans hinvalid
  · exact ⟨_, rfl, rfl⟩

namespace Delimiters

variable {delimiters : Delimiters}

/-- The prefixes are tag prefixes, as those of settings that were validated. -/
def Validated (delimiters : Delimiters) : Prop :=
  ∀ candidate ∈ delimiters.prefixes,
    ∃ text, Settings.isTagPrefix text = true ∧ candidate = Bytes.ofString text

/-- Settings only give validated prefixes. -/
theorem validated_of_settings {settings : Settings}
    (h : settings.delimiters = .ok delimiters) : delimiters.Validated := by
  unfold Settings.delimiters at h
  split at h
  · cases h
  · rename_i hvalid
    cases h
    intro candidate hmem
    obtain ⟨text, htext, rfl⟩ := List.mem_map.mp hmem
    exact ⟨text, ((Settings.validate_eq_ok_iff settings).mp hvalid).2.1 text htext, rfl⟩

theorem validated_default : Delimiters.default.Validated := by
  intro candidate hmem
  exact ⟨"tpl", by decide, List.mem_singleton.mp hmem⟩

/-- No byte of a validated prefix is one of a character that may not stand in it. -/
theorem notMem_of_validated (h : delimiters.Validated) {other : Char}
    (hother : Settings.isPrefixChar other = false) (hlt : other.toNat < 128) {candidate : Bytes}
    (hmem : candidate ∈ delimiters.prefixes) : UInt8.ofNat other.toNat ∉ candidate := by
  obtain ⟨text, htext, rfl⟩ := h candidate hmem
  exact Settings.notMem_ofString htext hother hlt

theorem noSlash_of_validated (h : delimiters.Validated) : delimiters.NoSlash := by
  intro candidate hmem hhead
  exact notMem_of_validated h (show Settings.isPrefixChar '/' = false by decide) (by decide) hmem
    (List.mem_of_head? hhead)

/-- No delimiter has the byte before its last one. -/
structure Foreign (delimiters : Delimiters) (byte : UInt8) : Prop where
  fixed : byte ∉ [Byte.less, Byte.slash, Byte.percent, Byte.dash]
  prefixes : ∀ candidate ∈ delimiters.prefixes, byte ∉ candidate

theorem foreign_newline (h : delimiters.Validated) : delimiters.Foreign Byte.newline where
  fixed := by decide
  prefixes _ hmem :=
    notMem_of_validated h (show Settings.isPrefixChar '\n' = false by decide) (by decide) hmem

theorem foreign_equals (h : delimiters.Validated) : delimiters.Foreign Byte.equals where
  fixed := by decide
  prefixes _ hmem :=
    notMem_of_validated h (show Settings.isPrefixChar '=' = false by decide) (by decide) hmem

end Delimiters

end PageLexing
