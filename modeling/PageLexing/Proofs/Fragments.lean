import PageLexing.Proofs.Openings

/-!
# Fragments of a page

A fragment begins as its opening is spelled: with a comment, with the symbol of a directive, or with
the symbol of an element and the name of the element. From then on the tag language stands inside
the fragment, until the page is back in its markup. This holds between tokens and of every state
that a session stores, whatever its windows are and also while a script is read in the fragment. So
no error of the tag language is one outside a fragment.

## Main results

* `Page.begins_of_path`, `Page.enters_of_opens` — the first tokens of a fragment.
* `Page.encloses_of_step` — a step in any window leaves the tag language inside its fragment.
* `Settings.fragments_enclosed` — the fragments of a page.
-/

namespace PageLexing

/-! ## Names -/

namespace Tag

open Automaton

/-- A byte of a name goes on with it or starts it. -/
theorem consume_of_nameByte {s : State} {b : UInt8} (hs : s = .tagNameStart ∨ s = .tagName)
    (hb : Byte.isNameByte b = true) : consume s b = (.tagName, .grow) := by
  refine consume_of_transition ?_
  rcases hs with rfl | rfl
  · exact if_pos hb
  · exact if_pos hb

/-- A name is read up to the first byte that cannot stand in it. -/
theorem run_of_name (n : Nat) (text : Bytes) :
    ∃ t ending, Scan.run State.tagName n text.length text =
        (⟨t, n + (text.takeWhile Byte.isNameByte).length⟩, ending) ∧
      (ending = .kind .tagName ∧ t = .afterTagName ∨
        (ending = .line ∨ ending = .window) ∧ t = .tagName) := by
  induction text generalizing n with
  | nil => exact ⟨.tagName, .window, rfl, Or.inr ⟨Or.inr rfl, rfl⟩⟩
  | cons b text ih =>
      by_cases hname : Byte.isNameByte b = true
      · have hline : b ≠ Byte.newline := by
          rintro rfl
          exact absurd hname (by decide)
        obtain ⟨t, ending, hrun, hending⟩ := ih (n + 1)
        refine ⟨t, ending, ?_, hending⟩
        rw [List.takeWhile_cons_of_pos hname, List.length_cons, List.length_cons, Nat.add_comm _ 1,
          Nat.add_comm _ 1, ← Nat.add_assoc, ← hrun, Nat.add_comm 1]
        simp only [Scan.run, if_neg hline, consume_of_nameByte (Or.inr rfl) hname]
      · rw [List.takeWhile_cons_of_neg hname]
        by_cases hline : b = Byte.newline
        · exact ⟨.tagName, .line, by simp [Scan.run, hline], Or.inr ⟨Or.inl rfl, rfl⟩⟩
        · have hconsume : consume State.tagName b = (.afterTagName, .closeBefore .tagName) :=
            consume_of_transition (if_neg hname)
          exact ⟨.afterTagName, .kind .tagName,
            by simp only [List.length_cons, Scan.run, if_neg hline, hconsume, List.length_nil,
              Nat.add_zero],
            Or.inl ⟨rfl, rfl⟩⟩

/-- Behind the opening symbol of an element comes its name. -/
theorem step_of_name {b : UInt8} (hb : Byte.isNameByte b = true) (ahead : Bytes) :
    ∃ t, t ≠ State.fragmentEnd ∧
      Scan.step (View.whole (b :: ahead)) (Scan.atBoundary State.tagNameStart) =
        .ok (.token ⟨Kind.tagName.id, ((b :: ahead).takeWhile Byte.isNameByte).length⟩
          (Scan.atBoundary t)) := by
  have hline : b ≠ Byte.newline := by
    rintro rfl
    exact absurd hb (by decide)
  obtain ⟨t, ending, hname, hending⟩ := run_of_name 1 ahead
  have hlen : ((b :: ahead).takeWhile Byte.isNameByte).length =
      1 + (ahead.takeWhile Byte.isNameByte).length := by
    rw [List.takeWhile_cons_of_pos hb, List.length_cons, Nat.add_comm]
  rw [hlen]
  have hrun : Scan.run State.tagNameStart 0 (b :: ahead).length (b :: ahead) =
      (⟨t, 1 + (ahead.takeWhile Byte.isNameByte).length⟩, ending) := by
    rw [← hname]
    simp only [List.length_cons, Scan.run, if_neg hline, consume_of_nameByte (Or.inl rfl) hb]
  have hpos : 0 < 1 + (ahead.takeWhile Byte.isNameByte).length := by omega
  have hfinish := @Scan.finish_eq_token State Kind _ _ (View.whole (b :: ahead))
    ⟨t, 1 + (ahead.takeWhile Byte.isNameByte).length⟩ .tagName hpos
    (by rw [← hlen]; exact (List.takeWhile_prefix _).length_le)
  have hopen : t ≠ State.fragmentEnd := by
    rcases hending with ⟨-, rfl⟩ | ⟨-, rfl⟩
    · decide
    · decide
  refine ⟨t, hopen, ?_⟩
  rcases hending with ⟨rfl, rfl⟩ | ⟨rfl | rfl, rfl⟩
  · exact (Scan.step_of_kind (View.whole (b :: ahead)) hrun).trans hfinish
  · rw [Scan.step_of_line (View.whole (b :: ahead)) hrun, if_pos hpos]
    exact hfinish
  · rw [Scan.step_of_window (View.whole (b :: ahead)) hrun, if_pos ⟨rfl, hpos⟩]
    exact hfinish

end Tag

namespace Page

open Delimiters Tag

variable {dialect : Dialect} {text : Bytes} {base next : State} {token : Token}

/-- The number of the names of elements. -/
def tagNameId : TokenId := globalId .tag Tag.Kind.tagName.id

/-- No delimiter of tags starts in a name. -/
theorem free_of_name (delimiters : Delimiters) (text : Bytes) :
    Free delimiters .tag text 0 (text.takeWhile Byte.isNameByte).length := by
  intro offset _ hlt
  have hprefix := List.takeWhile_prefix (l := text) Byte.isNameByte
  have hoffset : offset < text.length := Nat.lt_of_lt_of_le hlt hprefix.length_le
  have hname : Byte.isNameByte text[offset] = true := by
    rw [← hprefix.getElem hlt]
    exact List.all_eq_true.mp List.all_takeWhile _ (List.getElem_mem hlt)
  rw [List.drop_eq_getElem_cons hoffset]
  refine delimiter?_of_start (if_neg ?_)
  intro hless
  rw [hless] at hname
  exact absurd hname (by decide)

/-- Behind the opening symbol of an element its name is the next token. -/
theorem attempt_of_name {b : UInt8} {ahead : Bytes} (hb : Byte.isNameByte b = true)
    (h : (inFragment (opened base) .tagNameStart).Ready (b :: ahead)) :
    ∃ next, dialect.attempt (View.whole (b :: ahead)) (inFragment (opened base) .tagNameStart) =
      .ok (.step (.token ⟨tagNameId, ((b :: ahead).takeWhile Byte.isNameByte).length⟩ next)) := by
  obtain ⟨t, hopen, hstep⟩ := Tag.step_of_name hb ahead
  have hactive : (inFragment (opened base) .tagNameStart).active =
      .ok (.tag (Scan.atBoundary .tagNameStart)) := State.active_between rfl
  have hwhole : (Frame.tag (Scan.atBoundary .tagNameStart)).step (View.whole (b :: ahead)) =
      .ok (.token ⟨Kind.tagName.id, ((b :: ahead).takeWhile Byte.isNameByte).length⟩
        (.tag (Scan.atBoundary t))) := by
    rw [Frame.step, hstep]
    rfl
  exact ⟨_, attempt_of_clear h hactive hwhole (fun _ => free_of_name dialect.delimiters _) hopen⟩

/-- A word of a name is the first part of the name that is read there. -/
theorem isPrefix_takeWhile {word : Bytes} (hword : ∀ byte ∈ word, Byte.isNameByte byte = true)
    (h : word <+: text) : word <+: text.takeWhile Byte.isNameByte := by
  obtain ⟨rest, rfl⟩ := h
  rw [List.takeWhile_append_of_pos hword]
  exact List.prefix_append _ _

/-! ## How fragments begin -/

/-- The page is in its markup before the passage, and its token is read by the tag language or
leads into a fragment. -/
def Enters (passage : Passage State) : Prop :=
  passage.before.nesting = .host ∧
    (passage.after.nesting = .hostTag ∨ Owns .tag passage.token.id)

/-- The passages begin with a name of which `word` is the first part. -/
def StartsWithName (source word : Bytes) (passages : List (Passage State)) : Prop :=
  ∃ name rest, passages = name :: rest ∧ name.token.id = tagNameId ∧ word <+: name.span.text source

/-- The first token of a fragment, and of an element also the second, are as its opening is
spelled. -/
structure Begins (prefixes : List Bytes) (source : Bytes) (passage : Passage State)
    (rest : List (Passage State)) : Prop where
  /-- No other text opens a fragment. -/
  opens : OpensFragment prefixes (source.drop passage.start)
  comment : opener <+: source.drop passage.start → passage.token.id = commentId
  directive : [Byte.less, Byte.percent, Byte.commercialAt] <+: source.drop passage.start →
    passage.token = ⟨symbolId, 3⟩
  openingTag : ∀ candidate ∈ prefixes,
    [Byte.less] ++ candidate ++ [Byte.colon] <+: source.drop passage.start →
      passage.token = ⟨symbolId, 1⟩ ∧ StartsWithName source (candidate ++ [Byte.colon]) rest
  closingTag : ∀ candidate ∈ prefixes,
    [Byte.less, Byte.slash] ++ candidate ++ [Byte.colon] <+: source.drop passage.start →
      passage.token = ⟨symbolId, 2⟩ ∧ StartsWithName source (candidate ++ [Byte.colon]) rest

/-- The active language enters no fragment from markup. -/
theorem not_enters_of_active {passage : Passage State}
    (h : Delimits dialect.delimiters text passage.before passage.token passage.after ∨
      Scans dialect text passage.before passage.token passage.after) : ¬ Enters passage := by
  rintro ⟨hhost, henters⟩
  rcases h with hdelimits | hscans
  · rcases henters with hinside | howns
    · rcases hdelimits.nesting with ⟨-, henter⟩ | ⟨-, hleave⟩
      · rw [hhost, hinside] at henter
        cases henter
      · rw [hhost] at hleave
        cases hleave
    · exact howns.2 hdelimits.id
  · rcases henters with hinside | howns
    · rcases hscans.nesting with hsame | ⟨hinner, -⟩
      · rw [hsame, hhost] at hinside
        cases hinside
      · rw [hhost] at hinner
        cases hinner
    · have hactive := active_of_owns hscans howns
      rw [hhost] at hactive
      cases hactive

/-- A token is read by the active language, or a fragment is opened where it starts and it is the
first one in it. -/
theorem attempt_of_step (h : base.Ready text) (hne : text ≠ [])
    (hstep : dialect.step (View.whole text) base = .ok (.token token next)) :
    dialect.attempt (View.whole text) base = .ok (.step (.token token next)) ∧
        (Delimits dialect.delimiters text base token next ∨ Scans dialect text base token next) ∨
      base.nesting = .host ∧ dialect.delimiters.delimiter? .host text = some .enterTag ∧
        dialect.attempt (View.whole text) (opened base) = .ok (.step (.token token next)) := by
  obtain ⟨inner, hfrom, -, hreads⟩ := Dialect.exists_reads h hne hstep
  cases hfrom with
  | active hattempt => exact Or.inl ⟨hattempt, hreads⟩
  | opened hopened hattempt =>
      obtain ⟨start, hactive, -⟩ := State.exists_active_of_ready h
      have hpending := pending_of_ready dialect h hactive
      obtain ⟨rfl, hhost, hdelimiter⟩ := opened_of_attempt hpending hpending.prescan_le
        (List.length_pos_iff.mpr hne) hopened
      rw [List.take_length] at hdelimiter
      exact Or.inr ⟨hhost, hdelimiter, hattempt⟩

variable {source : Bytes} {final : State} {rest : List (Passage State)}

/-- Behind the opening symbol of an element its name is the next token, and it starts with whatever
word of a name the text does. -/
theorem startsWithName_of_path {offset : Nat} {word : Bytes} (hne : word ≠ [])
    (hword : ∀ byte ∈ word, Byte.isNameByte byte = true) (h : word <+: source.drop offset)
    (hready : (inFragment (opened base) .tagNameStart).Ready (source.drop offset))
    (hpath : dialect.grammar.Path source offset (inFragment (opened base) .tagNameStart) rest
      source.length final) : StartsWithName source word rest := by
  obtain ⟨b, more, rfl⟩ := List.exists_cons_of_ne_nil hne
  obtain ⟨behind, htext⟩ := h
  have htext : source.drop offset = b :: (more ++ behind) := htext.symm
  have hb : Byte.isNameByte b = true := hword b (List.mem_cons_self ..)
  have hname := isPrefix_takeWhile hword (show b :: more <+: b :: (more ++ behind) from
    List.prefix_append (b :: more) behind)
  cases hpath with
  | nil =>
      rw [List.drop_length] at htext
      cases htext
  | @cons _ _ _ next _ token passages hstep hrest =>
      rw [htext] at hready hstep
      obtain ⟨after, hattempt⟩ := @attempt_of_name dialect base b _ hb hready
      have htoken : dialect.step _ _ = _ := hstep
      rw [Dialect.step_of_attempt hattempt] at htoken
      cases htoken
      refine ⟨_, passages, rfl, rfl, ?_⟩
      have htake := List.prefix_iff_eq_take.mp
        (List.takeWhile_prefix (l := b :: (more ++ behind)) Byte.isNameByte)
      show b :: more <+: (source.drop offset).take
        ((b :: (more ++ behind)).takeWhile Byte.isNameByte).length
      rw [htext, ← htake]
      exact hname

/-- Behind the symbol of an opening the name starts with the prefix and its colon. -/
theorem startsWithName_of_opening (hvalid : dialect.delimiters.Validated) {start : Nat}
    {symbol candidate : Bytes} (hmem : candidate ∈ dialect.delimiters.prefixes)
    (h : symbol ++ candidate ++ [Byte.colon] <+: source.drop start)
    (hready : (inFragment (opened base) .tagNameStart).Ready
      (source.drop (start + symbol.length)))
    (hpath : dialect.grammar.Path source (start + symbol.length)
      (inFragment (opened base) .tagNameStart) rest source.length final) :
    StartsWithName source (candidate ++ [Byte.colon]) rest := by
  have hname : ∀ byte ∈ candidate ++ [Byte.colon], Byte.isNameByte byte = true := by
    intro byte hbyte
    rcases List.mem_append.mp hbyte with hbyte | hbyte
    · exact isNameByte_of_validated hvalid hmem byte hbyte
    · rw [List.mem_singleton.mp hbyte]
      decide
  have hword : candidate ++ [Byte.colon] <+: source.drop (start + symbol.length) := by
    have hdrop := h.drop symbol.length
    rwa [List.append_assoc, List.drop_left, List.drop_drop] at hdrop
  exact startsWithName_of_path (List.append_ne_nil_of_right_ne_nil _ nofun) hname hword hready hpath

/-- What is read in a fragment that was opened begins as its opening is spelled. -/
theorem begins_of_opened (hvalid : dialect.delimiters.Validated) {passage : Passage State}
    (hready : passage.before.Ready (source.drop passage.start))
    (hpath : dialect.grammar.Path source passage.start passage.before (passage :: rest)
      source.length final)
    (hattempt : dialect.attempt (View.whole (source.drop passage.start)) (opened passage.before) =
      .ok (.step (.token passage.token passage.after)))
    (hopens : OpensFragment dialect.delimiters.prefixes (source.drop passage.start)) :
    Begins dialect.delimiters.prefixes source passage rest := by
  rcases passage with ⟨start, before, token, after⟩
  cases hpath with
  | cons hstep hrest =>
      have hnext := (dialect.resumption.next_of_step hready hstep).2
      have hall : ∀ {word : Bytes}, word <+: source.drop start →
          word <+: (source.drop start).take (source.drop start).length := by
        intro word hword
        rwa [List.take_length]
      refine ⟨hopens, fun h => ?_, fun h => ?_, fun candidate hmem h => ?_,
        fun candidate hmem h => ?_⟩
      · obtain ⟨step, hcomment, -, hid⟩ := attempt_of_commentOpener dialect before (Nat.le_refl _)
          (fun _ => rfl) (hall h)
        cases hattempt.symm.trans hcomment
        exact hid _ _ rfl
      · cases hattempt.symm.trans (attempt_of_directive dialect before true (hall h))
        rfl
      · obtain ⟨byte, hbyte, hword⟩ := exists_nameByte_of_openingTag hvalid hmem h
        cases hattempt.symm.trans (attempt_of_openingTag dialect before true hbyte (hall hword))
        exact ⟨rfl, startsWithName_of_opening hvalid hmem h hnext hrest⟩
      · have hword : [Byte.less, Byte.slash] <+: source.drop start :=
          (List.prefix_append [_, _] _).trans h
        cases hattempt.symm.trans (attempt_of_closingTag dialect before true (hall hword))
        exact ⟨rfl, startsWithName_of_opening hvalid hmem h hnext hrest⟩

/-- The first token of a fragment is a comment or a symbol. -/
theorem Begins.id {prefixes : List Bytes} {passage : Passage State}
    (h : Begins prefixes source passage rest) :
    passage.token.id = commentId ∨ passage.token.id = symbolId := by
  cases h.opens with
  | comment hword => exact Or.inl (h.comment hword)
  | directive hword => exact Or.inr (by rw [h.directive hword])
  | openingTag hmem hword => exact Or.inr (by rw [(h.openingTag _ hmem hword).1])
  | closingTag hmem hword => exact Or.inr (by rw [(h.closingTag _ hmem hword).1])

/-- A fragment begins as its opening is spelled. -/
theorem begins_of_path (hvalid : dialect.delimiters.Validated) {passage : Passage State}
    (hready : passage.before.Ready (source.drop passage.start))
    (hpath : dialect.grammar.Path source passage.start passage.before (passage :: rest)
      source.length final) (henters : Enters passage) :
    Begins dialect.delimiters.prefixes source passage rest := by
  obtain ⟨-, hstep⟩ := dialect.resumption.step_of_mem hpath hready passage (List.mem_cons_self ..)
  have hne := dialect.resumption.ne_nil_of_step hready hstep
  obtain ⟨-, hdelimiter, hattempt⟩ := (attempt_of_step hready hne hstep).resolve_left
    (fun hactive => not_enters_of_active hactive.2 henters)
  rw [delimiter?_eq_spelled? (noSlash_of_validated hvalid)] at hdelimiter
  exact begins_of_opened hvalid hready hpath hattempt (opens_of_spelled? hdelimiter)

/-- Where markup comes upon an opening between two tokens, the fragment is entered. -/
theorem enters_of_opens (hswitching : dialect.switching = true)
    (hvalid : dialect.delimiters.Validated) {passage : Passage State}
    (hready : passage.before.Ready (source.drop passage.start))
    (hpath : dialect.grammar.Path source passage.start passage.before (passage :: rest)
      source.length final) (hhost : passage.before.nesting = .host)
    (hopens : OpensFragment dialect.delimiters.prefixes (source.drop passage.start)) :
    Enters passage := by
  obtain ⟨-, hstep⟩ := dialect.resumption.step_of_mem hpath hready passage (List.mem_cons_self ..)
  have hne := dialect.resumption.ne_nil_of_step hready hstep
  have hdelimiter := spelled?_of_opens hvalid hopens
  rw [← delimiter?_eq_spelled? (noSlash_of_validated hvalid)] at hdelimiter
  have hopened := (attempt_of_enterTag hswitching hready hhost hdelimiter).1
  obtain ⟨-, -, hattempt⟩ := (attempt_of_step hready hne hstep).resolve_left
    (fun hactive => by cases hopened.symm.trans hactive.1)
  refine ⟨hhost, Or.inr ?_⟩
  rcases (begins_of_opened hvalid hready hpath hattempt hopens).id with hid | hid
  · rw [hid]
    exact owns_tag nofun
  · rw [hid]
    exact owns_tag nofun

/-! ## Inside a fragment -/

/-- A token is no longer than what the active language finds, unless it is a delimiter. -/
theorem len_le_of_attempt {start after : Frame} {found : Token} (h : base.Ready text)
    (hactive : base.active = .ok start)
    (hwhole : start.step (View.whole text) = .ok (.token found after))
    (hattempt : dialect.attempt (View.whole text) base = .ok (.step (.token token next)))
    (hid : token.id ≠ delimiterId) : token.len ≤ found.len := by
  have hne : text ≠ [] := dialect.resumption.ne_nil_of_step h (Dialect.step_of_attempt hattempt)
  cases endsIn_of_attempt h hne hactive hattempt hid with
  | whole hstep _ heq =>
      rw [hwhole] at hstep
      cases hstep
      rw [heq]
  | cut hstep _ hlt =>
      rw [hwhole] at hstep
      cases hstep
      exact Nat.le_of_lt hlt

/-- Where the tag language is active, its scan is what the state keeps of it. -/
theorem exists_tag_of_active (h : base.Ready text) (hactive : base.nesting.active = .tag) :
    ∃ s, base.tag = some (Scan.atBoundary s) ∧
      base.active = .ok (.tag (Scan.atBoundary s)) := by
  obtain ⟨start, hstart, hready, -, hlanguage⟩ := State.exists_active_of_ready h
  have hframe := State.frame?_of_active hstart
  rw [hactive] at hframe hlanguage
  cases start with
  | host scan => cases hlanguage
  | script scan => cases hlanguage
  | tag scan =>
      obtain ⟨kept, hkept, heq⟩ := Option.map_eq_some_iff.mp hframe
      cases heq
      have hscan : Scan.atBoundary scan.state = scan :=
        Scan.atBoundary_state (Frame.read_of_ready hready)
      exact ⟨scan.state, by rw [hscan]; exact hkept, by rw [hscan]; exact hstart⟩

/-- Every byte of the token is read by the tag language inside a fragment. -/
def ReadInside (source : Bytes) (passage : Passage State) : Prop :=
  ∃ s, passage.before.tag = some (Scan.atBoundary s) ∧ ∀ n < passage.token.len, ∃ t,
    Scan.run s 0 n (source.drop passage.start) = (⟨t, n⟩, .window) ∧ Tag.isInside t = true

/-- What the active tag language reads is read inside the fragment. -/
theorem readInside_of_attempt {passage : Passage State}
    (h : passage.before.Ready (source.drop passage.start)) (hencloses : passage.before.Encloses)
    (hactive : passage.before.nesting.active = .tag) (hne : source.drop passage.start ≠ [])
    (hattempt : dialect.attempt (View.whole (source.drop passage.start)) passage.before =
      .ok (.step (.token passage.token passage.after)))
    (hid : passage.token.id ≠ delimiterId) : ReadInside source passage := by
  obtain ⟨s, htag, hstart⟩ := exists_tag_of_active h hactive
  refine ⟨s, htag, fun n hlt => ?_⟩
  have hready := (h.of_active hstart).1
  obtain ⟨found, after, hwhole, hlen⟩ := exists_token hready (List.length_pos_iff.mpr hne)
  have hle := len_le_of_attempt h hstart hwhole hattempt hid
  obtain ⟨held, hheld, -, hread⟩ := @exists_held _ _ hready _ _ hwhole n (by omega) (by omega)
  obtain ⟨scan, hscan, rfl⟩ := Step.exists_of_map_hold hheld
  have hrun := Scan.run_of_hold hscan
  have hinside := Tag.isInside_of_hold hscan (hencloses _ htag)
  rcases scan with ⟨t, read⟩
  cases hread
  exact ⟨t, hrun, hinside⟩

/-- An error of the tag language is one inside a fragment: at its start the tag language reads an
opening symbol or a comment. -/
theorem readInside_of_error (hvalid : dialect.delimiters.Validated) {passage : Passage State}
    (hready : passage.before.Ready (source.drop passage.start))
    (hencloses : passage.before.Encloses)
    (hpath : dialect.grammar.Path source passage.start passage.before (passage :: rest)
      source.length final)
    (herror : passage.token.id = globalId .tag Kind.error.id) : ReadInside source passage := by
  have howns : Owns .tag passage.token.id := by
    rw [herror]
    exact owns_tag nofun
  obtain ⟨-, hstep⟩ := dialect.resumption.step_of_mem hpath hready passage (List.mem_cons_self ..)
  have hne := dialect.resumption.ne_nil_of_step hready hstep
  rcases attempt_of_step hready hne hstep with ⟨hattempt, hreads⟩ | ⟨hhost, -, -⟩
  · have hactive : passage.before.nesting.active = .tag := by
      rcases hreads with hdelimits | hscans
      · exact absurd hdelimits.id howns.2
      · exact active_of_owns hscans howns
    exact readInside_of_attempt hready hencloses hactive hne hattempt howns.2
  · -- The first token of a fragment is no error.
    have hbegins := begins_of_path hvalid hready hpath ⟨hhost, Or.inr howns⟩
    rcases hbegins.id with hid | hid
    · exact absurd (herror.symm.trans hid) (by decide)
    · exact absurd (herror.symm.trans hid) (by decide)

/-! ## Steps -/

/-- A step in any window leaves the tag language inside its fragment. -/
theorem encloses_of_step (hvalid : dialect.delimiters.Validated) {state : State}
    {step : Step State} (room : Nat) (last : Bool) (h : Dialect.Resumes dialect text base state)
    (hencloses : state.Encloses) (hprescan : state.prescan ≤ room) (hroom : room ≤ text.length)
    (hlast : last = true → room = text.length)
    (hstep : dialect.step ⟨text, room, last⟩ state = .ok step) : step.state.Encloses := by
  obtain ⟨inner, start, frame, hpending, -, -⟩ := h.pending
  have hattempted : ∀ {result}, dialect.attempt ⟨text, room, last⟩ state = .ok (.step result) →
      step.state.Encloses := by
    intro result hattempt
    rw [Dialect.step_of_attempt hattempt] at hstep
    cases hstep
    exact encloses_of_attempt hencloses hattempt
  rcases attempt_of_pending hpending hprescan hroom hlast with
    ⟨held, frame', hattempt, -⟩ | ⟨outcome, hattempt, -, hadvances⟩
  · exact hattempted hattempt
  · cases outcome with
    | step result => exact hattempted hattempt
    | opened within =>
        -- The window tells the opening, so it also holds what the tag language reads first.
        obtain ⟨rfl, -, hdelimiter⟩ := opened_of_attempt hpending hprescan hadvances.1 hattempt
        rw [delimiter?_eq_spelled? (noSlash_of_validated hvalid)] at hdelimiter
        obtain ⟨result, hopened, hinside⟩ := exists_attempt_of_opens dialect hvalid state hroom hlast
          (opens_of_spelled? hdelimiter)
        rw [Dialect.step_of_opened hattempt, Dialect.step_of_attempt hopened] at hstep
        cases hstep
        exact hinside

/-- While a fragment is open, the tag language is kept and stands inside it. -/
def State.Enclosed (state : State) : Prop :=
  state.nesting.isLive .tag = true →
    ∃ scan, state.tag = some scan ∧ Tag.isInside scan.state = true

theorem State.Encloses.enclosed {state : State} (h : state.Encloses)
    (hlive : state.tag.isSome = state.nesting.isLive .tag) : state.Enclosed := by
  intro htag
  rw [← hlive] at htag
  obtain ⟨scan, hscan⟩ := Option.isSome_iff_exists.mp htag
  exact ⟨scan, hscan, h scan hscan⟩

theorem enclosed_of_ready (h : base.Ready text) (hencloses : base.Encloses) : base.Enclosed := by
  refine hencloses.enclosed ?_
  rw [← h.live .tag, State.frame?, Option.isSome_map]

/-- How the fragments of a page are read. -/
structure FragmentsEnclosed (dialect : Dialect) (source : Bytes) (passages : List (Passage State)) :
    Prop where
  begins : ∀ front passage rest, passages = front ++ passage :: rest → Enters passage →
    Begins dialect.delimiters.prefixes source passage rest
  /-- Every opening that a page comes upon in its markup is one. -/
  entered : dialect.switching = true → ∀ passage ∈ passages, passage.before.nesting = .host →
    OpensFragment dialect.delimiters.prefixes (source.drop passage.start) → Enters passage
  /-- Between two tokens the tag language stands inside the fragment that is open. -/
  between : ∀ passage ∈ passages, passage.before.Enclosed ∧ passage.after.Enclosed
  /-- So it does in every state that a session comes upon. -/
  stored : ∀ turns, ∃ answers, dialect.grammar.drive source turns = .ok answers ∧
    ∀ answer ∈ answers, answer.reader.store.Enclosed
  /-- No error of the tag language is one outside a fragment. -/
  errors : ∀ passage ∈ passages, passage.token.id = globalId .tag Kind.error.id →
    ReadInside source passage

end Page

namespace Dialect

open Page

variable {dialect : Dialect}

/-- No state of a page has the tag language before its fragment. -/
def enclosing (dialect : Dialect) (hvalid : dialect.delimiters.Validated) :
    dialect.grammar.Resumption :=
  dialect.resumption.keeping State.Encloses encloses_initial (encloses_of_step hvalid)

/-- The fragments of a page, if the tag prefixes were validated. -/
theorem exists_fragmentsEnclosed (hvalid : dialect.delimiters.Validated) (source : Bytes) :
    ∃ passages, dialect.grammar.Lexes source passages ∧
      FragmentsEnclosed dialect source passages := by
  obtain ⟨passages, final, hlexes, hpath, -⟩ := (dialect.enclosing hvalid).exists_lexes source
  have hinitial := (dialect.enclosing hvalid).initial (source.drop 0)
  have hsuffix : ∀ front passage rest, passages = front ++ passage :: rest →
      passage.before.Ready (source.drop passage.start) ∧ passage.before.Encloses ∧
        dialect.grammar.Path source passage.start passage.before (passage :: rest) source.length
          final := by
    rintro front passage rest rfl
    obtain ⟨hfront, hrest⟩ := hpath.at_passage
    obtain ⟨hready, hencloses⟩ := ((dialect.enclosing hvalid).ready_of_path hfront hinitial).1
    exact ⟨hready, hencloses, hrest⟩
  refine ⟨passages, hlexes, ?_, ?_, ?_, ?_, ?_⟩
  · intro front passage rest hsplit henters
    obtain ⟨hready, -, hrest⟩ := hsuffix front passage rest hsplit
    exact begins_of_path hvalid hready hrest henters
  · intro hswitching passage hmem hhost hopens
    obtain ⟨front, rest, hsplit⟩ := List.append_of_mem hmem
    obtain ⟨hready, -, hrest⟩ := hsuffix front passage rest hsplit
    exact enters_of_opens hswitching hvalid hready hrest hhost hopens
  · intro passage hmem
    obtain ⟨hbefore, hstep⟩ := (dialect.enclosing hvalid).step_of_mem hpath hinitial passage hmem
    have hafter := ((dialect.enclosing hvalid).next_of_step hbefore hstep).2
    exact ⟨enclosed_of_ready hbefore.1 hbefore.2, enclosed_of_ready hafter.1 hafter.2⟩
  · intro turns
    obtain ⟨answers, hdrive, hall⟩ := (dialect.enclosing hvalid).pending_of_drive source turns
    refine ⟨answers, hdrive, fun answer hmem => ?_⟩
    obtain ⟨text, base, hresumes, -, hencloses⟩ := hall answer hmem
    obtain ⟨inner, start, frame, hpending, -, -⟩ := Resumes.pending hresumes
    exact State.Encloses.enclosed hencloses (consistent_of_pending hpending).tag
  · intro passage hmem herror
    obtain ⟨front, rest, hsplit⟩ := List.append_of_mem hmem
    obtain ⟨hready, hencloses, hrest⟩ := hsuffix front passage rest hsplit
    exact readInside_of_error hvalid hready hencloses hrest herror

end Dialect

namespace Settings

variable {settings : Settings}

/-- Valid settings have a dialect, with their prefixes. -/
theorem exists_dialect (h : settings.validate = .ok ()) :
    ∃ dialect, settings.dialect = .ok dialect ∧
      dialect.delimiters.prefixes = settings.prefixBytes ∧ dialect.delimiters.Validated := by
  obtain ⟨delimiters, hdelimiters, hprefixes⟩ := exists_delimiters h
  exact ⟨Dialect.ofVariant settings.variant delimiters, by rw [dialect, hdelimiters]; rfl,
    hprefixes, Delimiters.validated_of_settings hdelimiters⟩

/-- With valid settings every fragment of a page begins as its opening is spelled, and from then on
the tag language stands inside it. -/
theorem fragments_enclosed (h : settings.validate = .ok ()) :
    ∃ dialect, settings.dialect = .ok dialect ∧
      dialect.delimiters.prefixes = settings.prefixBytes ∧
      ∀ source, ∃ passages, dialect.grammar.Lexes source passages ∧
        Page.FragmentsEnclosed dialect source passages := by
  obtain ⟨dialect, hdialect, hprefixes, hvalid⟩ := exists_dialect h
  exact ⟨dialect, hdialect, hprefixes, Dialect.exists_fragmentsEnclosed hvalid⟩

/-- So it is with the default settings, for an element with a script and an error in it. -/
theorem default_fragments_enclosed :
    default.validate = .ok () ∧
      ((Dialect.default.grammar.lexWhole (Bytes.ofString "</tpl:a.b '<%=c%>")).map
        Prod.fst).toOption = some [⟨Page.symbolId, 2⟩, ⟨Page.tagNameId, 7⟩, ⟨19, 1⟩, ⟨21, 1⟩,
          ⟨15, 3⟩, ⟨25, 1⟩, ⟨15, 2⟩] ∧
      ∃ passages, Dialect.default.grammar.Lexes (Bytes.ofString "</tpl:a.b '<%=c%>") passages ∧
        Page.FragmentsEnclosed Dialect.default (Bytes.ofString "</tpl:a.b '<%=c%>") passages := by
  refine ⟨by decide, by decide +kernel, ?_⟩
  obtain ⟨dialect, hdialect, -, hall⟩ := fragments_enclosed (by decide : default.validate = .ok ())
  cases (show default.dialect = .ok Dialect.default from rfl).symm.trans hdialect
  exact hall (Bytes.ofString "</tpl:a.b '<%=c%>")

end Settings

end PageLexing
