import PageLexing.Page.Search
import PageLexing.Proofs.Probing

/-!
# What a search finds

`Delimiters.delimiter?` says which delimiter starts a text, if one does, when all of the
text is known. A search through a window finds the first place at which one starts, or
comes upon a place at which the window leaves that open, or excludes all places that it
was asked about. Whatever it says is so in the whole text, so searches in windows of
different sizes agree.

## Main results

* `test_spec` — a window that decides about a delimiter decides as the whole text does.
* `test_of_probes` — a stored probe goes on as if there had been one window.
* `sound_searchFrom` — what a search says of the whole text.
* `First.unique` — a text has at most one first delimiter.
-/

namespace PageLexing

/-! ## Delimiters at the start of a text -/

namespace Delimiters

variable (delimiters : Delimiters)

/-- What a window of `room` bytes says of a delimiter at the start of a text. -/
def test (language : Language) (last : Bool) (room : Nat) : Bytes → Except Fault Verdict
  | [] => .ok .rejected
  | byte :: ahead =>
      match start language byte with
      | none => .ok .rejected
      | some probe => delimiters.follow last probe (room - 1) ahead

/-- What a confirmed delimiter switches to. -/
def confirmed? : Except Fault Verdict → Option Switch
  | .ok (.confirmed switch) => some switch
  | _ => none

@[simp] theorem confirmed?_confirmed (switch : Switch) :
    confirmed? (.ok (.confirmed switch)) = some switch := rfl

@[simp] theorem confirmed?_rejected : confirmed? (.ok .rejected) = none := rfl

/-- The delimiter of `language` with which a text starts, and what it switches to. -/
def delimiter? (language : Language) (text : Bytes) : Option Switch :=
  confirmed? (delimiters.test language true text.length text)

/-- After `read` bytes of a text a probe for a delimiter at its start is undecided. -/
structure Probes (language : Language) (text : Bytes) (read : Nat) (probe : Probe) :
    Prop where
  pos : 0 < read
  le : read ≤ text.length
  test : delimiters.test language false read text = .ok (.undecided probe)

variable {delimiters}

/-- A window with at least one byte says something of the delimiter. -/
theorem test_sound (delimiters : Delimiters) (language : Language) {text : Bytes} {room : Nat}
    (last : Bool)
    (hpos : 0 < room) (hroom : room ≤ text.length) :
    ∃ verdict, delimiters.test language last room text = .ok verdict ∧
      verdict.Sound delimiters language (text.take room) ∧
      ∀ next, verdict = .undecided next → last = false := by
  cases text with
  | nil => simp at hroom; omega
  | cons byte ahead =>
      simp only [test]
      cases hstart : start language byte with
      | none => exact ⟨.rejected, rfl, trivial, by simp⟩
      | some probe =>
          obtain ⟨hmatches, hlanguage⟩ := matches_of_start delimiters hstart
          have hahead : room - 1 ≤ ahead.length := by
            simp only [List.length_cons] at hroom
            omega
          obtain ⟨verdict, hfollow, hsound, hlast⟩ := follow_of_matches hmatches last hahead
          refine ⟨verdict, hfollow, ?_, hlast⟩
          obtain ⟨rest, rfl⟩ : ∃ rest, room = rest + 1 := ⟨room - 1, by omega⟩
          rw [hlanguage] at hsound
          exact hsound

/-- A decided verdict is the same in every larger window. -/
theorem test_of_le {language : Language} {text : Bytes} {room more : Nat} {verdict : Verdict}
    (h : delimiters.test language false room text = .ok verdict)
    (hfinal : ∀ next, verdict ≠ .undecided next) (hle : room ≤ more) (last : Bool) :
    delimiters.test language last more text = .ok verdict := by
  cases text with
  | nil => exact h
  | cons byte ahead =>
      simp only [test] at h ⊢
      cases hstart : start language byte with
      | none =>
          rw [hstart] at h
          exact h
      | some probe =>
          rw [hstart] at h
          exact follow_of_le h hfinal (by omega) last

/-- A stored probe goes on as if there had been one window. -/
theorem test_of_probes {language : Language} {text : Bytes} {read : Nat} {probe : Probe}
    (h : delimiters.Probes language text read probe) {room : Nat} (hroom : read ≤ room)
    (last : Bool) :
    delimiters.test language last room text =
      delimiters.follow last probe (room - read) (text.drop read) := by
  have htest := h.test
  have hpos := h.pos
  have hle := h.le
  cases text with
  | nil => simp [test] at htest
  | cons byte ahead =>
      simp only [test] at htest ⊢
      cases hstart : start language byte with
      | none => simp [hstart] at htest
      | some first =>
          rw [hstart] at htest
          simp only [List.length_cons] at hle
          have := follow_append (room - read) htest (by omega) last
          rw [show read - 1 + (room - read) = room - 1 by omega] at this
          rw [show read = read - 1 + 1 by omega, List.drop_succ_cons]
          rw [show read - 1 + 1 = read by omega]
          exact this

/-- A stored probe has the bytes that it was fed. -/
theorem matches_of_probes {language : Language} {text : Bytes} {read : Nat} {probe : Probe}
    (h : delimiters.Probes language text read probe) :
    probe.Matches delimiters (text.take read) ∧ probe.language = language := by
  obtain ⟨verdict, htest, hsound, -⟩ := test_sound delimiters language false h.pos h.le
  rw [h.test] at htest
  cases htest
  exact hsound

/-- A stored probe knows how far it came. -/
theorem consumed_of_probes {language : Language} {text : Bytes} {read : Nat} {probe : Probe}
    (h : delimiters.Probes language text read probe) : probe.consumed = read := by
  rw [consumed_of_matches (matches_of_probes h).1, List.length_take, Nat.min_eq_left h.le]

/-- What a verdict in a window of `room` bytes says of the whole text. -/
def Decides (delimiters : Delimiters) (language : Language) (text : Bytes) (room : Nat)
    (last : Bool) : Verdict → Prop
  | .confirmed switch =>
      delimiters.delimiter? language text = some switch ∧ switch.Suits language room
  | .rejected => delimiters.delimiter? language text = none
  | .undecided probe => last = false ∧ delimiters.Probes language text room probe

/-- A window that decides about a delimiter decides as the whole text does. -/
theorem test_spec (delimiters : Delimiters) (language : Language) (text : Bytes) (room : Nat)
    (last : Bool)
    (hpos : 0 < room) (hroom : room ≤ text.length)
    (hlast : last = true → room = text.length) :
    ∃ verdict, delimiters.test language last room text = .ok verdict ∧
      Decides delimiters language text room last verdict := by
  obtain ⟨verdict, htest, hsound, hopen⟩ := test_sound delimiters language last hpos hroom
  refine ⟨verdict, htest, ?_⟩
  have hwhole : (∀ next, verdict ≠ .undecided next) →
      delimiters.test language true text.length text = .ok verdict := by
    intro hfinal
    cases last with
    | true => rwa [← hlast rfl]
    | false => exact test_of_le htest hfinal hroom true
  cases verdict with
  | confirmed switch =>
      have hlen : (text.take room).length = room := by
        rw [List.length_take, Nat.min_eq_left hroom]
      refine ⟨?_, hlen ▸ hsound⟩
      rw [delimiter?, hwhole (by simp), confirmed?_confirmed]
  | rejected =>
      show delimiters.delimiter? language text = none
      rw [delimiter?, hwhole (by simp), confirmed?_rejected]
  | undecided probe =>
      have hfalse : last = false := hopen probe rfl
      exact ⟨hfalse, hpos, hroom, hfalse ▸ htest⟩

/-- No delimiter starts with a byte that starts no probe. -/
theorem delimiter?_of_start {language : Language} {byte : UInt8} {ahead : Bytes}
    (h : start language byte = none) :
    delimiters.delimiter? language (byte :: ahead) = none := by
  simp [delimiter?, test, h]

/-- No delimiter starts with a newline. -/
theorem start_newline (language : Language) : start language Byte.newline = none := by
  cases language <;> rfl

/-- Where a delimiter starts, the text goes on with a byte other than a newline. -/
theorem head_of_delimiter? {language : Language} {text : Bytes} {switch : Switch}
    (h : delimiters.delimiter? language text = some switch) :
    ∃ byte ahead, text = byte :: ahead ∧ byte ≠ Byte.newline := by
  cases text with
  | nil => cases h
  | cons byte ahead =>
      refine ⟨byte, ahead, rfl, ?_⟩
      rintro rfl
      rw [delimiter?_of_start (start_newline language)] at h
      cases h

end Delimiters

/-! ## Searches -/

namespace Page

open Delimiters

variable {delimiters : Delimiters}

/-- No delimiter of `language` starts in `text` at an offset from `lo` up to `hi`. -/
def Free (delimiters : Delimiters) (language : Language) (text : Bytes) (lo hi : Nat) :
    Prop :=
  ∀ offset, lo ≤ offset → offset < hi →
    delimiters.delimiter? language (text.drop offset) = none

theorem free_self (language : Language) (text : Bytes) (lo : Nat) :
    Free delimiters language text lo lo := by
  intro offset hlo hhi
  omega

theorem Free.append {language : Language} {text : Bytes} {lo mid hi : Nat}
    (h : Free delimiters language text lo mid) (h' : Free delimiters language text mid hi) :
    Free delimiters language text lo hi := by
  intro offset hlo hhi
  by_cases hmid : offset < mid
  · exact h offset hlo hmid
  · exact h' offset (by omega) hhi

/-- The first delimiter of `language` in `text` at an offset from `lo` on. -/
structure First (delimiters : Delimiters) (language : Language) (text : Bytes)
    (lo offset : Nat) (switch : Switch) : Prop where
  le : lo ≤ offset
  free : Free delimiters language text lo offset
  starts : delimiters.delimiter? language (text.drop offset) = some switch

/-- What a search from `lo` up to `stop` in a window of `room` bytes says of the text. -/
def Finding.Sound (delimiters : Delimiters) (language : Language) (text : Bytes) (room : Nat)
    (last : Bool) (lo stop : Nat) : Finding → Prop
  | .clear => Free delimiters language text lo stop
  | .switch offset found =>
      First delimiters language text lo offset found ∧ offset < stop ∧
        found.Suits language (room - offset)
  | .suspend offset probe =>
      last = false ∧ lo ≤ offset ∧ offset < stop ∧
        Free delimiters language text lo offset ∧
        delimiters.Probes language (text.drop offset) (room - offset) probe

/-- A search that starts after bytes at which no delimiter starts may as well start before
them. -/
theorem Finding.Sound.extend {language : Language} {text : Bytes} {room : Nat} {last : Bool}
    {lo mid stop : Nat} {finding : Finding}
    (hfree : Free delimiters language text lo mid) (hle : lo ≤ mid)
    (h : finding.Sound delimiters language text room last mid stop) :
    finding.Sound delimiters language text room last lo stop := by
  cases finding with
  | clear => exact hfree.append h
  | «switch» offset switch =>
      obtain ⟨hfirst, hstop, hsuits⟩ := h
      exact ⟨⟨Nat.le_trans hle hfirst.le, hfree.append hfirst.free, hfirst.starts⟩, hstop,
        hsuits⟩
  | suspend offset probe =>
      obtain ⟨hlast, hlo, hstop, hmid, hprobes⟩ := h
      exact ⟨hlast, Nat.le_trans hle hlo, hstop, hfree.append hmid, hprobes⟩

/-- One place of a search: what is found there, or the search of the places behind it. -/
theorem search_succ {language : Language} {last : Bool} {offset span room : Nat}
    {byte : UInt8} {ahead : Bytes} :
    search delimiters language last offset (span + 1) room (byte :: ahead) = (do
      match ← delimiters.test language last room (byte :: ahead) with
      | .confirmed switch => .ok (.switch offset switch)
      | .undecided probe => .ok (.suspend offset probe)
      | .rejected => search delimiters language last (offset + 1) span (room - 1) ahead) := by
  simp only [search, test]
  cases start language byte with
  | none => rfl
  | some probe => rfl

variable {language : Language} {text : Bytes} {room : Nat} {last : Bool}

/-- A search never fails, and what it says is so in the whole text. -/
theorem sound_search (delimiters : Delimiters) (language : Language)
    (hroom : room ≤ text.length) (hlast : last = true → room = text.length)
    (span lo : Nat) (hspan : lo + span ≤ room) :
    ∃ finding,
      search delimiters language last lo span (room - lo) (text.drop lo) = .ok finding ∧
        finding.Sound delimiters language text room last lo (lo + span) := by
  induction span generalizing lo with
  | zero => exact ⟨.clear, by simp [search], free_self language text lo⟩
  | succ span ih =>
      have hlen : (text.drop lo).length = text.length - lo := List.length_drop
      obtain ⟨byte, ahead, hcons⟩ : ∃ byte ahead, text.drop lo = byte :: ahead := by
        cases hdrop : text.drop lo with
        | nil =>
            rw [hdrop] at hlen
            simp only [List.length_nil] at hlen
            omega
        | cons byte ahead => exact ⟨byte, ahead, rfl⟩
      have hahead : ahead = text.drop (lo + 1) := by
        rw [← List.drop_drop, hcons]
        rfl
      obtain ⟨verdict, htest, hdecides⟩ := test_spec delimiters language
        (text.drop lo) (room - lo) last (by omega) (by omega) (fun h => by rw [hlen, hlast h])
      rw [hcons, search_succ, ← hcons, htest]
      cases verdict with
      | confirmed switch =>
          exact ⟨_, rfl, ⟨Nat.le_refl lo, free_self language text lo, hdecides.1⟩,
            by omega, hdecides.2⟩
      | undecided probe =>
          exact ⟨_, rfl, hdecides.1, Nat.le_refl lo, by omega, free_self language text lo,
            hdecides.2⟩
      | rejected =>
          obtain ⟨finding, hsearch, hsound⟩ := ih (lo + 1) (by omega)
          rw [show lo + 1 + span = lo + (span + 1) by omega] at hsound
          refine ⟨finding, ?_, hsound.extend ?_ (Nat.le_succ lo)⟩
          · rw [hahead, show room - lo - 1 = room - (lo + 1) by omega]
            exact hsearch
          · intro offset hlo hhi
            rw [show offset = lo by omega]
            exact hdecides

/-- What a search of a window says of the whole text. -/
theorem sound_searchFrom (delimiters : Delimiters) (language : Language)
    (hroom : room ≤ text.length) (hlast : last = true → room = text.length) (lo : Nat)
    {stop : Nat} (hstop : stop ≤ room) :
    ∃ finding, searchFrom delimiters language ⟨text, room, last⟩ lo stop = .ok finding ∧
      finding.Sound delimiters language text room last lo stop := by
  by_cases hle : lo ≤ stop
  · obtain ⟨finding, hsearch, hsound⟩ := sound_search delimiters language hroom hlast
      (stop - lo) lo (by omega)
    rw [show lo + (stop - lo) = stop by omega] at hsound
    exact ⟨finding, hsearch, hsound⟩
  · refine ⟨.clear, ?_, ?_⟩
    · rw [searchFrom, show stop - lo = 0 by omega]
      simp [search]
    · intro offset hlo hhi
      omega

/-- What a search says that goes on with a stored probe. -/
theorem sound_resume (hroom : room ≤ text.length)
    (hlast : last = true → room = text.length) {lo stop read : Nat} {probe : Probe}
    (hprobes : delimiters.Probes language (text.drop lo) (read - lo) probe)
    (hread : read ≤ room) (hstop : stop ≤ room) (hlo : lo < stop) :
    ∃ finding,
      (do
        match ← delimiters.follow last probe (room - read) (text.drop read) with
        | .confirmed switch => .ok (.switch lo switch)
        | .undecided probe => .ok (.suspend lo probe)
        | .rejected => searchFrom delimiters language ⟨text, room, last⟩ (lo + 1) stop) =
          Except.ok finding ∧
        finding.Sound delimiters language text room last lo stop := by
  have hlen : (text.drop lo).length = text.length - lo := List.length_drop
  have hpos := hprobes.pos
  obtain ⟨verdict, htest, hdecides⟩ := test_spec delimiters language (text.drop lo)
    (room - lo) last (by omega) (by omega) (fun h => by rw [hlen, hlast h])
  rw [test_of_probes hprobes (by omega), List.drop_drop,
    show room - lo - (read - lo) = room - read by omega,
    show lo + (read - lo) = read by omega] at htest
  rw [htest]
  cases verdict with
  | confirmed switch =>
      exact ⟨_, rfl, ⟨Nat.le_refl lo, free_self language text lo, hdecides.1⟩, hlo,
        hdecides.2⟩
  | undecided probe =>
      exact ⟨_, rfl, hdecides.1, Nat.le_refl lo, hlo, free_self language text lo,
        hdecides.2⟩
  | rejected =>
      obtain ⟨finding, hsearch, hsound⟩ := sound_searchFrom delimiters language
        hroom hlast (lo + 1) hstop
      refine ⟨finding, hsearch, hsound.extend ?_ (Nat.le_succ lo)⟩
      intro offset hle hlt
      rw [show offset = lo by omega]
      exact hdecides

/-! ## Agreement -/

/-- A text has at most one first delimiter. -/
theorem First.unique {lo offset offset' : Nat} {switch switch' : Switch}
    (h : First delimiters language text lo offset switch)
    (h' : First delimiters language text lo offset' switch') :
    offset = offset' ∧ switch = switch' := by
  have heq : offset = offset' := by
    rcases Nat.lt_trichotomy offset offset' with hlt | heq | hlt
    · have := h'.free offset h.le hlt
      rw [h.starts] at this
      cases this
    · exact heq
    · have := h.free offset' h'.le hlt
      rw [h'.starts] at this
      cases this
  subst heq
  have hstarts := h.starts
  rw [h'.starts] at hstarts
  exact ⟨rfl, (Option.some.inj hstarts).symm⟩

end Page

end PageLexing
