import Mathlib.Data.List.DropRight
import PageLexing.Proofs.Relocation

/-!
# What has to be kept between windows

At the end of a window the bytes of the pending token have to be kept for the next one. They
may be more than an unfinished token of the active language has, because a probe may have read
on behind it. Still all of them lie on the line on which the window ends: a newline ends every
token, and no delimiter has one. So it is enough to keep this line, and a reader of which
nothing else is left in the buffer answers what a reader of the whole text does.

## Main results

* `Bytes.suffix_openLine` — bytes without a newline at the end of a text lie on its last line.
* `Dialect.exists_line_loads` — the state goes on over the last line as over the whole text.
* `Dialect.pending_on_openLine` — what a session over a page has to keep.
-/

namespace PageLexing

/-! ## The last line of a text -/

namespace Bytes

/-- The bytes behind the last newline. -/
def openLine (bytes : Bytes) : Bytes := bytes.rtakeWhile (fun byte => byte ≠ Byte.newline)

theorem openLine_suffix (bytes : Bytes) : openLine bytes <:+ bytes :=
  List.rtakeWhile_suffix _ _

/-- Bytes without a newline at the end of a text lie on its last line. -/
theorem suffix_openLine {kept bytes : Bytes} (hkept : kept <:+ bytes)
    (hline : Byte.newline ∉ kept) : kept <:+ openLine bytes := by
  obtain ⟨before, rfl⟩ := hkept
  have hall : ∀ byte ∈ kept.reverse, decide (byte ≠ Byte.newline) = true := by
    intro byte hmem
    rw [List.mem_reverse] at hmem
    exact decide_eq_true fun heq => hline (heq ▸ hmem)
  refine ⟨openLine before, ?_⟩
  rw [openLine, openLine, List.rtakeWhile, List.rtakeWhile, List.reverse_append,
    List.takeWhile_append_of_pos hall, List.reverse_append, List.reverse_reverse]

/-- A part of a text stands behind what is put before the text. -/
theorem slice_append_left (before bytes : Bytes) (start stop : Nat) :
    (before ++ bytes).slice (before.length + start) (before.length + stop) =
      bytes.slice start stop := by
  rw [slice, slice, List.take_length_add_append, List.drop_length_add_append]

end Bytes

/-! ## Pending bytes -/

/-- The line of `source` on which the window of a reader ends, as far as the window goes. -/
def Reader.openLine {σ : Type} (source : Bytes) (reader : Reader σ) : Bytes :=
  Bytes.openLine (source.take reader.stop)

/-- What is pending in a reader of `source` reaches to the end of its window and lies on the
line on which the window ends. -/
structure Reader.PendsOnLine (source : Bytes) (reader : Reader Page.State) : Prop where
  ends : reader.offset + reader.store.prescan = reader.stop
  newline : Byte.newline ∉
    source.slice reader.offset (reader.offset + reader.store.prescan)
  kept : source.slice reader.offset reader.stop <:+ reader.openLine source

namespace Dialect

open Page

variable {dialect : Dialect} {source : Bytes}

/-- A window that is read to its end leaves pending bytes of its last line only. -/
theorem pendsOnLine_of_answered (hvalid : dialect.delimiters.Validated)
    {answer : Answer State} (h : Reader.Answered dialect.resumption source answer)
    (hnone : answer.token = none) : answer.reader.PendsOnLine source := by
  obtain ⟨passages, base, hstanding⟩ := h.standing
  obtain ⟨inner, start, frame, hpending, -, -⟩ := Resumes.pending hstanding.pending
  have hends : answer.reader.offset + answer.reader.store.prescan = answer.reader.stop := by
    have hcursor := (h.ended hnone).1
    rwa [Reader.cursor, hstanding.grammar_eq] at hcursor
  have hnewline : Byte.newline ∉
      source.slice answer.reader.offset (answer.reader.offset + answer.reader.store.prescan) := by
    have hread := newline_notMem_of_pending hvalid hpending
    rw [Bytes.slice, List.drop_take, Nat.add_sub_cancel_left]
    exact hread
  refine ⟨hends, hnewline, Bytes.suffix_openLine (List.drop_suffix _ _) ?_⟩
  rwa [hends] at hnewline

/-- A state that is stored at the end of a window goes on over the line on which the window
ends, with the rest of the text behind it, as it goes on over the whole text. -/
theorem exists_line_loads {answer : Answer State}
    (hstored : dialect.grammar.Stores source answer.reader.offset answer.reader.store)
    (hstop : answer.reader.stop ≤ source.length) (h : answer.reader.PendsOnLine source)
    (len : Nat) (last : Bool) :
    ∃ loaded loaded',
      (Reader.new dialect.grammar).load (some answer.reader.store) source answer.reader.stop
        len last = .ok loaded ∧
      (Reader.new dialect.grammar).load (some answer.reader.store)
        (answer.reader.openLine source ++ source.drop answer.reader.stop)
        (answer.reader.openLine source).length len last = .ok loaded' ∧
      ∀ calls, (∃ answers after, loaded.answers calls = .ok (answers, after)) ∧
        Reader.SameAnswers answer.reader.stop (answer.reader.openLine source).length
          (loaded.answers calls) (loaded'.answers calls) := by
  obtain ⟨before, hbefore⟩ := Bytes.openLine_suffix (source.take answer.reader.stop)
  have hkept := h.kept.length_le
  have hends := h.ends
  change before ++ answer.reader.openLine source = source.take answer.reader.stop at hbefore
  generalize answer.reader.openLine source = line at *
  have hlength := congrArg List.length hbefore
  rw [List.length_append, List.length_take, Nat.min_eq_left hstop] at hlength
  rw [Bytes.slice, List.length_drop, List.length_take, Nat.min_eq_left hstop] at hkept
  have hprescan : answer.reader.store.prescan ≤ line.length := by omega
  -- The whole text is the line and the rest, behind the lines before.
  have hsource : source = before ++ (line ++ source.drop answer.reader.stop) := by
    rw [← List.append_assoc, hbefore, List.take_append_drop]
  have hslice : source.slice (answer.reader.stop - answer.reader.store.prescan)
        (answer.reader.stop + len) =
      (line ++ source.drop answer.reader.stop).slice
        (line.length - answer.reader.store.prescan) (line.length + len) := by
    have hshift := Bytes.slice_append_left before (line ++ source.drop answer.reader.stop)
      (line.length - answer.reader.store.prescan) (line.length + len)
    rw [← hsource, show before.length + (line.length - answer.reader.store.prescan) =
        answer.reader.stop - answer.reader.store.prescan by omega,
      show before.length + (line.length + len) = answer.reader.stop + len by omega] at hshift
    exact hshift
  have hshown : source.slice (answer.reader.stop - answer.reader.store.prescan)
        (answer.reader.stop + len) =
      (source.drop answer.reader.offset).take (answer.reader.store.prescan + len) := by
    rw [Bytes.slice, List.drop_take, show answer.reader.stop - answer.reader.store.prescan =
      answer.reader.offset by omega, show answer.reader.stop + len - answer.reader.offset =
      answer.reader.store.prescan + len by omega]
  obtain ⟨loaded, loaded', hload, hload', hsame, htotal⟩ :=
    dialect.locality.loads_agree hstored last
      (show answer.reader.store.prescan ≤ answer.reader.stop by omega) hprescan hslice (by
        rw [show dialect.grammar.prescan answer.reader.store = answer.reader.store.prescan
          from rfl, hshown]
        exact List.take_prefix_take_left (Nat.le_add_right _ len))
  refine ⟨loaded, loaded', hload, hload', fun calls => ⟨htotal ?_ calls, hsame calls⟩⟩
  intro byte hbyte
  rw [show dialect.grammar.prescan answer.reader.store = answer.reader.store.prescan
    from rfl, hshown, List.head?_take] at hbyte
  split at hbyte
  · cases hbyte
  · exact hbyte

/-- At the end of every window of a session over a page, what is pending reaches to the end of
the window and has no newline, if the tag prefixes were validated. Nothing but the line on which
the window ends has to be kept: over this line and the rest of the text the stored state goes on
as it does over the whole text. -/
theorem pending_on_openLine (dialect : Dialect) (hvalid : dialect.delimiters.Validated)
    (source : Bytes) (turns : List Turn) :
    ∃ answers, dialect.grammar.drive source turns = .ok answers ∧
      ∀ answer ∈ answers, answer.token = none →
        answer.reader.PendsOnLine source ∧
        ∀ len last, ∃ loaded loaded',
          (Reader.new dialect.grammar).load (some answer.reader.store) source
            answer.reader.stop len last = .ok loaded ∧
          (Reader.new dialect.grammar).load (some answer.reader.store)
            (answer.reader.openLine source ++ source.drop answer.reader.stop)
            (answer.reader.openLine source).length len last = .ok loaded' ∧
          ∀ calls, (∃ answers after, loaded.answers calls = .ok (answers, after)) ∧
            Reader.SameAnswers answer.reader.stop (answer.reader.openLine source).length
              (loaded.answers calls) (loaded'.answers calls) := by
  obtain ⟨answers, passages, offset, base, hdrive, -, -, -, hall, -, -⟩ :=
    Reader.drive_standing (Reader.new dialect.grammar) none
      (Reader.stored_initial dialect.resumption source) rfl turns
  refine ⟨answers, hdrive, ?_⟩
  intro answer hmem hnone
  have hanswered := (hall answer hmem).1
  have hpends := pendsOnLine_of_answered hvalid hanswered hnone
  obtain ⟨passages, base, hstanding⟩ := hanswered.standing
  exact ⟨hpends, exists_line_loads (.answered hdrive hmem) hstanding.stop_le hpends⟩

/-- So it is with the default prefixes, for a page that is cut inside the opening of a fragment:
the probe has read four bytes, and all of them have to be kept. -/
theorem default_pending_on_openLine :
    default.delimiters.Validated ∧
      ∃ answers,
        default.grammar.drive (Bytes.ofString "<tpl:a>\n") [⟨true, false, 4, false, 1⟩] =
          .ok answers ∧
        ∃ answer ∈ answers, answer.token = none ∧ answer.reader.store.prescan = 4 ∧
          answer.reader.PendsOnLine (Bytes.ofString "<tpl:a>\n") := by
  obtain ⟨held, hattempt, hprescan⟩ : ∃ held,
      default.attempt ⟨Bytes.ofString "<tpl:a>\n", 4, false⟩ State.initial =
        .ok (.step (.hold held)) ∧ held.prescan = 4 := ⟨_, rfl, rfl⟩
  have hdrive := @Grammar.drive_of_hold _ _ default.resumption (Bytes.ofString "<tpl:a>\n") 4
    held (by decide) (step_of_attempt hattempt)
  have hmem := List.mem_singleton_self
    (Answer.mk none (Reader.window default.grammar (Bytes.ofString "<tpl:a>\n") 0 4 false held))
  obtain ⟨answers, hanswers, hall⟩ := pending_on_openLine default
    Delimiters.validated_default (Bytes.ofString "<tpl:a>\n") [⟨true, false, 4, false, 1⟩]
  rw [hdrive] at hanswers
  cases hanswers
  exact ⟨Delimiters.validated_default, _, hdrive, _, hmem, rfl, hprescan, (hall _ hmem rfl).1⟩

end Dialect

end PageLexing
