import Mathlib.Data.List.Infix
import PageLexing.Proofs.Partition

/-!
# Words that close a run of lines

Comments go over any number of lines, up to the first place at which a word occurs that closes
them. An automaton seeks such a word byte by byte: its state keeps the end of what was read
with which the word begins, and a byte that does not go on with it falls back to the longest
such end there still is. A newline falls back to nothing, as there is none in the word.

What is asked of an automaton is said for one byte (`Seeker`). From that the token that is read
next is told for any state that has not come upon the word so far, and from the tokens, line by
line, how far a comment goes.

## Main results

* `LongestEnd.suffix_append_iff` — falling back to the longest end loses no occurrence.
* `FallsBack.consume_of_not_suffix` — nor does an automaton with a state for each such end.
* `Seeker.step_of_seeks` — the token that is read next.
* `Seeker.Hosted.closedAt_of_opening`, `Seeker.Hosted.unclosed_of_opening` — how far the tokens go
  behind an opening, in any grammar that reads them like the automaton.
-/

namespace PageLexing

/-! ## Occurrences of words -/

/-- The first place from `start` on at which a word occurs. -/
structure FirstAt (word source : Bytes) (start place : Nat) : Prop where
  le : start ≤ place
  occurs : word <+: source.drop place
  first : ∀ before, start ≤ before → before < place → ¬ word <+: source.drop before

/-- The word is completed by the first `len` bytes ahead, and by no fewer. -/
structure Completes (word seen ahead : Bytes) (len : Nat) : Prop where
  le : len ≤ ahead.length
  ends : word <:+ seen ++ ahead.take len
  first : ∀ less < len, ¬ word <:+ seen ++ ahead.take less

/-- The word is not completed by what is ahead. -/
def Lacks (word seen ahead : Bytes) : Prop :=
  ∀ len ≤ ahead.length, ¬ word <:+ seen ++ ahead.take len

variable {word seen ahead source : Bytes}

/-- A word ends where it occurs. -/
theorem suffix_take_iff {len : Nat} (hlen : len ≤ ahead.length) :
    word <:+ ahead.take len ↔ ∃ place, len = place + word.length ∧ word <+: ahead.drop place := by
  constructor
  · rintro ⟨front, hfront⟩
    have hlength := congrArg List.length hfront
    rw [List.length_append, List.length_take, Nat.min_eq_left hlen] at hlength
    refine ⟨front.length, hlength.symm, ahead.drop len, ?_⟩
    have hall := List.take_append_drop len ahead
    rw [← hfront, List.append_assoc] at hall
    conv => rhs; rw [← hall]
    rw [List.drop_left]
  · rintro ⟨place, rfl, rest, hrest⟩
    refine ⟨ahead.take place, ?_⟩
    rw [List.take_add, ← hrest, List.take_left]

theorem FirstAt.add_length_le {start place : Nat} (h : FirstAt word source start place)
    (hword : word ≠ []) : place + word.length ≤ source.length := by
  have hlength := h.occurs.length_le
  have hpos := List.length_pos_iff.mpr hword
  rw [List.length_drop] at hlength
  omega

/-- A word that is completed behind nothing occurs, and where it occurs first it is completed
first. -/
theorem completes_of_firstAt {start place : Nat} (h : FirstAt word source start place)
    (hword : word ≠ []) :
    Completes word [] (source.drop start) (place + word.length - start) := by
  have hle := h.le
  have hstop := h.add_length_le hword
  have hlength : (source.drop start).length = source.length - start := List.length_drop
  refine ⟨by omega, ?_, fun less hless => ?_⟩
  · rw [List.nil_append, suffix_take_iff (by omega)]
    refine ⟨place - start, by omega, ?_⟩
    rw [List.drop_drop, Nat.add_sub_cancel' hle]
    exact h.occurs
  · rw [List.nil_append, suffix_take_iff (by omega)]
    rintro ⟨before, rfl, hoccurs⟩
    rw [List.drop_drop] at hoccurs
    exact h.first (start + before) (Nat.le_add_right _ _) (by omega) hoccurs

theorem lacks_of_forall {start : Nat} (h : ∀ place, start ≤ place → ¬ word <+: source.drop place) :
    Lacks word [] (source.drop start) := by
  intro len hlen
  rw [List.nil_append, suffix_take_iff hlen]
  rintro ⟨place, -, hoccurs⟩
  rw [List.drop_drop] at hoccurs
  exact h (start + place) (Nat.le_add_right _ _) hoccurs

/-- What was read moves from what is ahead to what was seen. -/
theorem Completes.drop {len read : Nat} (h : Completes word seen ahead len) (hread : read ≤ len) :
    Completes word (seen ++ ahead.take read) (ahead.drop read) (len - read) := by
  have hle := h.le
  have htake : ∀ more, ahead.take read ++ (ahead.drop read).take more =
      ahead.take (read + more) := fun more => List.take_add.symm
  refine ⟨by rw [List.length_drop]; omega, ?_, fun less hless => ?_⟩
  · rw [List.append_assoc, htake, Nat.add_sub_cancel' hread]
    exact h.ends
  · rw [List.append_assoc, htake]
    exact h.first (read + less) (by omega)

theorem Completes.pos {len : Nat} (h : Completes word seen ahead len) (hunmet : ¬ word <:+ seen) :
    0 < len := by
  refine Nat.pos_of_ne_zero fun hzero => hunmet ?_
  have hends := h.ends
  rwa [hzero, List.take_zero, List.append_nil] at hends

/-- There is one first place. -/
theorem Completes.eq {len other : Nat} (h : Completes word seen ahead len)
    (hother : Completes word seen ahead other) : len = other := by
  rcases Nat.lt_trichotomy len other with hlt | heq | hgt
  · exact absurd h.ends (hother.first len hlt)
  · exact heq
  · exact absurd hother.ends (h.first other hgt)

/-- The word is completed behind all that lacks it. -/
theorem Completes.lt_of_lacks {len read : Nat} (h : Completes word seen ahead len)
    (hlacks : Lacks word seen (ahead.take read)) (hread : read ≤ ahead.length) : read < len := by
  refine Nat.lt_of_not_le fun hle => ?_
  have hends := h.ends
  rw [← Nat.min_eq_left hle, ← List.take_take] at hends
  refine hlacks len ?_ hends
  rwa [List.length_take, Nat.min_eq_left hread]

theorem not_completes_of_lacks {len : Nat} (h : Lacks word seen ahead) :
    ¬ Completes word seen ahead len :=
  fun hcompletes => h len hcompletes.le hcompletes.ends

theorem Lacks.drop {read : Nat} (h : Lacks word seen ahead) (hread : read ≤ ahead.length) :
    Lacks word (seen ++ ahead.take read) (ahead.drop read) := by
  intro len hlen
  rw [List.length_drop] at hlen
  rw [List.append_assoc, ← List.take_add]
  exact h (read + len) (by omega)

/-- An end of what was read, as long as any with which the word begins. -/
structure LongestEnd (word seen part : Bytes) : Prop where
  suffix : part <:+ seen
  longest : ∀ len ≤ word.length, word.take len <:+ seen → len ≤ part.length

instance (word seen part : Bytes) : Decidable (LongestEnd word seen part) :=
  decidable_of_iff
    (part <:+ seen ∧ ∀ len ≤ word.length, word.take len <:+ seen → len ≤ part.length)
    ⟨fun h => ⟨h.1, h.2⟩, fun h => ⟨h.suffix, h.longest⟩⟩

/-- Falling back to the longest end with which the word begins loses no occurrence. -/
theorem LongestEnd.suffix_append_iff {part : Bytes} (h : LongestEnd word seen part)
    (more : Bytes) : word <:+ seen ++ more ↔ word <:+ part ++ more := by
  constructor
  · rintro ⟨front, hfront⟩
    rcases List.append_eq_append_iff.mp hfront with ⟨begun, hseen, hword⟩ | ⟨between, -, hmore⟩
    · have hbegun : begun <:+ seen := ⟨front, hseen.symm⟩
      have hlen : begun.length ≤ part.length := by
        refine h.longest begun.length ?_ ?_
        · rw [hword, List.length_append]
          exact Nat.le_add_right _ _
        · rwa [hword, List.take_left]
      obtain ⟨rest, hrest⟩ := List.suffix_of_suffix_length_le hbegun h.suffix hlen
      exact ⟨rest, by rw [hword, ← List.append_assoc, hrest]⟩
    · exact ⟨part ++ between, by rw [hmore, List.append_assoc]⟩
  · rintro ⟨front, hfront⟩
    obtain ⟨rest, rfl⟩ := h.suffix
    exact ⟨rest ++ front, by rw [List.append_assoc, hfront, List.append_assoc]⟩

/-- Nothing of a word is begun by a byte that is not in it. -/
theorem longestEnd_of_notMem {b : UInt8} (hb : b ∉ word) : LongestEnd word (seen ++ [b]) [] := by
  refine ⟨List.nil_suffix, fun len hlen hsuffix => ?_⟩
  rcases List.suffix_concat_iff.mp hsuffix with hnil | ⟨front, hfront, -⟩
  · have hlength := congrArg List.length hnil
    rw [List.length_take, Nat.min_eq_left hlen] at hlength
    exact Nat.le_of_eq hlength
  · refine absurd (List.mem_of_mem_take (i := len) ?_) hb
    rw [hfront]
    exact List.mem_append_right _ (List.mem_singleton_self b)

/-! ## States that stand for what was read of a word -/

/-- Each state of a table stands for an end of what was read with which the word begins. The byte
that completes the word closes the token. Any other byte of it leads to the longest such end that
there is then, and a byte that is not in it to `idle`, where nothing of the word was read. -/
structure FallsBack {σ κ : Type} [Automaton σ κ] (read : σ → Option Bytes) (word : Bytes)
    (kind : κ) (closed idle : σ) (table : List (σ × Bytes)) : Prop where
  mem : ∀ {s m}, read s = some m → (s, m) ∈ table
  read_of_mem : ∀ row ∈ table, read row.1 = some row.2
  read_idle : read idle = some []
  foreign : ∀ {s m b}, read s = some m → b ∉ word → Automaton.consume s b = (idle, .grow)
  last : ∀ row ∈ table, ∀ b ∈ word, word <:+ row.2 ++ [b] →
    Automaton.consume row.1 b = (closed, .close kind)
  longest : ∀ row ∈ table, ∀ b ∈ word, ¬ word <:+ row.2 ++ [b] →
    ∃ next ∈ table, Automaton.consume row.1 b = (next.1, .grow) ∧
      LongestEnd word (row.2 ++ [b]) next.2

namespace FallsBack

variable {σ κ : Type} [Automaton σ κ] {read : σ → Option Bytes} {kind : κ} {closed idle s : σ}
  {table : List (σ × Bytes)} {m : Bytes} {b : UInt8}

/-- The last byte of the word closes the token. -/
theorem consume_of_suffix (h : FallsBack read word kind closed idle table) (hword : word ≠ [])
    (hread : read s = some m) (hends : word <:+ m ++ [b]) :
    Automaton.consume s b = (closed, .close kind) := by
  have hmem : b ∈ word := by
    rcases List.suffix_concat_iff.mp hends with hnil | ⟨front, rfl, -⟩
    · exact absurd hnil hword
    · exact List.mem_append_right _ (List.mem_singleton_self b)
  exact h.last (s, m) (h.mem hread) b hmem hends

/-- Any other byte joins the token, and none of the occurrences to come is lost. -/
theorem consume_of_not_suffix (h : FallsBack read word kind closed idle table)
    (hread : read s = some m) (hends : ¬ word <:+ m ++ [b]) :
    ∃ t m', Automaton.consume s b = (t, .grow) ∧ read t = some m' ∧
      ∀ more, word <:+ m ++ [b] ++ more ↔ word <:+ m' ++ more := by
  by_cases hmem : b ∈ word
  · obtain ⟨next, hnext, hconsume, hlongest⟩ := h.longest (s, m) (h.mem hread) b hmem hends
    exact ⟨next.1, next.2, hconsume, h.read_of_mem next hnext, hlongest.suffix_append_iff⟩
  · exact ⟨idle, [], h.foreign hread hmem, h.read_idle,
      (longestEnd_of_notMem hmem).suffix_append_iff⟩

end FallsBack

/-! ## Automata that seek a word -/

/-- States of an automaton in which it seeks a word that closes what it reads. -/
structure Seeker (σ : Type) {κ : Type} [Automaton σ κ] where
  word : Bytes
  kind : κ
  /-- The state behind the word. -/
  closed : σ
  /-- The end of what was read with which the word begins, if the word is sought. -/
  matched : σ → Option Bytes
  ne_nil : word ≠ []
  newline_notMem : Byte.newline ∉ word
  /-- The byte that completes the word closes the token. -/
  closes : ∀ {s m b}, matched s = some m → b ≠ Byte.newline → word <:+ m ++ [b] →
    Automaton.consume s b = (closed, .close kind)
  /-- Any other byte joins the token, and none of the occurrences to come is lost. -/
  grows : ∀ {s m b}, matched s = some m → b ≠ Byte.newline → ¬ word <:+ m ++ [b] →
    ∃ t m', Automaton.consume s b = (t, .grow) ∧ matched t = some m' ∧
      ∀ more, word <:+ m ++ [b] ++ more ↔ word <:+ m' ++ more
  settles : ∀ {s m}, matched s = some m → matched (Automaton.settle s) = some []
  atLineEnd : ∀ {s m}, matched s = some m → Automaton.atLineEnd s = kind
  atEndOfInput : ∀ {s m}, matched s = some m → Automaton.atEndOfInput s = kind
  refine : ∀ text, Automaton.refine (σ := σ) kind text = kind

namespace Seeker

variable {σ κ : Type} [Automaton σ κ] (seeker : Seeker σ) {s : σ}

/-- The state has seen a text without coming upon the word at its end. -/
structure Seeks (seen : Bytes) (s : σ) : Prop where
  matched : ∃ m, seeker.matched s = some m ∧
    ∀ more, seeker.word <:+ seen ++ more ↔ seeker.word <:+ m ++ more
  unmet : ¬ seeker.word <:+ seen

variable {seeker}

/-- Where nothing was seen yet the word is sought. -/
theorem seeks_nil (h : seeker.matched s = some []) : seeker.Seeks [] s :=
  ⟨⟨[], h, fun _ => Iff.rfl⟩, fun hsuffix => seeker.ne_nil (List.suffix_nil.mp hsuffix)⟩

/-- The byte that completes the word closes the token. -/
theorem Seeks.closes (h : seeker.Seeks seen s) {b : UInt8} (hb : b ≠ Byte.newline)
    (hends : seeker.word <:+ seen ++ [b]) :
    Automaton.consume s b = (seeker.closed, .close seeker.kind) := by
  obtain ⟨⟨m, hm, hsame⟩, -⟩ := h
  exact seeker.closes hm hb ((hsame [b]).mp hends)

/-- Any other byte joins the token. -/
theorem Seeks.grows (h : seeker.Seeks seen s) {b : UInt8} (hb : b ≠ Byte.newline)
    (hends : ¬ seeker.word <:+ seen ++ [b]) :
    ∃ t, Automaton.consume s b = (t, .grow) ∧ seeker.Seeks (seen ++ [b]) t := by
  obtain ⟨⟨m, hm, hsame⟩, -⟩ := h
  obtain ⟨t, m', hconsume, hm', hmore⟩ := seeker.grows hm hb (fun hsuffix =>
    hends ((hsame [b]).mpr hsuffix))
  refine ⟨t, hconsume, ⟨m', hm', fun more => ?_⟩, hends⟩
  rw [List.append_assoc, hsame, ← List.append_assoc, hmore]

/-- Behind a newline the word is sought anew. -/
theorem Seeks.settles (h : seeker.Seeks seen s) :
    seeker.Seeks (seen ++ [Byte.newline]) (Automaton.settle s) := by
  obtain ⟨⟨m, hm, -⟩, -⟩ := h
  have hnone : ∀ more, seeker.word <:+ seen ++ [Byte.newline] ++ more ↔ seeker.word <:+ more :=
    (longestEnd_of_notMem seeker.newline_notMem).suffix_append_iff
  refine ⟨⟨[], seeker.settles hm, hnone⟩, fun hsuffix => ?_⟩
  rw [← List.append_nil (seen ++ [Byte.newline]), hnone, List.suffix_nil] at hsuffix
  exact seeker.ne_nil hsuffix

/-! ## The token that is read next -/

/-- How the search for the word comes to an end: with the word, or before it at a newline or at
the end of the text. -/
inductive Searches (seeker : Seeker σ) (seen ahead : Bytes) (n : Nat) :
    Scan σ × Scan.Ending κ → Prop where
  | closed {k : Nat} (completes : Completes seeker.word seen ahead k)
      (inLine : Byte.newline ∉ ahead.take k) :
      Searches seeker seen ahead n (⟨seeker.closed, n + k⟩, .kind seeker.kind)
  | opened {k : Nat} {t : σ} {ending : Scan.Ending κ} (le : k ≤ ahead.length)
      (lacks : Lacks seeker.word seen (ahead.take k)) (inLine : Byte.newline ∉ ahead.take k)
      (seeks : seeker.Seeks (seen ++ ahead.take k) t)
      (ends : ending = .line ∧ (ahead.drop k).head? = some Byte.newline ∨
        ending = .window ∧ k = ahead.length) :
      Searches seeker seen ahead n (⟨t, n + k⟩, ending)

/-- A byte that does not complete the word joins the search. -/
theorem Searches.cons {b : UInt8} {n : Nat} {outcome : Scan σ × Scan.Ending κ}
    (h : Searches seeker (seen ++ [b]) ahead (n + 1) outcome) (hb : b ≠ Byte.newline)
    (hunmet : ¬ seeker.word <:+ seen) :
    Searches seeker seen (b :: ahead) n outcome := by
  have htake : ∀ k, seen ++ [b] ++ ahead.take k = seen ++ (b :: ahead).take (k + 1) := by
    intro k
    rw [List.append_assoc, List.take_succ_cons, List.singleton_append]
  have hinLine : ∀ k, Byte.newline ∉ ahead.take k → Byte.newline ∉ (b :: ahead).take (k + 1) := by
    intro k hline
    rw [List.take_succ_cons, List.mem_cons, not_or]
    exact ⟨hb.symm, hline⟩
  cases h with
  | @closed k completes inLine =>
      rw [Nat.add_assoc, Nat.add_comm 1 k]
      refine .closed ⟨Nat.succ_le_succ completes.le, ?_, fun less hless => ?_⟩ (hinLine k inLine)
      · rw [← htake]
        exact completes.ends
      · cases less with
        | zero => rwa [List.take_zero, List.append_nil]
        | succ less =>
            rw [← htake]
            exact completes.first less (Nat.lt_of_succ_lt_succ hless)
  | @opened k t ending le lacks inLine seeks ends =>
      rw [Nat.add_assoc, Nat.add_comm 1 k]
      refine .opened (Nat.succ_le_succ le) (fun less hless => ?_) (hinLine k inLine) ?_ ?_
      · cases less with
        | zero => rwa [List.take_zero, List.append_nil]
        | succ less =>
            rw [List.take_succ_cons, List.take_succ_cons, ← List.singleton_append,
              ← List.append_assoc]
            rw [List.take_succ_cons, List.length_cons] at hless
            exact lacks less (Nat.le_of_succ_le_succ hless)
      · rwa [← htake]
      · rwa [List.drop_succ_cons, List.length_cons, Nat.add_right_cancel_iff]

/-- A search may come to an end at once. -/
theorem searches_of_stop (h : seeker.Seeks seen s) (n : Nat) {ending : Scan.Ending κ}
    (hends : ending = .line ∧ ahead.head? = some Byte.newline ∨
      ending = .window ∧ 0 = ahead.length) :
    Searches seeker seen ahead n (⟨s, n⟩, ending) := by
  refine .opened (k := 0) (Nat.zero_le _) (fun less hless => ?_) List.not_mem_nil ?_ hends
  · rw [List.take_zero, List.length_nil, Nat.le_zero] at hless
    rw [hless, List.take_zero, List.append_nil]
    exact h.unmet
  · rw [List.take_zero, List.append_nil]
    exact h

/-- A run from a state that seeks the word. -/
theorem searches_of_seeks (h : seeker.Seeks seen s) (n : Nat) (ahead : Bytes) :
    Searches seeker seen ahead n (Scan.run s n ahead.length ahead) := by
  induction ahead generalizing s seen n with
  | nil => exact searches_of_stop h n (Or.inr ⟨rfl, rfl⟩)
  | cons b ahead ih =>
      rw [List.length_cons, Scan.run]
      by_cases hb : b = Byte.newline
      · rw [if_pos hb]
        exact searches_of_stop h n (Or.inl ⟨rfl, congrArg some hb⟩)
      · rw [if_neg hb]
        by_cases hends : seeker.word <:+ seen ++ [b]
        · rw [h.closes hb hends]
          refine .closed (k := 1) ⟨Nat.succ_le_succ (Nat.zero_le _), hends, fun less hless => ?_⟩ ?_
          · rw [Nat.lt_one_iff.mp hless, List.take_zero, List.append_nil]
            exact h.unmet
          · rw [List.take_succ_cons, List.take_zero, List.mem_singleton]
            exact Ne.symm hb
        · obtain ⟨t, hconsume, ht⟩ := h.grows hb hends
          rw [hconsume]
          exact (ih ht (n + 1)).cons hb h.unmet

variable [TokenKind κ]

/-- The token that is read where the word is sought and `n` bytes of the token were read: a
newline, or what there is up to the word, to a newline or to the end of the text. -/
inductive Reads (seeker : Seeker σ) (seen text : Bytes) (n : Nat) (s : σ) :
    Token → Scan σ → Prop where
  | newline (zero : n = 0) (head : text.head? = some Byte.newline) :
      Reads seeker seen text n s Token.endOfLine (Scan.atBoundary (Automaton.settle s))
  | closed {k : Nat} (completes : Completes seeker.word seen (text.drop n) k)
      (inLine : Byte.newline ∉ (text.drop n).take k) :
      Reads seeker seen text n s ⟨TokenKind.id seeker.kind, n + k⟩ (Scan.atBoundary seeker.closed)
  | opened {k : Nat} {t : σ} (pos : 0 < n + k) (le : n + k ≤ text.length)
      (lacks : Lacks seeker.word seen ((text.drop n).take k))
      (inLine : Byte.newline ∉ (text.drop n).take k)
      (seeks : seeker.Seeks (seen ++ (text.drop n).take k) t)
      (ends : n + k = text.length ∨ (text.drop (n + k)).head? = some Byte.newline) :
      Reads seeker seen text n s ⟨TokenKind.id seeker.kind, n + k⟩ (Scan.atBoundary t)

/-- Where the word is sought a text has a token. -/
theorem step_of_seeks (h : seeker.Seeks seen s) {text : Bytes} {n : Nat} (hn : n ≤ text.length)
    (hne : text ≠ []) :
    ∃ found after, Scan.step (View.whole text) ⟨s, n⟩ = .ok (.token found after) ∧
      Reads seeker seen text n s found after := by
  by_cases hline : n = 0 ∧ text.head? = some Byte.newline
  · obtain ⟨rfl, hhead⟩ := hline
    exact ⟨_, _, Scan.step_of_newline hhead, .newline rfl hhead⟩
  have hfinish : ∀ {state : σ} {read : Nat} {kind : κ}, kind = seeker.kind → 0 < read →
      read ≤ text.length → Scan.finish (View.whole text) (⟨state, read⟩ : Scan σ) kind =
        .ok (.token ⟨TokenKind.id seeker.kind, read⟩ (Scan.atBoundary state)) := by
    intro state read kind hkind hpos hle
    rw [hkind, @Scan.finish_eq_token σ κ _ _ (View.whole text) ⟨state, read⟩ seeker.kind hpos hle,
      seeker.refine]
  have hlength : (text.drop n).length = text.length - n := List.length_drop
  have hsearches := searches_of_seeks h n (text.drop n)
  rw [hlength] at hsearches
  generalize hrun : Scan.run s n (text.length - n) (text.drop n) = outcome at hsearches
  cases hsearches with
  | @closed k completes inLine =>
      have hpos := completes.pos h.unmet
      have hle := completes.le
      refine ⟨_, _, ?_, .closed completes inLine⟩
      simp only [Scan.step, hrun]
      exact hfinish rfl (by omega) (by omega)
  | @opened k t ending le lacks inLine seeks ends =>
      obtain ⟨m, hm, -⟩ := seeks.matched
      have hpos : 0 < n + k := by
        rcases ends with ⟨-, hhead⟩ | ⟨-, hall⟩
        · refine Nat.pos_of_ne_zero fun hzero => hline ⟨by omega, ?_⟩
          rwa [List.drop_drop, hzero, List.drop_zero] at hhead
        · have := List.length_pos_iff.mpr hne
          omega
      rcases ends with ⟨rfl, hhead⟩ | ⟨rfl, hall⟩
      · rw [List.drop_drop] at hhead
        refine ⟨_, _, ?_, .opened hpos (by omega) lacks inLine seeks (Or.inr hhead)⟩
        simp only [Scan.step, hrun, if_pos hpos]
        exact hfinish (seeker.atLineEnd hm) hpos (by omega)
      · refine ⟨_, _, ?_, .opened hpos (by omega) lacks inLine seeks (Or.inl (by omega))⟩
        simp only [Scan.step, hrun, true_and, if_pos hpos]
        exact hfinish (seeker.atEndOfInput hm) hpos (by omega)

end Seeker

/-! ## Tokens line by line -/

namespace Span

/-- The spans cover what is between two places line by line: each newline is a token of its own,
and each longest run of other bytes is one token of the class `id`. -/
structure ByLine (source : Bytes) (id : TokenId) (start stop : Nat) (spans : List Span) :
    Prop where
  tiles : Tiles start stop spans
  newline : ∀ span ∈ spans, span.token.id = TokenId.endOfLine →
    span.text source = [Byte.newline]
  run : ∀ span ∈ spans, span.token.id ≠ TokenId.endOfLine → span.token.id = id ∧
    Byte.newline ∉ span.text source ∧
    (span.start = start ∨ source[span.start - 1]? = some Byte.newline) ∧
    (span.stop = stop ∨ source[span.stop]? = some Byte.newline)

variable {id : TokenId} {start stop : Nat} {spans : List Span}

theorem byLine_nil (source : Bytes) (id : TokenId) (stop : Nat) :
    ByLine source id stop stop [] :=
  ⟨rfl, fun _ hmem => absurd hmem List.not_mem_nil, fun _ hmem => absurd hmem List.not_mem_nil⟩

theorem newline_mem_take {len : Nat} (h : source[start]? = some Byte.newline) (hpos : 0 < len) :
    Byte.newline ∈ (source.drop start).take len := by
  obtain ⟨rest, hrest⟩ := List.head?_eq_some_iff.mp (List.head?_drop.trans h)
  obtain ⟨less, rfl⟩ : ∃ less, len = less + 1 := ⟨len - 1, by omega⟩
  rw [hrest, List.take_succ_cons]
  exact List.mem_cons_self ..

/-- Before a line there may be a newline. -/
theorem ByLine.cons_newline (h : ByLine source id (start + 1) stop spans)
    (hnewline : source[start]? = some Byte.newline) :
    ByLine source id start stop (⟨Token.endOfLine, start⟩ :: spans) where
  tiles := ⟨rfl, Nat.one_pos, h.tiles⟩
  newline span hmem hid := by
    rcases List.mem_cons.mp hmem with rfl | hmem
    · obtain ⟨rest, hrest⟩ := List.head?_eq_some_iff.mp (List.head?_drop.trans hnewline)
      rw [text, hrest]
      rfl
    · exact h.newline span hmem hid
  run span hmem hid := by
    rcases List.mem_cons.mp hmem with rfl | hmem
    · exact absurd rfl hid
    · obtain ⟨hspan, hline, hbefore, hbehind⟩ := h.run span hmem hid
      refine ⟨hspan, hline, Or.inr ?_, hbehind⟩
      rcases hbefore with hstart | hbefore
      · rwa [hstart, Nat.add_sub_cancel]
      · exact hbefore

/-- Before a newline, or at the end, there may be a run of other bytes. -/
theorem ByLine.cons_run {len : Nat} (h : ByLine source id (start + len) stop spans)
    (hpos : 0 < len) (hid : id ≠ TokenId.endOfLine)
    (hline : Byte.newline ∉ (source.drop start).take len)
    (hends : start + len = stop ∨ source[start + len]? = some Byte.newline) :
    ByLine source id start stop (⟨⟨id, len⟩, start⟩ :: spans) where
  tiles := ⟨rfl, hpos, h.tiles⟩
  newline span hmem heol := by
    rcases List.mem_cons.mp hmem with rfl | hmem
    · exact absurd heol hid
    · exact h.newline span hmem heol
  run span hmem heol := by
    rcases List.mem_cons.mp hmem with rfl | hmem
    · exact ⟨rfl, hline, Or.inl rfl, hends⟩
    · obtain ⟨hspan, hspanLine, hbefore, hbehind⟩ := h.run span hmem heol
      refine ⟨hspan, hspanLine, Or.inr ?_, hbehind⟩
      rcases hbefore with hstart | hbefore
      · -- A run that starts here would start behind the end, or with the newline.
        have hlt := (start_of_mem_tiles h.tiles span hmem).2
        rcases hends with hstop | hnewline
        · omega
        · refine absurd ?_ hspanLine
          rw [text, hstart]
          exact newline_mem_take hnewline (len_pos_of_mem_tiles h.tiles span hmem)
      · exact hbefore

end Span

/-! ## Grammars that read like a seeking automaton -/

namespace Seeker

variable {σ κ τ : Type} [Automaton σ κ] [TokenKind κ] {seeker : Seeker σ} {s : σ}
  {grammar : Grammar τ} {id : TokenId} {opens : σ → τ} {closed before next final : τ}
  {text : Bytes} {token : Token} {n offset : Nat} {passages : List (Passage τ)}

theorem take_one_of_head? {b : UInt8} (h : text.head? = some b) : text.take 1 = [b] := by
  obtain ⟨rest, rfl⟩ := List.head?_eq_some_iff.mp h
  rfl

/-- In `before` a grammar reads a text like the automaton in `scan`: in `opens t` it stands where
the automaton stands in `t`, and the word leads to `closed`. Its tokens have the class `id`. -/
structure Follows (seeker : Seeker σ) (grammar : Grammar τ) (id : TokenId) (opens : σ → τ)
    (closed : τ) (text : Bytes) (before : τ) (scan : Scan σ) : Prop where
  opened : ∀ {seen t len}, Scan.step (View.whole text) scan =
      .ok (.token ⟨TokenKind.id seeker.kind, len⟩ (Scan.atBoundary t)) → seeker.Seeks seen t →
    grammar.step (View.whole text) before = .ok (.token ⟨id, len⟩ (opens t))
  closes : ∀ {len}, Scan.step (View.whole text) scan =
      .ok (.token ⟨TokenKind.id seeker.kind, len⟩ (Scan.atBoundary seeker.closed)) →
    grammar.step (View.whole text) before = .ok (.token ⟨id, len⟩ closed)

/-- A run of the grammar that ends with the word, or before it at a newline or at the end of the
text. -/
inductive Runs (seeker : Seeker σ) (seen text : Bytes) (n : Nat) (id : TokenId) (opens : σ → τ)
    (closed : τ) : Token → τ → Prop where
  | closed {k : Nat} (pos : 0 < n + k) (inLine : Byte.newline ∉ (text.drop n).take k)
      (completes : Completes seeker.word seen (text.drop n) k) :
      Runs seeker seen text n id opens closed ⟨id, n + k⟩ closed
  | opened {k : Nat} {t : σ} (pos : 0 < n + k) (inLine : Byte.newline ∉ (text.drop n).take k)
      (le : n + k ≤ text.length) (lacks : Lacks seeker.word seen ((text.drop n).take k))
      (seeks : seeker.Seeks (seen ++ (text.drop n).take k) t)
      (ends : n + k = text.length ∨ (text.drop (n + k)).head? = some Byte.newline) :
      Runs seeker seen text n id opens closed ⟨id, n + k⟩ (opens t)

/-- Unless a newline comes first, the token of the grammar is such a run. -/
theorem Follows.runs (h : Follows seeker grammar id opens closed text before ⟨s, n⟩)
    (hseeks : seeker.Seeks seen s) (hn : n ≤ text.length) (hne : text ≠ [])
    (hline : n = 0 → text.head? ≠ some Byte.newline)
    (hstep : grammar.step (View.whole text) before = .ok (.token token next)) :
    Runs seeker seen text n id opens closed token next := by
  obtain ⟨found, after, hfound, hreads⟩ := step_of_seeks hseeks hn hne
  cases hreads with
  | newline zero head => exact absurd head (hline zero)
  | @closed k completes inLine =>
      rw [h.closes hfound] at hstep
      cases hstep
      have hpos := completes.pos hseeks.unmet
      exact .closed (by omega) inLine completes
  | @opened k t pos le lacks inLine seeks ends =>
      rw [h.opened hfound seeks] at hstep
      cases hstep
      exact .opened pos inLine le lacks seeks ends

/-- A grammar reads like the automaton wherever that seeks its word. -/
structure Hosted (seeker : Seeker σ) (resumption : grammar.Resumption) (id : TokenId)
    (opens : σ → τ) (closed : τ) : Prop where
  ne : id ≠ TokenId.endOfLine
  newline : ∀ {seen text s}, seeker.Seeks seen s → resumption.Ready text (opens s) →
    text.head? = some Byte.newline →
    grammar.step (View.whole text) (opens s) =
      .ok (.token Token.endOfLine (opens (Automaton.settle s)))
  follows : ∀ {seen text s}, seeker.Seeks seen s → resumption.Ready text (opens s) →
    Follows seeker grammar id opens closed text (opens s) (Scan.atBoundary s)

/-- In `before` the search has come to an opening of `n` bytes, behind which the automaton stands
in `s`. -/
structure Opening (seeker : Seeker σ) (grammar : Grammar τ) (id : TokenId) (opens : σ → τ)
    (closed : τ) (text : Bytes) (before : τ) (s : σ) (n : Nat) : Prop where
  pos : 0 < n
  le : n ≤ text.length
  inLine : Byte.newline ∉ text.take n
  seeks : seeker.Seeks [] s
  follows : Follows seeker grammar id opens closed text before ⟨s, n⟩

/-- The passages begin with some that go line by line up to `stop`, where the word ends, and only
there. -/
def ClosedAt (grammar : Grammar τ) (source : Bytes) (id : TokenId) (opens : σ → τ) (closed : τ)
    (offset : Nat) (before : τ) (stop : Nat) (passages : List (Passage τ)) : Prop :=
  ∃ inside behind, passages = inside ++ behind ∧
    grammar.Path source offset before inside stop closed ∧
    Span.ByLine source id offset stop (inside.map Passage.span) ∧
    ∀ passage ∈ inside, passage.span.stop = stop ∧ passage.after = closed ∨
      passage.span.stop < stop ∧ ∃ t, passage.after = opens t

/-- All passages go line by line, and the word never ends. -/
def Unclosed (source : Bytes) (id : TokenId) (opens : σ → τ) (offset : Nat)
    (passages : List (Passage τ)) : Prop :=
  Span.ByLine source id offset source.length (passages.map Passage.span) ∧
    ∀ passage ∈ passages, ∃ t, passage.after = opens t

/-- No newline is in an opening, nor in the run behind it. -/
theorem newline_notMem_take_add {k : Nat} (hn : Byte.newline ∉ text.take n)
    (hk : Byte.newline ∉ (text.drop n).take k) : Byte.newline ∉ text.take (n + k) := by
  rw [List.take_add, List.mem_append, not_or]
  exact ⟨hn, hk⟩

omit [TokenKind κ] in
/-- A run, and what is behind it if the word does not end with it. -/
theorem closedAt_of_runs {len : Nat} (hid : id ≠ TokenId.endOfLine)
    (hstep : grammar.step (View.whole (source.drop offset)) before = .ok (.token token next))
    (hrun : Runs seeker seen (source.drop offset) n id opens closed token next)
    (hline : Byte.newline ∉ (source.drop offset).take n)
    (hcompletes : Completes seeker.word seen (source.drop (offset + n)) len)
    (hrest : ∀ {seen t less}, next = opens t → seeker.Seeks seen t →
      Completes seeker.word seen (source.drop (offset + token.len)) less →
      ClosedAt grammar source id opens closed (offset + token.len) next
        (offset + token.len + less) passages) :
    ClosedAt grammar source id opens closed offset before (offset + n + len)
      (⟨offset, before, token, next⟩ :: passages) := by
  rw [← List.drop_drop] at hcompletes
  cases hrun with
  | @closed k pos inLine completes =>
      cases hcompletes.eq completes
      rw [Nat.add_assoc]
      refine ⟨[_], passages, rfl, .cons hstep (.nil _ _),
        (Span.byLine_nil _ _ _).cons_run pos hid (newline_notMem_take_add hline inLine)
          (Or.inl rfl), ?_⟩
      intro passage hmem
      cases List.mem_singleton.mp hmem
      exact Or.inl ⟨rfl, rfl⟩
  | @opened k t pos inLine le lacks seeks ends =>
      have hlen := hcompletes.le
      rw [List.length_drop, List.length_drop] at hlen
      rw [List.length_drop] at le ends
      have hlt : k < len := hcompletes.lt_of_lacks lacks (by simp only [List.length_drop]; omega)
      have hdrop := hcompletes.drop (Nat.le_of_lt hlt)
      rw [List.drop_drop, List.drop_drop, Nat.add_assoc] at hdrop
      rw [List.drop_drop] at seeks
      obtain ⟨inside, behind, rfl, hinside, hlines, hafter⟩ := hrest rfl seeks hdrop
      have hlast : offset + (n + k) + (len - k) = offset + n + len := by omega
      rw [hlast] at hinside hlines hafter
      have hnewline : source[offset + (n + k)]? = some Byte.newline := by
        rcases ends with hall | hhead
        · omega
        · rwa [List.drop_drop, List.head?_drop] at hhead
      refine ⟨_ :: inside, behind, rfl, .cons hstep hinside,
        hlines.cons_run pos hid (newline_notMem_take_add hline inLine) (Or.inr hnewline), ?_⟩
      intro passage hmem
      rcases List.mem_cons.mp hmem with rfl | hmem
      · refine Or.inr ⟨?_, t, rfl⟩
        show offset + (n + k) < _
        omega
      · exact hafter passage hmem

omit [TokenKind κ] in
/-- A run, and what is behind it, where the word does not end. -/
theorem unclosed_of_runs (hid : id ≠ TokenId.endOfLine)
    (hrun : Runs seeker seen (source.drop offset) n id opens closed token next)
    (hline : Byte.newline ∉ (source.drop offset).take n)
    (hlacks : Lacks seeker.word seen (source.drop (offset + n)))
    (hrest : ∀ {seen t}, next = opens t → seeker.Seeks seen t →
      Lacks seeker.word seen (source.drop (offset + token.len)) →
      Unclosed source id opens (offset + token.len) passages) :
    Unclosed source id opens offset (⟨offset, before, token, next⟩ :: passages) := by
  rw [← List.drop_drop] at hlacks
  cases hrun with
  | closed _ _ completes => exact absurd completes (not_completes_of_lacks hlacks)
  | @opened k t pos inLine le lacks seeks ends =>
      rw [List.length_drop] at le ends
      have hdrop := hlacks.drop (show k ≤ _ by simp only [List.length_drop]; omega)
      rw [List.drop_drop, List.drop_drop, Nat.add_assoc] at hdrop
      rw [List.drop_drop] at seeks
      obtain ⟨hlines, hafter⟩ := hrest rfl seeks hdrop
      have hnewline : offset + (n + k) = source.length ∨
          source[offset + (n + k)]? = some Byte.newline := by
        rcases ends with hall | hhead
        · exact Or.inl (by omega)
        · exact Or.inr (by rwa [List.drop_drop, List.head?_drop] at hhead)
      refine ⟨hlines.cons_run pos hid (newline_notMem_take_add hline inLine) hnewline, ?_⟩
      intro passage hmem
      rcases List.mem_cons.mp hmem with rfl | hmem
      · exact ⟨t, rfl⟩
      · exact hafter passage hmem

variable {resumption : grammar.Resumption}

/-- Up to the word, which comes first at `offset + len`, the tokens go line by line. -/
theorem Hosted.closedAt (hosted : seeker.Hosted resumption id opens closed) {len : Nat}
    (h : grammar.Path source offset (opens s) passages source.length final)
    (hready : resumption.Ready (source.drop offset) (opens s)) (hseeks : seeker.Seeks seen s)
    (hcompletes : Completes seeker.word seen (source.drop offset) len) :
    ClosedAt grammar source id opens closed offset (opens s) (offset + len) passages := by
  generalize hstop : source.length = stop at h
  generalize hstate : opens s = state at h
  -- The text that was seen grows with each token, while what is to come stays the same.
  induction h generalizing s seen len with
  | nil offset state =>
      rw [List.drop_eq_nil_of_le (Nat.le_of_eq hstop)] at hcompletes
      exact absurd (Nat.le_zero.mp hcompletes.le) (Nat.ne_of_gt (hcompletes.pos hseeks.unmet))
  | @cons offset stop state next final token passages hstep hrest ih =>
      subst hstate
      have hnext := (resumption.next_of_step hready hstep).2
      by_cases hhead : (source.drop offset).head? = some Byte.newline
      · have hcopy := hosted.newline hseeks hready hhead
        rw [hcopy] at hstep
        cases hstep
        have hlen := hcompletes.pos hseeks.unmet
        have hdrop := hcompletes.drop hlen
        rw [take_one_of_head? hhead, List.drop_drop] at hdrop
        have hless := hdrop.pos hseeks.settles.unmet
        obtain ⟨inside, behind, rfl, hinside, hlines, hafter⟩ :=
          ih hnext hseeks.settles hdrop hstop rfl
        have hlast : offset + 1 + (len - 1) = offset + len := by omega
        rw [show Token.endOfLine.len = 1 from rfl, hlast] at hinside hlines hafter
        refine ⟨_ :: inside, behind, rfl, .cons hcopy hinside,
          hlines.cons_newline (List.head?_drop.symm.trans hhead), ?_⟩
        intro passage hmem
        rcases List.mem_cons.mp hmem with rfl | hmem
        · refine Or.inr ⟨?_, _, rfl⟩
          show offset + 1 < _
          omega
        · exact hafter passage hmem
      · refine closedAt_of_runs hosted.ne hstep ((hosted.follows hseeks hready).runs hseeks
          (Nat.zero_le _) (resumption.ne_nil_of_step hready hstep) (fun _ => hhead) hstep)
          List.not_mem_nil hcompletes ?_
        intro seen t less hopens hseeks hcompletes
        subst hopens
        exact ih hnext hseeks hcompletes hstop rfl

/-- Where the word does not come any more all tokens go line by line. -/
theorem Hosted.unclosed (hosted : seeker.Hosted resumption id opens closed)
    (h : grammar.Path source offset (opens s) passages source.length final)
    (hready : resumption.Ready (source.drop offset) (opens s)) (hseeks : seeker.Seeks seen s)
    (hlacks : Lacks seeker.word seen (source.drop offset)) :
    Unclosed source id opens offset passages := by
  generalize hstop : source.length = stop at h
  generalize hstate : opens s = state at h
  induction h generalizing s seen with
  | nil offset state =>
      refine ⟨?_, fun _ hmem => absurd hmem List.not_mem_nil⟩
      rw [hstop]
      exact Span.byLine_nil _ _ _
  | @cons offset stop state next final token passages hstep hrest ih =>
      subst hstate
      have hnext := (resumption.next_of_step hready hstep).2
      by_cases hhead : (source.drop offset).head? = some Byte.newline
      · have hcopy := hosted.newline hseeks hready hhead
        rw [hcopy] at hstep
        cases hstep
        have hpos := List.length_pos_iff.mpr (resumption.ne_nil_of_step hready hcopy)
        have hdrop := hlacks.drop hpos
        rw [take_one_of_head? hhead, List.drop_drop] at hdrop
        obtain ⟨hlines, hafter⟩ := ih hnext hseeks.settles hdrop hstop rfl
        refine ⟨hlines.cons_newline (List.head?_drop.symm.trans hhead), ?_⟩
        intro passage hmem
        rcases List.mem_cons.mp hmem with rfl | hmem
        · exact ⟨_, rfl⟩
        · exact hafter passage hmem
      · refine unclosed_of_runs hosted.ne ((hosted.follows hseeks hready).runs hseeks
          (Nat.zero_le _) (resumption.ne_nil_of_step hready hstep) (fun _ => hhead) hstep)
          List.not_mem_nil hlacks ?_
        intro seen t hopens hseeks hlacks
        subst hopens
        exact ih hnext hseeks hlacks hstop rfl

/-- Behind an opening the tokens go line by line up to the word, and the opening is in the first
of them. -/
theorem Hosted.closedAt_of_opening (hosted : seeker.Hosted resumption id opens closed) {place : Nat}
    (h : grammar.Path source offset before passages source.length final)
    (hready : resumption.Ready (source.drop offset) before)
    (hopening : Opening seeker grammar id opens closed (source.drop offset) before s n)
    (hplace : FirstAt seeker.word source (offset + n) place) :
    ClosedAt grammar source id opens closed offset before (place + seeker.word.length)
      passages := by
  have hle := hplace.le
  have hcompletes := completes_of_firstAt hplace seeker.ne_nil
  have hlast : offset + n + (place + seeker.word.length - (offset + n)) =
      place + seeker.word.length := by omega
  have hpos := hopening.pos
  have hshort := hopening.le
  rw [List.length_drop] at hshort
  cases h with
  | nil => omega
  | @cons _ _ _ next _ token passages hstep hrest =>
      have hne := resumption.ne_nil_of_step hready hstep
      have hnext := (resumption.next_of_step hready hstep).2
      rw [← hlast]
      refine closedAt_of_runs hosted.ne hstep (hopening.follows.runs hopening.seeks hopening.le hne
        (by omega) hstep) hopening.inLine hcompletes ?_
      intro seen t less hopens hseeks hcompletes
      subst hopens
      exact hosted.closedAt hrest hnext hseeks hcompletes

/-- Behind an opening all tokens go line by line if the word does not come. -/
theorem Hosted.unclosed_of_opening (hosted : seeker.Hosted resumption id opens closed)
    (h : grammar.Path source offset before passages source.length final)
    (hready : resumption.Ready (source.drop offset) before)
    (hopening : Opening seeker grammar id opens closed (source.drop offset) before s n)
    (hnone : ∀ place, offset + n ≤ place → ¬ seeker.word <+: source.drop place) :
    Unclosed source id opens offset passages := by
  have hpos := hopening.pos
  have hshort := hopening.le
  rw [List.length_drop] at hshort
  cases h with
  | nil => omega
  | @cons _ _ _ next _ token passages hstep hrest =>
      have hne := resumption.ne_nil_of_step hready hstep
      have hnext := (resumption.next_of_step hready hstep).2
      refine unclosed_of_runs hosted.ne (hopening.follows.runs hopening.seeks hopening.le hne
        (by omega) hstep) hopening.inLine (lacks_of_forall hnone) ?_
      intro seen t hopens hseeks hlacks
      subst hopens
      exact hosted.unclosed hrest hnext hseeks hlacks

end Seeker

end PageLexing
