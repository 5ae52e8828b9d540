import PageLexing.Reader

/-!
# Lexing whole texts

A text is lexed in one window, in windows that end at given cuts, or in windows of one
size. Each window continues from the state that the one before it left, and the last one
ends the text. The answer is the list of tokens and the reader after the last window.

## Main results

* `sorted_boundaries` — windows are never empty, except the only window of an empty text.
* `getLast?_boundaries` — the last window ends where the text does.
-/

namespace PageLexing

/-- A token and where it starts. -/
structure Span where
  token : Token
  start : Nat
deriving DecidableEq

namespace Span

/-- Where the token ends. -/
def stop (span : Span) : Nat := span.start + span.token.len

/-- The bytes of a text that a span covers. -/
def text (span : Span) (source : Bytes) : Bytes :=
  (source.drop span.start).take span.token.len

/-- Tokens in a row, the first of which starts at `start`. -/
def ofTokens (start : Nat) : List Token → List Span
  | [] => []
  | token :: rest => ⟨token, start⟩ :: ofTokens (start + token.len) rest

end Span

/-! ## Where windows end -/

namespace Schedule

/-- Adds a cut to a strictly increasing list of cuts. -/
def insertCut (cut : Nat) : List Nat → List Nat
  | [] => [cut]
  | head :: rest =>
      if cut < head then cut :: head :: rest
      else if cut = head then head :: rest
      else head :: insertCut cut rest

/-- The cuts that fall inside a text of `size` bytes, in order and without repetition. -/
def innerCuts (size : Nat) (cuts : List Nat) : List Nat :=
  (cuts.filter (fun cut => 0 < cut ∧ cut < size)).foldr insertCut []

/-- Where the windows over a text of `size` bytes end. -/
def boundaries (size : Nat) (cuts : List Nat) : List Nat := innerCuts size cuts ++ [size]

/-- The cuts between windows of `chunk` bytes. -/
def evenCuts (size chunk : Nat) : List Nat :=
  (List.range ((size - 1) / chunk)).map (fun index => (index + 1) * chunk)

theorem mem_insertCut {cut other : Nat} {cuts : List Nat} :
    other ∈ insertCut cut cuts ↔ other = cut ∨ other ∈ cuts := by
  induction cuts with
  | nil => simp [insertCut]
  | cons head rest ih =>
      simp only [insertCut]
      split
      · simp
      · split
        · rename_i heq
          simp [heq]
        · simp only [List.mem_cons, ih]
          exact or_left_comm

theorem sorted_insertCut {cuts : List Nat} (h : cuts.Pairwise (· < ·)) (cut : Nat) :
    (insertCut cut cuts).Pairwise (· < ·) := by
  induction cuts with
  | nil => simp [insertCut]
  | cons head rest ih =>
      obtain ⟨hhead, hrest⟩ := List.pairwise_cons.mp h
      simp only [insertCut]
      split
      · rename_i hlt
        refine List.pairwise_cons.mpr ⟨?_, h⟩
        intro other hmem
        rcases List.mem_cons.mp hmem with rfl | hmem
        · exact hlt
        · exact Nat.lt_trans hlt (hhead other hmem)
      · split
        · exact h
        · refine List.pairwise_cons.mpr ⟨?_, ih hrest⟩
          intro other hmem
          rcases mem_insertCut.mp hmem with rfl | hmem
          · omega
          · exact hhead other hmem

theorem mem_innerCuts {size cut : Nat} {cuts : List Nat} :
    cut ∈ innerCuts size cuts ↔ cut ∈ cuts ∧ 0 < cut ∧ cut < size := by
  have key : ∀ kept : List Nat, cut ∈ kept.foldr insertCut [] ↔ cut ∈ kept := by
    intro kept
    induction kept with
    | nil => simp
    | cons head rest ih => simp [mem_insertCut, ih]
  simp [innerCuts, key]

theorem sorted_innerCuts (size : Nat) (cuts : List Nat) :
    (innerCuts size cuts).Pairwise (· < ·) := by
  unfold innerCuts
  induction cuts.filter (fun cut => 0 < cut ∧ cut < size) with
  | nil => exact List.Pairwise.nil
  | cons head rest ih => exact sorted_insertCut ih head

/-- Windows end at increasing positions. -/
theorem sorted_boundaries (size : Nat) (cuts : List Nat) :
    (boundaries size cuts).Pairwise (· < ·) := by
  refine List.pairwise_append.mpr ⟨sorted_innerCuts size cuts, by simp, ?_⟩
  intro cut hmem stop hstop
  simp only [List.mem_singleton] at hstop
  subst hstop
  exact (mem_innerCuts.mp hmem).2.2

theorem getLast?_boundaries (size : Nat) (cuts : List Nat) :
    (boundaries size cuts).getLast? = some size := by
  simp [boundaries]

end Schedule

/-! ## Lexing -/

namespace Reader

variable {σ : Type}

/-- Lexes `source` from `start` on, in windows that end at `stops`; the first continues
from `state`. -/
def windows (reader : Reader σ) (source : Bytes) (start : Nat) (state : Option σ) :
    (stops : List Nat) → Except Fault (List Token × Reader σ)
  | [] => .ok ([], reader)
  | stop :: stops => do
      let last := stop == source.length
      let reader ← reader.load state source start (stop - start) last
      let (tokens, reader) ← reader.drain
      let (more, reader) ← reader.windows source stop (some reader.store) stops
      .ok (tokens ++ more, reader)

end Reader

namespace Grammar

variable {σ : Type} (grammar : Grammar σ)

/-- Lexes a text with a window boundary at every cut. Cuts that are not inside the text
do not matter, nor do their order and repetitions. -/
def lexSplit (source : Bytes) (cuts : List Nat) : Except Fault (List Token × Reader σ) :=
  (Reader.new grammar).windows source 0 none (Schedule.boundaries source.length cuts)

/-- Lexes a text in one window. -/
def lexWhole (source : Bytes) : Except Fault (List Token × Reader σ) :=
  grammar.lexSplit source []

/-- Lexes a text in windows of `chunk` bytes. -/
def lexChunked (source : Bytes) (chunk : Nat) : Except Fault (List Token × Reader σ) :=
  if chunk = 0 then .error .zeroChunk
  else grammar.lexSplit source (Schedule.evenCuts source.length chunk)

end Grammar

end PageLexing
