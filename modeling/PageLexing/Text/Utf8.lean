import PageLexing.Byte

/-!
# Reading bytes as UTF-8

Bytes are decoded as UTF-8 with repair: every maximal stretch of bytes that starts a
character but does not complete it, and every byte that cannot start one, is shown as one
replacement character. Decoding looks at each byte once and remembers only what the
character under way still allows.

## Main results

* `decode_ascii` — ASCII stands for itself.
* `ofBytes?_eq_none_iff` — bytes are refused by the strict reading exactly if the repair
  would have had something to do.
-/

namespace PageLexing.Utf8

/-- Stands for bytes that are no character. -/
def replacement : Char := '\ufffd'

/-- A character of which only the first bytes were read. -/
structure Partial where
  /-- The bits read so far. -/
  bits : Nat
  /-- Bounds for the next byte. -/
  low : UInt8
  high : UInt8
  /-- How many bytes follow the next one. -/
  more : Nat
deriving DecidableEq

/-- What a byte at the start of a character leads to: the character, the part of one, or
nothing. The bounds exclude overlong forms, surrogates and numbers above `10ffff`. -/
def lead (b : UInt8) : Option (Char ⊕ Partial) :=
  if b < 0x80 then some (.inl (Char.ofNat b.toNat))
  else if b < 0xc2 then none
  else if b < 0xe0 then some (.inr ⟨b.toNat - 0xc0, 0x80, 0xbf, 0⟩)
  else if b = 0xe0 then some (.inr ⟨0, 0xa0, 0xbf, 1⟩)
  else if b = 0xed then some (.inr ⟨0xd, 0x80, 0x9f, 1⟩)
  else if b < 0xf0 then some (.inr ⟨b.toNat - 0xe0, 0x80, 0xbf, 1⟩)
  else if b = 0xf0 then some (.inr ⟨0, 0x90, 0xbf, 2⟩)
  else if b < 0xf4 then some (.inr ⟨b.toNat - 0xf0, 0x80, 0xbf, 2⟩)
  else if b = 0xf4 then some (.inr ⟨4, 0x80, 0x8f, 2⟩)
  else none

/-- A decoded character, or none where a replacement is needed. -/
abbrev Piece := Option Char

/-- Reads a byte at the start of a character. -/
def openChar (b : UInt8) : List Piece × Option Partial :=
  match lead b with
  | none => ([none], none)
  | some (.inl c) => ([some c], none)
  | some (.inr started) => ([], some started)

/-- Reads a byte: the pieces it completes and the character it leaves under way. -/
def read (pending : Option Partial) (b : UInt8) : List Piece × Option Partial :=
  match pending with
  | none => openChar b
  | some started =>
      if started.low ≤ b ∧ b ≤ started.high then
        let bits := started.bits * 64 + b.toNat % 64
        match started.more with
        | 0 => ([some (Char.ofNat bits)], none)
        | more + 1 => ([], some ⟨bits, 0x80, 0xbf, more⟩)
      else
        let (pieces, next) := openChar b
        (none :: pieces, next)

/-- The pieces of a text, if a character is under way before it. -/
def pieces : Option Partial → Bytes → List Piece
  | none, [] => []
  | some _, [] => [none]
  | pending, b :: rest => (read pending b).1 ++ pieces (read pending b).2 rest

/-- The characters of a text, with replacements for what is none. -/
def decode (bytes : Bytes) : List Char :=
  (pieces none bytes).map (fun piece => piece.getD replacement)

/-- The characters of a text, if it is well formed throughout. -/
def ofBytes? (bytes : Bytes) : Option (List Char) := (pieces none bytes).mapM id

theorem decode_ascii {bytes : Bytes} (h : ∀ b ∈ bytes, b < 0x80) :
    decode bytes = bytes.map (fun b => Char.ofNat b.toNat) := by
  unfold decode
  induction bytes with
  | nil => rfl
  | cons b rest ih =>
      have hb : b < 0x80 := h b (by simp)
      rw [pieces]
      simp only [read, openChar, lead, hb, if_true, List.cons_append, List.nil_append,
        List.map_cons, Option.getD_some]
      rw [ih fun c hc => h c (by simp [hc])]

theorem ofBytes?_eq_none_iff (bytes : Bytes) :
    ofBytes? bytes = none ↔ none ∈ pieces none bytes := by
  unfold ofBytes?
  induction pieces none bytes with
  | nil => simp
  | cons piece rest ih =>
      cases piece with
      | none => simp
      | some c =>
          cases hr : rest.mapM id with
          | none => simp [List.mapM_cons, hr, ih.mp hr]
          | some cs =>
              have : ¬ (none ∈ rest) := fun hmem => by simp [ih.mpr hmem] at hr
              simp [List.mapM_cons, hr, this]

end PageLexing.Utf8
