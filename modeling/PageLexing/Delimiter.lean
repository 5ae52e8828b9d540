import PageLexing.Byte
import PageLexing.Nesting

/-!
# Delimiters

A delimiter is a short byte sequence at which the active language changes. In the host
these are `<%` with its variants and the openings `<p:` and `</p:` of elements whose
name starts with a configured tag prefix `p`; in a tag `<%=`; in a script `%>`.

Delimiters are sought in the bytes of a page and not in its tokens, because most of them
stand inside a token of the surrounding language. A `Probe` is opened by a byte that may
start a delimiter and is fed the bytes after it, one at a time, until the delimiter is
confirmed or excluded. A probe that is still undecided at the end of a window can be
stored and fed the first bytes of the next window.

At the end of the text an unfinished `<%` or `<%-` of the host still opens a script;
every other unfinished probe is rejected.
-/

namespace PageLexing

/-- A change of language that a delimiter causes. -/
inductive Switch where
  /-- A fragment opens; its opening symbol is read as part of it. -/
  | enterTag
  /-- A delimiter of `len` bytes opens a script. -/
  | enterScript (len : Nat)
  /-- A delimiter of `len` bytes closes a script. -/
  | leaveScript (len : Nat)
deriving DecidableEq

/-- A delimiter of which only the first bytes were read. -/
inductive Probe where
  /-- `<` in the host. -/
  | less
  /-- `<%` in the host. -/
  | lessPercent
  /-- `<%-` in the host. -/
  | lessPercentDash
  /-- `<`, or `</` if `closing`, and then the first `matched` bytes of every prefix whose
  position is a bit of `viable`. -/
  | tagPrefix (closing : Bool) (matched viable : Nat)
  /-- `<` in a tag. -/
  | tagLess
  /-- `<%` in a tag. -/
  | tagLessPercent
  /-- `%` in a script. -/
  | percent
deriving DecidableEq

/-- How many bytes a probe has read. -/
def Probe.consumed : Probe → Nat
  | less | tagLess | percent => 1
  | lessPercent | tagLessPercent => 2
  | lessPercentDash => 3
  | tagPrefix closing matched _ => (if closing then 2 else 1) + matched

/-- What is known of a delimiter after some of its bytes. -/
inductive Verdict where
  | confirmed (switch : Switch)
  | rejected
  | undecided (probe : Probe)
deriving DecidableEq

/-- The tag prefixes of a dialect, in the order in which a probe counts them. -/
structure Delimiters where
  prefixes : List Bytes
  /-- A probe keeps one of 32 bits for each prefix. -/
  bounded : prefixes.length ≤ 32
deriving DecidableEq

namespace Delimiters

/-- Delimiters for a list of prefixes, if a probe can keep them apart. -/
def ofPrefixes (prefixes : List Bytes) : Except Fault Delimiters :=
  if h : prefixes.length ≤ 32 then .ok ⟨prefixes, h⟩ else .error .tooManyPrefixes

/-- The one prefix `tpl`. -/
def default : Delimiters := ⟨[Bytes.ofString "tpl"], by simp⟩

variable (delimiters : Delimiters)

/-- The set of all prefixes, a bit each. -/
def allPrefixes : Nat := 1 <<< delimiters.prefixes.length - 1

/-! ## Tag prefixes -/

/-- Which of the `viable` prefixes go on with `byte` after `matched` bytes; none if one of
them is complete and `byte` is the colon after it. The first of `prefixes` has the
position `index`. -/
def narrow (matched viable : Nat) (byte : UInt8) :
    (index : Nat) → (prefixes : List Bytes) → Except Fault (Option Nat)
  | _, [] => .ok (some 0)
  | index, candidate :: rest =>
      if viable.testBit index then
        match candidate[matched]? with
        | some next => do
            let others ← narrow matched viable byte (index + 1) rest
            .ok (others.map (fun bits => if next = byte then 1 <<< index ||| bits else bits))
        | none =>
            if candidate.length < matched then
              .error (.outsidePrefix candidate.length matched)
            else if byte = Byte.colon then .ok none
            else narrow matched viable byte (index + 1) rest
      else narrow matched viable byte (index + 1) rest

/-- Feeds a byte to the prefixes that are still viable. -/
def matchPrefix (closing : Bool) (matched viable : Nat) (byte : UInt8) :
    Except Fault Verdict := do
  match ← narrow matched viable byte 0 delimiters.prefixes with
  | none => .ok (.confirmed .enterTag)
  | some bits =>
      .ok (if bits = 0 then .rejected else .undecided (.tagPrefix closing (matched + 1) bits))

/-! ## Probing -/

/-- The probe that `byte` opens in `language`, if a delimiter may start with it. -/
def start (language : Language) (byte : UInt8) : Option Probe :=
  match language with
  | .host => if byte = Byte.less then some .less else none
  | .tag => if byte = Byte.less then some .tagLess else none
  | .script => if byte = Byte.percent then some .percent else none

/-- Feeds the byte after those that the probe has read. -/
def advance (probe : Probe) (byte : UInt8) : Except Fault Verdict :=
  match probe with
  | .less =>
      if byte = Byte.percent then .ok (.undecided .lessPercent)
      else if byte = Byte.slash then
        .ok (if delimiters.allPrefixes = 0 then .rejected
          else .undecided (.tagPrefix true 0 delimiters.allPrefixes))
      else delimiters.matchPrefix false 0 delimiters.allPrefixes byte
  | .lessPercent =>
      if byte = Byte.commercialAt then .ok (.confirmed .enterTag)
      else if byte = Byte.dash then .ok (.undecided .lessPercentDash)
      else if byte = Byte.equals ∨ byte = Byte.bang then .ok (.confirmed (.enterScript 3))
      else .ok (.confirmed (.enterScript 2))
  | .lessPercentDash =>
      if byte = Byte.dash then .ok (.confirmed .enterTag)
      else .ok (.confirmed (.enterScript 2))
  | .tagPrefix closing matched viable => delimiters.matchPrefix closing matched viable byte
  | .tagLess =>
      if byte = Byte.percent then .ok (.undecided .tagLessPercent) else .ok .rejected
  | .tagLessPercent =>
      if byte = Byte.equals then .ok (.confirmed (.enterScript 3)) else .ok .rejected
  | .percent =>
      if byte = Byte.greater then .ok (.confirmed (.leaveScript 2)) else .ok .rejected

/-- The verdict on a probe that has read the last byte of the text. -/
def atEndOfInput : Probe → Verdict
  | .lessPercent | .lessPercentDash => .confirmed (.enterScript 2)
  | _ => .rejected

/-- Feeds up to `room` of the bytes ahead. At the end of a window that is not the last the
probe may stay undecided. -/
def follow (last : Bool) (probe : Probe) :
    (room : Nat) → (ahead : Bytes) → Except Fault Verdict
  | room + 1, byte :: ahead => do
      match ← delimiters.advance probe byte with
      | .undecided next => follow last next room ahead
      | verdict => .ok verdict
  | _, _ => .ok (if last then atEndOfInput probe else .undecided probe)

end Delimiters

end PageLexing
