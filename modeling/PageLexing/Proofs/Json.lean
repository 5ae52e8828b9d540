import Mathlib.Data.List.TakeDrop
import PageLexing.Json.Reading

/-!
# JSON that is written is read back

Reading a text that was written gives the value back, whatever value it was, as long as its
numbers are natural numbers and its strings are texts. Where one part of a text ends and the
next begins is decided by single characters: a number ends at a character that cannot belong to
one, and no value begins with a blank or with the end of an array.

The fuel of the reader bounds the number of characters that it looks at. Each part of a value
that is written is shorter than the value, so the length of the text is enough.

## Main results

* `readNumber_toDigits`, `readString_escape` — numbers and strings.
* `readsBack` — values, elements and members, from any text that begins with them.
* `ofText?_toText` — whole texts.
-/

namespace PageLexing.Json

/-! ## Numbers -/

/-- What comes next is no part of a number. -/
def EndsNumber (rest : List Char) : Prop :=
  ∀ c, rest.head? = some c → c.isDigit = false ∧ c ≠ '.' ∧ c ≠ 'e' ∧ c ≠ 'E'

theorem endsNumber_nil : EndsNumber [] := nofun

theorem endsNumber_cons {c : Char} {rest : List Char}
    (h : c.isDigit = false ∧ c ≠ '.' ∧ c ≠ 'e' ∧ c ≠ 'E') : EndsNumber (c :: rest) := by
  intro d hd
  cases hd
  exact h

/-- A number other than zero does not begin with a zero. -/
theorem head?_toDigits {n : Nat} (h : 0 < n) : (Nat.toDigits 10 n).head? ≠ some '0' := by
  induction n using Nat.strongRecOn with
  | ind n ih =>
      rw [Nat.toDigits_eq_if (by decide)]
      by_cases hlt : n < 10
      · rw [if_pos hlt]
        have hdigit : ∀ m, m < 10 → 0 < m → Nat.digitChar m ≠ '0' := by decide
        intro heq
        exact hdigit n hlt h (Option.some.inj heq)
      · rw [if_neg hlt, List.head?_append]
        have hfirst := ih (n / 10) (by omega) (by omega)
        cases hhead : (Nat.toDigits 10 (n / 10)).head? with
        | none => exact absurd (List.head?_eq_none_iff.mp hhead) Nat.toDigits_ne_nil
        | some c => rwa [hhead] at hfirst

theorem all_isDigit_toDigits (n : Nat) : ∀ c ∈ Nat.toDigits 10 n, c.isDigit = true :=
  fun _ hmem => Nat.isDigit_of_mem_toDigits (by decide) (by decide) hmem

/-- Digits are read up to the first character that is none. -/
theorem readDigits_append {digits rest : List Char} (hdigits : ∀ c ∈ digits, c.isDigit = true)
    (hne : digits ≠ []) (hrest : EndsNumber rest) :
    readDigits (digits ++ rest) = some (digits, rest) := by
  have htake : rest.takeWhile Char.isDigit = [] := by
    cases rest with
    | nil => rfl
    | cons c rest => rw [List.takeWhile_cons, (hrest c rfl).1]; rfl
  have hdrop : rest.dropWhile Char.isDigit = rest := by
    cases rest with
    | nil => rfl
    | cons c rest => rw [List.dropWhile_cons, (hrest c rfl).1]; rfl
  rw [readDigits, List.span_eq_takeWhile_dropWhile, List.takeWhile_append_of_pos hdigits,
    List.dropWhile_append_of_pos hdigits, htake, hdrop, List.append_nil]
  cases digits with
  | nil => exact absurd rfl hne
  | cons c digits => rfl

/-- A natural number has neither a fraction nor an exponent. -/
theorem readUnsigned_toDigits (n : Nat) {rest : List Char} (hrest : EndsNumber rest) :
    readUnsigned (Nat.toDigits 10 n ++ rest) = some (Nat.toDigits 10 n, rest) := by
  have hdigits := readDigits_append (all_isDigit_toDigits n) Nat.toDigits_ne_nil hrest
  have hzero : ¬ ((Nat.toDigits 10 n).length ≠ 1 ∧ (Nat.toDigits 10 n).head? = some '0') := by
    rintro ⟨hlength, hhead⟩
    by_cases hn : n = 0
    · subst hn
      exact hlength rfl
    · exact head?_toDigits (Nat.pos_of_ne_zero hn) hhead
  have hfraction : readFraction rest = some ([], rest) := by
    unfold readFraction
    split
    · exact absurd rfl (hrest '.' rfl).2.1
    · rfl
  have hexponent : readExponent rest = some ([], rest) := by
    unfold readExponent
    split
    · rename_i c rest
      obtain ⟨-, -, he, hE⟩ := hrest c rfl
      rw [if_neg (by simp [he, hE])]
    · rfl
  simp only [readUnsigned, hdigits, hfraction, hexponent, Option.bind_eq_bind, Option.bind_some,
    if_neg hzero, List.append_nil]

/-- A natural number is read back. -/
theorem readNumber_toDigits (n : Nat) {rest : List Char} (hrest : EndsNumber rest) :
    readNumber (Nat.toDigits 10 n ++ rest) = some (Nat.toDigits 10 n, rest) := by
  have hunsigned := readUnsigned_toDigits n hrest
  unfold readNumber
  split
  · rename_i tail heq
    -- No number that is written begins with a sign.
    have hmem : '-' ∈ Nat.toDigits 10 n := by
      cases hdigits : Nat.toDigits 10 n with
      | nil => exact absurd hdigits Nat.toDigits_ne_nil
      | cons c digits =>
          rw [hdigits] at heq
          cases heq
          exact List.mem_cons_self
    exact absurd (all_isDigit_toDigits n _ hmem) (by decide)
  · exact hunsigned

/-! ## Strings -/

/-- The number of a character below 256 is read back from its digits. -/
theorem hexValue_of_lt {n : Nat} (h : n < 0x100) :
    Hex.value? ['0', '0', Nat.digitChar (n / 16), Nat.digitChar (n % 16)] = some n := by
  have hhigh := Hex.digit?_digitChar (show n / 16 < 16 by omega)
  have hlow := Hex.digit?_digitChar (Nat.mod_lt n (show 0 < 16 by decide))
  have hzero : Hex.digit? '0' = some 0 := rfl
  simp only [Hex.value?, List.foldlM_cons, List.foldlM_nil, hzero, hhigh, hlow, Option.map_some,
    Option.bind_eq_bind, Option.bind_some, Option.pure_def, Option.some.injEq]
  omega

/-- A character after a backslash is read as the character that it is given. -/
theorem readPieces_backslash {e c : Char} (he : e ≠ 'u') (h : escapedChar? e = some c)
    (rest : List Char) :
    readPieces ('\\' :: e :: rest) =
      (readPieces rest).map (fun found => (.char c :: found.1, found.2)) := by
  rw [readPieces, h]
  · cases readPieces rest <;> rfl
  · intro a b c d rest heq
    exact absurd heq he

/-- Seven characters are written as a backslash and another character. -/
theorem escape_short {c : Char}
    (h : c = '"' ∨ c = '\\' ∨ c = '\x08' ∨ c = '\x0c' ∨ c = '\n' ∨ c = '\r' ∨ c = '\t') :
    ∃ e, escape c = ['\\', e] ∧ e ≠ 'u' ∧ escapedChar? e = some c := by
  rcases h with rfl | rfl | rfl | rfl | rfl | rfl | rfl
  · exact ⟨'"', rfl, by decide, rfl⟩
  · exact ⟨'\\', rfl, by decide, rfl⟩
  · exact ⟨'b', rfl, by decide, rfl⟩
  · exact ⟨'f', rfl, by decide, rfl⟩
  · exact ⟨'n', rfl, by decide, rfl⟩
  · exact ⟨'r', rfl, by decide, rfl⟩
  · exact ⟨'t', rfl, by decide, rfl⟩

/-- Each character is read as one part, which stands for it. -/
theorem readPieces_escape (c : Char) (rest : List Char) :
    ∃ piece, readPieces (escape c ++ rest) =
        (readPieces rest).map (fun found => (piece :: found.1, found.2)) ∧
      ∀ pieces, joinPieces (piece :: pieces) = (joinPieces pieces).map (c :: ·) := by
  by_cases hshort : c = '"' ∨ c = '\\' ∨ c = '\x08' ∨ c = '\x0c' ∨ c = '\n' ∨ c = '\r' ∨ c = '\t'
  · obtain ⟨e, hescape, he, hchar⟩ := escape_short hshort
    refine ⟨.char c, ?_, fun pieces => rfl⟩
    rw [hescape]
    exact readPieces_backslash he hchar rest
  · simp only [not_or] at hshort
    obtain ⟨hquote, hbackslash, hown⟩ := hshort
    by_cases hlt : c.toNat < 0x20
    · refine ⟨.unit c.toNat, ?_, fun pieces => ?_⟩
      · rw [escape_of_lt hlt hown]
        have hvalue := hexValue_of_lt (show c.toNat < 0x100 by omega)
        simp only [List.cons_append, List.nil_append, readPieces, hvalue, Option.bind_eq_bind,
          Option.bind_some]
        cases readPieces rest <;> rfl
      · -- The number is no half of a surrogate pair.
        rw [joinPieces.eq_def]
        simp only [show c.toNat < 0xd800 by omega, true_or, if_true, Char.ofNat_toNat]
    · refine ⟨.char c, ?_, fun pieces => rfl⟩
      have hself : escape c = [c] := by
        simp only [escape, hquote, hbackslash, hown, hlt, if_false]
      rw [hself, List.singleton_append, readPieces, if_neg (by simp [hlt, hbackslash])]
      · cases readPieces rest <;> rfl
      · exact hquote
      all_goals simp [hbackslash]

/-- The parts of a string that is written are its characters. -/
theorem exists_readPieces (text rest : List Char) :
    ∃ pieces, readPieces (text.flatMap escape ++ '"' :: rest) = some (pieces, rest) ∧
      joinPieces pieces = some text := by
  induction text with
  | nil => exact ⟨[], rfl, rfl⟩
  | cons c text ih =>
      obtain ⟨pieces, hread, hjoin⟩ := ih
      obtain ⟨piece, hpiece, hone⟩ := readPieces_escape c (text.flatMap escape ++ '"' :: rest)
      refine ⟨piece :: pieces, ?_, ?_⟩
      · rw [List.flatMap_cons, List.append_assoc, hpiece, hread]
        rfl
      · rw [hone, hjoin]
        rfl

/-- A string is read back. -/
theorem readString_escape (text : String) (rest : List Char) :
    readString (text.toList.flatMap escape ++ '"' :: rest) = some (some text, rest) := by
  obtain ⟨pieces, hread, hjoin⟩ := exists_readPieces text.toList rest
  simp only [readString, hread, Option.bind_eq_bind, Option.bind_some, hjoin, Option.map_some,
    String.ofList_toList]

/-! ## Values -/

mutual

/-- The value can be written so that it is read back: its numbers are natural numbers, and its
strings are texts. -/
def Writable : Json → Prop
  | .null => True
  | .bool _ => True
  | .number literal => ∃ n, literal = Nat.toDigits 10 n
  | .string text => text.isSome = true
  | .array elements => WritableElements elements
  | .object members => WritableMembers members

/-- So can all elements of an array. -/
def WritableElements : List Json → Prop
  | [] => True
  | head :: rest => Writable head ∧ WritableElements rest

/-- So can all members of an object, and their names are texts. -/
def WritableMembers : List (Option String × Json) → Prop
  | [] => True
  | (name, value) :: rest => name.isSome = true ∧ Writable value ∧ WritableMembers rest

end

/-- What is written of a value is not empty. It does not begin with a blank, nor as if an array
ended. -/
theorem exists_head_render {json : Json} (h : json.Writable) :
    ∃ c tail, json.render = c :: tail ∧ isBlank c = false ∧ c ≠ ']' := by
  cases json with
  | null => exact ⟨'n', _, rfl, rfl, by decide⟩
  | bool value =>
      cases value
      · exact ⟨'f', _, rfl, rfl, by decide⟩
      · exact ⟨'t', _, rfl, rfl, by decide⟩
  | number literal =>
      rw [Writable] at h
      obtain ⟨n, rfl⟩ := h
      cases hdigits : Nat.toDigits 10 n with
      | nil => exact absurd hdigits Nat.toDigits_ne_nil
      | cons c digits =>
          have hdigit := all_isDigit_toDigits n c (by rw [hdigits]; exact List.mem_cons_self)
          refine ⟨c, digits, by rw [render], ?_, ?_⟩
          · simp only [isBlank, Bool.or_eq_false_iff, beq_eq_false_iff_ne]
            refine ⟨⟨⟨?_, ?_⟩, ?_⟩, ?_⟩ <;> rintro rfl <;> cases hdigit
          · rintro rfl
            cases hdigit
  | string text =>
      rw [Writable] at h
      obtain ⟨text, rfl⟩ := Option.isSome_iff_exists.mp h
      exact ⟨'"', _, by rw [render, renderString_some], rfl, by decide⟩
  | array elements => cases elements <;> exact ⟨'[', _, by rw [render], rfl, by decide⟩
  | object members =>
      rcases members with _ | ⟨⟨name, value⟩, rest⟩ <;>
        exact ⟨'\x7b', _, by rw [render], rfl, by decide⟩

theorem skipBlanks_render {json : Json} (h : json.Writable) (rest : List Char) :
    skipBlanks (json.render ++ rest) = json.render ++ rest := by
  obtain ⟨c, tail, hrender, hblank, -⟩ := exists_head_render h
  rw [hrender, List.cons_append, skipBlanks_of_notBlank hblank]

/-- What follows an element of an array is a comma or the end of the array. -/
theorem exists_head_renderElements (elements : List Json) :
    ∃ c tail, renderElements elements = c :: tail ∧ (c = ',' ∨ c = ']') := by
  cases elements with
  | nil => exact ⟨']', _, by rw [renderElements], Or.inr rfl⟩
  | cons head rest => exact ⟨',', _, by rw [renderElements], Or.inl rfl⟩

/-- What follows a member of an object is a comma or the end of the object. -/
theorem exists_head_renderMembers (members : List (Option String × Json)) :
    ∃ c tail, renderMembers members = c :: tail ∧ (c = ',' ∨ c = '\x7d') := by
  cases members with
  | nil => exact ⟨'\x7d', _, by rw [renderMembers], Or.inr rfl⟩
  | cons head rest => exact ⟨',', _, by rw [renderMembers], Or.inl rfl⟩

theorem skipBlanks_renderElements (elements : List Json) (rest : List Char) :
    skipBlanks (renderElements elements ++ rest) = renderElements elements ++ rest := by
  obtain ⟨c, tail, hrender, hc⟩ := exists_head_renderElements elements
  rw [hrender, List.cons_append, skipBlanks_of_notBlank]
  rcases hc with rfl | rfl <;> rfl

theorem skipBlanks_renderMembers (members : List (Option String × Json)) (rest : List Char) :
    skipBlanks (renderMembers members ++ rest) = renderMembers members ++ rest := by
  obtain ⟨c, tail, hrender, hc⟩ := exists_head_renderMembers members
  rw [hrender, List.cons_append, skipBlanks_of_notBlank]
  rcases hc with rfl | rfl <;> rfl

theorem endsNumber_renderElements (elements : List Json) (rest : List Char) :
    EndsNumber (renderElements elements ++ rest) := by
  obtain ⟨c, tail, hrender, hc⟩ := exists_head_renderElements elements
  rw [hrender]
  refine endsNumber_cons ?_
  rcases hc with rfl | rfl <;> decide

theorem endsNumber_renderMembers (members : List (Option String × Json)) (rest : List Char) :
    EndsNumber (renderMembers members ++ rest) := by
  obtain ⟨c, tail, hrender, hc⟩ := exists_head_renderMembers members
  rw [hrender]
  refine endsNumber_cons ?_
  rcases hc with rfl | rfl <;> decide

/-- With so much fuel, what is written is read back, whatever comes behind it. -/
structure ReadsBack (fuel : Nat) : Prop where
  value : ∀ {json : Json} {rest : List Char}, json.Writable → EndsNumber rest →
    json.render.length ≤ fuel → readValue fuel (json.render ++ rest) = some (json, rest)
  elements : ∀ {elements : List Json} {rest : List Char}, WritableElements elements →
    (renderElements elements).length ≤ fuel →
      readElements fuel (renderElements elements ++ rest) = some (elements, rest)
  member : ∀ {name : String} {value : Json} {rest : List Char}, value.Writable →
    EndsNumber rest → (renderString (some name) ++ ':' :: value.render).length ≤ fuel →
      readMember fuel (renderString (some name) ++ ':' :: (value.render ++ rest)) =
        some ((some name, value), rest)
  members : ∀ {members : List (Option String × Json)} {rest : List Char},
    WritableMembers members → (renderMembers members).length ≤ fuel →
      readMembers fuel (renderMembers members ++ rest) = some (members, rest)

/-- Nothing is written without a character. -/
theorem readsBack_zero : ReadsBack 0 where
  value h _ hlength := by
    obtain ⟨c, tail, hrender, -⟩ := exists_head_render h
    rw [hrender] at hlength
    cases hlength
  elements {elements} _ _ hlength := by
    obtain ⟨c, tail, hrender, -⟩ := exists_head_renderElements elements
    rw [hrender] at hlength
    cases hlength
  member _ _ hlength := by
    rw [List.length_append, List.length_cons] at hlength
    omega
  members {members} _ _ hlength := by
    obtain ⟨c, tail, hrender, -⟩ := exists_head_renderMembers members
    rw [hrender] at hlength
    cases hlength

variable {fuel : Nat} {rest : List Char}

/-- A number is told from all other values by its first character. -/
theorem readValue_number (n : Nat) (hrest : EndsNumber rest) :
    readValue (fuel + 1) (Nat.toDigits 10 n ++ rest) =
      some (.number (Nat.toDigits 10 n), rest) := by
  have hread := readNumber_toDigits n hrest
  have hhead : ∀ c tail, Nat.toDigits 10 n ++ rest = c :: tail → c.isDigit = true := by
    intro c tail heq
    cases hdigits : Nat.toDigits 10 n with
    | nil => exact absurd hdigits Nat.toDigits_ne_nil
    | cons d digits =>
        rw [hdigits] at heq
        cases heq
        exact all_isDigit_toDigits n c (by rw [hdigits]; exact List.mem_cons_self)
  unfold readValue
  split
  case h_7 => rw [hread]; rfl
  all_goals
    rename_i heq
    cases hhead _ _ heq

/-- An element is read back, and then those after it. -/
theorem ReadsBack.elements_cons (h : ReadsBack fuel) {head : Json} {elements : List Json}
    (hwritable : WritableElements (head :: elements)) (rest : List Char)
    (hlength : (head.render ++ renderElements elements).length ≤ fuel) :
    readValue fuel (head.render ++ (renderElements elements ++ rest)) =
        some (head, renderElements elements ++ rest) ∧
      readElements fuel (skipBlanks (renderElements elements ++ rest)) =
        some (elements, rest) := by
  rw [WritableElements] at hwritable
  obtain ⟨hhead, helements⟩ := hwritable
  rw [List.length_append] at hlength
  constructor
  · exact h.value hhead (endsNumber_renderElements elements rest) (by omega)
  · rw [skipBlanks_renderElements]
    exact h.elements helements (by omega)

/-- A member is read back, and then those after it. -/
theorem ReadsBack.members_cons (h : ReadsBack fuel) {name : String} {value : Json}
    {members : List (Option String × Json)}
    (hwritable : WritableMembers ((some name, value) :: members)) (rest : List Char)
    (hlength : (renderString (some name) ++ ':' :: (value.render ++ renderMembers members)).length
      ≤ fuel) :
    readMember fuel
          (renderString (some name) ++ ':' :: (value.render ++ (renderMembers members ++ rest))) =
        some ((some name, value), renderMembers members ++ rest) ∧
      readMembers fuel (skipBlanks (renderMembers members ++ rest)) = some (members, rest) := by
  rw [WritableMembers] at hwritable
  obtain ⟨-, hvalue, hmembers⟩ := hwritable
  rw [List.length_append, List.length_cons, List.length_append] at hlength
  constructor
  · refine h.member hvalue (endsNumber_renderMembers members rest) ?_
    rw [List.length_append, List.length_cons]
    omega
  · rw [skipBlanks_renderMembers]
    exact h.members hmembers (by omega)

/-- An array is read back if its elements are. -/
theorem readValue_array (h : ReadsBack fuel) {elements : List Json}
    (hwritable : WritableElements elements)
    (hlength : (Json.array elements).render.length ≤ fuel + 1) :
    readValue (fuel + 1) ((Json.array elements).render ++ rest) =
      some (.array elements, rest) := by
  cases elements with
  | nil =>
      rw [render]
      rfl
  | cons head elements =>
      rw [render, List.length_cons] at hlength
      obtain ⟨hvalue, hmore⟩ :=
        h.elements_cons hwritable rest (Nat.le_of_succ_le_succ hlength)
      rw [WritableElements] at hwritable
      rw [render, List.cons_append, List.append_assoc, readValue,
        skipBlanks_render hwritable.1]
      obtain ⟨c, tail, hrender, -, hc⟩ := exists_head_render hwritable.1
      split
      · rename_i heq
        rw [hrender] at heq
        cases heq
        exact absurd rfl hc
      · simp only [hvalue, hmore, Option.bind_eq_bind, Option.bind_some]

/-- An object is read back if its members are. -/
theorem readValue_object (h : ReadsBack fuel) {members : List (Option String × Json)}
    (hwritable : WritableMembers members)
    (hlength : (Json.object members).render.length ≤ fuel + 1) :
    readValue (fuel + 1) ((Json.object members).render ++ rest) =
      some (.object members, rest) := by
  rcases members with _ | ⟨⟨name, value⟩, members⟩
  · rw [render]
    rfl
  · have hname := hwritable
    rw [WritableMembers] at hname
    obtain ⟨name, rfl⟩ := Option.isSome_iff_exists.mp hname.1
    rw [render, List.length_cons] at hlength
    obtain ⟨hmember, hmore⟩ := h.members_cons hwritable rest (Nat.le_of_succ_le_succ hlength)
    rw [render]
    rw [renderString_some] at hmember ⊢
    simp only [List.cons_append, List.append_assoc] at hmember ⊢
    rw [readValue, skipBlanks_of_notBlank rfl]
    split
    · rename_i heq
      cases heq
    · simp only [hmember, hmore, Option.bind_eq_bind, Option.bind_some]

/-- One more character of fuel is enough for one more layer of a value. -/
theorem readsBack_succ (h : ReadsBack fuel) : ReadsBack (fuel + 1) where
  value {json rest} hwritable hrest hlength := by
    cases json with
    | null =>
        rw [render]
        rfl
    | bool value =>
        cases value <;>
          · rw [render]
            rfl
    | number literal =>
        rw [Writable] at hwritable
        obtain ⟨n, rfl⟩ := hwritable
        rw [render]
        exact readValue_number n hrest
    | string text =>
        rw [Writable] at hwritable
        obtain ⟨text, rfl⟩ := Option.isSome_iff_exists.mp hwritable
        rw [render, renderString_some, List.cons_append, List.append_assoc,
          List.singleton_append, readValue, readString_escape]
        rfl
    | array elements =>
        rw [Writable] at hwritable
        exact readValue_array h hwritable hlength
    | object members =>
        rw [Writable] at hwritable
        exact readValue_object h hwritable hlength
  elements {elements rest} hwritable hlength := by
    cases elements with
    | nil =>
        rw [renderElements]
        rfl
    | cons head elements =>
        rw [renderElements, List.length_cons] at hlength
        obtain ⟨hvalue, hmore⟩ :=
          h.elements_cons hwritable rest (Nat.le_of_succ_le_succ hlength)
        rw [WritableElements] at hwritable
        rw [renderElements, List.cons_append, List.append_assoc, readElements,
          skipBlanks_render hwritable.1]
        simp only [hvalue, hmore, Option.bind_eq_bind, Option.bind_some]
  member {name value rest} hvalue hrest hlength := by
    rw [List.length_append, List.length_cons] at hlength
    have hread := h.value hvalue hrest (by omega)
    rw [renderString_some]
    simp only [List.cons_append, List.append_assoc, List.nil_append]
    rw [readMember, readString_escape]
    simp only [Option.bind_eq_bind, Option.bind_some,
      skipBlanks_of_notBlank (show isBlank ':' = false from rfl), skipBlanks_render hvalue, hread]
  members {members rest} hwritable hlength := by
    rcases members with _ | ⟨⟨name, value⟩, members⟩
    · rw [renderMembers]
      rfl
    · have hname := hwritable
      rw [WritableMembers] at hname
      obtain ⟨name, rfl⟩ := Option.isSome_iff_exists.mp hname.1
      rw [renderMembers, List.length_cons] at hlength
      obtain ⟨hmember, hmore⟩ := h.members_cons hwritable rest (Nat.le_of_succ_le_succ hlength)
      rw [renderMembers]
      rw [renderString_some] at hmember ⊢
      simp only [List.cons_append, List.append_assoc] at hmember ⊢
      rw [readMembers, skipBlanks_of_notBlank rfl]
      simp only [hmember, hmore, Option.bind_eq_bind, Option.bind_some]

/-- What is written is read back, with fuel for each character. -/
theorem readsBack (fuel : Nat) : ReadsBack fuel := by
  induction fuel with
  | zero => exact readsBack_zero
  | succ fuel ih => exact readsBack_succ ih

/-! ## Texts -/

/-- The text of a value holds the value. -/
theorem ofText?_toText {json : Json} (h : json.Writable) : ofText? json.toText = some json := by
  have hread := (readsBack (json.render.length + 1)).value h endsNumber_nil (Nat.le_succ _)
  have hblank := skipBlanks_render h []
  rw [List.append_nil] at hread hblank
  simp only [ofText?, toText, String.toList_ofList, hblank, hread, Option.bind_eq_bind,
    Option.bind_some]
  rfl

end PageLexing.Json
